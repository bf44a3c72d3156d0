import OsCore.List
import OsCore.Lib.Machine

/-!
# Lists as sequences (`lib/kernel/list.c`)

What a list is for is the sequence of its elements. An operation (`ListOp`) has a meaning
on that sequence (`ListOp.seq`), and what the code does to the links is the same on every
well formed list; what the other functions answer is read off the sequence, and they end.

The code never looks whether the node it is given is in some list already. Only the bytes
of the list and of that node change, so the lists the node is not in stay as they are
(`ListOp.frame`); one it is in is broken. With nodes that are in no list, all lists stay
well formed in every run of operations on any of them (`queues_reach`).
-/

namespace OsCore

variable {m : Mem} {l e : Nat} {xs : List Nat}

/-! ## The functions that look -/

/-- **`list_traversal` finds the first match**: by induction on the nodes behind `x`. -/
theorem traversalLoop_eq {t : Nat} {func : Nat → Bool} : ∀ {xs : List Nat} {fuel x : Nat},
    (x :: (xs ++ [t])).IsChain (Linked m) → t ∉ xs → xs.length < fuel →
    traversalLoop m t func fuel (m.next x) = some (xs.find? func) := by
  intro xs
  induction xs with
  | nil =>
    intro fuel x h _ hf
    obtain ⟨fuel, rfl⟩ := Nat.exists_eq_add_of_lt hf
    rw [(List.isChain_pair.mp h).1, traversalLoop, if_pos rfl]
    rfl
  | cons y xs ih =>
    intro fuel x h ht hf
    obtain ⟨fuel, rfl⟩ := Nat.exists_eq_add_of_lt hf
    rw [List.cons_append, List.isChain_cons_cons] at h
    have hyt : y ≠ t := fun hc => ht (hc ▸ List.mem_cons_self)
    rw [h.1.1, traversalLoop, if_neg hyt]
    by_cases hy : func y = true
    · rw [if_pos hy, List.find?_cons_of_pos hy]
    · rw [if_neg hy, List.find?_cons_of_neg hy]
      refine ih h.2 (fun hc => ht (List.mem_cons_of_mem _ hc)) ?_
      rw [List.length_cons]
      omega

/-- **`list_len` counts.** -/
theorem lenLoop_eq {t : Nat} : ∀ {xs : List Nat} {fuel x length : Nat},
    (x :: (xs ++ [t])).IsChain (Linked m) → t ∉ xs → xs.length < fuel →
    length + xs.length < 2 ^ 32 →
    lenLoop m t fuel (m.next x) length = some (length + xs.length) := by
  intro xs
  induction xs with
  | nil =>
    intro fuel x length h _ hf _
    obtain ⟨fuel, rfl⟩ := Nat.exists_eq_add_of_lt hf
    rw [(List.isChain_pair.mp h).1, lenLoop, if_pos rfl]
    rfl
  | cons y xs ih =>
    intro fuel x length h ht hf hlen
    obtain ⟨fuel, rfl⟩ := Nat.exists_eq_add_of_lt hf
    rw [List.cons_append, List.isChain_cons_cons] at h
    have hyt : y ≠ t := fun hc => ht (hc ▸ List.mem_cons_self)
    rw [List.length_cons] at hlen ⊢
    rw [h.1.1, lenLoop, if_neg hyt, Nat.mod_eq_of_lt (by omega),
      ih h.2 (fun hc => ht (List.mem_cons_of_mem _ hc)) (by omega) (by omega)]
    congr 1
    omega

theorem IsList.tail_not_mem (h : IsList m l xs) : l + 8 ∉ xs := by
  intro hc
  have htail := (List.pairwise_append.mp (List.pairwise_cons.mp h.apart).2).2.2
  exact (htail _ hc (l + 8) (by simp)).ne rfl

/-- There is room in memory for fewer nodes than there are words. -/
theorem IsList.length_lt (h : IsList m l xs) : xs.length < 2 ^ 32 - 1 := by
  have hnodup : (nodes l xs).Nodup := h.apart.imp Apart.ne
  have hlen := length_le_of_word hnodup h.word
  rw [List.length_cons, List.length_append] at hlen
  simp at hlen
  omega

theorem IsList.listTraversal_eq (h : IsList m l xs) (func : Nat → Bool) :
    listTraversal m l func = some (xs.find? func) := by
  have hlen := h.length_lt
  rw [listTraversal]
  split
  next hempty =>
    rw [h.listEmpty_iff.mp hempty]
    rfl
  next => exact traversalLoop_eq h.links h.tail_not_mem (by omega)

theorem IsList.listLen_eq (h : IsList m l xs) : listLen m l = some xs.length := by
  have hlen := h.length_lt
  rw [listLen, lenLoop_eq h.links h.tail_not_mem (by omega) (by omega), Nat.zero_add]

/-! ## Operations -/

/-- The operations that change a list. -/
inductive ListOp
  | push (elem : Nat)
  | append (elem : Nat)
  | insertBefore (before elem : Nat)
  | remove (pelem : Nat)
  | pop

namespace ListOp

/-- What the code does: the element it returns, if any, and memory. -/
def run (m : Mem) (l : Nat) : ListOp → Option Nat × Mem
  | push elem => (none, listPush m l elem)
  | append elem => (none, listAppend m l elem)
  | insertBefore before elem => (none, listInsertBefore m before elem)
  | remove pelem => (none, listRemove m pelem)
  | pop => (some (listPop m l).1, (listPop m l).2)

/-- What it means: the element that is returned. -/
def result (xs : List Nat) : ListOp → Option Nat
  | pop => xs.head?
  | _ => none

/-- The sequence afterwards. What is put in front of the tail is at the end. -/
def seq (xs : List Nat) : ListOp → List Nat
  | push elem => elem :: xs
  | append elem => xs ++ [elem]
  | insertBefore before elem =>
    xs.takeWhile (· ≠ before) ++ elem :: xs.dropWhile (· ≠ before)
  | remove pelem => xs.filter (· ≠ pelem)
  | pop => xs.tail

/-- The node that an operation brings in. -/
def brings : ListOp → List Nat
  | push elem => [elem]
  | append elem => [elem]
  | insertBefore _ elem => [elem]
  | _ => []

/-- The node that is brought in is not in the list, the place of an insertion is in it or
its tail, and so is the node that is taken out. -/
structure Ok (l : Nat) (xs : List Nat) (op : ListOp) : Prop where
  word : ∀ e ∈ op.brings, e < 2 ^ 32
  fresh : ∀ e ∈ op.brings, ∀ x ∈ nodes l xs, Apart e x
  place : ∀ before elem, op = insertBefore before elem → before ∈ xs ∨ before = l + 8
  member : ∀ pelem, op = remove pelem → pelem ∈ xs
  nonempty : op = pop → xs ≠ []

end ListOp

/-- The first node is the one behind the head. -/
theorem IsList.next_eq {before : Nat} {bs : List Nat} (h : IsList m l xs)
    (hfront : xs ++ [l + 8] = before :: bs) : m.next l = before := by
  have hlinks := h.links
  rw [nodes, hfront] at hlinks
  exact (List.isChain_cons_cons.mp hlinks).1.1

/-- **`list_push` puts in front.** -/
theorem IsList.push (h : IsList m l xs) (hew : e < 2 ^ 32) (he : ∀ x ∈ nodes l xs, Apart e x) :
    IsList (listPush m l e) l (e :: xs) ∧
      ∀ a, ¬InNodes (e :: nodes l xs) a → listPush m l e a = m a := by
  obtain ⟨before, bs, hfront⟩ : ∃ before bs, xs ++ [l + 8] = before :: bs :=
    List.exists_cons_of_ne_nil (by simp)
  have h0 : IsList m l ([] ++ xs) := h
  rw [listPush, h.next_eq hfront]
  exact h0.insertBefore hfront hew he

/-- An element is where the search for it stops. -/
theorem dropWhile_place {before : Nat} (h : before ∈ xs) :
    ∃ zs, xs.dropWhile (· ≠ before) = before :: zs := by
  induction xs with
  | nil => exact absurd h List.not_mem_nil
  | cons x xs ih =>
    by_cases hx : x = before
    · exact ⟨xs, by rw [hx, List.dropWhile_cons_of_neg (by simp)]⟩
    · rw [List.dropWhile_cons_of_pos (by simpa using hx)]
      exact ih ((List.mem_cons.mp h).resolve_left (Ne.symm hx))

/-- In front of an element, wherever it is. -/
theorem IsList.insert_place {before : Nat} (h : IsList m l xs)
    (hplace : before ∈ xs ∨ before = l + 8) (hew : e < 2 ^ 32)
    (he : ∀ x ∈ nodes l xs, Apart e x) :
    IsList (listInsertBefore m before e) l
        (xs.takeWhile (· ≠ before) ++ e :: xs.dropWhile (· ≠ before)) ∧
      ∀ a, ¬InNodes (e :: nodes l xs) a → listInsertBefore m before e a = m a := by
  obtain ⟨bs, hback⟩ : ∃ bs, xs.dropWhile (· ≠ before) ++ [l + 8] = before :: bs := by
    rcases hplace with hmem | rfl
    · obtain ⟨zs, hzs⟩ := dropWhile_place hmem
      exact ⟨zs ++ [l + 8], by rw [hzs, List.cons_append]⟩
    · have hnil : xs.dropWhile (· ≠ l + 8) = [] :=
        List.dropWhile_eq_nil_iff.mpr fun x hx =>
          decide_eq_true fun hc : x = l + 8 => h.tail_not_mem (hc ▸ hx)
      exact ⟨[], by rw [hnil, List.nil_append]⟩
  have hsplit := List.takeWhile_append_dropWhile (p := (· ≠ before)) (l := xs)
  rw [← hsplit] at h he
  have hinsert := h.insertBefore hback hew he
  rwa [hsplit] at hinsert

/-- **One operation.** The element it returns and the list it leaves are those of the
sequence, and it stores in nodes of the list and in the one it brings in. -/
theorem ListOp.run_spec {op : ListOp} (h : IsList m l xs) (hop : op.Ok l xs) :
    (op.run m l).1 = op.result xs ∧ IsList (op.run m l).2 l (op.seq xs) ∧
      ∀ a, ¬InNodes (op.brings ++ nodes l xs) a → (op.run m l).2 a = m a := by
  cases op with
  | push e =>
    obtain ⟨hlist, hframe⟩ := h.push (hop.word e (by simp [brings])) (hop.fresh e (by simp [brings]))
    exact ⟨rfl, hlist, hframe⟩
  | append e =>
    obtain ⟨hlist, hframe⟩ :=
      h.append (hop.word e (by simp [brings])) (hop.fresh e (by simp [brings]))
    exact ⟨rfl, hlist, hframe⟩
  | insertBefore before e =>
    obtain ⟨hlist, hframe⟩ := h.insert_place (hop.place before e rfl)
      (hop.word e (by simp [brings])) (hop.fresh e (by simp [brings]))
    exact ⟨rfl, hlist, hframe⟩
  | remove e =>
    obtain ⟨hlist, hframe⟩ := h.remove_mem (hop.member e rfl)
    exact ⟨rfl, hlist, hframe⟩
  | pop =>
    obtain ⟨x, xs, rfl⟩ := List.exists_cons_of_ne_nil (hop.nonempty rfl)
    obtain ⟨hfirst, hlist, hframe⟩ := h.pop
    refine ⟨congrArg some hfirst, hlist, fun a ha => hframe a fun hin => ha ?_⟩
    obtain ⟨y, hy, hlt⟩ := hin
    refine ⟨y, ?_, hlt⟩
    change y ∈ nodes l (x :: xs)
    simp at hy ⊢
    tauto

/-- **Another list is left alone**, if neither list nor node brought in overlaps with it. -/
theorem ListOp.frame {op : ListOp} (h : IsList m l xs) (hop : op.Ok l xs) {l' : Nat}
    {ys : List Nat} (h' : IsList m l' ys)
    (hapart : ∀ y ∈ nodes l' ys, ∀ x ∈ op.brings ++ nodes l xs, Apart y x) :
    IsList (op.run m l).2 l' ys ∧ ∀ a, InNodes (nodes l' ys) a → (op.run m l).2 a = m a := by
  have hsame : ∀ a, InNodes (nodes l' ys) a → (op.run m l).2 a = m a := by
    intro a ha
    refine (run_spec h hop).2.2 a fun hin => ?_
    obtain ⟨y, hy, hlo, hhi⟩ := ha
    obtain ⟨x, hx, hlo', hhi'⟩ := hin
    have hne := hapart y hy x hx
    unfold Apart at hne
    omega
  exact ⟨h'.congr hsame, hsame⟩

/-- **A list is the sequence of its elements.** Every operation does to the list what it
does to the sequence, keeps it well formed and changes no link of a list that shares no
node with it and does not have the node brought in; every question is answered as on the
sequence. -/
theorem list_refines_sequence (m : Mem) (l : Nat) (xs : List Nat) (h : IsList m l xs) :
    (∀ op : ListOp, op.Ok l xs →
      (op.run m l).1 = op.result xs ∧ IsList (op.run m l).2 l (op.seq xs) ∧
        ∀ l' ys, IsList m l' ys →
          (∀ y ∈ nodes l' ys, ∀ x ∈ op.brings ++ nodes l xs, Apart y x) →
          IsList (op.run m l).2 l' ys ∧
            ∀ a, InNodes (nodes l' ys) a → (op.run m l).2 a = m a) ∧
      (∀ e, elemFind m l e = some (decide (e ∈ xs))) ∧ listLen m l = some xs.length ∧
      (listEmpty m l = true ↔ xs = []) ∧
      ∀ func, listTraversal m l func = some (xs.find? func) := by
  refine ⟨fun op hop => ?_, fun e => h.elemFind_eq, h.listLen_eq, h.listEmpty_iff,
    h.listTraversal_eq⟩
  obtain ⟨hresult, hlist, -⟩ := ListOp.run_spec h hop
  exact ⟨hresult, hlist, fun l' ys h' hapart => ListOp.frame h hop h' hapart⟩

/-- An empty list, and a list of one element. -/
def twoLists : Mem := listAppend (listInit (listInit Mem.zero 0x100) 0x200) 0x200 0x300

theorem twoLists_lists : IsList twoLists 0x100 [] ∧ IsList twoLists 0x200 [0x300] := by
  obtain ⟨hempty, -⟩ := listInit_spec (m := Mem.zero) (l := 0x100) (by decide)
  obtain ⟨hsecond, hout⟩ := listInit_spec (m := listInit Mem.zero 0x100) (l := 0x200) (by decide)
  obtain ⟨hone, hframe⟩ := hsecond.append (e := 0x300) (by decide) (by decide)
  refine ⟨hempty.congr fun a ha => ?_, hone⟩
  obtain ⟨x, hx, hlo, hhi⟩ := ha
  have hlow : a < 0x110 := by
    simp at hx
    omega
  refine (hframe a fun hin => ?_).trans (hout a (by omega))
  obtain ⟨y, hy, hlo', -⟩ := hin
  simp at hy
  omega

theorem list_refines_sequence_two_lists :
    IsList (listPush twoLists 0x200 0x500) 0x200 [0x500, 0x300] ∧
      IsList (listPush twoLists 0x200 0x500) 0x100 [] ∧ listLen twoLists 0x200 = some 1 := by
  obtain ⟨hempty, hone⟩ := twoLists_lists
  have hop : ListOp.Ok 0x200 [0x300] (.push 0x500) :=
    ⟨by decide, by decide, by simp, by simp, by simp⟩
  obtain ⟨hops, -, hlen, -⟩ := list_refines_sequence twoLists 0x200 [0x300] hone
  obtain ⟨-, hlist, hother⟩ := hops (.push 0x500) hop
  exact ⟨hlist, (hother 0x100 [] hempty (by decide)).1, hlen⟩

/-- An element of the list at `0x200` that is put into the one at `0x100` has other links
then. -/
theorem pushed_element_leaves : ¬∀ (m : Mem) (l : Nat) (xs : List Nat) (op : ListOp) (l' : Nat)
    (ys : List Nat), IsList m l xs → op.Ok l xs → IsList m l' ys →
    (∀ y ∈ nodes l' ys, ∀ x ∈ nodes l xs, Apart y x) →
    ∀ a, InNodes (nodes l' ys) a → (op.run m l).2 a = m a := by
  intro h
  obtain ⟨hempty, hone⟩ := twoLists_lists
  have hop : ListOp.Ok 0x100 [] (.push 0x300) :=
    ⟨by decide, by decide, by simp, by simp, by simp⟩
  have hsame := h twoLists 0x100 [] (.push 0x300) 0x200 [0x300] hempty hop hone (by decide) 0x301
    ⟨0x300, by decide, by decide, by decide⟩
  exact absurd hsame (by decide +kernel)

/-! ## All lists -/

/-- The lists there are, with their elements; no two share a node. -/
structure Queues (m : Mem) (Q : Nat → Option (List Nat)) : Prop where
  list : ∀ l xs, Q l = some xs → IsList m l xs
  apart : ∀ l xs l' ys, Q l = some xs → Q l' = some ys → l' ≠ l →
    ∀ y ∈ nodes l' ys, ∀ x ∈ nodes l xs, Apart y x

variable {Q : Nat → Option (List Nat)} {op : ListOp}

/-- The nodes of a list afterwards were in it or have been brought in. -/
theorem ListOp.nodes_seq (l : Nat) (xs : List Nat) {x : Nat} (hx : x ∈ nodes l (op.seq xs)) :
    x ∈ op.brings ++ nodes l xs := by
  have hsub : ∀ y ∈ op.seq xs, y ∈ op.brings ++ xs := by
    intro y hy
    cases op with
    | push e => exact hy
    | append e =>
      rw [seq] at hy
      simp [brings] at hy ⊢
      tauto
    | insertBefore before e =>
      rcases List.mem_append.mp hy with hy | hy
      · exact List.mem_cons_of_mem _ (List.takeWhile_subset _ hy)
      · rcases List.mem_cons.mp hy with rfl | hy
        · exact List.mem_cons_self
        · exact List.mem_cons_of_mem _ (List.dropWhile_subset _ hy)
    | remove e => exact (List.mem_filter.mp hy).1
    | pop => exact List.mem_of_mem_tail hy
  rcases List.mem_cons.mp hx with rfl | hx
  · simp
  · rcases List.mem_append.mp hx with hx | hx
    · have hin := hsub x hx
      simp at hin ⊢
      tauto
    · simp [List.mem_singleton.mp hx]

/-- **One operation on one of the lists**, with a node that is in none of them. -/
theorem Queues.step (h : Queues m Q) (hl : Q l = some xs) (hop : op.Ok l xs)
    (hfree : ∀ e ∈ op.brings, ∀ l' ys, Q l' = some ys → ∀ y ∈ nodes l' ys, Apart e y) :
    Queues (op.run m l).2 (Function.update Q l (some (op.seq xs))) := by
  have hlist := h.list l xs hl
  have hnew : ∀ l' ys, Q l' = some ys → l' ≠ l →
      ∀ y ∈ nodes l' ys, ∀ x ∈ op.brings ++ nodes l xs, Apart y x := by
    intro l' ys hq hne y hy x hx
    rcases List.mem_append.mp hx with hx | hx
    · exact (hfree x hx l' ys hq y hy).symm
    · exact h.apart l xs l' ys hl hq hne y hy x hx
  refine ⟨fun l' ys hq => ?_, fun l1 xs1 l2 ys2 h1 h2 hne y hy x hx => ?_⟩
  · by_cases hll : l' = l
    · subst hll
      rw [Function.update_self] at hq
      rw [← Option.some.inj hq]
      exact (ListOp.run_spec hlist hop).2.1
    · rw [Function.update_of_ne hll] at hq
      exact (ListOp.frame hlist hop (h.list l' ys hq) (hnew l' ys hq hll)).1
  · by_cases hll1 : l1 = l
    · subst hll1
      rw [Function.update_self] at h1
      rw [Function.update_of_ne hne] at h2
      rw [← Option.some.inj h1] at hx
      exact hnew l2 ys2 h2 hne y hy x (ListOp.nodes_seq l1 xs hx)
    · rw [Function.update_of_ne hll1] at h1
      by_cases hll2 : l2 = l
      · subst hll2
        rw [Function.update_self] at h2
        rw [← Option.some.inj h2] at hy
        exact (hnew l1 xs1 h1 hll1 x hx y (ListOp.nodes_seq l2 xs hy)).symm
      · rw [Function.update_of_ne hll2] at h2
        exact h.apart l1 xs1 l2 ys2 h1 h2 hne y hy x hx

/-- Operations on the lists, with what the lists are kept beside the memory. -/
def queues : Lib.Machine (Mem × (Nat → Option (List Nat))) (Nat × ListOp) where
  start s := Queues s.1 s.2
  may s a := ∃ xs, s.2 a.1 = some xs ∧ a.2.Ok a.1 xs ∧
    ∀ e ∈ a.2.brings, ∀ l' ys, s.2 l' = some ys → ∀ y ∈ nodes l' ys, Apart e y
  step s a := some ((a.2.run s.1 a.1).2, Function.update s.2 a.1 ((s.2 a.1).map a.2.seq))

/-- **In every run all lists are the sequences they should be.** -/
theorem queues_reach {s : Mem × (Nat → Option (List Nat))} (h : queues.Reachable s) :
    Queues s.1 s.2 := by
  refine Lib.Machine.Reach.invariant (I := fun s => Queues s.1 s.2) (fun s hs => hs)
    (fun s a s' hs hmay _ hstep => ?_) h
  obtain ⟨xs, hl, hop, hfree⟩ := hmay
  have hkept := hs.step hl hop hfree
  have hseq : (s.2 a.1).map (fun xs => a.2.seq xs) = some (a.2.seq xs) := by rw [hl, Option.map_some]
  rw [← hseq] at hkept
  rwa [← Option.some.inj hstep]

end OsCore
