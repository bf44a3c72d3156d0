import OsCore.Lib.Memory

/-!
# Intrusive lists (`lib/kernel/list.c`)

A `struct list_elem` is two words inside some other object: `prev` at its
address and `next` four bytes on. A `struct list` is two of them, `head` and
`tail`, that are never taken off. The functions here work on the bytes, by
address; `IsList m l xs` says that the list at `l` has the elements `xs` from
front to back, and each operation on the bytes is then an operation on `xs`.

The links of a list are a chain (`List.IsChain`) of pairs that point at each
other. An operation rewrites one or two pairs; the rest of the chain is carried
over because nodes do not overlap.
-/

namespace OsCore

namespace Mem

/-- `elem->prev`. -/
def prev (m : Mem) (elem : Nat) : Nat := m.rd32 elem

/-- `elem->next`. -/
def next (m : Mem) (elem : Nat) : Nat := m.rd32 (elem + 4)

end Mem

/-- `list_init`. -/
def listInit (m : Mem) (list : Nat) : Mem :=
  (((m.wr32 list 0).wr32 (list + 4) (list + 8)).wr32 (list + 8) list).wr32 (list + 12) 0

/-- `list_insert_before`. -/
def listInsertBefore (m : Mem) (before elem : Nat) : Mem :=
  let m := m.wr32 (m.prev before + 4) elem
  let m := m.wr32 elem (m.prev before)
  let m := m.wr32 (elem + 4) before
  m.wr32 before elem

/-- `list_push`. -/
def listPush (m : Mem) (plist elem : Nat) : Mem := listInsertBefore m (m.next plist) elem

/-- `list_append`. -/
def listAppend (m : Mem) (plist elem : Nat) : Mem := listInsertBefore m (plist + 8) elem

/-- `list_remove`. -/
def listRemove (m : Mem) (pelem : Nat) : Mem :=
  let m := m.wr32 (m.prev pelem + 4) (m.next pelem)
  m.wr32 (m.next pelem) (m.prev pelem)

/-- `list_pop`. -/
def listPop (m : Mem) (plist : Nat) : Nat × Mem := (m.next plist, listRemove m (m.next plist))

/-- `list_empty`. -/
def listEmpty (m : Mem) (plist : Nat) : Bool := m.next plist == plist + 8

/-- `while (elem != &plist->tail)` of `elem_find`. -/
def findLoop (m : Mem) (tail objElem : Nat) : Nat → Nat → Option Bool
  | 0, _ => none
  | fuel + 1, elem =>
    if elem = tail then some false
    else if elem = objElem then some true
    else findLoop m tail objElem fuel (m.next elem)

/-- `elem_find`. There are no more nodes than addresses. -/
def elemFind (m : Mem) (plist objElem : Nat) : Option Bool :=
  findLoop m (plist + 8) objElem (2 ^ 32 + 1) (m.next plist)

/-- `while (elem != &plist->tail)` of `list_traversal`; inside, `none` is `NULL`. -/
def traversalLoop (m : Mem) (tail : Nat) (func : Nat → Bool) : Nat → Nat → Option (Option Nat)
  | 0, _ => none
  | fuel + 1, elem =>
    if elem = tail then some none
    else if func elem then some (some elem)
    else traversalLoop m tail func fuel (m.next elem)

/-- `list_traversal`, for a callback that only looks. -/
def listTraversal (m : Mem) (plist : Nat) (func : Nat → Bool) : Option (Option Nat) :=
  if listEmpty m plist then some none
  else traversalLoop m (plist + 8) func (2 ^ 32 + 1) (m.next plist)

/-- `while (elem != &plist->tail)` of `list_len`. -/
def lenLoop (m : Mem) (tail : Nat) : Nat → Nat → Nat → Option Nat
  | 0, _, _ => none
  | fuel + 1, elem, length =>
    if elem = tail then some length
    else lenLoop m tail fuel (m.next elem) ((length + 1) % 2 ^ 32)

/-- `list_len`. -/
def listLen (m : Mem) (plist : Nat) : Option Nat :=
  lenLoop m (plist + 8) (2 ^ 32 + 1) (m.next plist) 0

/-! ## Lists in memory -/

/-- Two nodes do not overlap. -/
def Apart (x y : Nat) : Prop := x + 8 ≤ y ∨ y + 8 ≤ x

instance (x y : Nat) : Decidable (Apart x y) := inferInstanceAs (Decidable (_ ∨ _))

theorem Apart.symm {x y : Nat} (h : Apart x y) : Apart y x := Or.symm h

theorem Apart.ne {x y : Nat} (h : Apart x y) : x ≠ y := by
  unfold Apart at h
  omega

/-- `x` and `y` point at each other. -/
def Linked (m : Mem) (x y : Nat) : Prop := m.next x = y ∧ m.prev y = x

/-- The nodes of a list, its head and tail included. -/
abbrev nodes (l : Nat) (xs : List Nat) : List Nat := l :: (xs ++ [l + 8])

/-- The list at `l` has the elements `xs`. -/
structure IsList (m : Mem) (l : Nat) (xs : List Nat) : Prop where
  links : (nodes l xs).IsChain (Linked m)
  apart : (nodes l xs).Pairwise Apart
  word : ∀ x ∈ nodes l xs, x < 2 ^ 32

/-- The bytes of the nodes `ns`. -/
def InNodes (ns : List Nat) (a : Nat) : Prop := ∃ x ∈ ns, x ≤ a ∧ a < x + 8

theorem Linked.congr {m m' : Mem} {x y : Nat} (h : Linked m x y)
    (hx : ∀ i, i < 8 → m' (x + i) = m (x + i)) (hy : ∀ i, i < 8 → m' (y + i) = m (y + i)) :
    Linked m' x y := by
  constructor
  · refine Eq.trans (Mem.rd32_congr fun i hi => ?_) h.1
    rw [Nat.add_assoc]
    exact hx _ (by omega)
  · exact Eq.trans (Mem.rd32_congr fun i hi => hy _ (by omega)) h.2

/-- A list stays where its nodes do. -/
theorem IsList.congr {m m' : Mem} {l : Nat} {xs : List Nat} (h : IsList m l xs)
    (hm : ∀ a, InNodes (nodes l xs) a → m' a = m a) : IsList m' l xs := by
  refine ⟨?_, h.apart, h.word⟩
  have hnode : ∀ x ∈ nodes l xs, ∀ i, i < 8 → m' (x + i) = m (x + i) := fun x hx i hi =>
    hm _ ⟨x, hx, by omega, by omega⟩
  exact List.IsChain.imp_of_mem_imp (fun x y hx hy hl => hl.congr (hnode x hx) (hnode y hy)) h.links

theorem IsList.nodup {m : Mem} {l : Nat} {xs : List Nat} (h : IsList m l xs) : xs.Nodup := by
  have := (List.pairwise_append.mp (List.pairwise_cons.mp h.apart).2).1
  exact this.imp Apart.ne

/-- A chain reads `next` of all its nodes but the last and `prev` of all but the
first. -/
theorem chain_transport {m m' : Mem} : ∀ {ns : List Nat}, ns.IsChain (Linked m) →
    (∀ x ∈ ns.dropLast, m'.next x = m.next x) → (∀ y ∈ ns.tail, m'.prev y = m.prev y) →
    ns.IsChain (Linked m')
  | [], _, _, _ => .nil
  | [_], _, _, _ => .singleton _
  | x :: y :: rest, h, hn, hp => by
    rw [List.isChain_cons_cons] at h ⊢
    refine ⟨⟨(hn x ?_).trans h.1.1, (hp y List.mem_cons_self).trans h.1.2⟩,
      chain_transport h.2 (fun z hz => hn z ?_) fun z hz => hp z (List.mem_cons_of_mem _ hz)⟩
    · rw [List.dropLast_cons_cons]
      exact List.mem_cons_self
    · rw [List.dropLast_cons_cons]
      exact List.mem_cons_of_mem _ hz

/-! ## Inserting -/

/-- What `list_insert_before` leaves: `elem` stands between `before` and the
node `p` in front of it, and no other link has changed. -/
structure InsertedBetween (m : Mem) (p elem before : Nat) (m' : Mem) : Prop where
  fst : Linked m' p elem
  snd : Linked m' elem before
  next : ∀ x, Apart x p → Apart x elem → x = before ∨ Apart x before → m'.next x = m.next x
  prev : ∀ x, Apart x before → Apart x elem → x = p ∨ Apart x p → m'.prev x = m.prev x
  frame : ∀ a, ¬InNodes [p, elem, before] a → m' a = m a

theorem not_inNodes_cons {x a : Nat} {ns : List Nat} (h : ¬InNodes (x :: ns) a) :
    (a < x ∨ x + 8 ≤ a) ∧ ¬InNodes ns a := by
  constructor
  · refine Decidable.byContradiction fun hc => h ⟨x, List.mem_cons_self, by omega, by omega⟩
  · intro hin
    obtain ⟨y, hy, hlt⟩ := hin
    exact h ⟨y, List.mem_cons_of_mem _ hy, hlt⟩

theorem wr32_out {m : Mem} {a b v : Nat} (h : b < a ∨ a + 4 ≤ b) : m.wr32 a v b = m b :=
  Mem.blit_out h

theorem listInsertBefore_spec {m : Mem} {p elem before : Nat} (hprev : m.prev before = p)
    (hp : Apart p before) (he : Apart elem p) (hb : Apart elem before) (hpw : p < 2 ^ 32)
    (hew : elem < 2 ^ 32) (hbw : before < 2 ^ 32) :
    InsertedBetween m p elem before (listInsertBefore m before elem) := by
  have hrun : listInsertBefore m before elem =
      (((m.wr32 (p + 4) elem).wr32 elem p).wr32 (elem + 4) before).wr32 before elem := by
    have hagain : (m.wr32 (p + 4) elem).prev before = p := by
      unfold Apart at hp
      exact (Mem.rd32_wr32_ne (by omega)).trans hprev
    simp only [listInsertBefore, hprev, hagain]
  rw [hrun]
  unfold Apart at hp he hb
  refine ⟨⟨?_, ?_⟩, ⟨?_, ?_⟩, fun x hxp hxe hxb => ?_, fun x hxb hxe hxp => ?_, fun a ha => ?_⟩
  · rw [Mem.next, Mem.rd32_wr32_ne (by omega), Mem.rd32_wr32_ne (by omega),
      Mem.rd32_wr32_ne (by omega), Mem.rd32_wr32 hew]
  · rw [Mem.prev, Mem.rd32_wr32_ne (by omega), Mem.rd32_wr32_ne (by omega), Mem.rd32_wr32 hpw]
  · rw [Mem.next, Mem.rd32_wr32_ne (by omega), Mem.rd32_wr32 hbw]
  · rw [Mem.prev, Mem.rd32_wr32 hew]
  · unfold Apart at hxp hxe hxb
    rw [Mem.next, Mem.rd32_wr32_ne (by omega), Mem.rd32_wr32_ne (by omega),
      Mem.rd32_wr32_ne (by omega), Mem.rd32_wr32_ne (by omega), Mem.next]
  · unfold Apart at hxp hxe hxb
    rw [Mem.prev, Mem.rd32_wr32_ne (by omega), Mem.rd32_wr32_ne (by omega),
      Mem.rd32_wr32_ne (by omega), Mem.rd32_wr32_ne (by omega), Mem.prev]
  · obtain ⟨h1, ha⟩ := not_inNodes_cons ha
    obtain ⟨h2, ha⟩ := not_inNodes_cons ha
    obtain ⟨h3, -⟩ := not_inNodes_cons ha
    rw [wr32_out (by omega), wr32_out (by omega), wr32_out (by omega), wr32_out (by omega)]

/-- The node in front of the tail. -/
theorem nodes_split (l : Nat) (xs : List Nat) : ∃ as p, l :: xs = as ++ [p] :=
  ⟨(l :: xs).dropLast, (l :: xs).getLast (by simp), (List.dropLast_append_getLast _).symm⟩

/-- **`list_insert_before` inserts**, wherever in the list: in front of an element or of
the tail. Only bytes of nodes change. -/
theorem IsList.insertBefore {m : Mem} {l e before : Nat} {xs ys bs : List Nat}
    (h : IsList m l (xs ++ ys)) (hback : ys ++ [l + 8] = before :: bs) (hew : e < 2 ^ 32)
    (he : ∀ x ∈ nodes l (xs ++ ys), Apart e x) :
    IsList (listInsertBefore m before e) l (xs ++ e :: ys) ∧
      ∀ a, ¬InNodes (e :: nodes l (xs ++ ys)) a → listInsertBefore m before e a = m a := by
  obtain ⟨as, p, hfront⟩ := nodes_split l xs
  have hns : nodes l (xs ++ ys) = as ++ p :: before :: bs := by
    rw [nodes, List.append_assoc, hback, ← List.cons_append, hfront]
    simp
  have hns' : nodes l (xs ++ e :: ys) = as ++ p :: e :: before :: bs := by
    rw [nodes, List.append_assoc, List.cons_append, hback, ← List.cons_append, hfront]
    simp
  have hlinks := h.links
  have hapart := h.apart
  rw [hns] at hlinks hapart
  rw [List.isChain_append_cons_cons] at hlinks
  obtain ⟨hlo, hlink, hhi⟩ := hlinks
  obtain ⟨has, hps, hcross⟩ := List.pairwise_append.mp hapart
  obtain ⟨hp, hqs⟩ := List.pairwise_cons.mp hps
  obtain ⟨hq, hbs⟩ := List.pairwise_cons.mp hqs
  have hmem : ∀ x ∈ as ++ p :: before :: bs, x ∈ nodes l (xs ++ ys) := fun x hx => by rwa [hns]
  have hpm := hmem p (by simp)
  have hqm := hmem before (by simp)
  have hspec := listInsertBefore_spec hlink.2 (hp before (by simp)) (he p hpm) (he before hqm)
    (h.word p hpm) hew (h.word before hqm)
  refine ⟨⟨?_, ?_, fun x hx => ?_⟩, fun a ha => hspec.frame a fun ⟨x, hx, hlt⟩ => ha ⟨x, ?_, hlt⟩⟩
  · rw [hns', List.isChain_append_cons_cons]
    refine ⟨chain_transport hlo (fun x hx => ?_) fun y hy => ?_, hspec.fst,
      List.isChain_cons_cons.mpr ⟨hspec.snd,
        chain_transport hhi (fun x hx => ?_) fun y hy => ?_⟩⟩
    · rw [List.dropLast_concat] at hx
      exact hspec.next x (hcross x hx p (by simp)) (he x (hmem x (by simp [hx]))).symm
        (Or.inr (hcross x hx before (by simp)))
    · rcases List.mem_append.mp (List.mem_of_mem_tail hy) with hya | hyp
      · exact hspec.prev y (hcross y hya before (by simp)) (he y (hmem y (by simp [hya]))).symm
          (Or.inr (hcross y hya p (by simp)))
      · rw [List.mem_singleton.mp hyp]
        exact hspec.prev p (hp before (by simp)) (he p hpm).symm (Or.inl rfl)
    · rcases List.mem_cons.mp (List.dropLast_subset _ hx) with rfl | hx
      · exact hspec.next x (hp x (by simp)).symm (he x hqm).symm (Or.inl rfl)
      · exact hspec.next x (hp x (by simp [hx])).symm (he x (hmem x (by simp [hx]))).symm
          (Or.inr (hq x hx).symm)
    · rw [List.tail_cons] at hy
      exact hspec.prev y (hq y hy).symm (he y (hmem y (by simp [hy]))).symm
        (Or.inr (hp y (by simp [hy])).symm)
  · rw [hns', List.pairwise_append]
    refine ⟨has, List.pairwise_cons.mpr ⟨fun y hy => ?_, List.pairwise_cons.mpr
      ⟨fun y hy => he y (hmem y ?_), hqs⟩⟩, fun x hx y hy => ?_⟩
    · rcases List.mem_cons.mp hy with rfl | hy
      · exact (he p hpm).symm
      · exact hp y hy
    · exact List.mem_append_right _ (List.mem_cons_of_mem _ hy)
    · rcases List.mem_cons.mp hy with rfl | hy
      · exact hcross x hx y (by simp)
      · rcases List.mem_cons.mp hy with rfl | hy
        · exact (he x (hmem x (by simp [hx]))).symm
        · exact hcross x hx y (List.mem_cons_of_mem _ hy)
  · rw [hns'] at hx
    have hcases : x = e ∨ x ∈ nodes l (xs ++ ys) := by
      rw [hns]
      simp at hx ⊢
      tauto
    rcases hcases with rfl | hx
    · exact hew
    · exact h.word x hx
  · simp only [List.mem_cons, List.not_mem_nil, or_false] at hx
    rcases hx with rfl | rfl | rfl
    · exact List.mem_cons_of_mem _ hpm
    · exact List.mem_cons_self
    · exact List.mem_cons_of_mem _ hqm

/-- **`list_append` appends.** -/
theorem IsList.append {m : Mem} {l e : Nat} {xs : List Nat} (h : IsList m l xs) (hew : e < 2 ^ 32)
    (he : ∀ x ∈ nodes l xs, Apart e x) :
    IsList (listAppend m l e) l (xs ++ [e]) ∧
      ∀ a, ¬InNodes (e :: nodes l xs) a → listAppend m l e a = m a := by
  rw [← List.append_nil xs] at h he
  have hinsert := h.insertBefore rfl hew he
  rwa [List.append_nil] at hinsert

/-! ## Removing -/

/-- What `list_remove` leaves: the nodes around it are linked, and no other link
has changed. -/
structure RemovedBetween (m : Mem) (p q : Nat) (m' : Mem) : Prop where
  link : Linked m' p q
  next : ∀ x, Apart x p → x = q ∨ Apart x q → m'.next x = m.next x
  prev : ∀ x, Apart x q → x = p ∨ Apart x p → m'.prev x = m.prev x
  frame : ∀ a, ¬InNodes [p, q] a → m' a = m a

theorem listRemove_spec {m : Mem} {p e q : Nat} (hprev : m.prev e = p) (hnext : m.next e = q)
    (hpe : Apart p e) (hpq : Apart p q) (hpw : p < 2 ^ 32) (hqw : q < 2 ^ 32) :
    RemovedBetween m p q (listRemove m e) := by
  unfold Apart at hpe hpq
  have hrun : listRemove m e = (m.wr32 (p + 4) q).wr32 q p := by
    have hn : (m.wr32 (p + 4) q).next e = q := (Mem.rd32_wr32_ne (by omega)).trans hnext
    have hp : (m.wr32 (p + 4) q).prev e = p := (Mem.rd32_wr32_ne (by omega)).trans hprev
    simp only [listRemove, hprev, hnext, hn, hp]
  rw [hrun]
  refine ⟨⟨?_, ?_⟩, fun x hxp hxq => ?_, fun x hxq hxp => ?_, fun a ha => ?_⟩
  · rw [Mem.next, Mem.rd32_wr32_ne (by omega), Mem.rd32_wr32 hqw]
  · rw [Mem.prev, Mem.rd32_wr32 hpw]
  · unfold Apart at hxp hxq
    rw [Mem.next, Mem.rd32_wr32_ne (by omega), Mem.rd32_wr32_ne (by omega), Mem.next]
  · unfold Apart at hxp hxq
    rw [Mem.prev, Mem.rd32_wr32_ne (by omega), Mem.rd32_wr32_ne (by omega), Mem.prev]
  · obtain ⟨h1, ha⟩ := not_inNodes_cons ha
    obtain ⟨h2, -⟩ := not_inNodes_cons ha
    rw [wr32_out (by omega), wr32_out (by omega)]

/-- **`list_remove` takes one element out**, wherever it stands. -/
theorem IsList.remove {m : Mem} {l e : Nat} {ys zs : List Nat} (h : IsList m l (ys ++ e :: zs)) :
    IsList (listRemove m e) l (ys ++ zs) ∧
      ∀ a, ¬InNodes (nodes l (ys ++ zs)) a → listRemove m e a = m a := by
  obtain ⟨as, p, hfront⟩ := nodes_split l ys
  obtain ⟨q, bs, hback⟩ : ∃ q bs, zs ++ [l + 8] = q :: bs :=
    List.exists_cons_of_ne_nil (by simp)
  have hns : nodes l (ys ++ e :: zs) = as ++ p :: e :: q :: bs := by
    rw [nodes, List.append_assoc, List.cons_append, hback, ← List.cons_append, hfront]
    simp
  have hns' : nodes l (ys ++ zs) = as ++ p :: q :: bs := by
    rw [nodes, List.append_assoc, hback, ← List.cons_append, hfront]
    simp
  have hlinks := h.links
  have hapart := h.apart
  rw [hns] at hlinks hapart
  rw [List.isChain_append_cons_cons] at hlinks
  obtain ⟨hlo, hpe, hhi⟩ := hlinks
  obtain ⟨heq, hhi⟩ := List.isChain_cons_cons.mp hhi
  obtain ⟨has, hps, hcross⟩ := List.pairwise_append.mp hapart
  obtain ⟨hp, hes⟩ := List.pairwise_cons.mp hps
  obtain ⟨_, hqs⟩ := List.pairwise_cons.mp hes
  obtain ⟨hq, hbs⟩ := List.pairwise_cons.mp hqs
  have hmem : ∀ x ∈ as ++ p :: q :: bs, x ∈ nodes l (ys ++ e :: zs) := fun x hx => by
    rw [hns]
    simp at hx ⊢
    tauto
  have hspec := listRemove_spec hpe.2 heq.1 (hp e (by simp)) (hp q (by simp))
    (h.word p (hmem p (by simp))) (h.word q (hmem q (by simp)))
  rw [hns']
  refine ⟨⟨?_, ?_, ?_⟩, fun a ha => hspec.frame a fun ⟨x, hx, hlt⟩ => ha ⟨x, ?_, hlt⟩⟩
  · rw [hns', List.isChain_append_cons_cons]
    refine ⟨chain_transport hlo (fun x hx => ?_) fun y hy => ?_, hspec.link,
      chain_transport hhi (fun x hx => ?_) fun y hy => ?_⟩
    · rw [List.dropLast_concat] at hx
      exact hspec.next x (hcross x hx p (by simp)) (Or.inr (hcross x hx q (by simp)))
    · rcases List.mem_append.mp (List.mem_of_mem_tail hy) with hya | hyp
      · exact hspec.prev y (hcross y hya q (by simp)) (Or.inr (hcross y hya p (by simp)))
      · rw [List.mem_singleton.mp hyp]
        exact hspec.prev p (hp q (by simp)) (Or.inl rfl)
    · rcases List.mem_cons.mp (List.dropLast_subset _ hx) with rfl | hx
      · exact hspec.next x (hp x (by simp)).symm (Or.inl rfl)
      · exact hspec.next x (hp x (by simp [hx])).symm (Or.inr (hq x hx).symm)
    · rw [List.tail_cons] at hy
      exact hspec.prev y (hq y hy).symm (Or.inr (hp y (by simp [hy])).symm)
  · rw [hns', List.pairwise_append]
    refine ⟨has, List.pairwise_cons.mpr ⟨fun y hy => hp y ?_, hqs⟩, fun x hx y hy => hcross x hx y ?_⟩
    · exact List.mem_cons_of_mem _ hy
    · simp at hy ⊢
      tauto
  · intro x hx
    rw [hns'] at hx
    exact h.word x (hmem x hx)
  · simp at hx ⊢
    tauto

theorem IsList.remove_mem {m : Mem} {l e : Nat} {xs : List Nat} (hl : IsList m l xs) (he : e ∈ xs) :
    IsList (listRemove m e) l (xs.filter (· ≠ e)) ∧
      ∀ a, ¬InNodes (nodes l xs) a → listRemove m e a = m a := by
  obtain ⟨ys, zs, rfl⟩ := List.append_of_mem he
  have hnodup := hl.nodup
  rw [List.nodup_append, List.nodup_cons] at hnodup
  obtain ⟨-, ⟨hz, -⟩, hyz⟩ := hnodup
  have hfilter : (ys ++ e :: zs).filter (· ≠ e) = ys ++ zs := by
    rw [List.filter_append, List.filter_cons_of_neg (by simp), List.filter_eq_self.mpr,
      List.filter_eq_self.mpr]
    · intro x hx
      have hne : x ≠ e := fun hc => hz (hc ▸ hx)
      simpa using hne
    · intro x hx
      simpa using hyz x hx e List.mem_cons_self
  rw [hfilter]
  refine ⟨hl.remove.1, fun a ha => hl.remove.2 a fun ⟨x, hx, hlt⟩ => ha ⟨x, ?_, hlt⟩⟩
  simp at hx ⊢
  tauto

theorem IsList.next_nil {m : Mem} {l : Nat} (h : IsList m l []) : m.next l = l + 8 :=
  (List.isChain_pair.mp h.links).1

theorem IsList.next_cons {m : Mem} {l x : Nat} {xs : List Nat} (h : IsList m l (x :: xs)) :
    m.next l = x := (List.isChain_cons_cons.mp h.links).1.1

/-- **`list_pop` takes the first element.** -/
theorem IsList.pop {m : Mem} {l x : Nat} {xs : List Nat} (h : IsList m l (x :: xs)) :
    (listPop m l).1 = x ∧ IsList (listPop m l).2 l xs ∧
      ∀ a, ¬InNodes (nodes l xs) a → (listPop m l).2 a = m a := by
  rw [listPop, h.next_cons]
  exact ⟨rfl, IsList.remove (show IsList m l ([] ++ x :: xs) from h)⟩

theorem IsList.listEmpty_iff {m : Mem} {l : Nat} {xs : List Nat} (h : IsList m l xs) :
    listEmpty m l = true ↔ xs = [] := by
  rw [listEmpty, beq_iff_eq]
  cases xs with
  | nil => exact iff_of_true h.next_nil rfl
  | cons x xs =>
    refine iff_of_false ?_ (by simp)
    rw [h.next_cons]
    have htail := (List.pairwise_cons.mp h.apart).2
    rw [List.cons_append, List.pairwise_cons] at htail
    exact (htail.1 (l + 8) (by simp)).ne

/-! ## Finding -/

theorem findLoop_eq {m : Mem} {t e : Nat} : ∀ {xs : List Nat} {fuel : Nat} {x : Nat},
    (x :: (xs ++ [t])).IsChain (Linked m) → t ∉ xs → xs.length < fuel →
    findLoop m t e fuel (m.next x) = some (decide (e ∈ xs)) := by
  intro xs
  induction xs with
  | nil =>
    intro fuel x h _ hf
    obtain ⟨fuel, rfl⟩ : ∃ n, fuel = n + 1 := ⟨fuel - 1, by rw [List.length_nil] at hf; omega⟩
    rw [(List.isChain_pair.mp h).1, findLoop, if_pos rfl]
    simp
  | cons y xs ih =>
    intro fuel x h ht hf
    obtain ⟨fuel, rfl⟩ : ∃ n, fuel = n + 1 := ⟨fuel - 1, by omega⟩
    rw [List.cons_append, List.isChain_cons_cons] at h
    have hyt : y ≠ t := fun hc => ht (hc ▸ List.mem_cons_self)
    rw [h.1.1, findLoop, if_neg hyt]
    by_cases hye : y = e
    · rw [if_pos hye]
      simp [hye]
    · rw [if_neg hye, ih h.2 (fun hc => ht (List.mem_cons_of_mem _ hc))
        (by rw [List.length_cons] at hf; omega)]
      simp [Ne.symm hye]

/-- Distinct words are at most `2 ^ 32` many. -/
theorem length_le_of_word {xs : List Nat} {n : Nat} (hnd : xs.Nodup) (h : ∀ x ∈ xs, x < n) :
    xs.length ≤ n := by
  have := (List.subperm_of_subset hnd fun x hx => List.mem_range.mpr (h x hx)).length_le
  rwa [List.length_range] at this

/-- **`elem_find` finds**, and it ends. -/
theorem IsList.elemFind_eq {m : Mem} {l e : Nat} {xs : List Nat} (h : IsList m l xs) :
    elemFind m l e = some (decide (e ∈ xs)) := by
  have hlen : xs.length ≤ 2 ^ 32 :=
    length_le_of_word h.nodup fun x hx => h.word x (by simp [hx])
  refine findLoop_eq h.links (fun hc => ?_) (by omega)
  have htail := (List.pairwise_append.mp (List.pairwise_cons.mp h.apart).2).2.2
  exact (htail _ hc (l + 8) (by simp)).ne rfl

/-! ## An empty list -/

theorem listInit_spec {m : Mem} {l : Nat} (hl : l + 16 ≤ 2 ^ 32) :
    IsList (listInit m l) l [] ∧ ∀ a, a < l ∨ l + 16 ≤ a → listInit m l a = m a := by
  refine ⟨⟨List.isChain_pair.mpr ⟨?_, ?_⟩, ?_, fun x hx => ?_⟩, fun a ha => ?_⟩
  · rw [listInit, Mem.next, Mem.rd32_wr32_ne (by omega), Mem.rd32_wr32_ne (by omega),
      Mem.rd32_wr32 (by omega)]
  · rw [listInit, Mem.prev, Mem.rd32_wr32_ne (by omega), Mem.rd32_wr32 (by omega)]
  · simp [Apart]
  · simp at hx
    omega
  · rw [listInit, wr32_out (by omega), wr32_out (by omega), wr32_out (by omega),
      wr32_out (by omega)]

end OsCore
