import OsCore.Device.PartitionScan

/-!
# The partitions that a disk's tables hold

`Walk disk b lba es n xs` says, of the disk alone, that the entries `es` of the table in
sector `lba` hold the partitions `xs`: those of the table, with those behind an entry of
type 5 where that entry stands. Here `b` is `ext_lba_base`, and `n` logical partitions
have come before, since behind the eighth the rest of a table is not looked at. A walk is
finite, its tables are on the disk, and the extended partition does not start at sector 0.

A scan is a walk (`Scan.walk`) and a walk is a scan (`Walk.scan`) as long as there are at
most three primary and eight logical partitions, and the scan leaves what `addAll` makes
of `xs`. The two inductions go rule by rule; what they need besides is that only the
first sector is read while `ext_lba_base` is 0, and that a scan which takes the first
sector for the extended partition reads it for ever (`Scan.not_zero`).

`partition_scan_safe_iff` is the first use. A scan comes back, without a failed `ASSERT`
and with all stores in their arrays, exactly if there is such a walk.
-/

namespace OsCore.Device

open Fs (maxLba)

/-! ## Walks -/

/-- A partition with an entry in a table; a logical one comes with the sector of that
table. -/
inductive Found
  | prim (p : PartitionTableEntry)
  | logic (lba : UInt32) (p : PartitionTableEntry)

/-- The primary ones, in order. -/
def primsOf : List Found → List PartitionTableEntry
  | [] => []
  | .prim p :: xs => p :: primsOf xs
  | .logic _ _ :: xs => primsOf xs

/-- The logical ones, in order. -/
def logicsOf : List Found → List (UInt32 × PartitionTableEntry)
  | [] => []
  | .prim _ :: xs => logicsOf xs
  | .logic lba p :: xs => (lba, p) :: logicsOf xs

theorem primsOf_append (xs ys : List Found) : primsOf (xs ++ ys) = primsOf xs ++ primsOf ys := by
  induction xs with
  | nil => rfl
  | cons x xs ih => cases x <;> simp [primsOf, ih]

theorem logicsOf_append (xs ys : List Found) :
    logicsOf (xs ++ ys) = logicsOf xs ++ logicsOf ys := by
  induction xs with
  | nil => rfl
  | cons x xs ih => cases x <;> simp [logicsOf, ih]

/-- `ext_lba_base` once `p`, of type 5, has been met. -/
def baseAfter (b : UInt32) (p : PartitionTableEntry) : UInt32 := if b = 0 then p.startLba else b

/-- The entries `es` of the table in sector `lba` hold `xs`. -/
inductive Walk (disk : Mem) :
    UInt32 → UInt32 → List PartitionTableEntry → Nat → List Found → Prop
  | done {b lba n} : Walk disk b lba [] n []
  | empty {b lba p es n xs} : p.fsType = 0 → Walk disk b lba es n xs →
      Walk disk b lba (p :: es) n xs
  | sub {b lba p es n xs ys} : p.fsType = 5 → baseAfter b p ≠ 0 →
      (p.startLba + b).toNat ≤ maxLba →
      Walk disk (baseAfter b p) (p.startLba + b) (tableAt disk (p.startLba + b)) n xs →
      Walk disk (baseAfter b p) lba es (n + (logicsOf xs).length) ys →
      Walk disk b lba (p :: es) n (xs ++ ys)
  | prim {b p es n xs} : p.Valid → Walk disk b 0 es n xs →
      Walk disk b 0 (p :: es) n (.prim p :: xs)
  | logic {b lba p es n xs} : p.Valid → lba ≠ 0 → n < 7 → Walk disk b lba es (n + 1) xs →
      Walk disk b lba (p :: es) n (.logic lba p :: xs)
  | full {b lba p es n} : p.Valid → lba ≠ 0 → 7 ≤ n → Walk disk b lba (p :: es) n [.logic lba p]

/-- No more partitions than there is room for, with `p` primary and `l` logical ones
before. -/
structure Room (p l : Nat) (xs : List Found) : Prop where
  prims : p + (primsOf xs).length ≤ 3
  logics : l + (logicsOf xs).length ≤ 8

theorem Room.left {p l : Nat} {xs ys : List Found} (h : Room p l (xs ++ ys)) : Room p l xs := by
  have h1 := h.prims
  have h2 := h.logics
  rw [primsOf_append, List.length_append] at h1
  rw [logicsOf_append, List.length_append] at h2
  exact ⟨by omega, by omega⟩

theorem Room.append_iff {p l : Nat} {xs ys : List Found} :
    Room (p + (primsOf xs).length) (l + (logicsOf xs).length) ys ↔ Room p l (xs ++ ys) := by
  constructor
  · intro h
    have h1 := h.prims
    have h2 := h.logics
    exact ⟨by rw [primsOf_append, List.length_append]; omega,
      by rw [logicsOf_append, List.length_append]; omega⟩
  · intro h
    have h1 := h.prims
    have h2 := h.logics
    rw [primsOf_append, List.length_append] at h1
    rw [logicsOf_append, List.length_append] at h2
    exact ⟨by omega, by omega⟩

theorem Room.prim_iff {p l : Nat} {xs : List Found} {e : PartitionTableEntry} :
    Room p l (.prim e :: xs) ↔ Room (p + 1) l xs := by
  have hlen : (primsOf (.prim e :: xs)).length = (primsOf xs).length + 1 := rfl
  constructor
  · intro h
    have h1 := h.prims
    exact ⟨by omega, h.logics⟩
  · intro h
    have h1 := h.prims
    exact ⟨by omega, h.logics⟩

theorem Room.logic_iff {p l : Nat} {xs : List Found} {lba : UInt32} {e : PartitionTableEntry} :
    Room p l (.logic lba e :: xs) ↔ Room p (l + 1) xs := by
  have hlen : (logicsOf (.logic lba e :: xs)).length = (logicsOf xs).length + 1 := rfl
  constructor
  · intro h
    have h1 := h.logics
    exact ⟨h.prims, by omega⟩
  · intro h
    have h1 := h.logics
    exact ⟨h.prims, by omega⟩

/-! ## What is recorded -/

namespace ScanState

variable (s : ScanState) (hd : Nat)

/-- Record a partition. -/
def add : Found → ScanState
  | .prim p => s.addPrim hd p
  | .logic lba p => s.addLogic hd lba p

/-- Record partitions, in order. -/
def addAll (xs : List Found) : ScanState := xs.foldl (fun s x => s.add hd x) s

theorem addAll_append (xs ys : List Found) :
    s.addAll hd (xs ++ ys) = (s.addAll hd xs).addAll hd ys := List.foldl_append

theorem addAll_setBase (b : UInt32) (xs : List Found) :
    (s.setBase b).addAll hd xs = (s.addAll hd xs).setBase b := by
  induction xs generalizing s with
  | nil => rfl
  | cons x xs ih =>
    cases x with
    | prim e => exact ih (s.addPrim hd e)
    | logic lba e => exact ih (s.addLogic hd lba e)

end ScanState

/-- The slots that `xs` go to, with what they are filled with. -/
def fillings (hd : Nat) : Nat → Nat → List Found → List (PartTag × PartFields)
  | _, _, [] => []
  | p, l, .prim e :: xs => (⟨hd, .prim p⟩, primFields hd p e) :: fillings hd (p + 1) l xs
  | p, l, .logic lba e :: xs =>
    (⟨hd, .logic l⟩, logicFields hd l (lba, e)) :: fillings hd p (l + 1) xs

/-- The slots are the next ones of each kind. -/
theorem mem_fillings {hd : Nat} {xs : List Found} {x : PartTag × PartFields} {p l : Nat} :
    x ∈ fillings hd p l xs ↔
      (∃ i e, (primsOf xs)[i]? = some e ∧ x = (⟨hd, .prim (p + i)⟩, primFields hd (p + i) e)) ∨
      ∃ i e, (logicsOf xs)[i]? = some e ∧
        x = (⟨hd, .logic (l + i)⟩, logicFields hd (l + i) e) := by
  induction xs generalizing p l with
  | nil => simp [fillings, primsOf, logicsOf]
  | cons y xs ih =>
    -- the head is number 0 of its kind
    have hshift : ∀ {α : Type} (a : α) (as : List α) (P : Nat → α → Prop),
        (∃ i e, (a :: as)[i]? = some e ∧ P i e) ↔
          P 0 a ∨ ∃ i e, as[i]? = some e ∧ P (i + 1) e := by
      intro α a as P
      constructor
      · intro hin
        obtain ⟨i, e, hi, he⟩ := hin
        cases i with
        | zero => exact .inl (Option.some.inj hi ▸ he)
        | succ i => exact .inr ⟨i, e, hi, he⟩
      · intro h
        rcases h with h | ⟨i, e, hi, he⟩
        · exact ⟨0, a, rfl, h⟩
        · exact ⟨i + 1, e, hi, he⟩
    cases y with
    | prim e =>
      rw [fillings, List.mem_cons, ih, primsOf, logicsOf, hshift, or_assoc]
      simp only [Nat.add_zero, Nat.add_assoc, Nat.add_comm 1]
    | logic lba e =>
      rw [fillings, List.mem_cons, ih, primsOf, logicsOf, hshift, or_left_comm]
      simp only [Nat.add_zero, Nat.add_assoc, Nat.add_comm 1]

/-- A slot ahead of the counters is not among those that are filled. -/
theorem fillings_nodup {hd : Nat} {xs : List Found} {p l : Nat} :
    ((fillings hd p l xs).map Prod.fst).Nodup := by
  induction xs generalizing p l with
  | nil => exact List.nodup_nil
  | cons x xs ih =>
    have hfresh : ∀ {p l p' l' : Nat} {t : PartTag}, t ∈ (fillings hd p' l' xs).map Prod.fst →
        (t = ⟨hd, .prim p⟩ → p' ≤ p) ∧ (t = ⟨hd, .logic l⟩ → l' ≤ l) := by
      intro p l p' l' t ht
      obtain ⟨x, hx, rfl⟩ := List.mem_map.mp ht
      rcases mem_fillings.mp hx with ⟨i, e, -, rfl⟩ | ⟨i, e, -, rfl⟩
      · simp only [PartTag.mk.injEq, PartSlot.prim.injEq, true_and, reduceCtorEq, false_implies,
          and_true]
        omega
      · simp only [PartTag.mk.injEq, PartSlot.logic.injEq, true_and, reduceCtorEq, false_implies]
        omega
    cases x with
    | prim e =>
      refine List.nodup_cons.mpr ⟨fun hmem => ?_, ih⟩
      have := (hfresh (p := p) (l := 0) hmem).1 rfl
      omega
    | logic lba e =>
      refine List.nodup_cons.mpr ⟨fun hmem => ?_, ih⟩
      have := (hfresh (p := 0) (l := l) hmem).2 rfl
      omega

/-- `s'` is `s` with `xs` recorded. -/
structure Recorded (hd : Nat) (s : ScanState) (xs : List Found) (s' : ScanState) : Prop where
  pNo : s'.pNo = s.pNo + (primsOf xs).length
  lNo : s'.lNo = s.lNo + (logicsOf xs).length
  list : s'.partitionList = s.partitionList ++ (fillings hd s.pNo s.lNo xs).map Prod.fst
  filled : ∀ x ∈ fillings hd s.pNo s.lNo xs, s'.part x.1 = x.2
  other : ∀ t, t ∉ (fillings hd s.pNo s.lNo xs).map Prod.fst → s'.part t = s.part t

/-- Recording keeps to the slots that come next. -/
theorem addAll_recorded (hd : Nat) {xs : List Found} {s : ScanState}
    (hroom : Room s.pNo s.lNo xs) : Recorded hd s xs (s.addAll hd xs) := by
  induction xs generalizing s with
  | nil => exact ⟨rfl, rfl, (List.append_nil _).symm, fun _ h => (List.not_mem_nil h).elim,
      fun _ _ => rfl⟩
  | cons x xs ih =>
    have hnodup : ((fillings hd s.pNo s.lNo (x :: xs)).map Prod.fst).Nodup := fillings_nodup
    cases x with
    | prim e =>
      have hroom' := Room.prim_iff.mp hroom
      have hp : (s.addPrim hd e).pNo = s.pNo + 1 := by
        have := hroom'.prims
        exact Nat.mod_eq_of_lt (by omega)
      have h := ih (s := s.addPrim hd e) (by rw [hp]; exact hroom')
      obtain ⟨h1, h2, h3, h4, h5⟩ := h
      rw [hp] at h1 h3 h4 h5
      obtain ⟨hnew, -⟩ := List.nodup_cons.mp hnodup
      refine ⟨by rw [primsOf, List.length_cons]; exact h1.trans (by omega), h2, ?_, ?_, ?_⟩
      · exact h3.trans (List.append_assoc ..)
      · intro x hx
        rcases List.mem_cons.mp hx with rfl | hx
        · exact (h5 _ hnew).trans (Function.update_self ..)
        · exact h4 x hx
      · intro t ht
        obtain ⟨hne, ht⟩ := not_or.mp (fun h => ht (List.mem_cons.mpr h))
        exact (h5 t ht).trans (Function.update_of_ne hne ..)
    | logic lba e =>
      have hroom' := Room.logic_iff.mp hroom
      have hl : (s.addLogic hd lba e).lNo = s.lNo + 1 := by
        have := hroom'.logics
        exact Nat.mod_eq_of_lt (by omega)
      have h := ih (s := s.addLogic hd lba e) (by rw [hl]; exact hroom')
      obtain ⟨h1, h2, h3, h4, h5⟩ := h
      rw [hl] at h2 h3 h4 h5
      obtain ⟨hnew, -⟩ := List.nodup_cons.mp hnodup
      refine ⟨h1, by rw [logicsOf, List.length_cons]; exact h2.trans (by omega), ?_, ?_, ?_⟩
      · exact h3.trans (List.append_assoc ..)
      · intro x hx
        rcases List.mem_cons.mp hx with rfl | hx
        · exact (h5 _ hnew).trans (Function.update_self ..)
        · exact h4 x hx
      · intro t ht
        obtain ⟨hne, ht⟩ := not_or.mp (fun h => ht (List.mem_cons.mpr h))
        exact (h5 t ht).trans (Function.update_of_ne hne ..)

/-! ## Scans are walks -/

/-- The first entry of type 5. -/
def firstExt (es : List PartitionTableEntry) : Option PartitionTableEntry :=
  es.find? fun p => p.fsType = 5

/-- `ext_lba_base` after the entries `es`. -/
def baseOver (b : UInt32) (es : List PartitionTableEntry) : UInt32 :=
  if b = 0 then ((firstExt es).map (·.startLba)).getD 0 else b

section

variable {disk : Mem} {hd : Nat} {lba b : UInt32} {p : PartitionTableEntry}
  {es : List PartitionTableEntry} {n : Nat} {xs : List Found} {s s' : ScanState}

theorem firstExt_cons (h : p.fsType = 5) : firstExt (p :: es) = some p :=
  List.find?_cons_of_pos (decide_eq_true h)

theorem firstExt_cons_ne (h : p.fsType ≠ 5) : firstExt (p :: es) = firstExt es :=
  List.find?_cons_of_neg (by simpa using h)

theorem baseOver_of_ne (h : b ≠ 0) : baseOver b es = b := if_neg h

theorem baseOver_nil : baseOver b [] = b := by
  rw [baseOver]
  split
  next h => exact h.symm
  next h => rfl

theorem baseOver_cons (h : p.fsType = 5) : baseOver b (p :: es) = baseAfter b p := by
  rw [baseOver, baseAfter, firstExt_cons h]
  rfl

theorem baseOver_cons_ne (h : p.fsType ≠ 5) : baseOver b (p :: es) = baseOver b es := by
  rw [baseOver, firstExt_cons_ne h, baseOver]

/-- An empty entry is not one of type 5. -/
theorem ne_five (h : p.fsType = 0) : p.fsType ≠ 5 := by
  rw [h]
  decide

/-- A scan does not change `ext_lba_base` once it is set. -/
theorem Scan.base (h : Scan disk hd lba es s s') (hb : s.extLbaBase ≠ 0) :
    s'.extLbaBase = s.extLbaBase := by
  induction h with
  | done => rfl
  | empty _ _ ih => exact ih hb
  | first _ h0 => exact absurd h0 hb
  | further _ _ _ _ _ ih1 ih2 =>
    have h1 := ih1 hb
    rw [← h1] at hb ⊢
    exact ih2 hb
  | prim _ _ _ ih => exact ih hb
  | logic _ _ _ _ ih => exact ih hb
  | eighth => rfl

/-- If the first entry of type 5 starts at sector 0, then the scan of the first sector
calls itself on that sector, as it was called. -/
theorem Scan.not_zero (h : Scan disk hd lba es s s') (hlba : lba = 0) (hb : s.extLbaBase = 0)
    (hext : firstExt es = some p) (hp : p.startLba = 0)
    (hsame : firstExt (tableAt disk 0) = some p) : False := by
  induction h with
  | done => cases hext
  | empty h0 _ ih =>
    rw [firstExt_cons_ne (ne_five h0)] at hext
    exact ih hlba hb hext
  | first h5 _ _ _ _ ih1 =>
    rw [firstExt_cons h5] at hext
    obtain rfl := Option.some.inj hext
    rw [hp] at ih1
    exact ih1 rfl rfl hsame
  | further _ h0 => exact h0 hb
  | prim hv _ _ ih =>
    rw [firstExt_cons_ne hv.2] at hext
    exact ih hlba hb hext
  | logic _ h0 => exact h0 hlba
  | eighth _ h0 => exact h0 hlba

/-- Only the first sector is read with `ext_lba_base` 0, and no entry of type 5 comes
before `es` there. -/
def FirstPart (disk : Mem) (b lba : UInt32) (es : List PartitionTableEntry) : Prop :=
  b = 0 → lba = 0 ∧ firstExt es = firstExt (tableAt disk 0)

theorem FirstPart.tail (h : FirstPart disk b lba (p :: es)) (hp : p.fsType ≠ 5) :
    FirstPart disk b lba es := by
  intro hb
  rw [← firstExt_cons_ne hp]
  exact h hb

theorem firstPart_of_ne (h : b ≠ 0) : FirstPart disk b lba es := fun h0 => absurd h0 h

/-- What is recorded in a table of its own and then behind it. -/
theorem addAll_join (hd : Nat) (es : List PartitionTableEntry) (ys : List Found) (hb : b ≠ 0)
    (hroom : Room s.pNo s.lNo xs) :
    let s1 := (s.addAll hd xs).setBase b
    (Room s1.pNo s1.lNo ys ↔ Room s.pNo s.lNo (xs ++ ys)) ∧
      s1.lNo = s.lNo + (logicsOf xs).length ∧
      (s1.addAll hd ys).setBase (baseOver b es) = (s.addAll hd (xs ++ ys)).setBase b := by
  intro s1
  have hrec := addAll_recorded hd hroom
  have hp : s1.pNo = s.pNo + (primsOf xs).length := hrec.pNo
  have hl : s1.lNo = s.lNo + (logicsOf xs).length := hrec.lNo
  refine ⟨by rw [hp, hl]; exact Room.append_iff, hl, ?_⟩
  rw [baseOver_of_ne hb, ScanState.addAll_append, ScanState.addAll_setBase]
  rfl

/-- An entry of type 5, when the table it names has been walked and the rest of its own
table is known to be. -/
theorem walk_sub {s1 : ScanState} (h5 : p.fsType = 5) (hne : baseAfter s.extLbaBase p ≠ 0)
    (hmax : (p.startLba + s.extLbaBase).toNat ≤ maxLba)
    (hwalk : Walk disk (baseAfter s.extLbaBase p) (p.startLba + s.extLbaBase)
      (tableAt disk (p.startLba + s.extLbaBase)) s.lNo xs)
    (hroom : Room s.pNo s.lNo xs)
    (hs1 : s1 = (s.addAll hd xs).setBase (baseAfter s.extLbaBase p))
    (hrest : FirstPart disk s1.extLbaBase lba es → s1.pNo ≤ 3 → s1.lNo ≤ 8 →
      ∃ ys, Walk disk s1.extLbaBase lba es s1.lNo ys ∧ Room s1.pNo s1.lNo ys ∧
        s' = (s1.addAll hd ys).setBase (baseOver s1.extLbaBase es)) :
    ∃ zs, Walk disk s.extLbaBase lba (p :: es) s.lNo zs ∧ Room s.pNo s.lNo zs ∧
      s' = (s.addAll hd zs).setBase (baseOver s.extLbaBase (p :: es)) := by
  subst hs1
  have hrec := addAll_recorded hd hroom
  obtain ⟨ys, hwalk2, hroom2, rfl⟩ := hrest (firstPart_of_ne hne)
    (hrec.pNo.trans_le hroom.prims) (hrec.lNo.trans_le hroom.logics)
  obtain ⟨hroom', hl1, hall⟩ := addAll_join hd es ys hne hroom
  rw [hl1] at hwalk2
  refine ⟨xs ++ ys, .sub h5 hne hmax hwalk hwalk2, hroom'.mp hroom2, ?_⟩
  rw [baseOver_cons h5]
  exact hall

/-- **A scan is a walk**, and records what the walk meets. -/
theorem Scan.walk (h : Scan disk hd lba es s s')
    (hfirst : FirstPart disk s.extLbaBase lba es) (hp : s.pNo ≤ 3) (hl : s.lNo ≤ 8) :
    ∃ xs, Walk disk s.extLbaBase lba es s.lNo xs ∧ Room s.pNo s.lNo xs ∧
      s' = (s.addAll hd xs).setBase (baseOver s.extLbaBase es) := by
  induction h with
  | done =>
    rw [baseOver_nil]
    exact ⟨[], .done, ⟨hp, hl⟩, rfl⟩
  | empty h0 _ ih =>
    obtain ⟨xs, hwalk, hroom, rfl⟩ := ih (hfirst.tail (ne_five h0)) hp hl
    rw [baseOver_cons_ne (ne_five h0)]
    exact ⟨xs, .empty h0 hwalk, hroom, rfl⟩
  | @first lba q es s s1 s' h5 hb hmax hscan _ ih1 ih2 =>
    obtain ⟨rfl, hsame⟩ := hfirst hb
    rw [firstExt_cons h5] at hsame
    have hne : q.startLba ≠ 0 := by
      intro h0
      rw [h0] at hscan
      exact hscan.not_zero rfl rfl hsame.symm h0 hsame.symm
    have hafter : baseAfter s.extLbaBase q = q.startLba := if_pos hb
    have htarget : q.startLba + s.extLbaBase = q.startLba := by rw [hb, UInt32.add_zero]
    obtain ⟨xs, hwalk, hroom, hs1⟩ := ih1 (firstPart_of_ne hne) hp hl
    rw [ScanState.addAll_setBase] at hs1
    refine walk_sub h5 (by rwa [hafter]) (by rwa [htarget]) ?_ hroom ?_ ih2
    · rw [hafter, htarget]
      exact hwalk
    · rw [hafter]
      exact hs1.trans (congrArg _ (baseOver_of_ne hne))
  | @further lba q es s s1 s' h5 hb hmax hscan _ ih1 ih2 =>
    have hafter : baseAfter s.extLbaBase q = s.extLbaBase := if_neg hb
    obtain ⟨xs, hwalk, hroom, hs1⟩ := ih1 (firstPart_of_ne hb) hp hl
    rw [baseOver_of_ne hb] at hs1
    exact walk_sub h5 (by rwa [hafter]) hmax (by rwa [hafter]) hroom (by rwa [hafter]) ih2
  | @prim q es s s' hv hlt _ ih =>
    have hnext : (s.addPrim hd q).pNo = s.pNo + 1 := Nat.mod_eq_of_lt (by omega)
    rw [hnext] at ih
    obtain ⟨xs, hwalk, hroom, rfl⟩ := ih (hfirst.tail hv.2) (by omega) hl
    rw [baseOver_cons_ne hv.2]
    exact ⟨.prim q :: xs, .prim hv hwalk, Room.prim_iff.mpr hroom, rfl⟩
  | @logic lba q es s s' hv hlba hlt _ ih =>
    have hnext : (s.addLogic hd lba q).lNo = s.lNo + 1 := Nat.mod_eq_of_lt (by omega)
    rw [hnext] at ih
    obtain ⟨xs, hwalk, hroom, rfl⟩ := ih (hfirst.tail hv.2) hp (by omega)
    rw [baseOver_cons_ne hv.2]
    exact ⟨.logic lba q :: xs, .logic hv hlba hlt hwalk, Room.logic_iff.mpr hroom, rfl⟩
  | @eighth lba q es s hv hlba heq =>
    have hb : s.extLbaBase ≠ 0 := fun hb => hlba (hfirst hb).1
    rw [baseOver_of_ne hb]
    exact ⟨[.logic lba q], .full hv hlba heq.ge, ⟨hp, by rw [heq]; rfl⟩, rfl⟩

/-- **A walk with room for what it meets is a scan.** -/
theorem Walk.scan (h : Walk disk b lba es n xs) (hb : s.extLbaBase = b) (hn : s.lNo = n)
    (hroom : Room s.pNo n xs) (hfirst : b = 0 → lba = 0) :
    Scan disk hd lba es s ((s.addAll hd xs).setBase (baseOver b es)) := by
  induction h generalizing s with
  | done =>
    rw [baseOver_nil, ← hb]
    exact .done
  | empty h0 _ ih =>
    rw [baseOver_cons_ne (ne_five h0)]
    exact .empty h0 (ih hb hn hroom hfirst)
  | @sub b lba q es n xs ys h5 hne hmax _ _ ih1 ih2 =>
    subst hb hn
    have hroom1 := hroom.left
    obtain ⟨hroom', hl1, hall⟩ := addAll_join hd es ys hne hroom1
    have h2 := ih2 (s := (s.addAll hd xs).setBase (baseAfter s.extLbaBase q)) rfl hl1
      (by rw [← hl1]; exact hroom'.mpr hroom) (fun h => absurd h hne)
    rw [hall] at h2
    rw [baseOver_cons h5]
    by_cases hzero : s.extLbaBase = 0
    · have hafter : baseAfter s.extLbaBase q = q.startLba := if_pos hzero
      have htarget : q.startLba + s.extLbaBase = q.startLba := by rw [hzero, UInt32.add_zero]
      have h1 := ih1 (s := s.setBase q.startLba) hafter.symm rfl hroom1 (fun h => absurd h hne)
      rw [htarget, ScanState.addAll_setBase, baseOver_of_ne hne] at h1
      rw [htarget] at hmax
      exact .first h5 hzero hmax h1 h2
    · have hafter : baseAfter s.extLbaBase q = s.extLbaBase := if_neg hzero
      have h1 := ih1 (s := s) hafter.symm rfl hroom1 (fun h => absurd h hne)
      rw [baseOver_of_ne hne] at h1
      exact .further h5 hzero hmax h1 h2
  | @prim b q es n xs hv _ ih =>
    have hroom' := Room.prim_iff.mp hroom
    have hnext : (s.addPrim hd q).pNo = s.pNo + 1 := by
      have := hroom'.prims
      exact Nat.mod_eq_of_lt (by omega)
    rw [baseOver_cons_ne hv.2]
    exact .prim hv (by have := hroom'.prims; omega)
      (ih (s := s.addPrim hd q) hb hn (by rw [hnext]; exact hroom') hfirst)
  | @logic b lba q es n xs hv hlba hlt _ ih =>
    subst hn
    have hroom' := Room.logic_iff.mp hroom
    have hnext : (s.addLogic hd lba q).lNo = s.lNo + 1 := by
      have := hroom'.logics
      exact Nat.mod_eq_of_lt (by omega)
    rw [baseOver_cons_ne hv.2]
    exact .logic hv hlba hlt (ih (s := s.addLogic hd lba q) hb hnext hroom' hfirst)
  | @full b lba q es n hv hlba hle =>
    have hb0 : b ≠ 0 := fun h => hlba (hfirst h)
    have hl : n + 1 ≤ 8 := hroom.logics
    rw [baseOver_of_ne hb0, ← hb]
    exact .eighth hv hlba (by omega)

/-- **What a scan of a disk does**, with the counters reset before it. -/
theorem partitionScan_iff (hd : Nat) (hp : s.pNo = 0) (hl : s.lNo = 0) :
    (∃ fuel, partitionScan disk hd fuel 0 s = some s') ↔
      ∃ xs, Walk disk s.extLbaBase 0 (tableAt disk 0) 0 xs ∧ Room 0 0 xs ∧
        s' = (s.addAll hd xs).setBase (baseOver s.extLbaBase (tableAt disk 0)) := by
  rw [scan_iff]
  constructor
  · intro h
    have hwalk := h.2.walk (fun _ => ⟨rfl, rfl⟩) (by omega) (by omega)
    rwa [hp, hl] at hwalk
  · intro h
    obtain ⟨xs, hwalk, hroom, rfl⟩ := h
    exact ⟨Nat.zero_le _, hwalk.scan rfl hl (by rwa [hp]) (fun _ => rfl)⟩

end

/-! ## Disks with given tables -/

/-- An entry as it is on disk. -/
def PartitionTableEntry.toMem (p : PartitionTableEntry) : Mem :=
  ((Mem.zero.fill 4 p.fsType 1).wr32 8 p.startLba.toNat).wr32 12 p.secCnt.toNat

theorem PartitionTableEntry.ofMem_toMem (p : PartitionTableEntry) : .ofMem p.toMem 0 = p := by
  have hlba : p.startLba.toNat < 2 ^ 32 := p.startLba.toNat_lt
  have hcnt : p.secCnt.toNat < 2 ^ 32 := p.secCnt.toNat_lt
  apply PartitionTableEntry.ext
  · show p.toMem 4 = p.fsType
    rw [toMem, Mem.wr32, Mem.blit_out (by omega), Mem.wr32, Mem.blit_out (by omega)]
    exact Mem.blit_in (by omega) (by omega)
  · show UInt32.ofNat (p.toMem.rd32 8) = p.startLba
    rw [toMem, Mem.rd32_wr32_ne (by omega), Mem.rd32_wr32 hlba, UInt32.ofNat_toNat]
  · show UInt32.ofNat (p.toMem.rd32 12) = p.secCnt
    rw [toMem, Mem.rd32_wr32 hcnt, UInt32.ofNat_toNat]

/-- An entry that is not used. -/
def PartitionTableEntry.unused : PartitionTableEntry := ⟨0, 0, 0⟩

/-- The disk with the tables `f`. -/
def layTables (f : Nat → List PartitionTableEntry) : Mem := fun a =>
  let o := a % 512
  if o < 446 then 0
  else ((f (a / 512)).getD ((o - 446) / 16) .unused).toMem ((o - 446) % 16)

theorem layTables_byte {f : Nat → List PartitionTableEntry} {l i j : Nat} (hi : i < 4)
    (hj : j < 16) :
    layTables f (512 * l + (446 + 16 * i + j)) = ((f l).getD i .unused).toMem j := by
  have hmod : (512 * l + (446 + 16 * i + j)) % 512 = 446 + 16 * i + j := by omega
  have hdiv : (512 * l + (446 + 16 * i + j)) / 512 = l := by omega
  have hidx : (446 + 16 * i + j - 446) / 16 = i := by omega
  have hoff : (446 + 16 * i + j - 446) % 16 = j := by omega
  simp only [layTables, hmod, hdiv, hidx, hoff]
  exact if_neg (by omega)

/-- A table has four entries; those that are not given are not used. -/
theorem tableAt_layTables (f : Nat → List PartitionTableEntry) (lba : UInt32) :
    tableAt (layTables f) lba =
      (List.range 4).map fun i => (f lba.toNat).getD i .unused := by
  apply List.map_congr_left
  intro i hi
  have hi := List.mem_range.mp hi
  have hbyte : ∀ j, j < 16 → ((layTables f).shift (512 * lba.toNat)) (446 + 16 * i + j) =
      ((f lba.toNat).getD i .unused).toMem j := fun j hj => layTables_byte hi hj
  refine Eq.trans ?_ (PartitionTableEntry.ofMem_toMem _)
  rw [PartitionTableEntry.ofMem, PartitionTableEntry.ofMem, hbyte 4 (by omega)]
  have hword : ∀ j, j + 4 ≤ 16 →
      ((layTables f).shift (512 * lba.toNat)).rd32 (446 + 16 * i + j) =
        ((f lba.toNat).getD i .unused).toMem.rd32 (0 + j) := fun j hj =>
    Mem.rd32_congr fun k hk => by
      rw [Nat.add_assoc _ j k, hbyte _ (by omega), Nat.zero_add]
  rw [hword 8 (by omega), hword 12 (by omega)]

/-! ## Safety -/

/-- `prim_parts[4]` and `logic_parts[8]`. -/
def PartSlot.InBounds : PartSlot → Prop
  | .prim i => i < 4
  | .logic i => i < 8

/-- What `s'` has more than `s` is in the arrays of disk `hd`. -/
structure StoresInBounds (hd : Nat) (s s' : ScanState) : Prop where
  part : ∀ t, s'.part t ≠ s.part t → t.hd = hd ∧ t.slot.InBounds
  list : ∀ t ∈ s'.partitionList, t ∉ s.partitionList → t.hd = hd ∧ t.slot.InBounds

/-- The tables can be walked, and there is room for the partitions. -/
def Fits (disk : Mem) (b : UInt32) : Prop :=
  ∃ xs, Walk disk b 0 (tableAt disk 0) 0 xs ∧ Room 0 0 xs

theorem fillings_inBounds {hd : Nat} {xs : List Found} (hroom : Room 0 0 xs) {t : PartTag}
    (ht : t ∈ (fillings hd 0 0 xs).map Prod.fst) : t.hd = hd ∧ t.slot.InBounds := by
  have hp := hroom.prims
  have hl := hroom.logics
  obtain ⟨x, hx, rfl⟩ := List.mem_map.mp ht
  rcases mem_fillings.mp hx with ⟨i, e, hi, rfl⟩ | ⟨i, e, hi, rfl⟩
  · have hlt := (List.getElem?_eq_some_iff.mp hi).1
    exact ⟨rfl, show 0 + i < 4 by omega⟩
  · have hlt := (List.getElem?_eq_some_iff.mp hi).1
    exact ⟨rfl, show 0 + i < 8 by omega⟩

theorem addAll_inBounds {hd : Nat} {xs : List Found} {s : ScanState} (hp : s.pNo = 0)
    (hl : s.lNo = 0) (hroom : Room 0 0 xs) (b : UInt32) :
    StoresInBounds hd s ((s.addAll hd xs).setBase b) := by
  have hrec : Recorded hd s xs _ := addAll_recorded hd (by rwa [hp, hl])
  have hlist := hrec.list
  have hother := hrec.other
  rw [hp, hl] at hlist hother
  constructor
  · intro t ht
    by_contra hnot
    exact ht (hother t fun hmem => hnot (fillings_inBounds hroom hmem))
  · intro t ht hnew
    have ht : t ∈ (s.addAll hd xs).partitionList := ht
    rw [hlist] at ht
    exact fillings_inBounds hroom ((List.mem_append.mp ht).resolve_left hnew)

/-- **When the scan of a disk is safe.** It comes back, having stored in `prim_parts` and
`logic_parts` only, exactly if the tables can be walked to their end and hold at most three
primary and eight logical partitions. -/
theorem partition_scan_safe_iff {disk : Mem} {hd : Nat} {s : ScanState} (hp : s.pNo = 0)
    (hl : s.lNo = 0) :
    (∃ fuel s', partitionScan disk hd fuel 0 s = some s' ∧ StoresInBounds hd s s') ↔
      Fits disk s.extLbaBase := by
  constructor
  · intro h
    obtain ⟨fuel, s', hrun, -⟩ := h
    obtain ⟨xs, hwalk, hroom, -⟩ := (partitionScan_iff hd hp hl).mp ⟨fuel, hrun⟩
    exact ⟨xs, hwalk, hroom⟩
  · intro h
    obtain ⟨xs, hwalk, hroom⟩ := h
    obtain ⟨fuel, hrun⟩ := (partitionScan_iff hd hp hl).mpr ⟨xs, hwalk, hroom, rfl⟩
    exact ⟨fuel, _, hrun, addAll_inBounds hp hl hroom _⟩

/-- A disk with two primary partitions around an extended one, which has two logical
partitions. -/
def smallDisk : Mem := layTables fun l =>
  if l = 0 then [⟨0x83, 2048, 1000⟩, ⟨5, 4096, 2000⟩, ⟨0x83, 8000, 500⟩]
  else if l = 4096 then [⟨0x83, 63, 900⟩, ⟨5, 1000, 800⟩]
  else if l = 5096 then [⟨0x83, 63, 700⟩]
  else []

theorem smallDisk_tables :
    tableAt smallDisk 0 = [⟨0x83, 2048, 1000⟩, ⟨5, 4096, 2000⟩, ⟨0x83, 8000, 500⟩, .unused] ∧
    tableAt smallDisk 4096 = [⟨0x83, 63, 900⟩, ⟨5, 1000, 800⟩, .unused, .unused] ∧
    tableAt smallDisk 5096 = [⟨0x83, 63, 700⟩, .unused, .unused, .unused] :=
  ⟨tableAt_layTables _ 0, tableAt_layTables _ 4096, tableAt_layTables _ 5096⟩

theorem smallDisk_fits : Fits smallDisk 0 := by
  obtain ⟨h0, h1, h2⟩ := smallDisk_tables
  have hvalid : ∀ a b, PartitionTableEntry.Valid ⟨0x83, a, b⟩ := fun a b => ⟨by simp, by simp⟩
  have hinner : Walk smallDisk 4096 5096 (tableAt smallDisk 5096) 1
      [.logic 5096 ⟨0x83, 63, 700⟩] := by
    rw [h2]
    exact .logic (hvalid _ _) (by decide) (by omega) (.empty rfl (.empty rfl (.empty rfl .done)))
  have houter : Walk smallDisk 4096 4096 (tableAt smallDisk 4096) 0
      [.logic 4096 ⟨0x83, 63, 900⟩, .logic 5096 ⟨0x83, 63, 700⟩] := by
    rw [h1]
    have hrest : Walk smallDisk 4096 4096 [⟨5, 1000, 800⟩, .unused, .unused] 1
        ([.logic 5096 ⟨0x83, 63, 700⟩] ++ []) :=
      .sub rfl (by decide) (by decide) hinner (.empty rfl (.empty rfl .done))
    exact .logic (hvalid _ _) (by decide) (by omega) hrest
  refine ⟨[.prim ⟨0x83, 2048, 1000⟩, .logic 4096 ⟨0x83, 63, 900⟩, .logic 5096 ⟨0x83, 63, 700⟩,
    .prim ⟨0x83, 8000, 500⟩], ?_, ⟨by decide, by decide⟩⟩
  rw [h0]
  have hrest : Walk smallDisk 0 0 [⟨5, 4096, 2000⟩, ⟨0x83, 8000, 500⟩, .unused] 0
      ([.logic 4096 ⟨0x83, 63, 900⟩, .logic 5096 ⟨0x83, 63, 700⟩] ++ [.prim ⟨0x83, 8000, 500⟩]) :=
    .sub rfl (by decide) (by decide) houter (.prim (hvalid _ _) (.empty rfl .done))
  exact .prim (hvalid _ _) hrest

theorem partition_scan_safe_small : ∃ fuel s',
    partitionScan smallDisk 1 fuel 0 .init = some s' ∧ StoresInBounds 1 .init s' :=
  (partition_scan_safe_iff rfl rfl).mpr smallDisk_fits

/-- A walk of the first table meets all its partitions. -/
theorem Walk.prims_le {disk : Mem} {b lba : UInt32} {es : List PartitionTableEntry} {n : Nat}
    {xs : List Found} (h : Walk disk b lba es n xs) (hlba : lba = 0) :
    (es.filter fun p => p.Valid).length ≤ (primsOf xs).length := by
  induction h with
  | done => exact Nat.zero_le _
  | empty h0 _ ih =>
    rw [List.filter_cons_of_neg (by simp [PartitionTableEntry.Valid, h0])]
    exact ih hlba
  | sub h5 _ _ _ _ _ ih2 =>
    rw [List.filter_cons_of_neg (by simp [PartitionTableEntry.Valid, h5]), primsOf_append, List.length_append]
    exact Nat.le_add_left_of_le (ih2 hlba)
  | prim hv _ ih =>
    rw [List.filter_cons_of_pos (by simpa using hv)]
    exact Nat.succ_le_succ (ih hlba)
  | logic _ hne => exact absurd hlba hne
  | full _ hne => exact absurd hlba hne

/-- A disk whose first table has four primary partitions. -/
def fourPrimaries : Mem := layTables fun l =>
  if l = 0 then [⟨0x83, 2048, 1000⟩, ⟨0x83, 4096, 1000⟩, ⟨0x83, 6144, 1000⟩, ⟨0x83, 8192, 1000⟩]
  else []

/-- The fourth primary partition fails `ASSERT(p_no < 4)`. -/
theorem four_primaries_fail : ¬∃ fuel s',
    partitionScan fourPrimaries 1 fuel 0 .init = some s' ∧ StoresInBounds 1 .init s' := by
  intro h
  obtain ⟨fuel, s', hrun, -⟩ := h
  obtain ⟨xs, hwalk, hroom, -⟩ := (partitionScan_iff 1 rfl rfl).mp ⟨fuel, hrun⟩
  have htable : tableAt fourPrimaries 0 = [⟨0x83, 2048, 1000⟩, ⟨0x83, 4096, 1000⟩,
      ⟨0x83, 6144, 1000⟩, ⟨0x83, 8192, 1000⟩] := tableAt_layTables _ 0
  have hmany := hwalk.prims_le rfl
  have hfew := hroom.prims
  rw [htable] at hmany
  have hfour : (4 : Nat) ≤ (primsOf xs).length := hmany
  omega

end OsCore.Device
