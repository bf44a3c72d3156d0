import OsCore.Kernel.Paging

/-!
# Which frame is whose

Frames are named in three kinds of places (`Slot`): the entries of the kernel's
tables for the heap, the entries of the directories of processes below
`0xc0000000`, which name tables, and the entries of those tables, which name
pages. `slotFrame` is what memory says about a place.

`Good` is the book-keeping: no frame is named in two places, the bit of a frame
is set exactly when it is named somewhere or is in somebody's hand (`held`:
taken from a pool and not yet entered, or about to be given back), heap frames
and tables are of the kernel's pool and pages are of the user pool, and the upper
quarter is the same in all directories. Each of the small steps that the code
takes keeps it, and changes what `slotFrame` says at one place.
-/

namespace OsCore.Paging

open OsCore.Lib

/-- The same with another memory. -/
def Mm.setMem (s : Mm) (mem : Phys) : Mm := { s with mem }

section

variable (s : Mm) (m : Phys)

@[simp] theorem Mm.setMem_mem : (s.setMem m).mem = m := rfl
@[simp] theorem Mm.setMem_cr3 : (s.setMem m).cr3 = s.cr3 := rfl
@[simp] theorem Mm.setMem_kernelPool : (s.setMem m).kernelPool = s.kernelPool := rfl
@[simp] theorem Mm.setMem_userPool : (s.setMem m).userPool = s.userPool := rfl
@[simp] theorem Mm.setMem_kernelVaddr : (s.setMem m).kernelVaddr = s.kernelVaddr := rfl
@[simp] theorem Mm.setMem_userVaddr : (s.setMem m).userVaddr = s.userVaddr := rfl
theorem Mm.store_eq (a w : Nat) : s.store a w = (storeWord s.mem s.cr3 a w).map s.setMem := rfl
@[simp] theorem Mm.setMem_setMem (m' : Phys) : (s.setMem m).setMem m' = s.setMem m' := rfl

end

/-! ## Places that name frames -/

/-- The address space of a process: the frame of its directory, and whether it has
not exited. -/
structure Space where
  dir : Nat
  alive : Bool

/-- The address spaces there are. -/
abbrev Spaces := Nat → Option Space

inductive Slot
  | heap (k : Nat)
  | table (p d : Nat)
  | page (p v : Nat)
  deriving DecidableEq

/-- The pages from `K_HEAP_START` up to the last 4 MB. -/
def heapMax : Nat := 255 * 1024 - 0x100

/-- The kernel's table for heap page `k`, of those the loader has set up. -/
def heapTable (k : Nat) : Nat := 0x101 + (0x100 + k) / 1024

/-- The entry for heap page `k`. -/
def heapWord (m : Phys) (k : Nat) : Nat := m (heapTable k) ((0x100 + k) % 1024)

/-- The frame an entry names, if it is there. -/
def entryFrame (w : Nat) : Option Nat := if Present w then some (frameOf w) else none

/-- The table of process `p` for the pages from `1024 * d` on. -/
def tableFrame (m : Phys) (S : Spaces) (p d : Nat) : Option Nat :=
  (S p).bind fun sp => if sp.alive = true ∧ d < 768 then entryFrame (m sp.dir d) else none

/-- The frame a place names. -/
def slotFrame (m : Phys) (S : Spaces) : Slot → Option Nat
  | .heap k => if k < heapMax then entryFrame (heapWord m k) else none
  | .table p d => tableFrame m S p d
  | .page p v => (tableFrame m S p (v / 1024)).bind fun t => entryFrame (m t (v % 1024))

/-- Upper quarter of a directory: the tables of the loader, and the directory
itself in the last entry. -/
structure KernelHalf (m : Phys) (dir : Nat) : Prop where
  tables : ∀ d, 768 ≤ d → d < 1023 → m dir d = entry ((0x101 + (d - 768)) * 4096)
  self : SelfMapped m dir

/-- The frame of the kernel's directory. -/
def kernelDir : Nat := 0x100

namespace Layout

/-- First frame of the user pool. -/
def userFrame (L : Layout) : Nat := 0x200 + L.kernelFreePages

/-- The frames of the kernel's pool. -/
def IsKernel (L : Layout) (f : Nat) : Prop := 0x200 ≤ f ∧ f < 0x200 + 8 * L.kbmLength

/-- The frames of the user pool. -/
def IsUser (L : Layout) (f : Nat) : Prop := L.userFrame ≤ f ∧ f < L.userFrame + 8 * L.ubmLength

theorem kernel_lt_user {L : Layout} {f : Nat} (h : L.IsKernel f) : f < L.userFrame := by
  have := L.kbmLength_le
  unfold IsKernel at h
  unfold userFrame
  omega

theorem userStart_eq (L : Layout) : L.userStart = L.userFrame * 4096 := by
  unfold userStart userFrame kernelStart
  omega

/-- The addresses that `palloc` makes of the bits. -/
theorem kernelAddr_eq (L : Layout) (i : Nat) : i * 4096 + L.kernelStart = (0x200 + i) * 4096 := by
  unfold kernelStart
  omega

theorem userAddr_eq (L : Layout) (i : Nat) :
    i * 4096 + L.userStart = (L.userFrame + i) * 4096 := by
  rw [L.userStart_eq]
  omega

/-- The frames of the two pools. -/
def IsFrame (L : Layout) (f : Nat) : Prop := L.IsKernel f ∨ L.IsUser f

theorem frame_ge {L : Layout} {f : Nat} (h : L.IsFrame f) : 0x200 ≤ f := by
  rcases h with h | h
  · exact h.1
  · have := h.1
    unfold userFrame at this
    omega

end Layout

/-- The bit of a frame in its pool. -/
def frameBit (L : Layout) (s : Mm) (f : Nat) : Bool :=
  if L.userFrame ≤ f then s.userPool.bit (f - L.userFrame) else s.kernelPool.bit (f - 0x200)

/-- The frame of a place is of the right pool. -/
def InPool (L : Layout) : Slot → Nat → Prop
  | .heap _, f => L.IsKernel f
  | .table _ _, f => L.IsKernel f
  | .page _ _, f => L.IsUser f

structure Good (L : Layout) (s : Mm) (S : Spaces) (held : Nat → Prop) : Prop where
  kernelLen : s.kernelPool.bytesLen = L.kbmLength
  userLen : s.userPool.bytesLen = L.ubmLength
  inj : ∀ x y f, slotFrame s.mem S x = some f → slotFrame s.mem S y = some f → x = y
  heldOut : ∀ x f, slotFrame s.mem S x = some f → ¬held f
  inPool : ∀ x f, slotFrame s.mem S x = some f → InPool L x f
  heldPool : ∀ f, held f → L.IsFrame f
  bit : ∀ f, L.IsFrame f →
    (frameBit L s f = true ↔ (∃ x, slotFrame s.mem S x = some f) ∨ held f)
  /-- the pages of low memory, in the first of the kernel's tables -/
  low : ∀ i, i < 256 → Present (s.mem 0x101 i)
  kernelDir : KernelHalf s.mem kernelDir
  dir : ∀ p sp, S p = some sp → KernelHalf s.mem sp.dir ∧
    ∃ k, slotFrame s.mem S (.heap k) = some sp.dir
  dirInj : ∀ p q a b, S p = some a → S q = some b → a.dir = b.dir → p = q
  cur : s.cr3 = Paging.kernelDir ∨ ∃ p sp, S p = some sp ∧ s.cr3 = sp.dir

/-- Nothing is in hand. -/
def noFrame : Nat → Prop := fun _ => False

/-! ## Entries -/

theorem entry_eq (f : Nat) : entry (f * 4096) = f * 4096 + 7 := by
  have h := Nat.two_pow_add_eq_or_of_lt (by decide : 7 < 2 ^ 12) f
  have hor : f * 4096 ||| 4 ||| 2 ||| 1 = f * 4096 ||| 7 := by
    rw [Nat.or_assoc, Nat.or_assoc]
    rfl
  rw [entry, hor, Nat.mul_comm f 4096]
  exact h.symm

@[simp] theorem present_entry (f : Nat) : Present (entry (f * 4096)) := by
  rw [entry_eq]
  unfold Present
  omega

@[simp] theorem frameOf_entry (f : Nat) : frameOf (entry (f * 4096)) = f := by
  rw [entry_eq]
  unfold frameOf
  omega

@[simp] theorem entryFrame_entry (f : Nat) : entryFrame (entry (f * 4096)) = some f := by
  rw [entryFrame, if_pos (present_entry f), frameOf_entry]

theorem entryFrame_eq_some {w f : Nat} : entryFrame w = some f ↔ Maps w f := by
  unfold entryFrame Maps
  split
  next h => simp [h]
  next h => simp [h]

theorem entryFrame_eq_none {w : Nat} : entryFrame w = none ↔ ¬Present w := by
  unfold entryFrame
  split
  next h => simp [h]
  next h => simp [h]

/-- `*pte &= ~PG_P_1`. -/
theorem entryFrame_removed (w : Nat) : entryFrame (w / 2 * 2) = none := by
  rw [entryFrame_eq_none]
  unfold Present
  omega

@[simp] theorem entryFrame_zero : entryFrame 0 = none := entryFrame_eq_none.mpr (by decide)

/-! ## The window at the end of the address space -/

section

variable {s : Mm}

theorem walk_pde (hself : SelfMapped s.mem s.cr3) {v : Nat} (hv : v < 2 ^ 32) :
    walk s.mem s.cr3 (pdePtr v / 4096) = some s.cr3 ∧ pdePtr v % 4096 / 4 = v / 0x400000 := by
  have hd : v / 0x400000 < 1024 := by omega
  have hpage : pdePtr v / 4096 = 1023 * 1024 + 1023 := by
    unfold pdePtr
    omega
  refine ⟨by rw [hpage]; exact walk_dir hself, ?_⟩
  unfold pdePtr
  omega

theorem walk_pte (hself : SelfMapped s.mem s.cr3) {v : Nat} (hv : v < 2 ^ 32) :
    walk s.mem s.cr3 (ptePtr v / 4096) = entryFrame (s.mem s.cr3 (v / 0x400000)) ∧
      ptePtr v % 4096 / 4 = v / 4096 % 1024 := by
  have hd : v / 0x400000 < 1024 := by omega
  have hi : v / 4096 % 1024 < 1024 := Nat.mod_lt _ (by decide)
  have hpage : ptePtr v / 4096 = 1023 * 1024 + v / 0x400000 := by
    unfold ptePtr
    omega
  refine ⟨by rw [hpage]; exact walk_table hself hd, ?_⟩
  unfold ptePtr
  omega

/-- `*pde_ptr(v)`. -/
theorem load_pde (hself : SelfMapped s.mem s.cr3) {v : Nat} (hv : v < 2 ^ 32) :
    s.load (pdePtr v) = some (s.mem s.cr3 (v / 0x400000)) := by
  obtain ⟨h1, h2⟩ := walk_pde hself hv
  rw [Mm.load, loadWord, h1, h2]
  rfl

theorem store_pde (hself : SelfMapped s.mem s.cr3) {v : Nat} (hv : v < 2 ^ 32) (w : Nat) :
    s.store (pdePtr v) w = some (s.setMem (s.mem.set s.cr3 (v / 0x400000) w)) := by
  obtain ⟨h1, h2⟩ := walk_pde hself hv
  rw [Mm.store, storeWord, h1, h2]
  rfl

/-- `*pte_ptr(v)`, when the table is there. -/
theorem load_pte (hself : SelfMapped s.mem s.cr3) {v t : Nat} (hv : v < 2 ^ 32)
    (ht : entryFrame (s.mem s.cr3 (v / 0x400000)) = some t) :
    s.load (ptePtr v) = some (s.mem t (v / 4096 % 1024)) := by
  obtain ⟨h1, h2⟩ := walk_pte hself hv
  rw [Mm.load, loadWord, h1, h2, ht]
  rfl

theorem store_pte (hself : SelfMapped s.mem s.cr3) {v t : Nat} (hv : v < 2 ^ 32)
    (ht : entryFrame (s.mem s.cr3 (v / 0x400000)) = some t) (w : Nat) :
    s.store (ptePtr v) w = some (s.setMem (s.mem.set t (v / 4096 % 1024) w)) := by
  obtain ⟨h1, h2⟩ := walk_pte hself hv
  rw [Mm.store, storeWord, h1, h2, ht]
  rfl

/-- `memset` of the table. -/
theorem clear_pte (hself : SelfMapped s.mem s.cr3) {v t : Nat} (hv : v < 2 ^ 32)
    (ht : entryFrame (s.mem s.cr3 (v / 0x400000)) = some t) :
    s.clearPage (ptePtr v) = some (s.setMem (s.mem.clear t)) := by
  obtain ⟨h1, -⟩ := walk_pte hself hv
  rw [Mm.clearPage, h1, ht]
  rfl

/-- **What `page_table_add` does**: it enters the frame where there was none, in a
table that was there or in a new one. -/
theorem pageTableAdd_cases {L : Layout} (hself : SelfMapped s.mem s.cr3) {v phy : Nat}
    (hv : v < 2 ^ 32) {s' : Mm} (hrun : pageTableAdd (pallocFrom L) s v phy = some s') :
    (∃ t, entryFrame (s.mem s.cr3 (v / 0x400000)) = some t ∧
      entryFrame (s.mem t (v / 4096 % 1024)) = none ∧ s.store (ptePtr v) (entry phy) = some s') ∨
    (entryFrame (s.mem s.cr3 (v / 0x400000)) = none ∧ ∃ r s1 s2 s3,
      pallocFrom L .kernel s = some (r, s1) ∧ s1.store (pdePtr v) (entry (r.getD 0)) = some s2 ∧
      s2.clearPage (ptePtr v) = some s3 ∧ s3.store (ptePtr v) (entry phy) = some s') := by
  unfold pageTableAdd at hrun
  rw [load_pde hself hv] at hrun
  simp only [Option.bind_eq_bind, Option.bind_some] at hrun
  split at hrun
  next hpres =>
    have ht : entryFrame (s.mem s.cr3 (v / 0x400000)) = some (frameOf (s.mem s.cr3 (v / 0x400000))) :=
      if_pos hpres
    rw [load_pte hself hv ht, Option.bind_some] at hrun
    obtain ⟨_, hno, hrun⟩ := Option.bind_eq_some_iff.mp hrun
    exact Or.inl ⟨_, ht, entryFrame_eq_none.mpr (ensure_eq_some.mp hno), hrun⟩
  next hpres =>
    obtain ⟨⟨r, s1⟩, hp, hrun⟩ := Option.bind_eq_some_iff.mp hrun
    obtain ⟨s2, h2, hrun⟩ := Option.bind_eq_some_iff.mp hrun
    obtain ⟨s3, h3, hrun⟩ := Option.bind_eq_some_iff.mp hrun
    obtain ⟨pte, -, hrun⟩ := Option.bind_eq_some_iff.mp hrun
    obtain ⟨_, -, hrun⟩ := Option.bind_eq_some_iff.mp hrun
    exact Or.inr ⟨entryFrame_eq_none.mpr hpres, r, s1, s2, s3, hp, h2, h3, hrun⟩

end

/-! ## Where directories and tables are -/

section

variable {L : Layout} {s : Mm} {S : Spaces} {held : Nat → Prop}

theorem heapTable_lt {k : Nat} (hk : k < heapMax) : heapTable k < 0x200 := by
  unfold heapMax at hk
  unfold heapTable
  omega

theorem Good.dir_kernel (hg : Good L s S held) {p : Nat} {sp : Space} (hp : S p = some sp) :
    L.IsKernel sp.dir := by
  obtain ⟨-, k, hk⟩ := hg.dir p sp hp
  exact hg.inPool _ _ hk

theorem Good.table_kernel (hg : Good L s S held) {p d t : Nat} (ht : tableFrame s.mem S p d = some t) :
    L.IsKernel t :=
  hg.inPool (.table p d) t ht

/-- A table is no directory. -/
theorem Good.table_ne_dir (hg : Good L s S held) {p d t q : Nat} {sp : Space}
    (ht : tableFrame s.mem S p d = some t) (hq : S q = some sp) : t ≠ sp.dir := by
  intro heq
  subst heq
  obtain ⟨-, k, hk⟩ := hg.dir q sp hq
  exact absurd (hg.inj (.table p d) (.heap k) _ ht hk) (by simp)

theorem Good.self (hg : Good L s S held) : KernelHalf s.mem s.cr3 := by
  rcases hg.cur with hc | ⟨p, sp, hp, hc⟩
  · rw [hc]
    exact hg.kernelDir
  · rw [hc]
    exact (hg.dir p sp hp).1

theorem tableFrame_some {m : Phys} {p d t : Nat} : tableFrame m S p d = some t ↔
    ∃ sp, S p = some sp ∧ sp.alive = true ∧ d < 768 ∧ entryFrame (m sp.dir d) = some t := by
  unfold tableFrame
  rw [Option.bind_eq_some_iff]
  constructor
  · intro hin
    obtain ⟨sp, hp, ht⟩ := hin
    split at ht
    next h => exact ⟨sp, hp, h.1, h.2, ht⟩
    next => exact absurd ht (by simp)
  · intro hin
    obtain ⟨sp, hp, ha, hd, ht⟩ := hin
    exact ⟨sp, hp, by rw [if_pos ⟨ha, hd⟩]; exact ht⟩

theorem tableFrame_eq {m : Phys} {p d : Nat} {sp : Space} (hp : S p = some sp) (ha : sp.alive = true)
    (hd : d < 768) : tableFrame m S p d = entryFrame (m sp.dir d) := by
  rw [tableFrame, hp, Option.bind_some, if_pos ⟨ha, hd⟩]

/-! ## Writes and what they change -/

theorem KernelHalf.congr {m m' : Phys} {dir : Nat} (h : KernelHalf m dir)
    (hm : ∀ d, 768 ≤ d → d < 1024 → m' dir d = m dir d) : KernelHalf m' dir := by
  refine ⟨fun d h1 h2 => ?_, ?_⟩
  · rw [hm d h1 (by omega)]
    exact h.tables d h1 h2
  · unfold SelfMapped
    rw [hm 1023 (by decide) (by decide)]
    exact h.self

/-- What a place says depends on one word, and that of a page also on the word
that names its table. -/
theorem slotFrame_congr {m m' : Phys} (hheap : ∀ k, k < heapMax → heapWord m' k = heapWord m k)
    (hdir : ∀ p sp d, S p = some sp → d < 768 → m' sp.dir d = m sp.dir d)
    (htable : ∀ p d t i, tableFrame m S p d = some t → i < 1024 → m' t i = m t i) (x : Slot) :
    slotFrame m' S x = slotFrame m S x := by
  have htab : ∀ p d, tableFrame m' S p d = tableFrame m S p d := by
    intro p d
    unfold tableFrame
    cases hp : S p with
    | none => rfl
    | some sp =>
      simp only [Option.bind_some]
      split
      next h => rw [hdir p sp d hp h.2]
      next => rfl
  cases x with
  | heap k =>
    simp only [slotFrame]
    split
    next hk => rw [hheap k hk]
    next => rfl
  | table p d => exact htab p d
  | page p v =>
    simp only [slotFrame, htab]
    cases ht : tableFrame m S p (v / 1024) with
    | none => rfl
    | some t =>
      simp only [Option.bind_some]
      rw [htable p _ t _ ht (Nat.mod_lt _ (by decide))]

theorem heapWord_out {m m' : Phys} (hm : ∀ g j, g < 0x200 → m' g j = m g j) {k : Nat} (hk : k < heapMax) :
    heapWord m' k = heapWord m k := hm _ _ (heapTable_lt hk)

/-- Writes to a frame that is neither a directory nor a table change no place. -/
theorem slotFrame_data {m' : Phys} {f : Nat} (hf : 0x200 ≤ f)
    (hdir : ∀ p sp, S p = some sp → sp.dir ≠ f) (htable : ∀ p d, tableFrame s.mem S p d ≠ some f)
    (hm : ∀ g j, g ≠ f → m' g j = s.mem g j) (x : Slot) : slotFrame m' S x = slotFrame s.mem S x := by
  refine slotFrame_congr (fun k hk => ?_) (fun p sp d hp _ => ?_) (fun p d t i ht _ => ?_) x
  · exact heapWord_out (fun g j hg => hm g j (by omega)) hk
  · exact hm _ _ (hdir p sp hp)
  · apply hm _ _
    intro heq
    subst heq
    exact htable p d ht

/-- An entry of the kernel's tables. -/
theorem Good.slotFrame_heap (hg : Good L s S held) {k w : Nat} (hk : k < heapMax) (x : Slot) :
    slotFrame (s.mem.set (heapTable k) ((0x100 + k) % 1024) w) S x =
      if x = .heap k then entryFrame w else slotFrame s.mem S x := by
  have hlt := heapTable_lt hk
  by_cases hx : x = .heap k
  · rw [if_pos hx, hx]
    simp only [slotFrame, if_pos hk]
    exact congrArg entryFrame (Phys.set_same _ _ _ _)
  · rw [if_neg hx]
    cases x with
    | heap j =>
      simp only [slotFrame]
      split
      next hj =>
        have hjk : j ≠ k := fun h => hx (by rw [h])
        refine congrArg entryFrame (Phys.set_ne ?_)
        unfold heapTable
        omega
      next => rfl
    | table p d =>
      simp only [slotFrame, tableFrame]
      cases hp : S p with
      | none => rfl
      | some sp =>
        simp only [Option.bind_some]
        have := (hg.dir_kernel hp).1
        rw [Phys.set_ne (Or.inl (by omega))]
    | page p v =>
      have htab : ∀ d, tableFrame (s.mem.set (heapTable k) ((0x100 + k) % 1024) w) S p d =
          tableFrame s.mem S p d := by
        intro d
        unfold tableFrame
        cases hp : S p with
        | none => rfl
        | some sp =>
          simp only [Option.bind_some]
          have := (hg.dir_kernel hp).1
          rw [Phys.set_ne (Or.inl (by omega))]
      simp only [slotFrame, htab]
      cases ht : tableFrame s.mem S p (v / 1024) with
      | none => rfl
      | some t =>
        simp only [Option.bind_some]
        have := (hg.table_kernel ht).1
        rw [Phys.set_ne (Or.inl (by omega))]

end

end OsCore.Paging
