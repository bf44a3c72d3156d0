import OsCore.Fs.File
import OsCore.Lib.Ledger

/-!
# Blocks of an inode, and what an operation may do to them

`fileBlock` is the address of block `k` of an inode (direct slot or table
entry), `slot` adds the table itself as slot 140: these 141 slots are the
places an inode keeps block addresses in. That no block is in two slots, of
one inode or of two, is a `Ledger` over them.

`Rewrites v i v' i'` is the contract every block operation meets. It looks at
the two ends only: a slot of `i'` is empty, as before, or a block that was free
(no two of these alike); blocks of other inodes stay marked; and in the data
area nothing changes outside the blocks of `i` and `i'`. So an inode that is
not the operation's own keeps its slots and the bytes in them
(`Rewrites.slot_other`), and a ledger over many inodes survives
(`Rewrites.ledger`).
-/

namespace OsCore.Fs

variable {p : Partition}

/-- Address of block `k < 140`, 0 when there is none. -/
def fileBlock (disk : Mem) (ino : Inode) (k : Nat) : Nat :=
  if k < 12 then ino.sec k
  else if k < 140 ∧ ino.sec 12 ≠ 0 then disk.rd32 (512 * ino.sec 12 + 4 * (k - 12))
  else 0

/-- Slot `k ≤ 140`: the blocks, and last the table that lists them. -/
def slot (disk : Mem) (ino : Inode) (k : Nat) : Nat :=
  if k = 140 then ino.sec 12 else fileBlock disk ino k

@[simp] theorem slot_table (disk : Mem) (ino : Inode) : slot disk ino 140 = ino.sec 12 := if_pos rfl

theorem slot_block (disk : Mem) (ino : Inode) {k : Nat} (h : k < 140) :
    slot disk ino k = fileBlock disk ino k := if_neg (by omega)

theorem fileBlock_direct (disk : Mem) (ino : Inode) {k : Nat} (h : k < 12) :
    fileBlock disk ino k = ino.sec k := if_pos h

theorem fileBlock_indirect (disk : Mem) {ino : Inode} {k : Nat} (h1 : 12 ≤ k) (h2 : k < 140)
    (h : ino.sec 12 ≠ 0) :
    fileBlock disk ino k = disk.rd32 (512 * ino.sec 12 + 4 * (k - 12)) := by
  rw [fileBlock, if_neg (by omega), if_pos ⟨h2, h⟩]

theorem fileBlock_ge (disk : Mem) (ino : Inode) {k : Nat} (h : 140 ≤ k) :
    fileBlock disk ino k = 0 := by
  rw [fileBlock, if_neg (by omega), if_neg (by omega)]

theorem fileBlock_no_table (disk : Mem) {ino : Inode} {k : Nat} (h1 : 12 ≤ k)
    (h : ino.sec 12 = 0) : fileBlock disk ino k = 0 := by
  rw [fileBlock, if_neg (by omega), if_neg (by simp [h])]

theorem table_of_fileBlock {disk : Mem} {ino : Inode} {k : Nat} (h1 : 12 ≤ k)
    (h : fileBlock disk ino k ≠ 0) : ino.sec 12 ≠ 0 :=
  fun h0 => h (fileBlock_no_table disk h1 h0)

theorem fileBlock_lt (disk : Mem) (ino : Inode) (k : Nat) : fileBlock disk ino k < 2 ^ 32 := by
  unfold fileBlock
  split
  · exact ino.sec_lt k
  · split
    · exact Mem.rd32_lt _ _
    · decide

/-- The slots of an inode are read from its struct and its table's sector. -/
theorem fileBlock_congr {d d' : Mem} {ino ino' : Inode} (hsec : ∀ k, ino'.sec k = ino.sec k)
    (h : ino.sec 12 ≠ 0 → ∀ a, a / 512 = ino.sec 12 → d' a = d a) (k : Nat) :
    fileBlock d' ino' k = fileBlock d ino k := by
  unfold fileBlock
  rw [hsec, hsec]
  split
  · rfl
  · split
    next hk =>
      refine Mem.rd32_congr fun i hi => h hk.2 _ ?_
      omega
    next => rfl

theorem slot_congr {d d' : Mem} {ino ino' : Inode} (hsec : ∀ k, ino'.sec k = ino.sec k)
    (h : ino.sec 12 ≠ 0 → ∀ a, a / 512 = ino.sec 12 → d' a = d a) (k : Nat) :
    slot d' ino' k = slot d ino k := by
  unfold slot
  split
  · exact hsec 12
  · exact fileBlock_congr hsec h k

/-! ## The contract -/

/-- `b` was free in `v` and is handed out in `v'`. -/
structure Fresh (v v' : Vol p) (b : Nat) : Prop where
  data : p.dataStartLba ≤ b
  word : b < 2 ^ 31
  free : ¬v.Used b
  used : v'.Used b

theorem dataStartLba_pos (p : Partition) : 0 < p.dataStartLba := by
  rw [Partition.dataStartLba_eq]
  omega

theorem Fresh.ne_zero {v v' : Vol p} {b : Nat} (h : Fresh v v' b) : b ≠ 0 := by
  have h1 := dataStartLba_pos p
  have h2 := h.data
  omega

/-- The slots of an inode that may be gone. -/
def slots (disk : Mem) : Option Inode → Nat → Nat
  | some i, k => slot disk i k
  | none, _ => 0

@[simp] theorem slots_some (disk : Mem) (i : Inode) (k : Nat) :
    slots disk (some i) k = slot disk i k := rfl

@[simp] theorem slots_none (disk : Mem) (k : Nat) : slots disk none k = 0 := rfl

/-- What a block operation on inode `i` may do; `i'` is the inode afterwards,
`none` when the operation gave it up. -/
structure Rewrites (v : Vol p) (i : Inode) (v' : Vol p) (i' : Option Inode) : Prop where
  old : ∀ k, slots v'.disk i' k = 0 ∨ slots v'.disk i' k = slot v.disk i k ∨
    Fresh v v' (slots v'.disk i' k)
  inj : ∀ k l, slots v'.disk i' k = slots v'.disk i' l → Fresh v v' (slots v'.disk i' k) → k = l
  used : ∀ k, slots v'.disk i' k ≠ 0 → v'.Used (slots v'.disk i' k)
  others : ∀ b, v.Used b → (∀ k, slot v.disk i k ≠ b) → v'.Used b
  frame : ∀ a, 512 * p.dataStartLba ≤ a → (∀ k, slot v.disk i k ≠ a / 512) →
    (∀ k, slots v'.disk i' k ≠ a / 512) → v'.disk a = v.disk a

/-- The inodes of a table hold their blocks without sharing, and every block
held is marked in the bitmap. -/
def Owned {N : Type} (v : Vol p) (ino : N → Option Inode) : Prop :=
  Ledger 0 (fun s : N × Nat => slots v.disk (ino s.1) s.2) v.Used

namespace Rewrites

variable {N : Type} {v v' : Vol p} {i j : Inode} {i' : Option Inode} {ino ino' : N → Option Inode}

/-- A block of another inode is neither an old nor a new block of this one. -/
theorem ne_other (h : Rewrites v i v' i') {b : Nat} (hb : b ≠ 0) (hu : v.Used b)
    (hi : ∀ k, slot v.disk i k ≠ b) (k : Nat) : slots v'.disk i' k ≠ b := by
  intro he
  rcases h.old k with h0 | h1 | h2
  · exact hb (he ▸ h0)
  · exact hi k (h1 ▸ he)
  · exact h2.free (he ▸ hu)

/-- The data bytes of another inode's blocks stay as they are. -/
theorem bytes_other (h : Rewrites v i v' i') {b a : Nat} (hb : b ≠ 0) (hu : v.Used b)
    (hi : ∀ k, slot v.disk i k ≠ b) (ha : a / 512 = b) : v'.disk a = v.disk a := by
  refine h.frame a ?_ (fun l => ?_) (fun l => ?_)
  · have := hu.1
    omega
  · rw [ha]
    exact hi l
  · rw [ha]
    exact h.ne_other hb hu hi l

/-- **Another inode keeps its slots**: its table is not among the blocks that change. -/
theorem slot_other (h : Rewrites v i v' i') (hj : j.sec 12 ≠ 0 → v.Used (j.sec 12))
    (hij : j.sec 12 ≠ 0 → ∀ k, slot v.disk i k ≠ j.sec 12) (k : Nat) :
    slot v'.disk j k = slot v.disk j k :=
  slot_congr (fun _ => rfl) (fun hne _ ha => h.bytes_other hne (hj hne) (hij hne) ha) k

/-- **Ownership survives** an operation on inode `n` of a table. -/
theorem owned {n : N} (h : Rewrites v i v' (ino' n)) (hn : ino n = some i)
    (hsame : ∀ m, m ≠ n → ino' m = ino m) (ho : Owned v ino) : Owned v' ino' := by
  -- no slot of another inode holds a block of `n`
  have hcross : ∀ m, m ≠ n → ∀ k, slots v.disk (ino m) k ≠ 0 →
      ∀ l, slot v.disk i l ≠ slots v.disk (ino m) k := by
    intro m hm k hk l he
    have := ho.inj (m, k) (n, l) (by simp only [hn, slots_some]; exact he.symm) hk
    exact hm (congrArg Prod.fst this)
  have hother : ∀ m, m ≠ n → ∀ k, slots v'.disk (ino' m) k = slots v.disk (ino m) k := by
    intro m hm k
    rw [hsame m hm]
    cases hj : ino m with
    | none => rfl
    | some j =>
      have hu : j.sec 12 ≠ 0 → v.Used (j.sec 12) := fun h0 => by
        simpa [hj] using ho.used (m, 140) (by simpa [hj] using h0)
      have hx : j.sec 12 ≠ 0 → ∀ l, slot v.disk i l ≠ j.sec 12 := fun h0 l => by
        simpa [hj] using hcross m hm 140 (by simpa [hj] using h0) l
      exact h.slot_other hu hx k
  refine ho.step ?_ ?_ ?_
  · intro hin
    obtain ⟨m, k⟩ := hin
    by_cases hm : m = n
    · subst hm
      rcases h.old k with h0 | h1 | h2
      · exact Or.inl h0
      · exact Or.inr (Or.inl (by simp only [hn, slots_some]; exact h1))
      · exact Or.inr (Or.inr h2.free)
    · exact Or.inr (Or.inl (hother m hm k))
  · -- a block that was free can only be a new block of `n`
    have hfresh : ∀ m k, slots v'.disk (ino' m) k ≠ 0 → ¬v.Used (slots v'.disk (ino' m) k) →
        m = n ∧ Fresh v v' (slots v'.disk (ino' m) k) := by
      intro m k h0 hfree
      by_cases hm : m = n
      · subst hm
        rcases h.old k with h1 | h2 | h3
        · exact absurd h1 h0
        · have := ho.used (m, k) (by simp only [hn, slots_some, ← h2]; exact h0)
          simp only [hn, slots_some, ← h2] at this
          exact absurd this hfree
        · exact ⟨rfl, h3⟩
      · rw [hother m hm k] at h0 hfree
        exact absurd (ho.used (m, k) h0) hfree
    intro hin hin2 he h0 hfree
    obtain ⟨m, k⟩ := hin
    obtain ⟨m', l⟩ := hin2
    dsimp only at he h0 hfree
    obtain ⟨rfl, hf⟩ := hfresh m k h0 hfree
    obtain ⟨rfl, -⟩ := hfresh m' l (he ▸ h0) (he ▸ hfree)
    rw [h.inj k l he hf]
  · intro hin h0
    obtain ⟨m, k⟩ := hin
    by_cases hm : m = n
    · subst hm
      exact h.used k h0
    · rw [hother m hm k] at h0 ⊢
      exact h.others _ (ho.used (m, k) h0) fun l => hcross m hm k h0 l

end Rewrites

/-! ## One inode taking blocks -/

/-- The slots of one inode hold no block twice, and what they hold is marked. -/
def Held (v : Vol p) (ino : Inode) : Prop := Ledger 0 (slot v.disk ino) v.Used

theorem Held.table {v : Vol p} {ino : Inode} (h : Held v ino) (hne : ino.sec 12 ≠ 0) :
    p.dataStartLba ≤ ino.sec 12 := by
  have := (h.used 140 (by rw [slot_table]; exact hne)).1
  rwa [slot_table] at this

theorem Held.block {v : Vol p} {ino : Inode} (h : Held v ino) {k : Nat} (hk : k < 140)
    (hne : fileBlock v.disk ino k ≠ 0) :
    p.dataStartLba ≤ fileBlock v.disk ino k ∧ fileBlock v.disk ino k ≠ ino.sec 12 := by
  rw [← slot_block v.disk ino hk] at hne ⊢
  refine ⟨(h.used k hne).1, fun he => ?_⟩
  have := h.inj k 140 (by rw [slot_table]; exact he) hne
  omega

theorem Held.block_inj {v : Vol p} {ino : Inode} (h : Held v ino) {k l : Nat} (hk : k < 140)
    (hl : l < 140) (hne : fileBlock v.disk ino k ≠ 0)
    (he : fileBlock v.disk ino k = fileBlock v.disk ino l) : k = l := by
  rw [← slot_block v.disk ino hk] at hne he
  rw [← slot_block v.disk ino hl] at he
  exact h.inj k l he hne

theorem Owned.held {N : Type} {v : Vol p} {ino : N → Option Inode} {n : N} {i : Inode}
    (h : Owned v ino) (hn : ino n = some i) : Held v i := by
  have hs : ∀ k, slots v.disk (ino n) k = slot v.disk i k := fun k => by rw [hn, slots_some]
  refine ⟨fun k l he hne => ?_, fun k hne => ?_⟩
  · have := h.inj (n, k) (n, l) (by simp only [hs]; exact he) (by simp only [hs]; exact hne)
    exact congrArg Prod.snd this
  · have := h.used (n, k) (by simp only [hs]; exact hne)
    simpa only [hs] using this

/-- Slots keep what they hold or take a block that was free, no two the same. -/
structure Extends (v : Vol p) (ino : Inode) (v' : Vol p) (ino' : Inode) : Prop where
  mono : ∀ b, v.Used b → v'.Used b
  each : ∀ k, slot v'.disk ino' k = slot v.disk ino k ∨ Fresh v v' (slot v'.disk ino' k)
  inj : ∀ k l, slot v'.disk ino' k = slot v'.disk ino' l →
    Fresh v v' (slot v'.disk ino' k) → k = l

theorem Extends.refl (v : Vol p) (ino : Inode) : Extends v ino v ino :=
  ⟨fun _ h => h, fun _ => Or.inl rfl, fun _ _ _ hf => absurd hf.used hf.free⟩

theorem Extends.held {v v' : Vol p} {ino ino' : Inode} (he : Extends v ino v' ino')
    (h : Held v ino) : Held v' ino' := by
  have hused : ∀ k, slot v'.disk ino' k ≠ 0 → v'.Used (slot v'.disk ino' k) := by
    intro k hne
    rcases he.each k with hs | hf
    · rw [hs] at hne ⊢
      exact he.mono _ (h.used k hne)
    · exact hf.used
  refine h.step (fun k => ?_) (fun k l hkl hne hfree => ?_) hused
  · rcases he.each k with hs | hf
    · exact Or.inr (Or.inl hs)
    · exact Or.inr (Or.inr hf.free)
  · rcases he.each k with hs | hf
    · rw [hs] at hne hfree
      exact absurd (h.used k hne) hfree
    · exact he.inj k l hkl hf

theorem Extends.trans {u v w : Vol p} {i j l : Inode} (hu : Held u i) (h1 : Extends u i v j)
    (h2 : Extends v j w l) : Extends u i w l := by
  have hmono : ∀ b, u.Used b → w.Used b := fun b hb => h2.mono b (h1.mono b hb)
  have hv := h1.held hu
  -- a block new since `u` is new since `v`, or was taken on the way to `v`
  have hsplit : ∀ k, Fresh u w (slot w.disk l k) → Fresh v w (slot w.disk l k) ∨
      (slot w.disk l k = slot v.disk j k ∧ Fresh u v (slot v.disk j k)) := by
    intro k hf
    rcases h2.each k with hs | hf2
    · refine Or.inr ⟨hs, ?_⟩
      rcases h1.each k with hs1 | hf1
      · rw [hs, hs1] at hf
        exact absurd (hu.used k hf.ne_zero) hf.free
      · exact hf1
    · exact Or.inl hf2
  refine ⟨hmono, fun k => ?_, fun k m he hf => ?_⟩
  · rcases h2.each k with hs | hf2
    · rcases h1.each k with hs1 | hf1
      · exact Or.inl (hs.trans hs1)
      · rw [hs]
        exact Or.inr ⟨hf1.data, hf1.word, hf1.free, h2.mono _ hf1.used⟩
    · exact Or.inr ⟨hf2.data, hf2.word, fun hb => hf2.free (h1.mono _ hb), hf2.used⟩
  · rcases hsplit k hf with hk | ⟨hk, hk1⟩
    · exact h2.inj k m he hk
    · rcases hsplit m (he ▸ hf) with hm | ⟨hm, -⟩
      · rw [← he, hk] at hm
        exact absurd hk1.used hm.free
      · exact h1.inj k m (by rw [← hk, ← hm, he]) hk1

/-- Slots and marks that read the same extend the same. -/
theorem Extends.congr {v v' w : Vol p} {ino ino' l : Inode} (h : Extends v ino v' ino')
    (hu : ∀ b, w.Used b ↔ v'.Used b) (hs : ∀ k, slot w.disk l k = slot v'.disk ino' k) :
    Extends v ino w l := by
  have hf : ∀ b, Fresh v w b ↔ Fresh v v' b := fun b =>
    ⟨fun h => ⟨h.data, h.word, h.free, (hu b).mp h.used⟩,
      fun h => ⟨h.data, h.word, h.free, (hu b).mpr h.used⟩⟩
  refine ⟨fun b hb => (hu b).mpr (h.mono b hb), fun k => ?_, fun k m he hk => ?_⟩
  · rw [hs, hf]
    exact h.each k
  · rw [hs, hs] at he
    rw [hs, hf] at hk
    exact h.inj k m he hk

/-- An inode that only takes blocks, and writes only to its own, meets the
contract of a block operation. -/
theorem Extends.rewrites {v v' : Vol p} {ino ino' : Inode} (h : Extends v ino v' ino')
    (hv : Held v ino)
    (hframe : ∀ a, 512 * p.dataStartLba ≤ a → (∀ k, slot v'.disk ino' k ≠ a / 512) →
      v'.disk a = v.disk a) : Rewrites v ino v' (some ino') where
  old k := Or.inr (h.each k)
  inj := h.inj
  used := (h.held hv).used
  others b hb _ := h.mono b hb
  frame a ha _ hk := hframe a ha hk

end OsCore.Fs
