import OsCore.Lib.Memory

/-!
# Bitmaps (`lib/kernel/bitmap.c`)

Every resource of the kernel (disk blocks, inodes, frames, virtual pages,
pids) is handed out through one of these. The functions below are the C
functions byte for byte: `bits` is what the pointer sees, so bytes past
`bytesLen` exist and are whatever lies after the map in memory.

`none` is a call that never comes back. `ASSERT` spins in `panic_spin` when its
condition fails, and `bitmapScan` asserts that some byte of the map is not
`0xff`, so an exhausted map halts the kernel before the `-1` behind it.

What the rest of the development uses is the bit view: `bit` reads one bit,
`bit_bitmapSet` says a store changes that bit only, and `bitmapScan_zero` says
every bit of a run that the scan returns is clear. The run may reach one bit
past the map (the second loop looks at bit `8 * bytesLen`), which is why the
bound there is not the map's own.
-/

namespace OsCore

/-- `ASSERT(c)`: carry on, or spin for ever. -/
def ensure (c : Prop) [Decidable c] : Option Unit := if c then some () else none

theorem ensure_eq_some {c : Prop} [Decidable c] {u : Unit} : ensure c = some u ↔ c := by
  unfold ensure
  split <;> simp [*]

@[simp] theorem ensure_pos {c : Prop} [Decidable c] (h : c) : ensure c = some () := if_pos h

@[simp] theorem ensure_neg {c : Prop} [Decidable c] (h : ¬c) : ensure c = none := if_neg h

/-- `struct bitmap`. -/
structure Bitmap where
  bytesLen : Nat
  bits : Mem

namespace Bitmap

/-- `bitmap_init`. -/
def bitmapInit (b : Bitmap) : Bitmap := { b with bits := b.bits.fill 0 0 b.bytesLen }

/-- `BITMAP_MASK << k`, truncated to a byte. -/
def mask (k : Nat) : UInt8 := UInt8.ofNat (1 <<< k)

/-- `bitmap_scan_test`. -/
def bitmapScanTest (b : Bitmap) (i : Nat) : Bool := (b.bits (i / 8) &&& mask (i % 8)) != 0

/-- `bitmap_set`, for `value` 0 or 1 (its `ASSERT` is the type `Bool`). -/
def bitmapSet (b : Bitmap) (i : Nat) (value : Bool) : Bitmap :=
  { b with bits := fun j =>
      if j = i / 8 then
        if value then b.bits j ||| mask (i % 8) else b.bits j &&& ~~~(mask (i % 8))
      else b.bits j }

/-- First loop of `bitmap_scan`: skip the full bytes. The fuel is `bytesLen`,
where the loop condition stops the search anyway. -/
def skipFull (b : Bitmap) : Nat → Nat → Nat
  | 0, idx => idx
  | n + 1, idx => if b.bits idx = 0xff ∧ idx < b.bytesLen then skipFull b n (idx + 1) else idx

/-- Second loop: the first clear bit of a byte (8 when there is none, where
the shifted mask has left the byte). -/
def skipSet (x : UInt8) : Nat → Nat → Nat
  | 0, k => k
  | n + 1, k => if mask k &&& x ≠ 0 then skipSet x n (k + 1) else k

/-- Third loop: count clear bits from `nextBit` on until `cnt` are in a row. -/
def scanRun (b : Bitmap) (cnt : Nat) : Nat → Nat → Nat → Int
  | 0, _, _ => -1
  | bitLeft + 1, nextBit, count =>
    let count := if !b.bitmapScanTest nextBit then count + 1 else 0
    if count = cnt then (nextBit : Int) - cnt + 1
    else scanRun b cnt bitLeft (nextBit + 1) count

/-- `bitmap_scan`. -/
def bitmapScan (b : Bitmap) (cnt : Nat) : Option Int := do
  let idxByte := b.skipFull b.bytesLen 0
  ensure (idxByte < b.bytesLen)
  if idxByte = b.bytesLen then return -1
  let idxBit := skipSet (b.bits idxByte) 8 0
  let bitIdxStart := idxByte * 8 + idxBit
  if cnt = 1 then return bitIdxStart
  return b.scanRun cnt (b.bytesLen * 8 - bitIdxStart) (bitIdxStart + 1) 1

/-! ## The bit view -/

/-- Bit `i` of the map. -/
def bit (b : Bitmap) (i : Nat) : Bool := (b.bits (i / 8)).toNat.testBit (i % 8)

theorem mask_toNat {k : Nat} (hk : k < 8) : (mask k).toNat = 2 ^ k := by
  have h : 2 ^ k < 2 ^ 8 := Nat.pow_lt_pow_right (by decide) hk
  rw [mask, UInt8.toNat_ofNat', Nat.shiftLeft_eq, Nat.one_mul, Nat.mod_eq_of_lt h]

theorem and_mask_ne_zero (x : UInt8) {k : Nat} (hk : k < 8) :
    x &&& mask k ≠ 0 ↔ x.toNat.testBit k = true := by
  have h : x &&& mask k = 0 ↔ x.toNat &&& 2 ^ k = 0 := by
    rw [← UInt8.toNat_inj, UInt8.toNat_and, mask_toNat hk]
    rfl
  have hk' : (x.toNat &&& 2 ^ k).testBit k = x.toNat.testBit k := by
    simp [Nat.testBit_and]
  rw [ne_eq, h]
  constructor
  · intro hne
    cases hx : x.toNat.testBit k with
    | true => rfl
    | false =>
      refine absurd (Nat.eq_of_testBit_eq fun i => ?_) hne
      rw [Nat.testBit_and, Nat.testBit_two_pow, Nat.zero_testBit]
      by_cases hi : k = i
      · rw [← hi, hx]; rfl
      · simp [hi]
  · intro hx he
    rw [he, Nat.zero_testBit, hx] at hk'
    exact absurd hk' (by simp)

theorem bitmapScanTest_eq (b : Bitmap) (i : Nat) : b.bitmapScanTest i = b.bit i := by
  have h := and_mask_ne_zero (b.bits (i / 8)) (Nat.mod_lt i (by decide : 0 < 8))
  unfold bitmapScanTest bit
  cases ht : (b.bits (i / 8)).toNat.testBit (i % 8) with
  | true => simpa using h.mpr ht
  | false =>
    rw [ht] at h
    simpa using h

theorem testBit_or_mask (x : UInt8) {k : Nat} (hk : k < 8) (j : Nat) :
    (x ||| mask k).toNat.testBit j = (decide (k = j) || x.toNat.testBit j) := by
  rw [UInt8.toNat_or, Nat.testBit_or, mask_toNat hk, Nat.testBit_two_pow, Bool.or_comm]

theorem testBit_and_not_mask (x : UInt8) {k j : Nat} (hk : k < 8) (hj : j < 8) :
    (x &&& ~~~(mask k)).toNat.testBit j = (!decide (k = j) && x.toNat.testBit j) := by
  have hlt := (mask k).toNat_lt
  have hnot : (~~~(mask k)).toNat = 2 ^ 8 - ((mask k).toNat + 1) := by
    rw [UInt8.toNat_not]
    show 256 - 1 - (mask k).toNat = 256 - ((mask k).toNat + 1)
    omega
  rw [UInt8.toNat_and, Nat.testBit_and, hnot, Nat.testBit_two_pow_sub_succ hlt, mask_toNat hk,
    Nat.testBit_two_pow, Bool.and_comm]
  simp [hj]

/-- **A store changes its own bit and no other.** -/
theorem bit_bitmapSet (b : Bitmap) (i j : Nat) (v : Bool) :
    (b.bitmapSet i v).bit j = if j = i then v else b.bit j := by
  have hi : i % 8 < 8 := Nat.mod_lt _ (by decide)
  have hj : j % 8 < 8 := Nat.mod_lt _ (by decide)
  unfold bit bitmapSet
  dsimp only
  by_cases hb : j / 8 = i / 8
  · rw [if_pos hb]
    have hiff : (i % 8 = j % 8) ↔ (j = i) := by omega
    cases v with
    | true => rw [if_pos rfl, testBit_or_mask _ hi]; by_cases h : j = i <;> simp [hiff, h]
    | false =>
      rw [if_neg (by decide), testBit_and_not_mask _ hi hj]
      by_cases h : j = i <;> simp [hiff, h]
  · rw [if_neg hb, if_neg (by rintro rfl; exact hb rfl)]

@[simp] theorem bytesLen_bitmapSet (b : Bitmap) (i : Nat) (v : Bool) :
    (b.bitmapSet i v).bytesLen = b.bytesLen := rfl

/-- The bits are the map. -/
theorem bits_ext {b b' : Bitmap} (h : ∀ i, b.bit i = b'.bit i) : b.bits = b'.bits := by
  funext k
  rw [← UInt8.toNat_inj]
  apply Nat.eq_of_testBit_eq
  intro j
  by_cases hj : j < 8
  · have hq : (8 * k + j) / 8 = k := by omega
    have hr : (8 * k + j) % 8 = j := by omega
    have hbit := h (8 * k + j)
    rwa [bit, bit, hq, hr] at hbit
  · have hhigh : ∀ x : UInt8, x.toNat.testBit j = false := fun x =>
      Nat.testBit_lt_two_pow (Nat.lt_of_lt_of_le x.toNat_lt (Nat.pow_le_pow_right (by decide)
        (Nat.le_of_not_lt hj)))
    rw [hhigh, hhigh]

/-- Setting a clear bit and clearing it again does nothing. -/
theorem bitmapSet_clear {b : Bitmap} {i : Nat} (h : b.bit i = false) :
    (b.bitmapSet i true).bitmapSet i false = b := by
  have hbits : ((b.bitmapSet i true).bitmapSet i false).bits = b.bits := by
    apply bits_ext
    intro j
    rw [bit_bitmapSet, bit_bitmapSet]
    split
    next hj => rw [hj, h]
    next => rfl
  cases b
  exact congrArg _ hbits

/-! ## What a scan returns -/

theorem skipSet_spec (x : UInt8) :
    ∀ (n k : Nat), k + n = 8 → (∃ j, k ≤ j ∧ j < 8 ∧ x.toNat.testBit j = false) →
      k ≤ skipSet x n k ∧ skipSet x n k < 8 ∧ x.toNat.testBit (skipSet x n k) = false ∧
        ∀ i, k ≤ i → i < skipSet x n k → x.toNat.testBit i = true := by
  intro n
  induction n with
  | zero => intro k hk ⟨j, h1, h2, _⟩; omega
  | succ n ih =>
    intro k hk hex
    have hmask : mask k &&& x ≠ 0 ↔ x.toNat.testBit k = true := by
      rw [UInt8.and_comm]; exact and_mask_ne_zero x (by omega)
    unfold skipSet
    split
    next hset =>
      have hbit := hmask.mp hset
      have hex' : ∃ j, k + 1 ≤ j ∧ j < 8 ∧ x.toNat.testBit j = false := by
        obtain ⟨j, h1, h2, h3⟩ := hex
        refine ⟨j, ?_, h2, h3⟩
        rcases Nat.lt_or_ge k j with hlt | hge
        · exact hlt
        · rw [show j = k by omega, hbit] at h3
          exact absurd h3 (by simp)
      obtain ⟨h1, h2, h3, h4⟩ := ih (k + 1) (by omega) hex'
      refine ⟨by omega, h2, h3, fun i hi hlt => ?_⟩
      rcases Nat.eq_or_lt_of_le hi with rfl | hlt'
      · exact hbit
      · exact h4 i hlt' hlt
    next hclr =>
      refine ⟨Nat.le_refl _, by omega, ?_, fun i hi hlt => by omega⟩
      rw [hmask] at hclr
      simpa using hclr

theorem skipFull_spec (b : Bitmap) :
    ∀ (n idx : Nat), idx + n = b.bytesLen →
      idx ≤ b.skipFull n idx ∧ b.skipFull n idx ≤ b.bytesLen ∧
      (∀ i, idx ≤ i → i < b.skipFull n idx → b.bits i = 0xff) ∧
      (b.skipFull n idx < b.bytesLen → b.bits (b.skipFull n idx) ≠ 0xff) := by
  intro n
  induction n with
  | zero => intro idx h; exact ⟨Nat.le_refl _, by simp [skipFull]; omega, fun i _ _ => by
      simp only [skipFull] at *; omega, fun hlt => by simp only [skipFull] at hlt; omega⟩
  | succ n ih =>
    intro idx h
    unfold skipFull
    split
    next hc =>
      obtain ⟨h1, h2, h3, h4⟩ := ih (idx + 1) (by omega)
      refine ⟨by omega, h2, fun i hi hlt => ?_, h4⟩
      rcases Nat.eq_or_lt_of_le hi with rfl | hlt'
      · exact hc.1
      · exact h3 i hlt' hlt
    next hc =>
      exact ⟨Nat.le_refl _, by omega, fun i _ _ => by omega, fun hlt he => hc ⟨he, hlt⟩⟩

theorem exists_clear_bit {x : UInt8} (h : x ≠ 0xff) : ∃ j, j < 8 ∧ x.toNat.testBit j = false := by
  apply Classical.byContradiction
  intro hno
  apply h
  rw [← UInt8.toNat_inj]
  apply Nat.eq_of_testBit_eq
  intro i
  have h255 : (0xff : UInt8).toNat = 2 ^ 8 - 1 := rfl
  rw [h255, Nat.testBit_two_pow_sub_one]
  by_cases hi : i < 8
  · cases hx : x.toNat.testBit i with
    | true => simp [hi]
    | false => exact absurd ⟨i, hi, hx⟩ hno
  · rw [Nat.testBit_lt_two_pow (Nat.lt_of_lt_of_le x.toNat_lt (Nat.pow_le_pow_right (by decide)
      (Nat.le_of_not_lt hi)))]
    simp [hi]

/-- The start the scan looks at first is the least clear bit of the map. -/
theorem firstClear_spec {b : Bitmap} (h : b.skipFull b.bytesLen 0 < b.bytesLen) :
    let i := b.skipFull b.bytesLen 0 * 8 + skipSet (b.bits (b.skipFull b.bytesLen 0)) 8 0
    i < 8 * b.bytesLen ∧ b.bit i = false ∧ ∀ j, j < i → b.bit j = true := by
  obtain ⟨-, -, h3, h4⟩ := skipFull_spec b b.bytesLen 0 (by omega)
  obtain ⟨j, hj, hz⟩ := exists_clear_bit (h4 h)
  obtain ⟨-, h6, h7, h8⟩ := skipSet_spec _ 8 0 rfl ⟨j, Nat.zero_le _, hj, hz⟩
  generalize b.skipFull b.bytesLen 0 = q at *
  generalize skipSet (b.bits q) 8 0 = r at *
  refine ⟨by omega, ?_, fun i hi => ?_⟩
  · rw [bit, show (q * 8 + r) / 8 = q by omega, show (q * 8 + r) % 8 = r by omega]
    exact h7
  · unfold bit
    by_cases hq : i / 8 < q
    · rw [h3 (i / 8) (Nat.zero_le _) hq]
      exact Nat.testBit_two_pow_sub_one 8 (i % 8) ▸ by simp [Nat.mod_lt]
    · rw [show i / 8 = q by omega]
      exact h8 (i % 8) (Nat.zero_le _) (by omega)

/-- `cnt = 1`: the answer is the least clear bit, and it lies in the map. -/
theorem bitmapScan_one {b : Bitmap} {r : Int} (h : b.bitmapScan 1 = some r) :
    ∃ i : Nat, r = i ∧ i < 8 * b.bytesLen ∧ b.bit i = false ∧ ∀ j, j < i → b.bit j = true := by
  unfold bitmapScan at h
  by_cases hlt : b.skipFull b.bytesLen 0 < b.bytesLen
  · have hne : b.skipFull b.bytesLen 0 ≠ b.bytesLen := by omega
    simp only [ensure_pos hlt, Option.bind_eq_bind, Option.bind_some, hne, if_false, if_true,
      Option.pure_def, Option.some.injEq] at h
    exact ⟨_, h.symm, firstClear_spec hlt⟩
  · simp [ensure_neg hlt] at h

/-- A map with a clear bit is never reported exhausted. -/
theorem bitmapScan_one_isSome {b : Bitmap} {i : Nat} (hi : i < 8 * b.bytesLen)
    (hz : b.bit i = false) : (b.bitmapScan 1).isSome = true := by
  obtain ⟨-, h2, h3, -⟩ := skipFull_spec b b.bytesLen 0 (by omega)
  have hlt : b.skipFull b.bytesLen 0 < b.bytesLen := by
    rcases Nat.lt_or_ge (b.skipFull b.bytesLen 0) b.bytesLen with hlt | hge
    · exact hlt
    · have hff := h3 (i / 8) (Nat.zero_le _) (by omega)
      unfold bit at hz
      rw [hff] at hz
      have h255 : (0xff : UInt8).toNat = 2 ^ 8 - 1 := rfl
      rw [h255, Nat.testBit_two_pow_sub_one] at hz
      simp [Nat.mod_lt] at hz
  have hne : b.skipFull b.bytesLen 0 ≠ b.bytesLen := by omega
  simp [bitmapScan, hlt, hne]

theorem scanRun_spec (b : Bitmap) (cnt : Nat) :
    ∀ (left next count : Nat), count ≤ next → (∀ j, j < count → b.bit (next - 1 - j) = false) →
      b.scanRun cnt left next count = -1 ∨
      ∃ i : Nat, b.scanRun cnt left next count = i ∧ i + cnt ≤ next + left ∧
        ∀ j, j < cnt → b.bit (i + j) = false := by
  intro left
  induction left with
  | zero => intro next count _ _; exact Or.inl rfl
  | succ left ih =>
    intro next count hle hz
    -- the counted suffix after looking at `next`
    have hcount : ∀ c, c = (if !b.bitmapScanTest next then count + 1 else 0) →
        c ≤ next + 1 ∧ ∀ j, j < c → b.bit (next + 1 - 1 - j) = false := by
      intro c hc
      rw [bitmapScanTest_eq] at hc
      cases hb : b.bit next with
      | true => rw [hb] at hc; simp at hc; subst hc; exact ⟨Nat.zero_le _, fun j hj => by omega⟩
      | false =>
        rw [hb] at hc; simp at hc; subst hc
        refine ⟨by omega, fun j hj => ?_⟩
        rcases Nat.eq_zero_or_pos j with rfl | hpos
        · exact hb
        · rw [show next + 1 - 1 - j = next - 1 - (j - 1) by omega]
          exact hz (j - 1) (by omega)
    unfold scanRun
    dsimp only
    obtain ⟨hc1, hc2⟩ := hcount _ rfl
    generalize (if !b.bitmapScanTest next then count + 1 else 0) = c at *
    split
    next heq =>
      refine Or.inr ⟨next + 1 - cnt, by omega, by omega, fun j hj => ?_⟩
      rw [show next + 1 - cnt + j = next + 1 - 1 - (cnt - 1 - j) by omega]
      exact hc2 _ (by omega)
    next hne =>
      rcases ih (next + 1) c hc1 hc2 with h | ⟨i, h1, h2, h3⟩
      · exact Or.inl h
      · exact Or.inr ⟨i, h1, by omega, h3⟩

/-- **A run that the scan returns is clear**, whatever lies behind the map. It
ends at most one bit past the map. -/
theorem bitmapScan_zero {b : Bitmap} {cnt : Nat} {r : Int} (hcnt : 0 < cnt)
    (h : b.bitmapScan cnt = some r) :
    r = -1 ∨ ∃ i : Nat, r = i ∧ i + cnt ≤ 8 * b.bytesLen + 1 ∧
      ∀ j, j < cnt → b.bit (i + j) = false := by
  by_cases h1 : cnt = 1
  · subst h1
    obtain ⟨i, hr, hi, hz, -⟩ := bitmapScan_one h
    exact Or.inr ⟨i, hr, by omega, fun j hj => by rw [show j = 0 by omega]; exact hz⟩
  · unfold bitmapScan at h
    by_cases hlt : b.skipFull b.bytesLen 0 < b.bytesLen
    · have hne : b.skipFull b.bytesLen 0 ≠ b.bytesLen := by omega
      simp only [ensure_pos hlt, Option.bind_eq_bind, Option.bind_some, hne, h1, if_false,
        Option.pure_def, Option.some.injEq] at h
      obtain ⟨hi, hz, -⟩ := firstClear_spec hlt
      generalize b.skipFull b.bytesLen 0 * 8
        + skipSet (b.bits (b.skipFull b.bytesLen 0)) 8 0 = s at *
      rcases scanRun_spec b cnt (b.bytesLen * 8 - s) (s + 1) 1 (by omega)
        (fun j hj => by rw [show j = 0 by omega]; exact hz) with hr | ⟨i, hr, hle, hb⟩
      · exact Or.inl (h.symm.trans hr)
      · exact Or.inr ⟨i, h.symm.trans hr, by omega, hb⟩
    · simp [ensure_neg hlt] at h

end Bitmap
end OsCore
