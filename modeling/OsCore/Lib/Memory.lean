import Mathlib

/-!
# Byte memory

A buffer, a bitmap and a disk are all the same thing to the C code: bytes
behind a pointer. `Mem` is that view, a total map from offset to byte, so a
pointer bump is `shift` and `memcpy` into it is `blit`. Nothing here bounds an
access; a caller that must not run past an end carries that bound itself.

Words are little-endian 32-bit. `rd32`/`wr32` work at a byte offset and speak
`Nat`; `words`/`ofWords` move whole word arrays, for the tables of block
addresses that are stored as raw sectors.
-/

namespace OsCore

/-- Bytes behind a pointer. -/
abbrev Mem := Nat → UInt8

namespace Mem

/-- The memory seen from `a` bytes further on. -/
def shift (m : Mem) (a : Nat) : Mem := fun i => m (a + i)

/-- `memcpy(dst + a, src, n)`. -/
def blit (dst : Mem) (a : Nat) (src : Mem) (n : Nat) : Mem :=
  fun i => if a ≤ i ∧ i < a + n then src (i - a) else dst i

/-- `memset(dst + a, v, n)`. -/
def fill (dst : Mem) (a : Nat) (v : UInt8) (n : Nat) : Mem := blit dst a (fun _ => v) n

/-- A freshly zeroed buffer. -/
def zero : Mem := fun _ => 0

theorem blit_in {dst src : Mem} {a n i : Nat} (h1 : a ≤ i) (h2 : i < a + n) :
    blit dst a src n i = src (i - a) := if_pos ⟨h1, h2⟩

theorem blit_out {dst src : Mem} {a n i : Nat} (h : i < a ∨ a + n ≤ i) :
    blit dst a src n i = dst i := if_neg (by omega)

/-- Bytes of `src` land at `a + i`. -/
theorem blit_add {dst src : Mem} {a n i : Nat} (h : i < n) :
    blit dst a src n (a + i) = src i := by
  rw [blit_in (by omega) (by omega), Nat.add_sub_cancel_left]

/-- Writing back a buffer of `k` bytes that are still what is in place, with `n`
bytes replaced at `o`, is the same as replacing those bytes in place: the
read-modify-write of a sector. -/
theorem blit_blit (d old src : Mem) {a o n k : Nat} (h : o + n ≤ k)
    (hold : ∀ i, i < k → d (a + i) = old i) :
    blit d a (blit old o src n) k = blit d (a + o) src n := by
  funext i
  by_cases hk : a ≤ i ∧ i < a + k
  · rw [blit_in hk.1 hk.2]
    by_cases hn : a + o ≤ i ∧ i < a + o + n
    · rw [blit_in (by omega) (by omega), blit_in hn.1 hn.2, Nat.sub_sub]
    · rw [blit_out (by omega), blit_out (by omega), ← hold _ (by omega), Nat.add_sub_of_le hk.1]
  · rw [blit_out (by omega), blit_out (by omega)]

/-- The buffer was read just before. -/
theorem blit_shift_blit (d buf src : Mem) {a o n k : Nat} (h : o + n ≤ k) :
    blit d a (blit (blit buf 0 (shift d a) k) o src n) k = blit d (a + o) src n :=
  blit_blit d _ src h fun i hi => by rw [blit_in (Nat.zero_le _) (by omega), shift, Nat.sub_zero]

/-- A copy in two parts. -/
theorem blit_append (dst src : Mem) (a n k : Nat) :
    blit (blit dst a src n) (a + n) (shift src n) k = blit dst a src (n + k) := by
  funext i
  by_cases h1 : a + n ≤ i ∧ i < a + n + k
  · rw [blit_in h1.1 h1.2, blit_in (by omega) (by omega), shift]
    congr 1
    omega
  · rw [blit_out (by omega)]
    by_cases h2 : a ≤ i ∧ i < a + n
    · rw [blit_in h2.1 h2.2, blit_in (by omega) (by omega)]
    · rw [blit_out (by omega), blit_out (by omega)]

theorem shift_zero (m : Mem) : shift m 0 = m := by
  funext i
  rw [shift, Nat.zero_add]

theorem shift_shift (m : Mem) (a b : Nat) : shift (shift m a) b = shift m (a + b) := by
  funext i
  rw [shift, shift, shift, Nat.add_assoc]

/-! ## Little-endian words -/

/-- The 32-bit word at byte offset `a`. -/
def rd32 (m : Mem) (a : Nat) : Nat :=
  (m a).toNat + 256 * (m (a + 1)).toNat + 65536 * (m (a + 2)).toNat
    + 16777216 * (m (a + 3)).toNat

/-- Byte `k` of the word `v`. -/
def byteOf (v k : Nat) : UInt8 := UInt8.ofNat (v / 256 ^ k)

/-- Store the word `v` at byte offset `a`. -/
def wr32 (m : Mem) (a v : Nat) : Mem := blit m a (byteOf v) 4

/-- A word array as the bytes it occupies. -/
def ofWords (w : Nat → Nat) : Mem := fun i => byteOf (w (i / 4)) (i % 4)

/-- The bytes of a memory as a word array. -/
def words (m : Mem) : Nat → Nat := fun j => rd32 m (4 * j)

theorem rd32_lt (m : Mem) (a : Nat) : rd32 m a < 2 ^ 32 := by
  have h0 := (m a).toNat_lt
  have h1 := (m (a + 1)).toNat_lt
  have h2 := (m (a + 2)).toNat_lt
  have h3 := (m (a + 3)).toNat_lt
  unfold rd32
  omega

theorem rd32_congr {m m' : Mem} {a a' : Nat} (h : ∀ i, i < 4 → m (a + i) = m' (a' + i)) :
    rd32 m a = rd32 m' a' := by
  have h0 : m a = m' a' := h 0 (by omega)
  simp only [rd32, h0, h 1 (by omega), h 2 (by omega), h 3 (by omega)]

theorem rd32_shift (m : Mem) (a b : Nat) : rd32 (shift m a) b = rd32 m (a + b) :=
  rd32_congr fun i _ => by rw [shift, Nat.add_assoc]

theorem rd32_byteOf {m : Mem} {a v : Nat} (hv : v < 2 ^ 32)
    (h : ∀ i, i < 4 → m (a + i) = byteOf v i) : rd32 m a = v := by
  have h0 : m a = byteOf v 0 := h 0 (by omega)
  simp only [rd32, h0, h 1 (by omega), h 2 (by omega), h 3 (by omega), byteOf,
    UInt8.toNat_ofNat']
  omega

theorem byteOf_rd32 {m : Mem} {a k : Nat} (hk : k < 4) : byteOf (rd32 m a) k = m (a + k) := by
  have h0 := (m a).toNat_lt
  have h1 := (m (a + 1)).toNat_lt
  have h2 := (m (a + 2)).toNat_lt
  have h3 := (m (a + 3)).toNat_lt
  apply UInt8.toNat_inj.mp
  rw [byteOf, UInt8.toNat_ofNat']
  unfold rd32
  rcases (by omega : k = 0 ∨ k = 1 ∨ k = 2 ∨ k = 3) with rfl | rfl | rfl | rfl
  · simp only [Nat.pow_zero, Nat.div_one, Nat.add_zero]
    omega
  · omega
  · omega
  · omega

theorem rd32_wr32 {m : Mem} {a v : Nat} (hv : v < 2 ^ 32) : rd32 (wr32 m a v) a = v :=
  rd32_byteOf hv fun _ hi => blit_add hi

theorem rd32_wr32_ne {m : Mem} {a b v : Nat} (h : b + 4 ≤ a ∨ a + 4 ≤ b) :
    rd32 (wr32 m a v) b = rd32 m b :=
  rd32_congr fun i hi => blit_out (by omega)

theorem rd32_ofWords {w : Nat → Nat} {j : Nat} (hw : w j < 2 ^ 32) :
    rd32 (ofWords w) (4 * j) = w j := by
  apply rd32_byteOf hw
  intro i hi
  rw [ofWords, show (4 * j + i) / 4 = j by omega, show (4 * j + i) % 4 = i by omega]

end Mem
end OsCore
