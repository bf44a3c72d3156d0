import OsCore.Lib.Ring

/-!
# The ring buffer of `ioqueue.c`

`struct ioqueue` is a buffer of `bufsize` bytes with a write position `head`, a
read position `tail`, and two fields that name a thread asleep on it. This
module is its data part: `ioq_full`, `ioq_empty`, `ioq_length`, and what
`ioq_putchar` and `ioq_getchar` do once the test of their `while` loop is false.
The loops themselves put the caller to sleep, and are the subject of
`Device/IoqueueBlocking.lean`.

`queued` is what the buffer is for: the bytes in it, oldest first. A put appends
to it and a get takes its first element, so a run of calls that do not block is
a bounded first-in first-out queue (`ioqueue_is_bounded_fifo`). One slot is never
used, which is what tells a full buffer from an empty one: it is full at
`bufsize - 1` bytes.
-/

namespace OsCore.Device

open Lib.Ring

/-! ## The code -/

def bufsize : Nat := 2048

/-- `struct ioqueue` without its lock; threads are named by numbers and `NULL` is
`none`. -/
structure Ioqueue where
  producer : Option Nat
  consumer : Option Nat
  buf : Vector UInt8 bufsize
  head : Int
  tail : Int

/-- `ioqueue_init`: the bytes of the buffer stay as they were. -/
def ioqueueInit (ioq : Ioqueue) : Ioqueue :=
  { ioq with producer := none, consumer := none, head := 0, tail := 0 }

def nextPos (pos : Int) : Int := (pos + 1).tmod bufsize

def ioqFull (ioq : Ioqueue) : Bool := nextPos ioq.head == ioq.tail

def ioqEmpty (ioq : Ioqueue) : Bool := ioq.head == ioq.tail

/-- The conversion of an `int32_t` to `uint32_t`. -/
def toU32 (x : Int) : Nat := (x % 2 ^ 32).toNat

def ioqLength (ioq : Ioqueue) : Nat :=
  if ioq.head ≥ ioq.tail then toU32 (ioq.head - ioq.tail)
  else toU32 (bufsize - (ioq.tail - ioq.head))

/-- `ioq_getchar` after its loop: the byte, the queue, and the producer to wake
up, which is no longer noted. -/
def takeByte (ioq : Ioqueue) : UInt8 × Ioqueue × Option Nat :=
  let byte := ioq.buf.toArray.getD ioq.tail.toNat 0
  (byte, { ioq with tail := nextPos ioq.tail, producer := none }, ioq.producer)

/-- `ioq_putchar` after its loop: the queue, and the consumer to wake up. -/
def storeByte (ioq : Ioqueue) (byte : UInt8) : Ioqueue × Option Nat :=
  ({ ioq with
      buf := ioq.buf.setIfInBounds ioq.head.toNat byte
      head := nextPos ioq.head
      consumer := none }, ioq.consumer)

/-- A call of `ioq_getchar` that does not have to wait. -/
def ioqGetchar (ioq : Ioqueue) : Option (UInt8 × Ioqueue × Option Nat) :=
  if ioqEmpty ioq then none else some (takeByte ioq)

/-- A call of `ioq_putchar` that does not have to wait. -/
def ioqPutchar (ioq : Ioqueue) (byte : UInt8) : Option (Ioqueue × Option Nat) :=
  if ioqFull ioq then none else some (storeByte ioq byte)

/-! ## What is queued -/

/-- Both positions are inside the buffer. -/
structure InRange (ioq : Ioqueue) : Prop where
  head_nonneg : 0 ≤ ioq.head
  head_lt : ioq.head < bufsize
  tail_nonneg : 0 ≤ ioq.tail
  tail_lt : ioq.tail < bufsize

/-- The buffer as a function of the position. -/
def cells (ioq : Ioqueue) (i : Nat) : UInt8 := ioq.buf.toArray.getD i 0

/-- The number of bytes between `tail` and `head`. -/
def count (ioq : Ioqueue) : Nat := dist bufsize ioq.tail.toNat ioq.head.toNat

/-- The bytes put and not yet taken, oldest first. -/
def queued (ioq : Ioqueue) : List UInt8 := window bufsize (cells ioq) ioq.tail.toNat (count ioq)

section

variable {ioq : Ioqueue}

theorem InRange.head_toNat (h : InRange ioq) : ioq.head.toNat < bufsize := by
  have := h.head_nonneg
  have := h.head_lt
  omega

theorem InRange.tail_toNat (h : InRange ioq) : ioq.tail.toNat < bufsize := by
  have := h.tail_nonneg
  have := h.tail_lt
  omega

/-- On the positions of the buffer, C's `%` is the remainder of numbers. -/
theorem nextPos_eq {pos : Int} (h : 0 ≤ pos) : nextPos pos = ((pos.toNat + 1) % bufsize : Nat) := by
  rw [nextPos, Int.tmod_eq_emod_of_nonneg (by omega), Int.natCast_emod, Int.natCast_add,
    Int.toNat_of_nonneg h]
  rfl

theorem nextPos_nonneg {pos : Int} (h : 0 ≤ pos) : 0 ≤ nextPos pos := by
  rw [nextPos_eq h]
  exact Int.natCast_nonneg _

theorem nextPos_lt {pos : Int} (h : 0 ≤ pos) : nextPos pos < bufsize := by
  rw [nextPos_eq h]
  exact Int.ofNat_lt.mpr (Nat.mod_lt _ (by decide))

theorem length_queued : (queued ioq).length = count ioq := length_window _ _ _

theorem ioqFull_iff (h : InRange ioq) : ioqFull ioq = true ↔ count ioq = bufsize - 1 := by
  have h1 := h.head_nonneg
  have h2 := h.tail_nonneg
  rw [ioqFull, beq_iff_eq, nextPos_eq h1, count, dist_eq_last_iff h.tail_toNat h.head_toNat]
  omega

theorem ioqEmpty_iff (h : InRange ioq) : ioqEmpty ioq = true ↔ count ioq = 0 := by
  have h1 := h.head_nonneg
  have h2 := h.tail_nonneg
  rw [ioqEmpty, beq_iff_eq, count, dist_eq_zero_iff h.tail_toNat h.head_toNat]
  omega

/-- Both formulas of `ioq_length` give the number of bytes. -/
theorem ioqLength_eq (h : InRange ioq) : ioqLength ioq = count ioq := by
  have h1 := h.head_nonneg
  have h2 := h.tail_nonneg
  have h3 := h.head_lt
  have h4 := h.tail_lt
  rw [ioqLength, count]
  simp only [bufsize] at h3 h4 ⊢
  split
  · rw [dist_of_le (by omega) (by omega), toU32]
    omega
  · rw [dist_of_gt (by omega) (by omega), toU32]
    omega

/-! ## A put and a get -/

theorem inRange_init (ioq : Ioqueue) : InRange (ioqueueInit ioq) := by
  constructor <;> simp [ioqueueInit, bufsize]

theorem queued_init (ioq : Ioqueue) : queued (ioqueueInit ioq) = [] := by
  have hcount : count (ioqueueInit ioq) = 0 :=
    (dist_eq_zero_iff (inRange_init ioq).tail_toNat (inRange_init ioq).head_toNat).mpr rfl
  rw [queued, hcount]
  rfl

theorem cells_set (i : Nat) (hi : i < bufsize) (byte : UInt8) (q : Ioqueue)
    (hq : q.buf = ioq.buf.setIfInBounds i byte) :
    cells q = Function.update (cells ioq) i byte := by
  funext j
  rw [cells, hq, Vector.toArray_setIfInBounds, Array.getD_eq_getD_getElem?,
    Array.getElem?_setIfInBounds]
  by_cases hij : i = j
  · subst hij
    rw [Function.update_self, if_pos rfl, if_pos (by simpa using hi)]
    rfl
  · rw [Function.update_of_ne (Ne.symm hij), if_neg hij, cells, Array.getD_eq_getD_getElem?]

/-- **A put appends one byte**, if the buffer is not full. -/
theorem storeByte_spec (h : InRange ioq) (hfull : ioqFull ioq = false) (byte : UInt8) :
    InRange (storeByte ioq byte).1 ∧ queued (storeByte ioq byte).1 = queued ioq ++ [byte] := by
  have hh := h.head_toNat
  have ht := h.tail_toNat
  have hroom : (ioq.head.toNat + 1) % bufsize ≠ ioq.tail.toNat := by
    intro he
    rw [← dist_eq_last_iff ht hh] at he
    rw [(ioqFull_iff h).mpr he] at hfull
    cases hfull
  have hcount : count (storeByte ioq byte).1 = count ioq + 1 := by
    rw [count, storeByte, nextPos_eq h.head_nonneg, Int.toNat_natCast, dist_push ht hh hroom, count]
  have hlt : count ioq < bufsize := dist_lt (by decide) _ _
  have hslot : (ioq.tail.toNat + count ioq) % bufsize = ioq.head.toNat := add_dist ht hh
  refine ⟨⟨nextPos_nonneg h.head_nonneg, nextPos_lt h.head_nonneg, h.tail_nonneg, h.tail_lt⟩, ?_⟩
  rw [queued, hcount, cells_set ioq.head.toNat hh byte _ rfl, ← hslot]
  exact window_push (cells ioq) byte hlt

/-- **A get takes the oldest byte**, if the buffer is not empty. -/
theorem takeByte_spec (h : InRange ioq) (hempty : ioqEmpty ioq = false) :
    InRange (takeByte ioq).2.1 ∧ queued ioq = (takeByte ioq).1 :: queued (takeByte ioq).2.1 := by
  have hh := h.head_toNat
  have ht := h.tail_toNat
  have hne : ioq.head.toNat ≠ ioq.tail.toNat := by
    intro he
    rw [← dist_eq_zero_iff ht hh] at he
    rw [(ioqEmpty_iff h).mpr he] at hempty
    cases hempty
  have hpos : (nextPos ioq.tail).toNat = (ioq.tail.toNat + 1) % bufsize := by
    rw [nextPos_eq h.tail_nonneg, Int.toNat_natCast]
  have hcount : count (takeByte ioq).2.1 + 1 = count ioq := by
    rw [count, takeByte, hpos, dist_pop ht hh hne, count]
  refine ⟨⟨h.head_nonneg, h.head_lt, nextPos_nonneg h.tail_nonneg, nextPos_lt h.tail_nonneg⟩, ?_⟩
  rw [queued, ← hcount, window_pop, Nat.mod_eq_of_lt ht, ← hpos]
  rfl

end

/-! ## Runs of calls that do not block -/

inductive IoqOp
  | put (byte : UInt8)
  | get
  deriving DecidableEq

/-- Make the calls in turn, collecting the bytes returned; `none` where a call
would have to wait. -/
def ioqRun (ioq : Ioqueue) : List IoqOp → Option (Ioqueue × List UInt8)
  | [] => some (ioq, [])
  | .put byte :: ops => do
    let (ioq, _) ← ioqPutchar ioq byte
    ioqRun ioq ops
  | .get :: ops => do
    let (byte, ioq, _) ← ioqGetchar ioq
    let (ioq, out) ← ioqRun ioq ops
    return (ioq, byte :: out)

/-- The bytes put by a list of calls. -/
def bytesPut : List IoqOp → List UInt8
  | [] => []
  | .put byte :: ops => byte :: bytesPut ops
  | .get :: ops => bytesPut ops

/-- The number of bytes taken by a list of calls. -/
def getsOf (ops : List IoqOp) : Nat := ops.count .get

/-- Along a run, what was queued and what was put is what was returned and what
is queued. -/
theorem ioqRun_spec {ops : List IoqOp} {ioq ioq' : Ioqueue} {out : List UInt8} (h : InRange ioq)
    (hrun : ioqRun ioq ops = some (ioq', out)) :
    InRange ioq' ∧ queued ioq ++ bytesPut ops = out ++ queued ioq' ∧ out.length = getsOf ops := by
  induction ops generalizing ioq out with
  | nil =>
    cases hrun
    exact ⟨h, by simp [bytesPut], rfl⟩
  | cons op ops ih =>
    cases op with
    | put byte =>
      simp only [ioqRun, ioqPutchar] at hrun
      split at hrun
      · cases hrun
      · next hfull =>
        obtain ⟨hr, hq⟩ := storeByte_spec h (by simpa using hfull) byte
        obtain ⟨hr', hq', hl⟩ := ih hr hrun
        refine ⟨hr', ?_, by rw [hl]; simp [getsOf]⟩
        rw [← hq', hq, bytesPut, List.append_assoc, List.singleton_append]
    | get =>
      simp only [ioqRun, ioqGetchar] at hrun
      split at hrun
      · cases hrun
      · next hempty =>
        obtain ⟨hr, hq⟩ := takeByte_spec h (by simpa using hempty)
        simp only [Option.bind_eq_bind, Option.bind_some] at hrun
        obtain ⟨⟨ioq₁, out₁⟩, hrest, he⟩ := Option.bind_eq_some_iff.mp hrun
        cases he
        obtain ⟨hr', hq', hl⟩ := ih hr hrest
        refine ⟨hr', ?_, by rw [List.length_cons, hl]; simp [getsOf]⟩
        rw [hq, bytesPut, List.cons_append, hq', List.cons_append]

/-- **The ring buffer is a bounded queue.** After any calls that do not block,
from `ioqueue_init` on: the positions are inside the buffer, the bytes returned
followed by those queued are the bytes put, `ioq_length` is the number put and
not taken, and `ioq_full` and `ioq_empty` hold at 2047 and at 0. -/
theorem ioqueue_is_bounded_fifo (ioq₀ ioq : Ioqueue) (ops : List IoqOp) (out : List UInt8)
    (hrun : ioqRun (ioqueueInit ioq₀) ops = some (ioq, out)) :
    (0 ≤ ioq.head ∧ ioq.head < 2048 ∧ 0 ≤ ioq.tail ∧ ioq.tail < 2048) ∧
      bytesPut ops = out ++ queued ioq ∧
      out.length = getsOf ops ∧
      ioqLength ioq = (queued ioq).length ∧
      ioqLength ioq + getsOf ops = (bytesPut ops).length ∧
      (ioqFull ioq = true ↔ (queued ioq).length = 2047) ∧
      (ioqEmpty ioq = true ↔ (queued ioq).length = 0) := by
  obtain ⟨hr, hq, hl⟩ := ioqRun_spec (inRange_init ioq₀) hrun
  rw [queued_init, List.nil_append] at hq
  rw [length_queued, ioqLength_eq hr]
  refine ⟨⟨hr.head_nonneg, hr.head_lt, hr.tail_nonneg, hr.tail_lt⟩, hq, hl, rfl, ?_,
    ioqFull_iff hr, ioqEmpty_iff hr⟩
  rw [hq, List.length_append, hl, length_queued, Nat.add_comm]

/-- A queue as the memory under it may hold it before `ioqueue_init`. -/
def rawQueue : Ioqueue where
  producer := some 7
  consumer := none
  buf := Vector.replicate bufsize 255
  head := -1
  tail := 5000

/-- Three bytes put, two taken. -/
theorem ioqueue_is_bounded_fifo_three_puts :
    ∃ ioq, ioqRun (ioqueueInit rawQueue) [.put 97, .put 98, .get, .put 99, .get] =
        some (ioq, [97, 98]) ∧ queued ioq = [99] ∧ ioqLength ioq = 1 := by
  have hsome : ((ioqRun (ioqueueInit rawQueue) [.put 97, .put 98, .get, .put 99, .get]).map
      (·.2)) = some [97, 98] := by decide +kernel
  obtain ⟨⟨ioq, out⟩, hrun, hout⟩ := Option.map_eq_some_iff.mp hsome
  cases hout
  have h := ioqueue_is_bounded_fifo rawQueue ioq _ _ hrun
  have hq : [97, 98, 99] = [97, 98] ++ queued ioq := h.2.1
  have hq : queued ioq = [99] := by
    have hdrop := congrArg (List.drop 2) hq
    exact hdrop.symm
  refine ⟨ioq, hrun, hq, ?_⟩
  rw [h.2.2.2.1, hq]
  rfl

end OsCore.Device
