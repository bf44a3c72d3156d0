import OsCore.Device.Ioqueue

/-!
# Transfers through a pipe (`pipe_read` and `pipe_write` of `shell/pipe.c`)

A pipe is a ring buffer of `ioqueue.c` in a page of the kernel, and both ends move
bytes one at a time. Each first cuts its count down to an amount that is meant not to
make it wait: `pipe_read` to the bytes that are queued, `pipe_write` to
`bufsize - ioq_length`. But a ring of `bufsize` bytes is full with one slot empty, so
that difference is one more than what can be stored, and a write that takes all of it
waits in its last `ioq_putchar`.

The calls of `ioq_getchar` and `ioq_putchar` are those that do not have to wait, and
`none` is a transfer that comes to one that does, as no other thread runs meanwhile.
`readLoop_spec`, `writeLoop_spec` and `writeLoop_blocks` say what the loops do for any
number of rounds; the rest is the choice of that number.
-/

namespace OsCore.Shell

open Device

/-! ## The code -/

/-- Loop of `pipe_read` with `n` bytes left to `size`: `bytes_read`, and the bytes
that go to the buffer. -/
def readLoop : Nat → Nat → Ioqueue → Option (Nat × List UInt8 × Ioqueue)
  | 0, bytesRead, ioq => some (bytesRead, [], ioq)
  | n + 1, bytesRead, ioq => do
    let (byte, ioq, _) ← ioqGetchar ioq
    let (ret, bytes, ioq) ← readLoop n (bytesRead + 1) ioq
    return (ret, byte :: bytes, ioq)

/-- `pipe_read(fd, buf, count)`, for the pipe of `fd`. -/
def pipeRead (ioq : Ioqueue) (count : Nat) : Option (Nat × List UInt8 × Ioqueue) :=
  let ioqLen := ioqLength ioq
  let size := if ioqLen > count then count else ioqLen
  readLoop size 0 ioq

/-- Loop of `pipe_write` with `n` bytes left to `size`; `buffer` is `buf` from
`bytes_write` on. -/
def writeLoop : Nat → Nat → List UInt8 → Ioqueue → Option (Nat × Ioqueue)
  | 0, bytesWrite, _, ioq => some (bytesWrite, ioq)
  | n + 1, bytesWrite, buffer, ioq => do
    let (ioq, _) ← ioqPutchar ioq (buffer.headD 0)
    writeLoop n (bytesWrite + 1) buffer.tail ioq

/-- `pipe_write(fd, buf, count)`, for the pipe of `fd`; `buf` has `count` bytes. -/
def pipeWrite (ioq : Ioqueue) (buf : List UInt8) : Option (Nat × Ioqueue) :=
  let count := buf.length
  let ioqLeft := (bufsize + 2 ^ 32 - ioqLength ioq) % 2 ^ 32
  let size := if ioqLeft > count then count else ioqLeft
  writeLoop size 0 buf ioq

/-! ## The loops -/

variable {ioq : Ioqueue}

/-- As many bytes as are queued can be read, and they are the oldest. -/
theorem readLoop_spec : ∀ {n : Nat} {ioq : Ioqueue} (bytesRead : Nat), InRange ioq →
    n ≤ (queued ioq).length → ∃ bytes ioq', readLoop n bytesRead ioq =
      some (bytesRead + n, bytes, ioq') ∧ bytes.length = n ∧ queued ioq = bytes ++ queued ioq' := by
  intro n
  induction n with
  | zero =>
    intro ioq bytesRead _ _
    exact ⟨[], ioq, rfl, rfl, rfl⟩
  | succ n ih =>
    intro ioq bytesRead hr hn
    have hempty : ioqEmpty ioq = false := by
      rw [← Bool.not_eq_true, ioqEmpty_iff hr, ← length_queued]
      omega
    obtain ⟨hr', hq⟩ := takeByte_spec hr hempty
    rw [hq, List.length_cons] at hn
    obtain ⟨bytes, ioq', hrun, hlen, hq'⟩ := ih (bytesRead + 1) hr' (by omega)
    refine ⟨(takeByte ioq).1 :: bytes, ioq', ?_, by rw [List.length_cons, hlen], ?_⟩
    · rw [readLoop, ioqGetchar, hempty, if_neg Bool.false_ne_true]
      simp only [Option.bind_eq_bind, Option.bind_some, hrun, Option.pure_def]
      rw [show bytesRead + 1 + n = bytesRead + (n + 1) by omega]
    · rw [hq, hq', List.cons_append]

/-- A round of `pipe_write` where there is room. -/
theorem writeLoop_succ {n bytesWrite : Nat} {buffer : List UInt8} (hfull : ioqFull ioq = false) :
    writeLoop (n + 1) bytesWrite buffer ioq =
      writeLoop n (bytesWrite + 1) buffer.tail (storeByte ioq (buffer.headD 0)).1 := by
  rw [writeLoop, ioqPutchar, hfull, if_neg Bool.false_ne_true]
  rfl

/-- Where there is room for all bytes, they are appended. -/
theorem writeLoop_spec : ∀ {n : Nat} {ioq : Ioqueue} {buffer : List UInt8} (bytesWrite : Nat),
    InRange ioq → n ≤ buffer.length → (queued ioq).length + n ≤ bufsize - 1 →
    ∃ ioq', writeLoop n bytesWrite buffer ioq = some (bytesWrite + n, ioq') ∧
      queued ioq' = queued ioq ++ buffer.take n := by
  intro n
  induction n with
  | zero =>
    intro ioq buffer bytesWrite _ _ _
    exact ⟨ioq, rfl, by rw [List.take_zero, List.append_nil]⟩
  | succ n ih =>
    intro ioq buffer bytesWrite hr hn hroom
    have hfull : ioqFull ioq = false := by
      rw [← Bool.not_eq_true, ioqFull_iff hr, ← length_queued]
      omega
    cases buffer with
    | nil => exact absurd hn (Nat.not_succ_le_zero n)
    | cons byte buffer =>
      obtain ⟨hr', hq⟩ := storeByte_spec hr hfull byte
      rw [List.length_cons] at hn
      obtain ⟨ioq', hrun, hq'⟩ := ih (bytesWrite + 1) hr' (Nat.le_of_succ_le_succ hn)
        (by rw [hq, List.length_append, List.length_singleton]; omega)
      refine ⟨ioq', ?_, ?_⟩
      · rw [writeLoop_succ hfull, show bytesWrite + (n + 1) = bytesWrite + 1 + n by omega]
        exact hrun
      · rw [hq', hq, List.append_assoc, List.singleton_append, List.take_succ_cons]

/-- Where there is not, the loop comes to a `ioq_putchar` on a full buffer. -/
theorem writeLoop_blocks : ∀ {n : Nat} {ioq : Ioqueue} {buffer : List UInt8} (bytesWrite : Nat),
    InRange ioq → bufsize - 1 < (queued ioq).length + n →
    writeLoop n bytesWrite buffer ioq = none := by
  intro n
  induction n with
  | zero =>
    intro ioq buffer bytesWrite _ hover
    have hlt : (queued ioq).length < bufsize := by
      rw [length_queued]
      exact Lib.Ring.dist_lt (by decide) _ _
    omega
  | succ n ih =>
    intro ioq buffer bytesWrite hr hover
    cases hfull : ioqFull ioq with
    | true =>
      rw [writeLoop, ioqPutchar, hfull, if_pos rfl]
      rfl
    | false =>
      obtain ⟨hr', hq⟩ := storeByte_spec hr hfull (buffer.headD 0)
      rw [writeLoop_succ hfull]
      exact ih (bytesWrite + 1) hr' (by
        rw [hq, List.length_append, List.length_singleton]
        omega)

/-! ## The transfers -/

/-- `pipe_read` does not wait: it moves the queued bytes, `count` of them at most. -/
theorem pipeRead_spec (hr : InRange ioq) (count : Nat) : ∃ bytes ioq',
    pipeRead ioq count = some (bytes.length, bytes, ioq') ∧
      bytes.length = min count (queued ioq).length ∧ queued ioq = bytes ++ queued ioq' := by
  have hsize : (if ioqLength ioq > count then count else ioqLength ioq) =
      min count (queued ioq).length := by
    rw [ioqLength_eq hr, length_queued]
    split <;> omega
  obtain ⟨bytes, ioq', hrun, hlen, hq⟩ := readLoop_spec 0 hr (Nat.min_le_right count _)
  refine ⟨bytes, ioq', ?_, hlen, hq⟩
  rw [pipeRead, hsize, hrun, hlen, Nat.zero_add]

/-- `ioq_left` is one more than the room there is. -/
theorem ioqLeft_eq (hr : InRange ioq) :
    (bufsize + 2 ^ 32 - ioqLength ioq) % 2 ^ 32 = bufsize - 1 - (queued ioq).length + 1 := by
  have hlt : count ioq < bufsize := Lib.Ring.dist_lt (by decide) _ _
  rw [ioqLength_eq hr, length_queued]
  unfold bufsize at *
  omega

/-- Neither end waits, and each answers the number of bytes it has moved. -/
structure NeverWaits (ioq : Ioqueue) (count : Nat) (buf : List UInt8) : Prop where
  read : ∃ bytes ioq', pipeRead ioq count = some (bytes.length, bytes, ioq') ∧
    queued ioq = bytes ++ queued ioq'
  write : ∃ n ioq', pipeWrite ioq buf = some (n, ioq') ∧
    queued ioq' = queued ioq ++ buf.take n ∧ n ≤ buf.length

/-- **When transfers do not wait.** Reads never do, and a write does not exactly if
all its bytes find room: `bufsize - 1` bytes are what the ring can hold. -/
theorem pipe_never_waits_iff {ioq : Ioqueue} (hr : InRange ioq) (count : Nat) (buf : List UInt8) :
    NeverWaits ioq count buf ↔ ioqLength ioq + buf.length ≤ bufsize - 1 := by
  have hlen : ioqLength ioq = (queued ioq).length := by rw [ioqLength_eq hr, length_queued]
  have hleft := ioqLeft_eq hr
  constructor
  · intro h
    obtain ⟨n, ioq', hwrite, -⟩ := h.write
    by_contra hover
    have hsize : bufsize - 1 < (queued ioq).length +
        (if (bufsize + 2 ^ 32 - ioqLength ioq) % 2 ^ 32 > buf.length then buf.length
          else (bufsize + 2 ^ 32 - ioqLength ioq) % 2 ^ 32) := by
      rw [hleft]
      split <;> omega
    rw [pipeWrite, writeLoop_blocks 0 hr hsize] at hwrite
    cases hwrite
  · intro hroom
    have hsize : (if (bufsize + 2 ^ 32 - ioqLength ioq) % 2 ^ 32 > buf.length then buf.length
        else (bufsize + 2 ^ 32 - ioqLength ioq) % 2 ^ 32) = buf.length := by
      rw [hleft, if_pos (by omega)]
    constructor
    · obtain ⟨bytes, ioq', hread, -, hq⟩ := pipeRead_spec hr count
      exact ⟨bytes, ioq', hread, hq⟩
    · obtain ⟨ioq', hrun, hq⟩ := writeLoop_spec 0 hr (Nat.le_refl buf.length) (by omega)
      refine ⟨buf.length, ioq', ?_, hq, Nat.le_refl _⟩
      rw [pipeWrite, hsize, hrun, Nat.zero_add]

/-- A pipe just made. -/
def emptyPipe : Ioqueue := ⟨none, none, Vector.replicate bufsize 0, 0, 0⟩

theorem emptyPipe_inRange : InRange emptyPipe :=
  ⟨by decide, by decide, by decide, by decide⟩

theorem pipe_never_waits_iff_empty :
    NeverWaits emptyPipe 3 [97, 98] ↔ ioqLength emptyPipe + [97, 98].length ≤ bufsize - 1 :=
  pipe_never_waits_iff emptyPipe_inRange 3 [97, 98]

/-- **A write of 2048 bytes into an empty pipe** waits for a reader. -/
theorem pipeWrite_waits : ¬∀ (ioq : Ioqueue) (count : Nat) (buf : List UInt8), InRange ioq →
    NeverWaits ioq count buf := by
  intro h
  obtain ⟨n, ioq', hwrite, -⟩ := (h emptyPipe 0 (List.replicate 2048 0) emptyPipe_inRange).write
  have hsize : (if (bufsize + 2 ^ 32 - ioqLength emptyPipe) % 2 ^ 32 >
      (List.replicate 2048 (0 : UInt8)).length then (List.replicate 2048 (0 : UInt8)).length
      else (bufsize + 2 ^ 32 - ioqLength emptyPipe) % 2 ^ 32) = 2048 := by
    rw [List.length_replicate]
    decide
  have hblocks : writeLoop 2048 0 (List.replicate 2048 0) emptyPipe = none :=
    writeLoop_blocks 0 emptyPipe_inRange (by unfold bufsize; omega)
  rw [pipeWrite, hsize, hblocks] at hwrite
  cases hwrite

end OsCore.Shell
