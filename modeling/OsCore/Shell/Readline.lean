import OsCore.Bitmap
import OsCore.Lib.CString

/-!
# Reading a line (`readline` in `shell/shell.c`)

`readline` has the next key stored where the cursor is and looks at it there. So a
control byte lies in the buffer until the next key takes its place, and the bytes
that were edited away lie behind it. In front of the cursor is the line.

`editKey` is what a key does to the line, and `InFront` says that the line is what is
in front of the cursor. Every key keeps it (`readKey_inFront`). The test that keeps
`\b` from going below the buffer is of the first byte and not of the cursor: it is
the `\b` just stored if and only if the line is empty, since no line has one in it.
-/

namespace OsCore.Shell

/-! ## The code -/

def newline : UInt8 := 10
def carriageReturn : UInt8 := 13
def backspace : UInt8 := 8

/-- `'l' - 'a'` -/
def ctrlL : UInt8 := 11

/-- `'u' - 'a'` -/
def ctrlU : UInt8 := 20

/-- What goes to the screen. -/
inductive Echo
  | putchar (c : UInt8)
  | clear
  | prompt
  | text (s : List UInt8)
  deriving DecidableEq

/-- The memory from `buf` on, `pos - buf`, the offsets stored to and the output, the
last first of both. -/
structure Editing where
  mem : Mem
  pos : Nat
  stores : List Nat
  shown : List Echo

namespace Editing

variable (e : Editing)

/-- `*pos = v` -/
def put (v : UInt8) : Editing :=
  { e with mem := Function.update e.mem e.pos v, stores := e.pos :: e.stores }

def echo (x : Echo) : Editing := { e with shown := x :: e.shown }

/-- `--pos`; below the buffer there is nothing to point to. -/
def back : Option Editing := do
  ensure (0 < e.pos)
  return { e with pos := e.pos - 1 }

/-- The string at the buffer, which has a zero at the cursor. -/
def text : List UInt8 := ((List.range e.pos).map e.mem).takeWhile (· ≠ 0)

end Editing

/-- `while (buf != pos)` of `ctrl + u`. -/
def clearLine : Nat → Editing → Editing
  | 0, e => e
  | n + 1, e => clearLine n { (e.echo (.putchar backspace)).put 0 with pos := n }

/-- The `switch` for a key that is no end of line, the key being stored. -/
def editStep (key : UInt8) (e : Editing) : Option Editing :=
  if key = backspace then
    if e.mem 0 ≠ backspace then do
      let e ← e.back
      return e.echo (.putchar backspace)
    else some e
  else if key = ctrlL then
    let e := e.put 0
    some (((e.echo .clear).echo .prompt).echo (.text e.text))
  else if key = ctrlU then some (clearLine e.pos e)
  else some { e.echo (.putchar key) with pos := e.pos + 1 }

/-- How `readline` ends: at the end of a line, with `pos - buf` at `count`, or not, as
long as no key comes. -/
inductive ReadlineEnd
  | enter
  | full
  | waiting
  deriving DecidableEq

/-- The loop of `readline`, with the keys in the order in which `read` returns them. -/
def readKeys (count : Nat) : List UInt8 → Editing → Option (ReadlineEnd × Editing)
  | [], e => some (.waiting, e)
  | key :: keys, e =>
    let e := e.put key
    if ¬ e.pos < count then some (.full, e)
    else if key = newline ∨ key = carriageReturn then
      some (.enter, (e.put 0).echo (.putchar newline))
    else do
      let e ← editStep key e
      readKeys count keys e

/-- `readline(buf, count)` -/
def readline (mem : Mem) (count : Nat) (keys : List UInt8) : Option (ReadlineEnd × Editing) := do
  ensure (0 < count)
  readKeys count keys ⟨mem, 0, [], []⟩

/-! ## The line -/

/-- What a key does to the line. -/
def editKey (line : List UInt8) (key : UInt8) : List UInt8 :=
  if key = backspace then line.dropLast
  else if key = ctrlL then line
  else if key = ctrlU then []
  else line ++ [key]

/-- The line is what is in front of the cursor; no key leaves a `\b` in it. -/
structure InFront (e : Editing) (line : List UInt8) : Prop where
  bytes : (List.range e.pos).map e.mem = line
  plain : ∀ c ∈ line, c ≠ backspace

/-- The same for a line without zeros. -/
structure AtLine (e : Editing) (line : List UInt8) : Prop where
  bytes : (List.range e.pos).map e.mem = line
  plain : ∀ c ∈ line, c ≠ 0 ∧ c ≠ backspace

section

variable {e : Editing} {line : List UInt8} {key : UInt8}

theorem InFront.pos_eq (h : InFront e line) : e.pos = line.length := by
  rw [← h.bytes, List.length_map, List.length_range]

theorem InFront.mem_line (h : InFront e line) {i : Nat} (hi : i < e.pos) : e.mem i ∈ line := by
  rw [← h.bytes]
  exact List.mem_map.mpr ⟨i, List.mem_range.mpr hi, rfl⟩

/-- A store at the cursor is behind the line. -/
theorem InFront.put (h : InFront e line) (v : UInt8) : InFront (e.put v) line := by
  refine ⟨?_, h.plain⟩
  rw [← h.bytes]
  apply List.map_congr_left
  intro i hi
  have hlt : i < e.pos := List.mem_range.mp hi
  exact Function.update_of_ne (by omega) _ _

theorem InFront.echo (h : InFront e line) (x : Echo) : InFront (e.echo x) line :=
  ⟨h.bytes, h.plain⟩

/-- The byte stored is taken into the line. -/
theorem InFront.append (h : InFront (e.put key) line) (hkey : key ≠ backspace) :
    InFront { e.put key with pos := e.pos + 1 } (line ++ [key]) := by
  refine ⟨?_, fun c hc => ?_⟩
  · have hlast : (e.put key).mem e.pos = key := Function.update_self _ _ _
    have hfront : (List.range e.pos).map (e.put key).mem = line := h.bytes
    rw [List.range_succ, List.map_append, hfront, List.map_singleton, hlast]
  · rcases List.mem_append.mp hc with hc | hc
    · exact h.plain c hc
    · rwa [List.mem_singleton.mp hc]

theorem InFront.back (h : InFront e line) (hpos : 0 < e.pos) :
    InFront { e with pos := e.pos - 1 } line.dropLast := by
  refine ⟨?_, fun c hc => h.plain c (List.dropLast_subset _ hc)⟩
  obtain ⟨n, hn⟩ := Nat.exists_eq_add_of_lt hpos
  rw [← h.bytes, hn, Nat.zero_add, List.range_succ, List.map_append, List.map_singleton,
    List.dropLast_concat]
  rfl

theorem clearLine_inFront (n : Nat) : ∀ e, e.pos = n → InFront (clearLine n e) [] := by
  induction n with
  | zero =>
    intro e he
    refine ⟨?_, fun c hc => absurd hc List.not_mem_nil⟩
    rw [clearLine, he]
    rfl
  | succ n ih =>
    intro e _
    exact ih _ rfl

/-- The first byte is the `\b` just stored where the line is empty, and nowhere else. -/
theorem InFront.first_eq (h : InFront e line) :
    (e.put backspace).mem 0 = backspace ↔ e.pos = 0 := by
  constructor
  · intro hfirst
    by_contra hpos
    have hmem : e.mem 0 ∈ line := h.mem_line (by omega)
    have hsame : (e.put backspace).mem 0 = e.mem 0 := Function.update_of_ne (Ne.symm hpos) _ _
    exact h.plain _ hmem (hsame ▸ hfirst)
  · intro hpos
    change Function.update e.mem e.pos backspace 0 = backspace
    rw [hpos, Function.update_self]

/-- **One key.** -/
theorem readKey_inFront (h : InFront e line) (key : UInt8) :
    ∃ e', editStep key (e.put key) = some e' ∧ InFront e' (editKey line key) := by
  rw [editStep, editKey]
  by_cases hback : key = backspace
  · rw [if_pos hback, if_pos hback, hback]
    by_cases hpos : e.pos = 0
    · rw [if_neg (not_not_intro (h.first_eq.mpr hpos))]
      have hnil : line = [] := List.length_eq_zero_iff.mp (h.pos_eq ▸ hpos)
      refine ⟨_, rfl, ?_⟩
      rw [hnil] at h ⊢
      exact h.put backspace
    · have hlt : 0 < (e.put backspace).pos := Nat.pos_of_ne_zero hpos
      rw [if_pos (mt h.first_eq.mp hpos), Editing.back, ensure_pos hlt]
      exact ⟨_, rfl, ((h.put backspace).back hlt).echo _⟩
  · rw [if_neg hback, if_neg hback]
    by_cases hl : key = ctrlL
    · rw [if_pos hl, if_pos hl]
      exact ⟨_, rfl, ((((h.put key).put 0).echo _).echo _).echo _⟩
    · rw [if_neg hl, if_neg hl]
      by_cases hu : key = ctrlU
      · rw [if_pos hu, if_pos hu]
        exact ⟨_, rfl, clearLine_inFront _ _ rfl⟩
      · rw [if_neg hu, if_neg hu]
        exact ⟨_, rfl, (InFront.append (h.put key) hback).echo (.putchar key)⟩

theorem AtLine.inFront (h : AtLine e line) : InFront e line :=
  ⟨h.bytes, fun c hc => (h.plain c hc).2⟩

theorem InFront.atLine (h : InFront e line) (hzero : ∀ c ∈ line, c ≠ 0) : AtLine e line :=
  ⟨h.bytes, fun c hc => ⟨hzero c hc, h.plain c hc⟩⟩

/-- A key that is not zero brings no zero into the line. -/
theorem editKey_ne_zero (hline : ∀ c ∈ line, c ≠ 0) (hkey : key ≠ 0) :
    ∀ c ∈ editKey line key, c ≠ 0 := by
  rw [editKey]
  split
  next => exact fun c hc => hline c (List.dropLast_subset _ hc)
  next =>
    split
    next => exact hline
    next =>
      split
      next => exact fun c hc => absurd hc List.not_mem_nil
      next =>
        intro c hc
        rcases List.mem_append.mp hc with hc | hc
        · exact hline c hc
        · rwa [List.mem_singleton.mp hc]

theorem readKey_atLine (h : AtLine e line) (hkey : key ≠ 0) :
    ∃ e', editStep key (e.put key) = some e' ∧ AtLine e' (editKey line key) := by
  obtain ⟨e', hstep, hline⟩ := readKey_inFront h.inFront key
  exact ⟨e', hstep, hline.atLine (editKey_ne_zero (fun c hc => (h.plain c hc).1) hkey)⟩

end

/-! ## All keys -/

/-- **The loop**: by induction on the keys, with the line so far in front of the
cursor. -/
theorem readKeys_spec {count : Nat} {last : UInt8} (hlast : last = newline ∨ last = carriageReturn)
    (rest : List UInt8) (keys : List UInt8) : ∀ {e : Editing} {line : List UInt8}, AtLine e line →
    (∀ key ∈ keys, key ≠ 0 ∧ key ≠ newline ∧ key ≠ carriageReturn) →
    (∀ front, front <+: keys → (front.foldl editKey line).length < count) →
    ∃ e', readKeys count (keys ++ last :: rest) e = some (.enter, e') ∧
      Mem.Holds e'.mem (keys.foldl editKey line) := by
  induction keys with
  | nil =>
    intro e line h _ hfit
    have hlt : (e.put last).pos < count := by
      have := hfit [] List.nil_prefix
      rw [List.foldl_nil, ← h.inFront.pos_eq] at this
      exact this
    rw [List.nil_append, readKeys, if_neg (not_not_intro hlt), if_pos hlast, List.foldl_nil]
    have hline : InFront (((e.put last).put 0).echo (.putchar newline)) line :=
      ((h.inFront.put last).put 0).echo _
    refine ⟨_, rfl, ?_, ?_, fun i hi => ?_⟩
    · rw [← hline.pos_eq]
      exact hline.bytes
    · rw [← hline.pos_eq]
      exact Function.update_self _ _ _
    · rw [← hline.pos_eq] at hi
      exact (h.plain _ (hline.mem_line hi)).1
  | cons key keys ih =>
    intro e line h hkeys hfit
    obtain ⟨⟨hzero, hnl, hcr⟩, hrest⟩ := List.forall_mem_cons.mp hkeys
    have hlt : (e.put key).pos < count := by
      have := hfit [] List.nil_prefix
      rw [List.foldl_nil, ← h.inFront.pos_eq] at this
      exact this
    obtain ⟨e', hstep, hline⟩ := readKey_atLine h hzero
    rw [List.cons_append, readKeys, if_neg (not_not_intro hlt), if_neg (not_or.mpr ⟨hnl, hcr⟩),
      hstep, Option.bind_eq_bind, Option.bind_some, List.foldl_cons]
    apply ih hline hrest
    intro front hfront
    exact hfit (key :: front) (List.cons_prefix_cons.mpr ⟨rfl, hfront⟩)

/-- **Line editing.** For keys up to the first end of line, on which the line never
gets as long as `count`, the buffer ends up as the string that the keys, taken in
turn, make of an empty line. -/
theorem readline_edits (mem : Mem) (count : Nat) (keys : List UInt8) (last : UInt8)
    (rest : List UInt8) (hkeys : ∀ key ∈ keys, key ≠ 0 ∧ key ≠ newline ∧ key ≠ carriageReturn)
    (hlast : last = newline ∨ last = carriageReturn)
    (hfit : ∀ front, front <+: keys → (front.foldl editKey []).length < count) :
    ∃ e, readline mem count (keys ++ last :: rest) = some (.enter, e) ∧
      Mem.Holds e.mem (keys.foldl editKey []) := by
  have hcount : 0 < count := hfit [] List.nil_prefix
  obtain ⟨e, hrun, hholds⟩ := readKeys_spec (e := ⟨mem, 0, [], []⟩) hlast rest keys
    ⟨rfl, fun c hc => absurd hc List.not_mem_nil⟩ hkeys hfit
  refine ⟨e, ?_, hholds⟩
  rw [readline, ensure_pos hcount]
  exact hrun

/-- `a`, `b`, `\b`, `c`, `ctrl + l` and enter, in four bytes of memory that is not
clear. -/
theorem readline_edits_abc : ∃ e, readline (fun _ => 255) 4 ([97, 98, 8, 99, 11] ++ 13 :: []) =
      some (.enter, e) ∧ Mem.Holds e.mem [97, 99] := by
  have hline : ([97, 98, 8, 99, 11] : List UInt8).foldl editKey [] = [97, 99] := by decide
  have hfit : ∀ front ∈ ([97, 98, 8, 99, 11] : List UInt8).inits,
      (front.foldl editKey []).length < 4 := by decide +kernel
  rw [← hline]
  exact readline_edits (fun _ => 255) 4 [97, 98, 8, 99, 11] 13 [] (by decide +kernel)
    (Or.inr rfl) fun front hfront => hfit front ((List.mem_inits _ _).mpr hfront)

end OsCore.Shell
