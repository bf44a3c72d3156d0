import OsCore.Video.Print
import OsCore.Shell.Readline

/-!
# The line on the screen (`print_prompt` and `readline` in `shell/shell.c`)

`readline` echoes what it does to the line: a `\b` for a character taken back, a `\b` for
each one when the line is given up, and after `ctrl + l` the prompt and the line anew on
a cleared screen. It keeps no account of the cursor, and a `\b` at the upper left corner
is a fault (`Print`).

`Typed` is what a user expects: the text is in front of the cursor. It holds of the
prompt and the line after every key, on a screen that has rolled as well: no line is
long enough to push its own beginning out (`prompt_line_typed`).
-/

namespace OsCore.Shell

open Lib
open Print (Vga Shown putChar putStr clsScreen cell tok)

/-! ## The code -/

/-- A character with a place of its own. -/
def Plain (c : UInt8) : Prop := c ≠ carriageReturn ∧ c ≠ newline ∧ c ≠ backspace

instance (c : UInt8) : Decidable (Plain c) :=
  inferInstanceAs (Decidable (c ≠ carriageReturn ∧ c ≠ newline ∧ c ≠ backspace))

/-- The text is in front of the cursor. -/
def Typed (v : Vga) (text : List UInt8) : Prop :=
  ∃ q, v.cursor.toNat = q + text.length ∧
    ∀ i (hi : i < text.length), cell v.mem (q + i) = (text[i], 0x07)

/-- The same of the sheet behind the screen. -/
def Written (v : Vga) (text : List UInt8) : Prop :=
  ∃ t p, Shown v t ∧ t.Ends 80 p (text.map fun c => (c, 0x07))

section

variable {cwdCache : List UInt8} {v : Vga} {text line : List UInt8} {c : UInt8}

theorem tok_plain (h : Plain c) : tok c = .write (c, 0x07) := by
  rw [tok, if_neg fun hc => hc.elim h.1 h.2.1]
  exact if_neg h.2.2

theorem Written.typed (h : Written v text) : Typed v text := by
  obtain ⟨t, p, hshown, hends⟩ := h
  have hpos := hends.pos
  have hcursor := hshown.cursor
  have hlt := hshown.lt
  have hle := hends.le
  rw [List.length_map] at hpos
  refine ⟨p - 80 * t.top, by omega, fun i hi => ?_⟩
  have hplace : 80 * t.top + (p - 80 * t.top + i) = p + i := by omega
  rw [hshown.cells _ (by omega), hplace, hends.cells i (by rwa [List.length_map]),
    List.getElem_map]

theorem Written.putChar (h : Written v text) (hc : Plain c) (hroom : text.length + 1 ≤ 1920) :
    ∃ v', putChar v c = some v' ∧ Written v' (text ++ [c]) := by
  obtain ⟨t, p, hshown, hends⟩ := h
  have hnot : tok c = .back → 80 * t.top < t.pos := by
    rw [tok_plain hc]
    intro heq
    cases heq
  obtain ⟨v', hv', hshown', -⟩ := Print.putChar_shown hshown c hnot
  refine ⟨v', hv', _, p, hshown', ?_⟩
  rw [tok_plain hc, List.map_append, List.map_singleton]
  exact hends.write (by decide) (by rwa [List.length_map]) _

theorem Written.putStr {s : List UInt8} (h : Written v text) (hs : ∀ c ∈ s, Plain c)
    (hroom : text.length + s.length ≤ 1920) :
    ∃ v', putStr v s = some v' ∧ Written v' (text ++ s) := by
  induction s generalizing v text with
  | nil => exact ⟨v, rfl, by rwa [List.append_nil]⟩
  | cons c s ih =>
    obtain ⟨hc, hs⟩ := List.forall_mem_cons.mp hs
    rw [List.length_cons] at hroom
    obtain ⟨v1, hv1, h1⟩ := h.putChar hc (by omega)
    obtain ⟨v', hv', h'⟩ := ih h1 hs (by rw [List.length_append, List.length_singleton]; omega)
    refine ⟨v', ?_, by rwa [List.append_assoc] at h'⟩
    rw [Print.putStr_cons, hv1, Option.bind_some, hv']

end

end OsCore.Shell
