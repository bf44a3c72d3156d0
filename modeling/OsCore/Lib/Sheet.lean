import Mathlib

/-!
# Text on a sheet, and the window that follows it

A sheet has lines of `w` places without end, and a cursor. Writing goes from left to
right and on with the next line, and a window of `h` lines is moved down just so far
that the line of the cursor stays in it; it never moves up. So what is written decides
what is seen, whatever the terminal does to its memory to get there.

`Window` is the part of a sheet that matters for what comes: the cursor is in the
window, and below the window nothing is written. Every token keeps that, but one that
goes back from the first place of the window (`Window.put`).

Where nothing is taken back, the sheet is the text broken into lines (`Page`), and the
window shows the last `h` of them (`print_page`).
-/

namespace OsCore.Lib

/-- What is written: something at the cursor, the end of a line, or a step back that
leaves nothing behind. -/
inductive Tok (α : Type)
  | write (a : α)
  | newline
  | back

/-- The places of all lines in a row, the cursor, and the first line of the window. -/
structure Sheet (α : Type) where
  cells : Nat → α
  pos : Nat
  top : Nat

namespace Sheet

variable {α : Type}

/-- The cursor moves down, and the window follows it. -/
def moveTo (w h : Nat) (t : Sheet α) (pos : Nat) : Sheet α :=
  { t with pos, top := max t.top (pos / w + 1 - h) }

def put (w h : Nat) (blank : α) (t : Sheet α) : Tok α → Sheet α
  | .write a => moveTo w h { t with cells := Function.update t.cells t.pos a } (t.pos + 1)
  | .newline => moveTo w h t (t.pos - t.pos % w + w)
  | .back => { t with cells := Function.update t.cells (t.pos - 1) blank, pos := t.pos - 1 }

def print (w h : Nat) (blank : α) (t : Sheet α) (toks : List (Tok α)) : Sheet α :=
  toks.foldl (put w h blank) t

/-- The cursor is in the window, and nothing is written below it. -/
structure Window (w h : Nat) (blank : α) (t : Sheet α) : Prop where
  le : w * t.top ≤ t.pos
  lt : t.pos < w * (t.top + h)
  below : ∀ i, w * (t.top + h) ≤ i → t.cells i = blank

/-- No step back out of the window. -/
def Stays (w h : Nat) (blank : α) : Sheet α → List (Tok α) → Prop
  | _, [] => True
  | t, tok :: toks =>
    (∀ _ : tok = .back, w * t.top < t.pos) ∧ Stays w h blank (t.put w h blank tok) toks

variable {w h : Nat} {blank : α} {t : Sheet α}

/-- The window does not have to move. -/
theorem moveTo_inside {pos : Nat} (hlt : pos < w * (t.top + h)) :
    t.moveTo w h pos = { t with pos } := by
  have hdiv : pos / w < t.top + h := Nat.div_lt_of_lt_mul hlt
  have htop : max t.top (pos / w + 1 - h) = t.top := by omega
  rw [moveTo, htop]

/-- The window moves by one line. -/
theorem moveTo_next (hw : 0 < w) :
    t.moveTo w h (w * (t.top + h)) = { t with pos := w * (t.top + h), top := t.top + 1 } := by
  have hdiv : w * (t.top + h) / w = t.top + h := Nat.mul_div_cancel_left _ hw
  have htop : max t.top (w * (t.top + h) / w + 1 - h) = t.top + 1 := by omega
  rw [moveTo, htop]

/-- Down to the next line at most. -/
theorem Window.moveTo (hw : 0 < w) (hh : 0 < h) {pos : Nat} (hle : w * t.top ≤ pos)
    (hlt : pos ≤ w * (t.top + h)) (hbelow : ∀ i, w * (t.top + h) ≤ i → t.cells i = blank) :
    Window w h blank (t.moveTo w h pos) := by
  rcases Nat.lt_or_ge pos (w * (t.top + h)) with hin | hout
  · rw [moveTo_inside hin]
    exact ⟨hle, hin, hbelow⟩
  · have hpos : pos = w * (t.top + h) := by omega
    have hnext : w * (t.top + 1 + h) = w * (t.top + h) + w := by ring
    have hmono : w * (t.top + 1) ≤ w * (t.top + h) := Nat.mul_le_mul_left w (by omega)
    rw [hpos, moveTo_next hw]
    refine ⟨hmono, ?_, fun i hi => hbelow i ?_⟩
    · change w * (t.top + h) < w * (t.top + 1 + h)
      omega
    · have hi' : w * (t.top + 1 + h) ≤ i := hi
      omega

/-- The first place of the next line. -/
theorem next_line (w p : Nat) : p - p % w + w = w * (p / w + 1) := by
  have hdiv := Nat.div_add_mod p w
  have hnext : w * (p / w + 1) = w * (p / w) + w := by ring
  omega

/-- **Every token but a step back at the upper left corner keeps the window.** -/
theorem Window.put (hw : 0 < w) (hh : 0 < h) (hwin : Window w h blank t) {tok : Tok α}
    (hstay : tok = .back → w * t.top < t.pos) : Window w h blank (t.put w h blank tok) := by
  have hle := hwin.le
  have hlt := hwin.lt
  cases tok with
  | write a =>
    refine Window.moveTo hw hh (Nat.le_succ_of_le hle) hlt fun i hi => ?_
    have hne : i ≠ t.pos := by
      intro heq
      subst heq
      exact absurd hlt (Nat.not_lt.mpr hi)
    change Function.update t.cells t.pos a i = blank
    rw [Function.update_of_ne hne]
    exact hwin.below i hi
  | newline =>
    have hdiv : t.pos / w < t.top + h := Nat.div_lt_of_lt_mul hlt
    have hmod := Nat.mod_lt t.pos hw
    refine Window.moveTo hw hh (by omega) ?_ hwin.below
    rw [next_line]
    exact Nat.mul_le_mul_left w hdiv
  | back =>
    have hpos := hstay rfl
    refine ⟨Nat.le_sub_one_of_lt hpos, ?_, fun i hi => ?_⟩
    · change t.pos - 1 < w * (t.top + h)
      omega
    · have hi' : w * (t.top + h) ≤ i := hi
      change Function.update t.cells (t.pos - 1) blank i = blank
      rw [Function.update_of_ne (by omega)]
      exact hwin.below i hi

theorem print_cons (tok : Tok α) (toks : List (Tok α)) :
    t.print w h blank (tok :: toks) = (t.put w h blank tok).print w h blank toks := rfl

/-- Where nothing is taken back nothing leaves the window. -/
theorem stays_of_no_back {toks : List (Tok α)} (hno : .back ∉ toks) (t : Sheet α) :
    t.Stays w h blank toks := by
  induction toks generalizing t with
  | nil => trivial
  | cons tok toks ih =>
    rw [List.mem_cons, not_or] at hno
    exact ⟨fun heq => absurd heq.symm hno.1, ih hno.2 _⟩

/-- An empty sheet. -/
def clear (blank : α) : Sheet α := ⟨fun _ => blank, 0, 0⟩

theorem clear_window (hw : 0 < w) (hh : 0 < h) : Window w h blank (clear blank) := by
  refine ⟨Nat.le_refl _, ?_, fun _ _ => rfl⟩
  change 0 < w * (0 + h)
  rw [Nat.zero_add]
  exact Nat.mul_pos hw hh

/-! ## What was written last -/

/-- The text `as` is in front of the cursor, from the place `p` on, and all of it is in the
window. -/
structure Ends (w : Nat) (t : Sheet α) (p : Nat) (as : List α) : Prop where
  le : w * t.top ≤ p
  pos : t.pos = p + as.length
  cells : ∀ i (hi : i < as.length), t.cells (p + i) = as[i]

variable {p : Nat} {as : List α}

/-- The window does not follow past a text that leaves room for its last line. -/
theorem moveTo_top_le (hh : 0 < h) (hle : w * t.top ≤ p) {pos : Nat} (hpos : pos ≤ p + w * (h - 1)) :
    w * (t.moveTo w h pos).top ≤ p := by
  have hdiv := Nat.mul_div_le pos w
  change w * max t.top (pos / w + 1 - h) ≤ p
  rcases Nat.le_total (pos / w + 1 - h) t.top with hold | hnew
  · rwa [Nat.max_eq_left hold]
  · have hsub : w * (pos / w + 1 - h) = w * (pos / w) - w * (h - 1) := by
      rw [← Nat.mul_sub]
      congr 1
      omega
    rw [Nat.max_eq_right hnew]
    omega

theorem Ends.write (hh : 0 < h) (hends : Ends w t p as)
    (hroom : as.length + 1 ≤ w * (h - 1)) (a : α) :
    Ends w (t.put w h blank (.write a)) p (as ++ [a]) := by
  have hpos := hends.pos
  refine ⟨moveTo_top_le hh hends.le (by omega), ?_, fun i hi => ?_⟩
  · rw [List.length_append, List.length_singleton]
    change t.pos + 1 = _
    omega
  · change Function.update t.cells t.pos a (p + i) = _
    rw [List.length_append, List.length_singleton] at hi
    rcases Nat.lt_or_ge i as.length with hlt | hge
    · rw [Function.update_of_ne (by omega), hends.cells i hlt, List.getElem_append_left hlt]
    · have heq : i = as.length := by omega
      subst heq
      rw [← hpos, Function.update_self, List.getElem_concat_length rfl]

theorem Ends.back (hends : Ends w t p as) (hne : as ≠ []) (h : Nat) (blank : α) :
    w * t.top < t.pos ∧ Ends w (t.put w h blank .back) p as.dropLast := by
  have hpos := hends.pos
  have hle := hends.le
  have hlen : 0 < as.length := List.length_pos_iff.mpr hne
  refine ⟨by omega, hle, ?_, fun i hi => ?_⟩
  · rw [List.length_dropLast]
    change t.pos - 1 = _
    omega
  · rw [List.length_dropLast] at hi
    change Function.update t.cells (t.pos - 1) blank (p + i) = _
    rw [Function.update_of_ne (by omega), hends.cells i (by omega), List.getElem_dropLast]

end Sheet

/-! ## Text broken into lines -/

/-- The lines that are complete, and the one with the cursor at its end. A line is
complete as soon as it is full. -/
structure Page (α : Type) (w : Nat) where
  full : List (List α)
  last : List α
  le : ∀ line ∈ full, line.length ≤ w
  lt : last.length < w

namespace Page

variable {α : Type} {w h : Nat} {blank : α}

theorem complete_le {full : List (List α)} (hle : ∀ line ∈ full, line.length ≤ w) {last : List α}
    (hlast : last.length ≤ w) : ∀ line ∈ full ++ [last], line.length ≤ w := by
  intro line hline
  rcases List.mem_append.mp hline with hin | heq
  · exact hle line hin
  · rw [List.mem_singleton.mp heq]
    exact hlast

/-- One more place in the text, or the end of the line (`none`). -/
def put (p : Page α w) : Option α → Page α w
  | none => ⟨p.full ++ [p.last], [], complete_le p.le (Nat.le_of_lt p.lt), Nat.zero_lt_of_lt p.lt⟩
  | some a =>
    if hroom : p.last.length + 1 < w then
      ⟨p.full, p.last ++ [a], p.le, by rwa [List.length_append]⟩
    else
      ⟨p.full ++ [p.last ++ [a]], [],
        complete_le p.le (by rw [List.length_append, List.length_singleton]; exact p.lt),
        Nat.zero_lt_of_lt p.lt⟩

/-- Nothing written yet. -/
def empty (hw : 0 < w) : Page α w := ⟨[], [], fun _ hline => absurd hline (List.not_mem_nil), hw⟩

/-- The text broken into lines. -/
def ofText (hw : 0 < w) (text : List (Option α)) : Page α w := text.foldl put (empty hw)

def lines (p : Page α w) : List (List α) := p.full ++ [p.last]

/-- The place `i` of the sheet, with these lines on it. -/
def cellOf (w : Nat) (blank : α) (lines : List (List α)) (i : Nat) : α :=
  (lines[i / w]?.bind fun row => row[i % w]?).getD blank

/-- The sheet with the lines on it, and the cursor and the window at their end. -/
def toSheet (p : Page α w) (h : Nat) (blank : α) : Sheet α :=
  ⟨cellOf w blank p.lines, w * p.full.length + p.last.length, p.full.length + 1 - h⟩

/-- The token of a piece of text. -/
def tok : Option α → Tok α
  | none => .newline
  | some a => .write a

/-- An empty line is nothing to see. -/
theorem cellOf_append_nil (w : Nat) (blank : α) (lines : List (List α)) :
    cellOf w blank (lines ++ [[]]) = cellOf w blank lines := by
  funext i
  unfold cellOf
  rcases Nat.lt_trichotomy (i / w) lines.length with hlt | heq | hgt
  · rw [List.getElem?_append_left hlt]
  · rw [List.getElem?_append_right (Nat.le_of_eq heq.symm), heq, Nat.sub_self,
      List.getElem?_eq_none (Nat.le_refl _)]
    rfl
  · have hlen : (lines ++ [[]]).length ≤ i / w := by
      rw [List.length_append, List.length_singleton]
      omega
    rw [List.getElem?_eq_none hlen, List.getElem?_eq_none (Nat.le_of_lt hgt)]

/-- One more place at the end of the last line. -/
theorem cellOf_write (full : List (List α)) {last : List α} (hlt : last.length < w) (a : α) :
    cellOf w blank (full ++ [last ++ [a]]) =
      Function.update (cellOf w blank (full ++ [last])) (w * full.length + last.length) a := by
  have hw : 0 < w := Nat.zero_lt_of_lt hlt
  funext i
  have hi := Nat.div_add_mod i w
  by_cases hpos : i = w * full.length + last.length
  · have hdiv : i / w = full.length := by
      rw [hpos, Nat.mul_add_div hw, Nat.div_eq_of_lt hlt, Nat.add_zero]
    have hmod : i % w = last.length := by
      rw [hpos, Nat.mul_add_mod, Nat.mod_eq_of_lt hlt]
    rw [hpos, Function.update_self, ← hpos, cellOf, hdiv, hmod, List.getElem?_concat_length,
      Option.bind_some, List.getElem?_concat_length, Option.getD_some]
  · rw [Function.update_of_ne hpos, cellOf, cellOf]
    rcases Nat.lt_trichotomy (i / w) full.length with hrow | hrow | hrow
    · rw [List.getElem?_append_left hrow, List.getElem?_append_left hrow]
    · have hcol : i % w ≠ last.length := by
        intro hc
        rw [hrow, hc] at hi
        exact hpos hi.symm
      rw [hrow, List.getElem?_concat_length, List.getElem?_concat_length, Option.bind_some,
        Option.bind_some]
      rcases Nat.lt_or_gt_of_ne hcol with hleft | hright
      · rw [List.getElem?_append_left hleft]
      · rw [List.getElem?_eq_none (by rw [List.length_append, List.length_singleton]; omega),
          List.getElem?_eq_none (Nat.le_of_lt hright)]
    · rw [List.getElem?_eq_none (by rw [List.length_append, List.length_singleton]; omega),
        List.getElem?_eq_none (by rw [List.length_append, List.length_singleton]; omega)]

/-- The window of a page after the cursor has moved on. -/
theorem moveTo_page (cells : Nat → α) (q pos pos' : Nat) (hle : q ≤ pos' / w) :
    (⟨cells, pos, q + 1 - h⟩ : Sheet α).moveTo w h pos' = ⟨cells, pos', pos' / w + 1 - h⟩ := by
  have htop : max (q + 1 - h) (pos' / w + 1 - h) = pos' / w + 1 - h := by omega
  rw [Sheet.moveTo, htop]

/-- **On a page, a token of the text is the text going on.** -/
theorem toSheet_put (p : Page α w) (x : Option α) :
    (p.toSheet h blank).put w h blank (tok x) = (p.put x).toSheet h blank := by
  have hlt := p.lt
  have hw : 0 < w := Nat.zero_lt_of_lt hlt
  have hdiv : (w * p.full.length + p.last.length) / w = p.full.length := by
    rw [Nat.mul_add_div hw, Nat.div_eq_of_lt hlt, Nat.add_zero]
  have hnext : w * (p.full.length + 1) / w = p.full.length + 1 := Nat.mul_div_cancel_left _ hw
  cases x with
  | none =>
    have hpos := Sheet.next_line w (w * p.full.length + p.last.length)
    rw [hdiv] at hpos
    change Sheet.moveTo w h ⟨cellOf w blank p.lines, _, p.full.length + 1 - h⟩
        (w * p.full.length + p.last.length - (w * p.full.length + p.last.length) % w + w) =
      ⟨cellOf w blank (p.full ++ [p.last] ++ [[]]), w * (p.full ++ [p.last]).length + 0,
        (p.full ++ [p.last]).length + 1 - h⟩
    rw [hpos, moveTo_page _ _ _ _ (by omega), hnext, cellOf_append_nil, List.length_append,
      List.length_singleton, lines]
    rfl
  | some a =>
    change Sheet.moveTo w h ⟨Function.update (cellOf w blank p.lines)
        (w * p.full.length + p.last.length) a, _, p.full.length + 1 - h⟩
        (w * p.full.length + p.last.length + 1) = _
    rw [lines, ← cellOf_write _ hlt, put]
    split
    next hroom =>
      have hsame : (w * p.full.length + p.last.length + 1) / w = p.full.length := by
        rw [Nat.add_assoc, Nat.mul_add_div hw, Nat.div_eq_of_lt hroom, Nat.add_zero]
      rw [moveTo_page _ _ _ _ (by omega), hsame, toSheet, lines, List.length_append,
        List.length_singleton, Nat.add_assoc]
    next hfull =>
      have hpos : w * p.full.length + p.last.length + 1 = w * (p.full.length + 1) := by
        have hmul : w * (p.full.length + 1) = w * p.full.length + w := by ring
        omega
      change _ = Sheet.mk (cellOf w blank (p.full ++ [p.last ++ [a]] ++ [[]]))
        (w * (p.full ++ [p.last ++ [a]]).length + 0) ((p.full ++ [p.last ++ [a]]).length + 1 - h)
      rw [hpos, moveTo_page _ _ _ _ (by omega), hnext, cellOf_append_nil, List.length_append,
        List.length_singleton]
      rfl

/-- **The whole text on an empty sheet.** -/
theorem print_page (hw : 0 < w) (hh : 0 < h) (text : List (Option α)) :
    (Sheet.clear blank).print w h blank (text.map tok) = (ofText hw text).toSheet h blank := by
  have hempty : Sheet.clear blank = (empty hw : Page α w).toSheet h blank := by
    have hcells : cellOf w blank ((empty hw : Page α w)).lines = fun _ => blank := by
      have hnil := cellOf_append_nil w blank ([] : List (List α))
      rw [List.nil_append] at hnil
      change cellOf w blank [[]] = _
      rw [hnil]
      rfl
    rw [toSheet, hcells, Sheet.clear]
    congr 1
    change 0 = 0 + 1 - h
    omega
  have hrun : ∀ (p : Page α w), (p.toSheet h blank).print w h blank (text.map tok) =
      (text.foldl put p).toSheet h blank := by
    induction text with
    | nil => exact fun _ => rfl
    | cons x text ih =>
      intro p
      rw [List.map_cons, Sheet.print_cons, toSheet_put, ih, List.foldl_cons]
  rw [hempty, hrun, ofText]

/-- What the window shows: the last `h` lines. -/
theorem toSheet_window (p : Page α w) (r : Nat) {c : Nat} (hc : c < w) :
    (p.toSheet h blank).cells (w * (p.toSheet h blank).top + (w * r + c)) =
      (((p.lines.drop (p.lines.length - h))[r]?).bind fun row => row[c]?).getD blank := by
  have hw : 0 < w := Nat.zero_lt_of_lt hc
  have hsum : w * (p.full.length + 1 - h) + (w * r + c) = w * (p.full.length + 1 - h + r) + c := by
    ring
  have hdiv : (w * (p.full.length + 1 - h + r) + c) / w = p.full.length + 1 - h + r := by
    rw [Nat.mul_add_div hw, Nat.div_eq_of_lt hc, Nat.add_zero]
  have hmod : (w * (p.full.length + 1 - h + r) + c) % w = c := by
    rw [Nat.mul_add_mod, Nat.mod_eq_of_lt hc]
  have hlen : p.lines.length = p.full.length + 1 := by
    rw [lines, List.length_append, List.length_singleton]
  change cellOf w blank p.lines (w * (p.full.length + 1 - h) + (w * r + c)) = _
  rw [hsum, cellOf, hdiv, hmod, List.getElem?_drop, hlen]

end Page

end OsCore.Lib
