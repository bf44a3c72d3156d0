import Mathlib.Data.List.TakeWhile
import Mathlib.Tactic.Common

/-!
# Words between separators

`words sep l` are the maximal runs in `l` of elements other than `sep`: what is left
of `List.splitOn` without the empty pieces. `starts sep l` are the places where they
begin, so that each word is the run from its start on (`words_eq`).

A list is blank, or it has a first word and, if it goes on, what stands behind the
separator after it. A scanner that takes one word off at a time is followed by
induction on that (`word_induction`).
-/

namespace OsCore.Lib

variable {α : Type} [DecidableEq α] {sep : α} {l blank word rest : List α}

def words (sep : α) (l : List α) : List (List α) := (l.splitOn sep).filter (· ≠ [])

/-- The starts of the words, with the place of the first element; it continues a word
or not. -/
def startsFrom (sep : α) : Bool → Nat → List α → List Nat
  | _, _, [] => []
  | inWord, i, c :: l =>
    if c = sep then startsFrom sep false (i + 1) l
    else if inWord then startsFrom sep true (i + 1) l
    else i :: startsFrom sep true (i + 1) l

def starts (sep : α) (l : List α) : List Nat := startsFrom sep false 0 l

/-! ## One word after the other -/

theorem words_sep : words sep (sep :: l) = words sep l := by
  rw [words, List.splitOn_cons_eq_if_modifyHead, if_pos (beq_self_eq_true sep)]
  exact List.filter_cons_of_neg (by simp)

theorem words_blank (h : ∀ c ∈ blank, c = sep) : words sep (blank ++ l) = words sep l := by
  induction blank with
  | nil => rfl
  | cons c blank ih =>
    obtain ⟨rfl, hrest⟩ := List.forall_mem_cons.mp h
    rw [List.cons_append, words_sep, ih hrest]

theorem words_of_blank (h : ∀ c ∈ blank, c = sep) : words sep blank = [] := by
  have hw := words_blank (l := []) h
  rwa [List.append_nil] at hw

theorem words_last (hword : sep ∉ word) (hne : word ≠ []) : words sep word = [word] := by
  rw [words, List.splitOn_eq_singleton hword]
  exact List.filter_cons_of_pos (by simpa using hne)

theorem words_cons (hword : sep ∉ word) (hne : word ≠ []) :
    words sep (word ++ sep :: rest) = word :: words sep rest := by
  rw [words, List.splitOn_append_cons_self_of_not_mem hword]
  exact List.filter_cons_of_pos (by simpa using hne)

theorem startsFrom_blank (h : ∀ c ∈ blank, c = sep) (i : Nat) :
    startsFrom sep false i (blank ++ l) = startsFrom sep false (i + blank.length) l := by
  induction blank generalizing i with
  | nil => rfl
  | cons c blank ih =>
    obtain ⟨hc, hrest⟩ := List.forall_mem_cons.mp h
    rw [List.cons_append, startsFrom, if_pos hc, ih hrest, List.length_cons]
    congr 1
    omega

theorem startsFrom_word (h : sep ∉ word) (i : Nat) :
    startsFrom sep true i (word ++ l) = startsFrom sep true (i + word.length) l := by
  induction word generalizing i with
  | nil => rfl
  | cons c word ih =>
    rw [List.mem_cons, not_or] at h
    rw [List.cons_append, startsFrom, if_neg (Ne.symm h.1), if_pos rfl, ih h.2, List.length_cons]
    congr 1
    omega

theorem startsFrom_new (hword : sep ∉ word) (hne : word ≠ []) (i : Nat) :
    startsFrom sep false i (word ++ l) = i :: startsFrom sep true (i + word.length) l := by
  obtain ⟨c, word, rfl⟩ := List.exists_cons_of_ne_nil hne
  rw [List.mem_cons, not_or] at hword
  rw [List.cons_append, startsFrom, if_neg (Ne.symm hword.1), if_neg Bool.false_ne_true,
    startsFrom_word hword.2, List.length_cons]
  congr 2
  omega

theorem startsFrom_add (inWord : Bool) (i k : Nat) :
    startsFrom sep inWord (i + k) l = (startsFrom sep inWord i l).map (k + ·) := by
  induction l generalizing inWord i with
  | nil => rfl
  | cons c l ih =>
    rw [startsFrom, startsFrom, Nat.add_right_comm]
    split
    · exact ih false (i + 1)
    · split
      · exact ih true (i + 1)
      · rw [List.map_cons, ih true (i + 1), Nat.add_comm]

theorem startsFrom_eq (k : Nat) : startsFrom sep false k l = (starts sep l).map (k + ·) := by
  rw [starts, ← startsFrom_add, Nat.zero_add]

theorem starts_blank (h : ∀ c ∈ blank, c = sep) :
    starts sep (blank ++ l) = (starts sep l).map (blank.length + ·) := by
  rw [starts, startsFrom_blank h, Nat.zero_add, startsFrom_eq]

theorem starts_of_blank (h : ∀ c ∈ blank, c = sep) : starts sep blank = [] := by
  have hs := starts_blank (l := []) h
  rwa [List.append_nil] at hs

theorem starts_last (hword : sep ∉ word) (hne : word ≠ []) : starts sep word = [0] := by
  have h := startsFrom_new (l := []) hword hne 0
  rwa [List.append_nil] at h

theorem starts_cons (hword : sep ∉ word) (hne : word ≠ []) :
    starts sep (word ++ sep :: rest) = 0 :: (starts sep rest).map (word.length + 1 + ·) := by
  rw [starts, startsFrom_new hword hne, startsFrom, if_pos rfl, Nat.zero_add, startsFrom_eq]

/-! ## Induction on the words -/

/-- What a first word and the separators in front of it look like. -/
structure FirstWord (sep : α) (blank word : List α) : Prop where
  blanks : ∀ c ∈ blank, c = sep
  noSep : sep ∉ word
  ne_nil : word ≠ []

section

variable (h : FirstWord sep blank word)

include h

theorem FirstWord.words_last : words sep (blank ++ word) = [word] := by
  rw [words_blank h.blanks, OsCore.Lib.words_last h.noSep h.ne_nil]

theorem FirstWord.starts_last : starts sep (blank ++ word) = [blank.length] := by
  rw [starts_blank h.blanks, OsCore.Lib.starts_last h.noSep h.ne_nil]
  rfl

theorem FirstWord.words_cons :
    words sep (blank ++ (word ++ sep :: rest)) = word :: words sep rest := by
  rw [words_blank h.blanks, OsCore.Lib.words_cons h.noSep h.ne_nil]

theorem FirstWord.starts_cons : starts sep (blank ++ (word ++ sep :: rest)) =
    blank.length :: (starts sep rest).map (blank.length + word.length + 1 + ·) := by
  rw [starts_blank h.blanks, OsCore.Lib.starts_cons h.noSep h.ne_nil, List.map_cons, List.map_map]
  refine congrArg (blank.length :: ·) (List.map_congr_left fun a _ => ?_)
  rw [Function.comp_apply]
  omega

end

/-- A list that starts with no separator has a word in front. -/
theorem firstWord_takeWhile {c : α} (hc : c ≠ sep) (h : ∀ c ∈ blank, c = sep) :
    FirstWord sep blank ((c :: l).takeWhile (· ≠ sep)) := by
  refine ⟨h, fun hmem => ?_, ?_⟩
  · simpa using List.mem_takeWhile_imp hmem
  · rw [List.takeWhile_cons, if_pos (by simpa using hc)]
    exact List.cons_ne_nil _ _

/-- **One word at a time.** -/
theorem word_induction {P : List α → Prop} (sep : α)
    (blank : ∀ blank, (∀ c ∈ blank, c = sep) → P blank)
    (last : ∀ blank word, FirstWord sep blank word → P (blank ++ word))
    (cons : ∀ blank word rest, FirstWord sep blank word → P rest →
      P (blank ++ (word ++ sep :: rest))) (l : List α) : P l := by
  induction hn : l.length using Nat.strong_induction_on generalizing l with
  | _ n ih =>
    have hl : l.takeWhile (· = sep) ++ l.dropWhile (· = sep) = l :=
      List.takeWhile_append_dropWhile
    have hblank : ∀ c ∈ l.takeWhile (· = sep), c = sep := fun c hc => by
      simpa using List.mem_takeWhile_imp hc
    generalize l.takeWhile (· = sep) = b at hl hblank
    cases ht : l.dropWhile (· = sep) with
    | nil =>
      rw [← hl, ht, List.append_nil]
      exact blank b hblank
    | cons c t =>
      have hc : c ≠ sep := by
        have hhead := List.head_dropWhile_not (· = sep) (ht ▸ List.cons_ne_nil c t)
        simpa [ht] using hhead
      have hfirst := firstWord_takeWhile (l := t) hc hblank
      have hct : (c :: t).takeWhile (· ≠ sep) ++ (c :: t).dropWhile (· ≠ sep) = c :: t :=
        List.takeWhile_append_dropWhile
      rw [← hl, ht, ← hct]
      generalize (c :: t).takeWhile (· ≠ sep) = w at hfirst hct
      cases hr : (c :: t).dropWhile (· ≠ sep) with
      | nil =>
        rw [List.append_nil]
        exact last b w hfirst
      | cons c' rest =>
        have hc' : c' = sep := by
          have hhead := List.head_dropWhile_not (· ≠ sep) (hr ▸ List.cons_ne_nil c' rest)
          simp only [hr, List.head_cons] at hhead
          simpa using hhead
        rw [hc']
        refine cons b w rest hfirst (ih rest.length ?_ rest rfl)
        rw [← hn, ← hl, ht, ← hct, hr]
        simp only [List.length_append, List.length_cons]
        omega

theorem takeWhile_word (h : sep ∉ word) : word.takeWhile (· ≠ sep) = word := by
  apply List.takeWhile_eq_self_iff.mpr
  intro c hc
  have hne : c ≠ sep := fun he => h (he ▸ hc)
  simpa using hne

/-- Each word is the run from its start on. -/
theorem words_eq : words sep l = (starts sep l).map fun a => (l.drop a).takeWhile (· ≠ sep) := by
  induction l using word_induction sep with
  | blank b hb =>
    rw [words_of_blank hb, starts_of_blank hb]
    rfl
  | last b w h =>
    rw [h.words_last, h.starts_last, List.map_singleton, List.drop_left, takeWhile_word h.noSep]
  | cons b w rest h ih =>
    have hword : (w ++ sep :: rest).takeWhile (· ≠ sep) = w := by
      rw [List.takeWhile_append, takeWhile_word h.noSep, if_pos rfl]
      simp
    have hdrop : ∀ a, (b ++ (w ++ sep :: rest)).drop (b.length + w.length + 1 + a) =
        rest.drop a := by
      intro a
      have hone : w.length + 1 - w.length = 1 := by omega
      rw [Nat.add_assoc, Nat.add_assoc, ← Nat.add_assoc w.length, ← List.drop_drop, List.drop_left,
        ← List.drop_drop, List.drop_append, List.drop_of_length_le (Nat.le_succ _), hone]
      rfl
    rw [h.words_cons, h.starts_cons, ih, List.map_cons, List.drop_left, hword, List.map_map]
    exact congrArg (w :: ·) (List.map_congr_left fun a _ => by simp [hdrop])

theorem length_starts : (starts sep l).length = (words sep l).length := by
  rw [words_eq, List.length_map]

end OsCore.Lib
