import OsCore.Stdio

/-!
# Formatted output over old bytes (`lib/stdio.c`)

`vsprintf` stores no terminator of its own. What it returns is the `strlen` of the buffer,
so without one the string goes on with what lies behind the output. The callers that clear
the buffer first do not see it; `ide.c` prints its errors into one that is not cleared.

The output does not depend on the buffer exactly when a zero is stored: by a `%s` that is
the last piece, or as the argument of a `%c` (`sprintf_independent_iff`). In the one
direction the first zero is at the same place for all buffers (`left_eq`), in the other a
buffer without zeros is never terminated.
-/

namespace OsCore.Stdio

/-- What is left of a call: the length it returns, and the string in the buffer. -/
def left (r : Option (Nat × Mem)) : Option (Nat × List UInt8) :=
  r.map fun (n, m) => (n, (List.range n).map m)

/-- The same is left whatever was in the buffer. -/
def Independent (run : Mem → Option (Nat × Mem)) : Prop := ∀ m m', left (run m) = left (run m')

variable {items : List Item} {ap : List VaArg} {size : Nat}

/-- A zero is stored, and this is the first. -/
theorem left_eq (hok : ∀ item ∈ items, item.Ok) (ap : List VaArg) {n : Nat} (hn : n < size)
    (hle : n ≤ (expansion items).length)
    (hfirst : ∀ i, i < n → (expansion items).getD i 0 ≠ 0)
    (hzero : ∀ str, (items.foldl Item.run ⟨str, 0⟩).mem n = 0) (str : Mem) :
    left (vsprintf size str (formatOf items) (argsOf items ++ ap)) =
      some (n, (expansion items).take n) := by
  have hbytes : ∀ i, i < n →
      (items.foldl Item.run ⟨str, 0⟩).mem i = (expansion items).getD i 0 := fun i hi =>
    run_bytes items str (by omega)
  have hstring : (items.foldl Item.run ⟨str, 0⟩).mem.IsString n :=
    ⟨hzero str, fun i hi => by rw [hbytes i hi]; exact hfirst i hi⟩
  rw [vsprintf_items hok, Mem.strlen_eq_some.mpr ⟨hn, hstring⟩, Option.map_some, left,
    Option.map_some]
  refine congrArg (fun s => some (n, s)) (List.ext_getElem ?_ fun i h1 h2 => ?_)
  · rw [List.length_map, List.length_range, List.length_take, Nat.min_eq_left hle]
  · rw [List.length_map, List.length_range] at h1
    rw [List.getElem_map, List.getElem_range, hbytes i h1, List.getElem_take,
      List.getD_eq_getElem _ _ (by omega)]

/-- A string at the end closes the output. -/
theorem independent_of_end (hok : ∀ item ∈ items, item.Ok) (h : EndsInString items)
    (hnonzero : 0 ∉ expansion items) (hfit : (expansion items).length < size) (ap : List VaArg) :
    Independent fun m => vsprintf size m (formatOf items) (argsOf items ++ ap) := by
  have hfirst : ∀ i, i < (expansion items).length → (expansion items).getD i 0 ≠ 0 := by
    intro i hi hc
    rw [List.getD_eq_getElem _ _ hi] at hc
    exact hnonzero (hc ▸ List.getElem_mem hi)
  intro m m'
  rw [left_eq hok ap hfit (Nat.le_refl _) hfirst (run_end h),
    left_eq hok ap hfit (Nat.le_refl _) hfirst (run_end h)]

/-- A zero in the output ends the string there. -/
theorem independent_of_zero (hok : ∀ item ∈ items, item.Ok) (hzero : 0 ∈ expansion items)
    (hfit : (expansion items).length < size) (ap : List VaArg) :
    Independent fun m => vsprintf size m (formatOf items) (argsOf items ++ ap) := by
  obtain ⟨k, hk, hget⟩ := List.mem_iff_getElem.mp hzero
  have hex : ∃ n, n < (expansion items).length ∧ (expansion items).getD n 0 = 0 :=
    ⟨k, hk, by rw [List.getD_eq_getElem _ _ hk, hget]⟩
  obtain ⟨hlt, hend⟩ := Nat.find_spec hex
  have hfirst : ∀ i, i < Nat.find hex → (expansion items).getD i 0 ≠ 0 := fun i hi hc =>
    Nat.find_min hex hi ⟨by omega, hc⟩
  have hstored : ∀ str, (items.foldl Item.run ⟨str, 0⟩).mem (Nat.find hex) = 0 := fun str => by
    rw [run_bytes items str hlt, hend]
  intro m m'
  rw [left_eq hok ap (by omega) hlt.le hfirst hstored,
    left_eq hok ap (by omega) hlt.le hfirst hstored]

/-- Without a zero stored, a buffer without zeros is not terminated and one with zeros is. -/
theorem not_independent (hok : ∀ item ∈ items, item.Ok) (h : ¬EndsInString items)
    (hnonzero : 0 ∉ expansion items) (hfit : (expansion items).length < size) (ap : List VaArg) :
    ¬Independent fun m => vsprintf size m (formatOf items) (argsOf items ++ ap) := by
  intro hind
  have hnone : (items.foldl Item.run ⟨fun _ => 255, 0⟩).mem.strlen size = none := by
    apply Option.eq_none_iff_forall_not_mem.mpr
    intro n hn
    obtain ⟨-, hzero, -⟩ := Mem.strlen_eq_some.mp hn
    rcases Nat.lt_trichotomy n (expansion items).length with hlt | rfl | hgt
    · rw [run_bytes items _ hlt, List.getD_eq_getElem _ _ hlt] at hzero
      exact hnonzero (hzero ▸ List.getElem_mem hlt)
    · rw [run_end_old h] at hzero
      exact absurd hzero (by decide)
    · rw [run_out items _ hgt] at hzero
      exact absurd hzero (by decide)
  have hsome : ∃ n, (items.foldl Item.run ⟨Mem.zero, 0⟩).mem.strlen size = some n := by
    have hmem : (items.foldl Item.run ⟨Mem.zero, 0⟩).mem (expansion items).length = 0 := by
      rw [run_end_old h]
      rfl
    obtain ⟨n, hn, hstring⟩ := Mem.exists_isString hmem
    exact ⟨n, Mem.strlen_eq_some.mpr ⟨by omega, hstring⟩⟩
  obtain ⟨n, hn⟩ := hsome
  have hsame := hind (fun _ => 255) Mem.zero
  dsimp only at hsame
  rw [vsprintf_items hok, vsprintf_items hok, hnone, hn] at hsame
  exact absurd hsame (by simp [left])

/-- **When the output does not depend on the buffer**: exactly when the last piece is a
string or the argument of a `%c` is zero. -/
theorem sprintf_independent_iff (items : List Item) (ap : List VaArg) (size : Nat)
    (hok : ∀ item ∈ items, item.Ok) (hfit : (expansion items).length < size) :
    (Independent (fun m => vsprintf size m (formatOf items) (argsOf items ++ ap)) ↔
      EndsInString items ∨ ∃ w, Item.chr w ∈ items ∧ w.toUInt8 = 0) ∧
    (Independent (fun m => sprintf size m (formatOf items) (argsOf items ++ ap)) ↔
      EndsInString items ∨ ∃ w, Item.chr w ∈ items ∧ w.toUInt8 = 0) := by
  have hiff : Independent (fun m => vsprintf size m (formatOf items) (argsOf items ++ ap)) ↔
      EndsInString items ∨ ∃ w, Item.chr w ∈ items ∧ w.toUInt8 = 0 := by
    rw [← zero_mem_expansion hok]
    by_cases hzero : 0 ∈ expansion items
    · exact iff_of_true (independent_of_zero hok hzero hfit ap) (Or.inr hzero)
    · by_cases hend : EndsInString items
      · exact iff_of_true (independent_of_end hok hend hzero hfit ap) (Or.inl hend)
      · exact iff_of_false (not_independent hok hend hzero hfit ap) (not_or.mpr ⟨hend, hzero⟩)
  exact ⟨hiff, hiff⟩

/-- `"a%s"` with `"b"`. -/
theorem sprintf_independent_iff_string :
    Independent fun m => sprintf 8 m [97, 37, 115] [.str [98]] := by
  have hend : EndsInString [.lit 97, .str [98]] := ⟨[.lit 97], [98], rfl⟩
  exact (sprintf_independent_iff [.lit 97, .str [98]] [] 8 (by simp [Item.Ok, percent])
    (by decide)).2.mpr (Or.inl hend)

/-- `"a"` over a buffer of zeros, and over one that begins with two other bytes. -/
theorem stale_bytes_show : ¬∀ (items : List Item) (size : Nat), (∀ item ∈ items, item.Ok) →
    (expansion items).length < size →
    Independent fun m => sprintf size m (formatOf items) (argsOf items) := by
  intro h
  have hok : ∀ item ∈ [Item.lit 97], item.Ok := by simp [Item.Ok, percent]
  have hsame := h [.lit 97] 4 hok (by decide) Mem.zero
    (Function.update (Function.update Mem.zero 0 120) 1 121)
  have hrun := vsprintf_items hok [] 4
  rw [List.append_nil] at hrun
  dsimp only [sprintf] at hsame
  rw [hrun, hrun] at hsame
  exact absurd hsame (by decide)

end OsCore.Stdio
