import OsCore.Shell.WashPath

/-!
# The canonical form of a path (`wash_path` in `shell/buildin_cmd.c`)

`washPath_spec` has `wash_path` as a fold over the names of a path, with the names so
far as a stack. What the fold leaves has neither of the dots (`washNames_plain`), and
a text of such names is `Canonical`: it is the root, or there is a name behind each of
its slashes. So `wash_path` finds nothing to do in its own result.
-/

namespace OsCore.Shell

open OsCore.Fs

/-- A path from the root in which every slash has a name behind it that is neither `.`
nor `..`, or the root. -/
structure Canonical (path : List UInt8) : Prop where
  head : path.head? = some slash
  pieces : path = [slash] ∨ ∀ c ∈ path.tail.splitOn slash, c ≠ [] ∧ c ≠ dot ∧ c ≠ dotDot

/-- Names that `wash_path` has nothing to do with. -/
def NoDots (names : List (List UInt8)) : Prop := ∀ c ∈ names, c ≠ dot ∧ c ≠ dotDot

theorem NoDots.washName {names : List (List UInt8)} (h : NoDots names) (name : List UInt8) :
    NoDots (washName names name) := by
  unfold Shell.washName
  intro c hc
  split at hc
  · exact h c (List.dropLast_subset _ hc)
  · next hup =>
    split at hc
    · exact h c hc
    · next hdot =>
      rcases List.mem_append.mp hc with hc | hc
      · exact h c hc
      · rw [List.mem_singleton.mp hc]
        exact ⟨hdot, hup⟩

/-- The fold leaves no dots. -/
theorem washNames_plain (names : List (List UInt8)) : NoDots (washNames names) := by
  have hfold : ∀ cs names : List (List UInt8), NoDots names → NoDots (cs.foldl washName names) := by
    intro cs
    induction cs with
    | nil => exact fun _ h => h
    | cons c cs ih => exact fun names h => ih _ (h.washName c)
  exact hfold names [] fun c hc => absurd hc List.not_mem_nil

/-- Without dots, all names are kept. -/
theorem washNames_of_plain {names : List (List UInt8)} (h : NoDots names) :
    washNames names = names := by
  have hfold : ∀ cs front : List (List UInt8), NoDots cs →
      cs.foldl washName front = front ++ cs := by
    intro cs
    induction cs with
    | nil => exact fun front _ => (List.append_nil front).symm
    | cons c cs ih =>
      intro front hcs
      obtain ⟨⟨hdot, hup⟩, hrest⟩ := List.forall_mem_cons.mp hcs
      rw [List.foldl_cons, washName, if_neg hup, if_neg hdot, ih _ hrest, List.append_assoc]
      rfl
  exact hfold names [] h

section

variable {path : List UInt8} {names : List (List UInt8)}

theorem washNames_sublist : (washNames (components path)).Sublist (components path) :=
  washed_sublist (components path) []

theorem washNames_proper : Proper (washNames (components path)) := fun c hc =>
  components_proper path c (washNames_sublist.subset hc)

/-- `wash_path` on any path, one of slashes alone too. -/
theorem washPath_eq (hp : AbsPath path) :
    washPath path = some (pathText (washNames (components path))) := by
  by_cases hcomps : components path = []
  · have hname : (pathParse path).2 = [] := by
      by_contra hne
      have := (pathParse_spec path).comps
      rw [hcomps, if_neg hne] at this
      cases this
    rw [washPath, ensure_pos hp.head, hcomps]
    simp only [Option.bind_eq_bind, Option.bind_some, if_pos hname]
    rfl
  · exact washPath_spec hp hcomps

/-- The names of a text, behind a slash and with slashes between them. -/
theorem pathText_eq : pathText names = slash :: [slash].intercalate names := by
  rw [pathText]
  split
  · next hnil =>
    rw [hnil]
    rfl
  · next hne =>
    induction names with
    | nil => exact absurd rfl hne
    | cons c names ih =>
      cases names with
      | nil =>
        rw [pathOf_single]
        simp
      | cons c' names =>
        rw [pathOf_cons, ih (List.cons_ne_nil _ _), List.intercalate_cons_cons]
        simp

theorem components_pathText (h : Proper names) : components (pathText names) = names := by
  rw [pathText]
  split
  · next hnil =>
    rw [hnil]
    decide
  · exact components_pathOf names h

/-- **Proper names without dots make a canonical path.** -/
theorem canonical_pathText (h : Proper names) (hplain : NoDots names) :
    Canonical (pathText names) := by
  refine ⟨by rw [pathText_eq]; rfl, ?_⟩
  by_cases hnil : names = []
  · rw [hnil]
    exact Or.inl rfl
  · right
    rw [pathText_eq, List.tail_cons, List.splitOn_intercalate slash (fun c hc => (h c hc).2) hnil]
    exact fun c hc => ⟨(h c hc).1, hplain c hc⟩

theorem pathText_length_le (hp : AbsPath path) :
    (pathText (washNames (components path))).length ≤ path.length := by
  rw [pathText]
  split
  · have hne : path ≠ [] := by
      intro he
      have := hp.head
      rw [he] at this
      cases this
    exact List.length_pos_of_ne_nil hne
  · exact pathOf_length_le hp washNames_sublist

theorem pathText_chars (h : ∀ c ∈ names, IsName c) : ∀ x ∈ pathText names, x ≠ 0 := by
  intro x hx
  rw [pathText] at hx
  split at hx
  · rw [List.mem_singleton.mp hx]
    decide
  · obtain ⟨c, hc, hmem⟩ := List.mem_flatMap.mp hx
    rcases List.mem_cons.mp hmem with hslash | hin
    · rw [hslash]
      decide
    · exact h c hc x hin

/-- What was washed can be washed. -/
theorem washed_absPath (hp : AbsPath path) : AbsPath (pathText (washNames (components path))) := by
  refine ⟨by rw [pathText_eq]; rfl, pathText_chars fun c hc => ?_, ?_, fun c hc => ?_⟩
  · exact hp.isName c (washNames_sublist.subset hc)
  · exact Nat.lt_of_le_of_lt (pathText_length_le hp) hp.length
  · rw [components_pathText washNames_proper] at hc
    exact hp.short c (washNames_sublist.subset hc)

end

/-- **`wash_path` computes the canonical path**: a slash and the names that the fold
leaves, with slashes between them. It is no longer than the path it is of, and its own
canonical path. -/
theorem wash_path_canonical (path : List UInt8) (hp : AbsPath path) :
    ∃ washed, washPath path = some washed ∧
      washed = slash :: [slash].intercalate ((components path).foldl washName []) ∧
      Canonical washed ∧ washed.length ≤ path.length ∧ washPath washed = some washed := by
  refine ⟨pathText (washNames (components path)), washPath_eq hp, pathText_eq,
    canonical_pathText washNames_proper (washNames_plain _), pathText_length_le hp, ?_⟩
  rw [washPath_eq (washed_absPath hp), components_pathText washNames_proper,
    washNames_of_plain (washNames_plain _)]

/-- Of `/a//.././a/` it is `/a`. -/
theorem wash_path_canonical_winding : ∃ washed, washPath winding = some washed ∧
    washed = [47, 97] ∧ Canonical washed ∧ washPath washed = some washed := by
  obtain ⟨washed, hwash, heq, hcanon, -, hagain⟩ :=
    wash_path_canonical winding ⟨rfl, by simp [winding], by decide, by decide⟩
  exact ⟨washed, hwash, heq, hcanon, hagain⟩

end OsCore.Shell
