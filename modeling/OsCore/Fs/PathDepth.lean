import OsCore.Fs.Syscalls

/-!
# The depth of a path (`path_depth_cnt` in `fs/fs.c`)

`path_depth_cnt` counts how often `path_parse` finds a name. It keeps the name in a
local array, clears it before every call but the first, and goes on as long as the
first byte is no zero. So the array is what it was on the stack when the path has no
name in it: the count is 0 or 1 then, as that byte says (`path_depth_iff`).

`pathDepthCnt` knows of the array its first byte alone; `pathDepthCntIn` has all of it
and gives the same count.
-/

namespace OsCore.Fs

/-! ## The code -/

def maxFileNameLen : Nat := 16

/-- `path_parse(pathname, name_store)`: a name goes to the front of the array, and what
is behind it stays. -/
def pathParseTo (pathname : List UInt8) (nameStore : Mem) :
    Option (Option (List UInt8) × Mem) := do
  let (rest, name) := pathParse pathname
  ensure (name.length ≤ maxFileNameLen)
  return (rest, nameStore.blit 0 (fun i => name.getD i 0) name.length)

/-- `while (name[0])` -/
def countLoop : Nat → Option (List UInt8) → Mem → Nat → Option Nat
  | 0, _, _, _ => none
  | fuel + 1, path, name, depth =>
    if name 0 = 0 then some depth
    else do
      let name := name.fill 0 0 maxFileNameLen
      match path with
      | none => countLoop fuel none name (depth + 1)
      | some pathname =>
        let (path, name) ← pathParseTo pathname name
        countLoop fuel path name (depth + 1)

/-- `path_depth_cnt(pathname)`, where the array `name` holds these bytes. -/
def pathDepthCntIn (name : Mem) (pathname : List UInt8) : Option Nat := do
  let (path, name) ← pathParseTo pathname name
  countLoop (pathname.length + 2) path name 0

/-! ## The first byte decides -/

theorem blit_first (nameStore : Mem) (name : List UInt8) :
    nameStore.blit 0 (fun i => name.getD i 0) name.length 0 = name.headD (nameStore 0) := by
  cases name with
  | nil => exact Mem.blit_out (Or.inr (Nat.le_refl 0))
  | cons c name => exact Mem.blit_in (Nat.le_refl 0) (Nat.succ_pos _)

theorem countLoop_eq (fuel : Nat) : ∀ (path : Option (List UInt8)) (name : Mem) (depth : Nat),
    countLoop fuel path name depth = depthLoop fuel path (name 0) depth := by
  induction fuel with
  | zero => exact fun _ _ _ => rfl
  | succ fuel ih =>
    intro path name depth
    have hclear : name.fill 0 0 maxFileNameLen 0 = 0 := Mem.blit_in (Nat.le_refl 0) (by decide)
    rw [countLoop, depthLoop]
    split
    · rfl
    · cases path with
      | none =>
        dsimp only
        rw [ih, hclear]
        rfl
      | some pathname =>
        dsimp only
        rw [pathParseTo, parseNext]
        by_cases hlen : (pathParse pathname).2.length ≤ maxFileNameLen
        · have hlen' : (pathParse pathname).2.length ≤ 16 := hlen
          simp only [ensure_pos hlen, ensure_pos hlen', Option.bind_eq_bind, Option.bind_some,
            Option.pure_def]
          rw [ih, blit_first, hclear]
        · have hlen' : ¬ (pathParse pathname).2.length ≤ 16 := hlen
          simp only [ensure_neg hlen, ensure_neg hlen', Option.bind_eq_bind, Option.bind_none]

theorem pathDepthCntIn_eq (name : Mem) (pathname : List UInt8) :
    pathDepthCntIn name pathname = pathDepthCnt (name 0) pathname := by
  rw [pathDepthCntIn, pathDepthCnt, pathParseTo]
  by_cases hlen : (pathParse pathname).2.length ≤ maxFileNameLen
  · have hlen' : (pathParse pathname).2.length ≤ 16 := hlen
    simp only [ensure_pos hlen, ensure_pos hlen', Option.bind_eq_bind, Option.bind_some,
      Option.pure_def]
    rw [countLoop_eq, blit_first]
  · have hlen' : ¬ (pathParse pathname).2.length ≤ 16 := hlen
    simp only [ensure_neg hlen, ensure_neg hlen', Option.bind_eq_bind, Option.bind_none]

/-! ## The count -/

/-- A name that does not start with a zero is counted. -/
theorem depthLoop_lt {fuel : Nat} : ∀ {path : Option (List UInt8)} {c : UInt8} {depth n : Nat},
    depthLoop fuel path c depth = some n → depth ≤ n ∧ (c ≠ 0 → depth < n) := by
  induction fuel with
  | zero =>
    intro path c depth n h
    cases h
  | succ fuel ih =>
    intro path c depth n h
    rw [depthLoop] at h
    split at h
    · next hc =>
      cases h
      exact ⟨Nat.le_refl _, fun hne => absurd hc hne⟩
    · obtain ⟨-, -, hrest⟩ := Option.bind_eq_some_iff.mp h
      have := (ih hrest).1
      exact ⟨by omega, fun _ => by omega⟩

/-- What `path_parse` is promised of the names it finds. -/
def ShortNames (names : List (List UInt8)) : Prop :=
  ∀ c ∈ names, c.length < maxFileNameLen ∧ IsName c

/-- The array has room for the name found last. -/
theorem ShortNames.first {path : Option (List UInt8)} {name : List UInt8}
    (h : ShortNames (pending path name)) : name.length ≤ 16 := by
  by_cases hnil : name = []
  · rw [hnil]
    exact Nat.zero_le _
  · have hmem : name ∈ pending path name := by
      rw [pending, if_neg hnil]
      exact List.mem_cons_self
    exact (h _ hmem).1.le

/-- **The loop counts the names that are left.** -/
theorem depthLoop_spec {fuel : Nat} : ∀ {path : Option (List UInt8)} {name : List UInt8}
    {depth : Nat}, ShortNames (pending path name) → (pending path name).length < fuel →
    depthLoop fuel path (name.headD 0) depth = some (depth + (pending path name).length) := by
  induction fuel with
  | zero =>
    intro path name depth _ hfuel
    exact absurd hfuel (Nat.not_lt_zero _)
  | succ fuel ih =>
    intro path name depth hnames hfuel
    rw [depthLoop]
    cases name with
    | nil =>
      rw [pending, if_pos rfl, if_pos (by rfl)]
      rfl
    | cons c name =>
      have hpend : pending path (c :: name) = (c :: name) :: (path.map components).getD [] :=
        if_neg (List.cons_ne_nil _ _)
      have hnext := parseNext_pending path
      rw [hpend] at hnames hfuel ⊢
      rw [List.length_cons] at hfuel
      obtain ⟨⟨-, hchars⟩, hrest⟩ := List.forall_mem_cons.mp hnames
      have hc : (c :: name).headD 0 ≠ 0 := hchars c List.mem_cons_self
      have hshort : (parseNext path).2.length ≤ 16 :=
        ShortNames.first (hnext.symm ▸ hrest)
      rw [if_neg hc]
      dsimp only
      rw [ensure_pos hshort, Option.bind_eq_bind, Option.bind_some, ih, hnext, List.length_cons]
      · congr 1
        omega
      · rwa [hnext]
      · rw [hnext]
        omega

section

variable {pathname : List UInt8}

theorem shortNames_components (hchars : ∀ x ∈ pathname, x ≠ 0)
    (hshort : ∀ c ∈ components pathname, c.length < 16) : ShortNames (components pathname) :=
  fun c hc => ⟨hshort c hc, fun x hx =>
    hchars x (mem_of_mem_splitOn c (List.mem_filter.mp hc).1 x hx)⟩

theorem components_length_le (pathname : List UInt8) :
    (components pathname).length ≤ pathname.length + 1 :=
  (List.length_filter_le _ _).trans (splitOn_length_le pathname)

/-- **Path depth.** For a path with a name in it, and for one without, if the array
starts with a zero, the count is that of the components; otherwise it is not. -/
theorem path_depth_iff (name : Mem) (pathname : List UInt8) (hchars : ∀ x ∈ pathname, x ≠ 0)
    (hshort : ∀ c ∈ components pathname, c.length < 16) :
    pathDepthCntIn name pathname = some (components pathname).length ↔
      components pathname ≠ [] ∨ name 0 = 0 := by
  have hpend : pending (pathParse pathname).1 (pathParse pathname).2 = components pathname :=
    (pathParse_spec pathname).comps.symm
  have hlen := components_length_le pathname
  have hnames := shortNames_components hchars hshort
  have hfirst : (pathParse pathname).2.length ≤ 16 :=
    ShortNames.first (hpend.symm ▸ hnames)
  have hloop : depthLoop (pathname.length + 2) (pathParse pathname).1
      ((pathParse pathname).2.headD 0) 0 = some (components pathname).length := by
    have hspec := @depthLoop_spec (pathname.length + 2) (pathParse pathname).1
      (pathParse pathname).2 0 (hpend.symm ▸ hnames) (by rw [hpend]; omega)
    rwa [hpend, Nat.zero_add] at hspec
  rw [pathDepthCntIn_eq, pathDepthCnt]
  dsimp only
  rw [ensure_pos hfirst, Option.bind_eq_bind, Option.bind_some]
  by_cases hcomps : components pathname = []
  · have hnil : (pathParse pathname).2 = [] := by
      by_contra hne
      rw [hcomps, pending, if_neg hne] at hpend
      cases hpend
    rw [hnil, or_iff_right (not_not_intro hcomps)]
    constructor
    · intro hrun
      by_contra hne
      rw [hcomps] at hrun
      exact absurd ((depthLoop_lt hrun).2 hne) (Nat.not_lt_zero _)
    · intro hzero
      rw [hnil] at hloop
      rw [List.headD_nil, hzero]
      exact hloop
  · have hne : (pathParse pathname).2 ≠ [] := by
      intro hnil
      rw [hnil, pending, if_pos rfl] at hpend
      exact hcomps hpend.symm
    obtain ⟨c, cs, hcons⟩ := List.exists_cons_of_ne_nil hne
    rw [hcons] at hloop ⊢
    exact iff_of_true hloop (Or.inl hcomps)

end

/-- `//a/bc/`, with an array that is not clear. -/
theorem path_depth_iff_bc : pathDepthCntIn (fun _ => 120) [47, 47, 97, 47, 98, 99, 47] = some 2 :=
  (path_depth_iff (fun _ => 120) [47, 47, 97, 47, 98, 99, 47] (by decide +kernel) (by decide)).mpr
    (Or.inl (by decide))

/-- The root has no component, and a depth of 1 if the stack says so. -/
theorem root_depth : ¬ ∀ (name : Mem) (pathname : List UInt8), (∀ x ∈ pathname, x ≠ 0) →
    (∀ c ∈ components pathname, c.length < 16) →
      pathDepthCntIn name pathname = some (components pathname).length := by
  intro h
  have hroot := h (fun _ => 120) [slash] (by decide +kernel) (by decide)
  have hone : pathDepthCntIn (fun _ => 120) [slash] = some 1 := by decide
  rw [hone] at hroot
  exact absurd hroot (by decide)

end OsCore.Fs
