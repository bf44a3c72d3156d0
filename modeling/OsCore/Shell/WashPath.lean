import OsCore.Fs.Cwd

/-!
# Two readings of a path (`wash_path` in `shell/buildin_cmd.c`)

The shell takes `.` and `..` out of a path before it hands it to the kernel. It
does that on the text: a `..` cuts the last name off the path so far, wherever
that path may lead. The kernel, given the path as it was, would have looked the
two names up, since every directory has an entry for itself and one for its parent.

Both keep a list of names, and `washName` is what one more name does to it:
`washLoop_spec` follows the text of `wash_path`, in which the empty list is the one
path that is not the concatenation of its names, and `Trail` the directories
`search_file` goes through. A trail is the names that lead down to where the walk
is, so a `..` takes its last step back (`Trail.up`), and at the root, which is its
own parent, it does nothing, as the cut does nothing to the path `/`.
-/

namespace OsCore.Shell

open OsCore.Fs

variable {p : Partition}

/-! ## `wash_path` -/

/-- `strrchr(s, c)`, as a position. -/
def strrchr (c : UInt8) : List UInt8 → Option Nat
  | [] => none
  | x :: s =>
    match strrchr c s with
    | some i => some (i + 1)
    | none => if x = c then some 0 else none

/-- The body of `while (name[0])` up to the next name. -/
def washStep (newAbsPath name : List UInt8) : Option (List UInt8) :=
  if name = dotDot then do
    let slashPtr ← strrchr slash newAbsPath
    if slashPtr ≠ 0 then return newAbsPath.take slashPtr
    else return newAbsPath.take (slashPtr + 1)
  else if name ≠ dot then
    let newAbsPath := if newAbsPath ≠ [slash] then newAbsPath ++ [slash] else newAbsPath
    some (newAbsPath ++ name)
  else some newAbsPath

/-- `while (name[0])`. -/
def washLoop : Nat → Option (List UInt8) → List UInt8 → List UInt8 → Option (List UInt8)
  | 0, _, _, _ => none
  | fuel + 1, subPath, name, newAbsPath =>
    if name = [] then some newAbsPath
    else do
      -- past its 16 bytes the array `name` has no terminator
      ensure (name.length < 16)
      let newAbsPath ← washStep newAbsPath name
      let (subPath, name) := parseNext subPath
      washLoop fuel subPath name newAbsPath

/-- `wash_path(old_abs_path, new_abs_path)`. -/
def washPath (oldAbsPath : List UInt8) : Option (List UInt8) := do
  ensure (oldAbsPath.head? = some slash)
  let (subPath, name) := pathParse oldAbsPath
  if name = [] then return [slash]
  washLoop (oldAbsPath.length + 1) subPath name [slash]

/-! ## On the text -/

/-- What one more name does to the names so far. -/
def washName (names : List (List UInt8)) (name : List UInt8) : List (List UInt8) :=
  if name = dotDot then names.dropLast else if name = dot then names else names ++ [name]

/-- The text of a path with these names. -/
def pathText (names : List (List UInt8)) : List UInt8 :=
  if names = [] then [slash] else pathOf names

/-- Names as they stand between slashes. -/
def Proper (names : List (List UInt8)) : Prop := ∀ c ∈ names, c ≠ [] ∧ slash ∉ c

theorem Proper.washName {names : List (List UInt8)} {name : List UInt8} (h : Proper names)
    (hname : name ≠ [] ∧ slash ∉ name) : Proper (washName names name) := by
  unfold Shell.washName
  intro c hc
  split at hc
  · exact h c (List.dropLast_subset _ hc)
  · split at hc
    · exact h c hc
    · rcases List.mem_append.mp hc with hc | hc
      · exact h c hc
      · rwa [List.mem_singleton.mp hc]

theorem strrchr_none {c : UInt8} {s : List UInt8} (h : c ∉ s) : strrchr c s = none := by
  induction s with
  | nil => rfl
  | cons x s ih =>
    rw [List.mem_cons, not_or] at h
    rw [strrchr, ih h.2]
    exact if_neg (Ne.symm h.1)

/-- The last slash is the one before the last name. -/
theorem strrchr_append {c : UInt8} {s : List UInt8} (h : c ∉ s) (front : List UInt8) :
    strrchr c (front ++ c :: s) = some front.length := by
  induction front with
  | nil =>
    rw [List.nil_append, strrchr, strrchr_none h]
    exact if_pos rfl
  | cons x front ih => rw [List.cons_append, strrchr, ih, List.length_cons]

theorem pathOf_ne_nil {names : List (List UInt8)} (h : names ≠ []) : pathOf names ≠ [] := by
  obtain ⟨c, rest, rfl⟩ := List.exists_cons_of_ne_nil h
  rw [pathOf_cons]
  exact List.cons_ne_nil _ _

/-- A path of names is not the path of slashes alone. -/
theorem pathOf_ne_slash {names : List (List UInt8)} (h : Proper names) : pathOf names ≠ [slash] := by
  intro heq
  have hcomps := components_pathOf names h
  rw [heq, show components [slash] = [] by decide] at hcomps
  rw [← hcomps] at heq
  cases heq

/-- **One name, on the text.** -/
theorem washStep_spec {names : List (List UInt8)} {name : List UInt8} (h : Proper names) :
    washStep (pathText names) name = some (pathText (washName names name)) := by
  unfold washStep washName
  by_cases hup : name = dotDot
  · rw [if_pos hup, if_pos hup]
    rcases List.eq_nil_or_concat names with rfl | ⟨front, c, rfl⟩
    · rfl
    · -- the last name goes with the slash before it
      rw [List.concat_eq_append] at h ⊢
      obtain ⟨-, hslash⟩ := h c (by simp)
      rw [pathText, if_neg (by simp), List.dropLast_concat, pathOf_append, pathOf_single,
        strrchr_append hslash]
      simp only [Option.bind_eq_bind, Option.bind_some, Option.pure_def]
      by_cases hfront : front = []
      · rw [hfront]
        rfl
      · have hlen : (pathOf front).length ≠ 0 := fun h0 =>
          pathOf_ne_nil hfront (List.length_eq_zero_iff.mp h0)
        rw [if_pos hlen, List.take_left, pathText, if_neg hfront]
  · rw [if_neg hup, if_neg hup]
    by_cases hdot : name = dot
    · rw [if_neg (not_not.mpr hdot), if_pos hdot]
    · have hlong : pathText (names ++ [name]) = pathOf names ++ slash :: name := by
        rw [pathText, if_neg (by simp), pathOf_append, pathOf_single]
      rw [if_pos hdot, if_neg hdot, hlong]
      by_cases hnil : names = []
      · rw [hnil]
        rfl
      · rw [pathText, if_neg hnil]
        dsimp only
        rw [if_pos (pathOf_ne_slash h), List.append_assoc]
        rfl

/-- What `wash_path` makes of the names of a path. -/
def washNames (names : List (List UInt8)) : List (List UInt8) := names.foldl washName []

/-- **The loop, on the text**: by induction on the rounds, with the path so far as
the text of the names so far. -/
theorem washLoop_spec : ∀ {fuel : Nat} {subPath : Option (List UInt8)} {name : List UInt8}
    {names : List (List UInt8)}, Proper names →
    (∀ c ∈ pending subPath name, c.length < 16 ∧ slash ∉ c) →
    (pending subPath name).length < fuel →
    washLoop fuel subPath name (pathText names) =
      some (pathText ((pending subPath name).foldl washName names)) := by
  intro fuel
  induction fuel with
  | zero => intro subPath name names _ _ h; exact absurd h (by omega)
  | succ fuel ih =>
    intro subPath name names hproper hnames hfuel
    rw [washLoop]
    by_cases hname : name = []
    · rw [if_pos hname, pending, if_pos hname]
      rfl
    · have hpend : pending subPath name = name :: (subPath.map components).getD [] := if_neg hname
      obtain ⟨hshort, hslash⟩ := hnames name (by rw [hpend]; exact List.mem_cons_self)
      rw [if_neg hname, ensure_pos hshort, washStep_spec hproper]
      simp only [Option.bind_eq_bind, Option.bind_some]
      have hnext : ∀ c ∈ pending (parseNext subPath).1 (parseNext subPath).2,
          c.length < 16 ∧ slash ∉ c := fun c hc => by
        rw [parseNext_pending] at hc
        exact hnames c (by rw [hpend]; exact List.mem_cons_of_mem _ hc)
      rw [hpend, List.length_cons] at hfuel
      rw [ih (hproper.washName ⟨hname, hslash⟩) hnext (by rw [parseNext_pending]; omega), hpend,
        List.foldl_cons, parseNext_pending]

theorem slash_of_mem_splitOn (path : List UInt8) : ∀ c ∈ path.splitOn slash, slash ∉ c := by
  induction path with
  | nil =>
    intro c hc
    rw [List.splitOn_nil, List.mem_singleton] at hc
    rw [hc]
    exact List.not_mem_nil
  | cons a path ih =>
    intro c hc
    rw [List.splitOn_cons_eq_if_modifyHead] at hc
    split at hc
    next =>
      rcases List.mem_cons.mp hc with rfl | hc
      · exact List.not_mem_nil
      · exact ih c hc
    next ha =>
      obtain ⟨b, l, hl⟩ := List.exists_cons_of_ne_nil (List.splitOn_ne_nil slash path)
      rw [hl] at hc ih
      rcases List.mem_cons.mp hc with rfl | hc
      · rw [List.mem_cons, not_or]
        exact ⟨fun h => ha (by simp [h]), ih b List.mem_cons_self⟩
      · exact ih c (List.mem_cons_of_mem _ hc)

theorem components_proper (path : List UInt8) : Proper (components path) := by
  intro c hc
  obtain ⟨hmem, hne⟩ := List.mem_filter.mp hc
  exact ⟨by simpa using hne, slash_of_mem_splitOn path c hmem⟩

/-- **`wash_path`** on a path with a name in it. -/
theorem washPath_spec {path : List UInt8} (hp : AbsPath path) (hcomps : components path ≠ []) :
    washPath path = some (pathText (washNames (components path))) := by
  have hpend : pending (pathParse path).1 (pathParse path).2 = components path :=
    (pathParse_spec path).comps.symm
  have hname : (pathParse path).2 ≠ [] := by
    intro h0
    rw [(pathParse_spec path).comps, if_pos h0] at hcomps
    exact hcomps rfl
  unfold washPath
  rw [ensure_pos hp.head]
  simp only [Option.bind_eq_bind, Option.bind_some, if_neg hname]
  have hloop := @washLoop_spec (path.length + 1) (pathParse path).1 (pathParse path).2 []
    (fun c hc => absurd hc List.not_mem_nil)
    (fun c hc => by
      rw [hpend] at hc
      exact ⟨hp.short c hc, (components_proper path c hc).2⟩)
    (by
      rw [hpend]
      exact Nat.lt_succ_of_le hp.components_length)
  rw [hpend] at hloop
  exact hloop

/-! ## In the tree -/

/-- A tree in which every directory has an entry for itself and, the root apart, one
for the directory that has the entry it is reached by. -/
structure DotTree (s : Mounted p) (rootDir : Nat) : Prop extends Tree s rootDir where
  self : ∀ d, IsDir s d → ∃ de, Entry s d Fs.dot de ∧ de.iNo.toNat = d ∧ de.fType = ftDirectory
  up : ∀ q name de, IsDir s q → IsName name → Entry s q name de → de.fType = ftDirectory →
    name ≠ Fs.dot → name ≠ Fs.dotDot → ∃ de', Entry s de.iNo.toNat Fs.dotDot de' ∧
      de'.iNo.toNat = q ∧ de'.fType = ftDirectory

/-- The names that lead from the root down to directory `d`. -/
inductive Trail (s : Mounted p) : List (List UInt8) → Nat → Prop
  | root : Trail s [] 0
  | down {names : List (List UInt8)} {q : Nat} {name : List UInt8} {de : DirEntry} :
      Trail s names q → IsName name → Entry s q name de → de.fType = ftDirectory → name ≠ dot →
      name ≠ dotDot → Trail s (names ++ [name]) de.iNo.toNat

section

variable {s : Mounted p} {rootDir : Nat}

theorem Trail.isDir {names : List (List UInt8)} {d : Nat} (h : Trail s names d) : IsDir s d := by
  induction h with
  | root => exact IsDir.root
  | down _ _ he hdir _ _ ih => exact ih.sub he hdir

/-- A trail is a path without `.` and `..`. -/
theorem Trail.plain {names : List (List UInt8)} {d : Nat} (h : Trail s names d) :
    ∀ c ∈ names, c ≠ dot ∧ c ≠ dotDot := by
  induction h with
  | root => exact fun c hc => absurd hc List.not_mem_nil
  | down _ _ _ _ h1 h2 ih =>
    intro c hc
    rcases List.mem_append.mp hc with hc | hc
    · exact ih c hc
    · rw [List.mem_singleton.mp hc]
      exact ⟨h1, h2⟩

/-- **`..` takes the last step back.** -/
theorem Trail.up (ht : DotTree s rootDir) {names : List (List UInt8)} {d : Nat} (h : Trail s names d)
    {de : DirEntry} (he : Entry s d dotDot de) : Trail s names.dropLast de.iNo.toNat := by
  cases h with
  | root =>
    obtain ⟨up, hup, hno, -⟩ := ht.dotDot
    rw [← hup.unique ht.toTree IsDir.root he, hno]
    exact Trail.root
  | down hq hname hdown hdir h1 h2 =>
    obtain ⟨up, hup, hno, -⟩ := ht.up _ _ _ hq.isDir hname hdown hdir h1 h2
    rw [List.dropLast_concat, ← hup.unique ht.toTree (hq.isDir.sub hdown hdir) he, hno]
    exact hq

/-- One name, in the tree. -/
theorem Trail.step (ht : DotTree s rootDir) {names : List (List UInt8)} {d : Nat}
    (h : Trail s names d) {name : List UInt8} {de : DirEntry} (hname : IsName name)
    (he : Entry s d name de) (hdir : de.fType = ftDirectory) :
    Trail s (washName names name) de.iNo.toNat := by
  unfold washName
  by_cases hup : name = dotDot
  · rw [if_pos hup]
    exact h.up ht (hup ▸ he)
  · rw [if_neg hup]
    by_cases hdot : name = dot
    · obtain ⟨self, hself, hno, -⟩ := ht.self d h.isDir
      rw [hdot] at he
      rw [if_pos hdot, ← hself.unique ht.toTree h.isDir he, hno]
      exact h
    · rw [if_neg hdot]
      exact h.down hname he hdir hdot hup

/-- A file has a name of its own. -/
theorem Trail.file_name (ht : DotTree s rootDir) {names : List (List UInt8)} {d : Nat}
    (h : Trail s names d) {name : List UInt8} {de : DirEntry} (he : Entry s d name de)
    (hreg : de.fType = ftRegular) : name ≠ dot ∧ name ≠ dotDot := by
  have hnot : ∀ name' de', Entry s d name' de' → de'.fType = ftDirectory → name ≠ name' := by
    intro name' de' he' hdir hsame
    rw [← hsame] at he'
    rw [← he.unique ht.toTree h.isDir he', hreg] at hdir
    exact absurd hdir (by decide)
  refine ⟨?_, ?_⟩
  · obtain ⟨self, hself, -, hdir⟩ := ht.self d h.isDir
    exact hnot dot self hself hdir
  · cases h with
    | root =>
      obtain ⟨up, hent, -, hdir⟩ := ht.dotDot
      exact hnot dotDot up hent hdir
    | down hq hname hdown hdir' h1 h2 =>
      obtain ⟨up, hent, -, hdir⟩ := ht.up _ _ _ hq.isDir hname hdown hdir' h1 h2
      exact hnot dotDot up hent hdir

/-- Names after a trail lead where they lead from its end. -/
theorem Trail.reaches {names : List (List UInt8)} {d : Nat} (h : Trail s names d) :
    ∀ {rest : List (List UInt8)} {n : Nat} {ft : UInt32}, Reaches s d rest n ft →
      Reaches s 0 (names ++ rest) n ft := by
  induction h with
  | root => exact fun hr => hr
  | down _ _ he hdir _ _ ih =>
    intro rest n ft hr
    rw [List.append_assoc, List.singleton_append]
    exact ih (Reaches.dir he hdir hr)

/-- All names but the last lead to directories. -/
def DirsOnTheWay (s : Mounted p) (d : Nat) (names : List (List UInt8)) : Prop :=
  ∀ pre suf, names = pre ++ suf → suf ≠ [] → ∃ m, Reaches s d pre m ftDirectory

theorem DirsOnTheWay.last {d : Nat} {name : List UInt8} : DirsOnTheWay s d [name] := by
  intro pre suf hsplit hne
  cases pre with
  | nil => exact ⟨d, Reaches.here d⟩
  | cons c pre => exact absurd (List.append_eq_nil_iff.mp (List.cons.inj hsplit).2.symm).2 hne

theorem DirsOnTheWay.cons {d : Nat} {name : List UInt8} {de : DirEntry}
    {rest : List (List UInt8)} (he : Entry s d name de) (hdir : de.fType = ftDirectory)
    (h : DirsOnTheWay s de.iNo.toNat rest) : DirsOnTheWay s d (name :: rest) := by
  intro pre suf hsplit hne
  cases pre with
  | nil => exact ⟨d, Reaches.here d⟩
  | cons c pre =>
    obtain ⟨rfl, hrest⟩ := List.cons.inj hsplit
    obtain ⟨m, hr⟩ := h pre suf hrest hne
    exact ⟨m, Reaches.dir he hdir hr⟩

/-- **The walk, name by name, against the washed names**: by induction on the walk,
with the trail to where it is as what the names so far have been washed to. -/
theorem washed_walk (ht : DotTree s rootDir) {d : Nat} {cs : List (List UInt8)} {n : Int}
    {ft : UInt32} (hw : Walk s d cs n ft) (hn : 0 ≤ n) :
    ∀ {names : List (List UInt8)}, Trail s names d → (∀ c ∈ cs, IsName c) → DirsOnTheWay s d cs →
      ∃ m : Nat, n = m ∧ Reaches s 0 (cs.foldl washName names) m ft ∧
        ∀ c ∈ cs.foldl washName names, c ≠ dot ∧ c ≠ dotDot := by
  induction hw with
  | done d =>
    intro names htrail _ _
    have hr := htrail.reaches (Reaches.here d)
    rw [List.append_nil] at hr
    exact ⟨d, rfl, hr, htrail.plain⟩
  | missing hmiss => exact absurd hn (by decide)
  | @file d name rest de he hreg =>
    intro names htrail _ hdirs
    -- behind a file there is no name left
    cases rest with
    | cons c rest =>
      obtain ⟨m, hr⟩ := hdirs [name] (c :: rest) rfl (List.cons_ne_nil _ _)
      cases hr with
      | dir he' hdir' _ =>
        rw [← he.unique ht.toTree htrail.isDir he', hreg] at hdir'
        exact absurd hdir' (by decide)
    | nil =>
      obtain ⟨h1, h2⟩ := htrail.file_name ht he hreg
      have hwash : [name].foldl washName names = names ++ [name] := by
        rw [List.foldl_cons, List.foldl_nil, washName, if_neg h2, if_neg h1]
      rw [hwash]
      refine ⟨de.iNo.toNat, rfl, htrail.reaches (Reaches.file he hreg), fun c hc => ?_⟩
      rcases List.mem_append.mp hc with hc | hc
      · exact htrail.plain c hc
      · rw [List.mem_singleton.mp hc]
        exact ⟨h1, h2⟩
  | @dir d name rest de n ft he hdir _ ih =>
    intro names htrail hchars hdirs
    obtain ⟨hname, hrest⟩ := List.forall_mem_cons.mp hchars
    apply ih hn (htrail.step ht hname he hdir) hrest
    intro pre suf hsplit hne
    obtain ⟨m, hr⟩ := hdirs (name :: pre) suf (by rw [hsplit]; rfl) hne
    exact ⟨m, (reaches_dir_iff ht.toTree htrail.isDir he hdir).mp hr⟩

/-! ## The two agree -/

/-- Washing leaves names out and adds none. -/
theorem washed_sublist : ∀ (cs names : List (List UInt8)),
    (cs.foldl washName names).Sublist (names ++ cs) := by
  intro cs
  induction cs with
  | nil =>
    intro names
    rw [List.append_nil]
    exact List.Sublist.refl _
  | cons c cs ih =>
    intro names
    have hstep : (washName names c).Sublist (names ++ [c]) := by
      unfold washName
      split
      · exact (List.dropLast_sublist names).trans (List.sublist_append_left _ _)
      · split
        · exact List.sublist_append_left _ _
        · exact List.Sublist.refl _
    have h := (ih (washName names c)).trans (hstep.append_right cs)
    rwa [List.append_assoc, List.singleton_append] at h

/-- What stands between the slashes of a text, with a slash each. -/
theorem splitOn_sum (path : List UInt8) :
    ((path.splitOn slash).map fun c => c.length + 1).sum = path.length + 1 := by
  induction path with
  | nil => rfl
  | cons a path ih =>
    rw [List.splitOn_cons_eq_if_modifyHead]
    split
    next =>
      rw [List.map_cons, List.sum_cons, ih, List.length_cons, List.length_nil]
      omega
    next =>
      obtain ⟨b, l, hl⟩ := List.exists_cons_of_ne_nil (List.splitOn_ne_nil slash path)
      rw [hl] at ih ⊢
      rw [List.modifyHead_cons, List.map_cons, List.sum_cons, List.length_cons, List.length_cons]
      rw [List.map_cons, List.sum_cons] at ih
      omega

/-- A washed path is no longer than it was. -/
theorem pathOf_length_le {path : List UInt8} (hp : AbsPath path) {names : List (List UInt8)}
    (h : names.Sublist (components path)) : (pathOf names).length ≤ path.length := by
  cases path with
  | nil => exact absurd hp.head (by simp)
  | cons c r =>
    obtain rfl : c = slash := by simpa using hp.head
    rw [components_slash] at h
    have hsub : (names.map fun c => c.length + 1).Sublist
        ((r.splitOn slash).map fun c => c.length + 1) :=
      (h.trans List.filter_sublist).map _
    have hle := hsub.sum_le_sum fun _ _ => Nat.zero_le _
    rw [splitOn_sum] at hle
    have hlen : (pathOf names).length = (names.map fun c => c.length + 1).sum := by
      rw [pathOf, List.length_flatMap]
      rfl
    rw [hlen, List.length_cons]
    exact hle

/-- **Lexical and physical resolution agree.** When `search_file` finds what a path
names, `wash_path` of it is a path without `.` and `..` by which it is found again,
with the same number and the same type. -/
theorem wash_path_resolves (ht : DotTree s rootDir) {path : List UInt8} (hp : AbsPath path)
    (hcomps : components path ≠ []) (hdirs : DirsOnTheWay s 0 (components path)) {dirE : DirEntry}
    {n : Int} {record : PathSearchRecord} {st : Mounted p}
    (h : searchFile rootDir dirE s path = some (n, record, st)) (hn : 0 ≤ n) :
    ∃ washed, washPath path = some washed ∧ (∀ c ∈ components washed, c ≠ dot ∧ c ≠ dotDot) ∧
      ∀ dirE', ∃ record' st', searchFile rootDir dirE' s washed = some (n, record', st') ∧
        record'.fileType = record.fileType := by
  refine ⟨_, washPath_spec hp hcomps, ?_⟩
  -- the washed names lead to what was found
  obtain ⟨m, rfl, hreach, hplain⟩ : ∃ m : Nat, n = m ∧
      Reaches s 0 (washNames (components path)) m record.fileType ∧
      ∀ c ∈ washNames (components path), c ≠ dot ∧ c ≠ dotDot := by
    by_cases hroot : path = [slash] ∨ path = slash :: dot ∨ path = slash :: dotDot
    · rw [searchFile, if_pos hroot, Option.some.injEq, Prod.mk.injEq, Prod.mk.injEq] at h
      obtain ⟨rfl, rfl, -⟩ := h
      have hnil : washNames (components path) = [] := by
        rcases hroot with rfl | rfl | rfl <;> decide
      rw [hnil]
      exact ⟨0, rfl, Reaches.here 0, fun c hc => absurd hc List.not_mem_nil⟩
    · obtain ⟨n', record', s', hrun, hwalk⟩ := searchFile_walk ht.toTree hp hroot hcomps dirE
      obtain ⟨rfl, rfl, -⟩ : n' = n ∧ record' = record ∧ s' = st := by
        simpa using hrun.symm.trans h
      exact washed_walk ht hwalk hn Trail.root hp.isName hdirs
  have hsub : (washNames (components path)).Sublist (components path) := washed_sublist _ []
  have hproper : Proper (washNames (components path)) := fun c hc =>
    components_proper path c (hsub.subset hc)
  by_cases hnil : washNames (components path) = []
  · rw [hnil] at hreach ⊢
    obtain ⟨rfl, htype⟩ := hreach.eq_of_nil
    exact ⟨by decide, fun dirE' => ⟨_, s, if_pos (Or.inl rfl), htype.symm⟩⟩
  · rw [pathText, if_neg hnil]
    refine ⟨by rwa [components_pathOf _ hproper], fun dirE' => ?_⟩
    have hnames : PlainNames (washNames (components path)) := fun c hc =>
      ⟨⟨(hproper c hc).1, hplain c hc⟩, hp.isName c (hsub.subset hc), hp.short c (hsub.subset hc),
        (hproper c hc).2⟩
    have hlen := pathOf_length_le hp hsub
    have hmax := hp.length
    exact searchFile_names ht.toTree hnames hreach hnil (by omega) dirE'

end

/-! ## The tree with one directory -/

/-- A string has one name. -/
theorem strEq_unique : ∀ {name name' : List UInt8} {a : Mem}, IsName name → IsName name' →
    strEq a name = true → strEq a name' = true → name = name' := by
  intro name
  induction name with
  | nil =>
    intro name' a _ hname' h h'
    cases name' with
    | nil => rfl
    | cons c cs =>
      rw [strEq, Bool.and_eq_true, beq_iff_eq] at h'
      exact absurd (h'.1.symm.trans (beq_iff_eq.mp h)) (hname' c List.mem_cons_self)
  | cons c cs ih =>
    intro name' a hname hname' h h'
    rw [strEq, Bool.and_eq_true, beq_iff_eq] at h
    cases name' with
    | nil => exact absurd (h.1.symm.trans (beq_iff_eq.mp h')) (hname c List.mem_cons_self)
    | cons c' cs' =>
      rw [strEq, Bool.and_eq_true, beq_iff_eq] at h'
      rw [ih (fun x hx => hname x (List.mem_cons_of_mem _ hx))
        (fun x hx => hname' x (List.mem_cons_of_mem _ hx)) h.2 h'.2, h.1.symm.trans h'.1]

theorem deep_dotTree : DotTree deepSys.part deepSys.rootDir where
  toTree := deep_tree.toTree
  self d hd := by
    rcases deep_dir hd with rfl | rfl
    · exact ⟨_, ⟨⟨0, deep_root.dirSlot_entry 0⟩, by decide +kernel, by decide +kernel⟩,
        by decide +kernel, by decide +kernel⟩
    · exact ⟨_, ⟨⟨0, deep_sub.dirSlot_entry 0⟩, by decide +kernel, by decide +kernel⟩,
        by decide +kernel, by decide +kernel⟩
  up q name de hq hname he hdir h1 h2 := by
    obtain ⟨⟨i, hs⟩, hlive, hnamed⟩ := he
    -- a name that is neither of the dots is that of the only way down
    have hother : ∀ dots, IsName dots → name ≠ dots → de.named dots = false := by
      intro dots hdots hne
      refine Bool.not_eq_true _ ▸ fun hd => hne ?_
      exact strEq_unique hname hdots hnamed hd
    have hdown := deep_slots (P := fun d _ de => de.fType = ftDirectory → de.named dot = false →
      de.named dotDot = false → d = 0 ∧ de.iNo.toNat = 1) (by decide +kernel) (by decide +kernel) hq hs
    obtain ⟨e, -, hP⟩ := hdown
    obtain ⟨rfl, hno⟩ := hP hdir (hother dot (by simp [IsName, dot]) h1)
      (hother dotDot (by simp [IsName, dotDot]) h2)
    rw [hno]
    exact ⟨_, ⟨⟨1, deep_sub.dirSlot_entry 1⟩, by decide +kernel, by decide +kernel⟩,
      by decide +kernel, by decide +kernel⟩

/-- `/a//.././a/`. -/
def winding : List UInt8 := [47, 97, 47, 47, 46, 46, 47, 46, 47, 97, 47]

theorem wash_path_resolves_winding :
    ∃ record st, searchFile deepSys.rootDir zeroEntry deepSys.part winding = some (1, record, st) ∧
      ∃ washed, washPath winding = some washed ∧
        (∀ c ∈ components washed, c ≠ dot ∧ c ≠ dotDot) ∧
        ∀ dirE', ∃ record' st', searchFile deepSys.rootDir dirE' deepSys.part washed =
          some (1, record', st') ∧ record'.fileType = record.fileType := by
  have hrun : (searchFile deepSys.rootDir zeroEntry deepSys.part winding).map (·.1) = some 1 := by
    decide +kernel
  obtain ⟨⟨n, record, st⟩, hrun, rfl⟩ := Option.map_eq_some_iff.mp hrun
  have hcomps : components winding = [[97], [46, 46], [46], [97]] := by decide
  have hroot : ∀ {e : Fin 21} {name : List UInt8},
      (entryAt deepSys.part.vol.disk 612 e).fType ≠ ftUnknown →
      (entryAt deepSys.part.vol.disk 612 e).named name = true →
      Entry deepSys.part 0 name (entryAt deepSys.part.vol.disk 612 e) := fun hlive hnamed =>
    ⟨⟨_, deep_root.dirSlot_entry _⟩, hlive, hnamed⟩
  have hdirs : DirsOnTheWay deepSys.part 0 (components winding) := by
    have hup : Entry deepSys.part 1 dotDot (entryAt deepSys.part.vol.disk 613 1) :=
      ⟨⟨_, deep_sub.dirSlot_entry 1⟩, by decide +kernel, by decide +kernel⟩
    have h4 : DirsOnTheWay deepSys.part 0 [[97]] := DirsOnTheWay.last
    have h3 : DirsOnTheWay deepSys.part 0 [dot, [97]] :=
      DirsOnTheWay.cons (hroot (e := 0) (by decide +kernel) (by decide +kernel)) (by decide +kernel)
        (by rwa [show (entryAt deepSys.part.vol.disk 612 _).iNo.toNat = 0 by decide +kernel])
    have h2 : DirsOnTheWay deepSys.part 1 [dotDot, dot, [97]] :=
      DirsOnTheWay.cons hup (by decide +kernel)
        (by rwa [show (entryAt deepSys.part.vol.disk 613 1).iNo.toNat = 0 by decide +kernel])
    rw [hcomps]
    exact DirsOnTheWay.cons (hroot (e := 2) (by decide +kernel) (by decide +kernel))
      (by decide +kernel)
      (by rwa [show (entryAt deepSys.part.vol.disk 612 _).iNo.toNat = 1 by decide +kernel])
  refine ⟨record, st, hrun, ?_⟩
  exact wash_path_resolves deep_dotTree ⟨rfl, by simp [winding], by decide, by decide⟩
    (by rw [hcomps]; exact List.cons_ne_nil _ _) hdirs hrun (by decide)

end OsCore.Shell
