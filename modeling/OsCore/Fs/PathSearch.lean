import OsCore.Fs.Path

/-!
# What `search_file` finds

A tree is given by directory entries alone: `Entry` is one live entry of a
directory, `IsDir` are the directories that entries lead to from the root, and
`Reaches` says that a list of names, one after the other, leads to an object.
That is what a path is for.

What the loop of `search_file` does with a list of names is `Walk`
(`searchNames_walk`), and it differs from `Reaches` in one point: it is over at
the first regular file. `search_file_resolves_iff` says for which trees and
paths the result is the object the whole path names.
-/

namespace OsCore.Fs

variable {p : Partition}

/-! ## Trees -/

/-- `de` is a live entry of directory `d`, called `name`. -/
def Entry (s : Mounted p) (d : Nat) (name : List UInt8) (de : DirEntry) : Prop :=
  (∃ i, dirSlot s.vol.disk (inodeOf s d) i = some de) ∧ de.fType ≠ ftUnknown ∧
    de.named name = true

/-- The directories of the tree: the root, and what directory entries lead to. -/
inductive IsDir (s : Mounted p) : Nat → Prop
  | root : IsDir s 0
  | sub {d : Nat} {name : List UInt8} {de : DirEntry} : IsDir s d → Entry s d name de →
      de.fType = ftDirectory → IsDir s de.iNo.toNat

/-- The names, one after the other from directory `d`, lead to inode `n` of that
type. -/
inductive Reaches (s : Mounted p) : Nat → List (List UInt8) → Nat → UInt32 → Prop
  | here (d : Nat) : Reaches s d [] d ftDirectory
  | file {d : Nat} {name : List UInt8} {de : DirEntry} : Entry s d name de →
      de.fType = ftRegular → Reaches s d [name] de.iNo.toNat ftRegular
  | dir {d n : Nat} {name : List UInt8} {de : DirEntry} {rest : List (List UInt8)} {ft : UInt32} :
      Entry s d name de → de.fType = ftDirectory → Reaches s de.iNo.toNat rest n ft →
      Reaches s d (name :: rest) n ft

/-- A well-formed directory tree on a mounted partition with its root directory
open: every directory has an inode with its own number and is well formed, and
the root's `.` and `..` are itself. -/
structure Tree (s : Mounted p) (rootDir : Nat) : Prop where
  steady : Steady s
  rootOpen : (s.openInodes.find? fun e => e.2.no == 0).map (·.1) = some rootDir
  no : ∀ d, IsDir s d → (inodeOf s d).no = d
  names : ∀ d, IsDir s d → DirNames s.vol (inodeOf s d)
  entries : ∀ d name de, IsDir s d → Entry s d name de → de.iNo.toNat < 4096
  dot : ∃ de, Entry s 0 dot de ∧ de.iNo = 0 ∧ de.fType = ftDirectory
  dotDot : ∃ de, Entry s 0 dotDot de ∧ de.iNo = 0 ∧ de.fType = ftDirectory

variable {s : Mounted p} {rootDir : Nat}

theorem IsDir.lt (ht : Tree s rootDir) {d : Nat} (h : IsDir s d) : d < 4096 := by
  cases h with
  | root => decide
  | sub hd he _ => exact ht.entries _ _ _ hd he

/-- A name leads to one entry. -/
theorem Entry.unique (ht : Tree s rootDir) {d : Nat} (hd : IsDir s d) {name : List UInt8}
    {a b : DirEntry} (ha : Entry s d name a) (hb : Entry s d name b) : a = b := by
  obtain ⟨⟨i, hi⟩, hla, hna⟩ := ha
  obtain ⟨⟨j, hj⟩, hlb, hnb⟩ := hb
  obtain rfl := (ht.names d hd).unique i j a b name hi hj hla hlb hna hnb
  exact Option.some.inj (hi.symm.trans hj)

/-- An entry is a file or a directory. -/
theorem Entry.type (ht : Tree s rootDir) {d : Nat} (hd : IsDir s d) {name : List UInt8}
    {de : DirEntry} (h : Entry s d name de) : de.fType = ftDirectory ∨ de.fType = ftRegular := by
  obtain ⟨⟨i, hi⟩, hlive, -⟩ := h
  have htyped : de.fType.toNat ≤ 2 := (ht.names d hd).search.typed i de hi
  have hcases : de.fType.toNat = 0 ∨ de.fType.toNat = 1 ∨ de.fType.toNat = 2 := by omega
  rcases hcases with h | h | h
  · exact absurd (UInt32.toNat_inj.mp h) hlive
  · exact Or.inr (UInt32.toNat_inj.mp h)
  · exact Or.inl (UInt32.toNat_inj.mp h)

theorem root_holds (ht : Tree s rootDir) : OpenedAs s rootDir 0 .root s := by
  obtain ⟨⟨a, i⟩, hfind, rfl⟩ := Option.map_eq_some_iff.mp ht.rootOpen
  have hat : s.inodeAt a = some i :=
    Mounted.lookup_of_mem ht.steady.nodup (List.mem_of_find?_eq_some hfind)
  have hof : inodeOf s 0 = i := by rw [inodeOf, hfind]
  refine ⟨rfl, ⟨i, hat, ?_, ?_⟩, s.brk, Nat.le_refl _, rfl⟩
  · intro k
    rw [hof]
  · rw [hof]

/-- What a lookup depends on. -/
theorem searchDirEntry_congr {v : Vol p} {i j : Inode} {name : List UInt8} (hj : Searchable v j)
    (hname : IsName name) (hsec : ∀ k, i.sec k = j.sec k) :
    searchDirEntry v i name = searchDirEntry v j name := by
  have hblock : fileBlock v.disk i = fileBlock v.disk j :=
    funext fun k => fileBlock_congr hsec (fun _ _ _ => rfl) k
  have hi : Searchable v i := by
    refine ⟨?_, ?_, ?_⟩
    · rw [hsec]
      exact hj.table
    · rw [hblock]
      exact hj.reach
    · rw [hblock]
      exact hj.typed
  rw [searchDirEntry_eq hi hname, searchDirEntry_eq hj hname, hblock]

/-- **A lookup finds the entry of that name, or there is none.** -/
theorem searchDirEntry_entry (ht : Tree s rootDir) {d : Nat} (hd : IsDir s d) {name : List UInt8}
    (hname : IsName name) (hne : name ≠ []) :
    (∃ de, searchDirEntry s.vol (inodeOf s d) name = some (some de) ∧ Entry s d name de) ∨
      (searchDirEntry s.vol (inodeOf s d) name = some none ∧ ∀ de, ¬Entry s d name de) := by
  have hnames := ht.names d hd
  rw [searchDirEntry_eq hnames.search hname]
  cases hfirst : firstHit s.vol.disk (fileBlock s.vol.disk (inodeOf s d)) name
      (List.range (140 * 21)) with
  | some de =>
    obtain ⟨i, -, hs, hnamed, -⟩ := firstHit_eq_some.mp hfirst
    exact Or.inl ⟨de, rfl, ⟨i, hs⟩, hnames.live_of_named hs hname hne hnamed, hnamed⟩
  | none =>
    refine Or.inr ⟨rfl, fun de he => ?_⟩
    obtain ⟨⟨i, hs⟩, hlive, hnamed⟩ := he
    -- no slot before `i` has the name, so `i` is the first hit
    have hfound := firstHit_eq_some.mpr ⟨i, dirSlot_lt hs, hs, hnamed, fun j hj de' hs' => ?_⟩
    · exact absurd (hfirst.symm.trans hfound) (by simp)
    · cases hn : de'.named name with
      | false => rfl
      | true =>
        have := hnames.unique j i de' de name hs' hs
          (hnames.live_of_named hs' hname hne hn) hlive hn hnamed
        omega

/-! ## What the loop does -/

/-- The end of the walk the loop makes from directory `d`: past a regular file
it does not look. -/
inductive Walk (s : Mounted p) : Nat → List (List UInt8) → Int → UInt32 → Prop
  | done (d : Nat) : Walk s d [] d ftDirectory
  | missing {d : Nat} {name : List UInt8} {rest : List (List UInt8)} {ft : UInt32} :
      (∀ de, ¬Entry s d name de) → Walk s d (name :: rest) (-1) ft
  | file {d : Nat} {name : List UInt8} {rest : List (List UInt8)} {de : DirEntry} :
      Entry s d name de → de.fType = ftRegular → Walk s d (name :: rest) de.iNo.toNat ftRegular
  | dir {d : Nat} {name : List UInt8} {rest : List (List UInt8)} {de : DirEntry} {n : Int}
      {ft : UInt32} : Entry s d name de → de.fType = ftDirectory →
      Walk s de.iNo.toNat rest n ft → Walk s d (name :: rest) n ft

/-- The names the loop still has before it. -/
def pending (subPath : Option (List UInt8)) (name : List UInt8) : List (List UInt8) :=
  if name = [] then [] else name :: (subPath.map components).getD []

theorem asInt_small {n : UInt32} (h : n.toNat < 4096) : asInt n = n.toNat := if_pos (by omega)

theorem searchEnd_eq (ht : Tree s rootDir) (dirE : DirEntry) {d parentInodeNo : Nat} {h : DirHandle}
    {st : Mounted p} {record : PathSearchRecord}
    (hh : OpenedAs s rootDir d h st) (hrec : record.parentDir = h) (hpar : parentInodeNo < 4096) :
    ∃ record' st', searchEnd st record dirE parentInodeNo = some (asInt dirE.iNo, record', st') ∧
      record'.fileType = ftDirectory := by
  obtain ⟨b, hb, hclose⟩ := hh.close
  obtain ⟨h', st', hopen, -⟩ := dirOpen_holds ht.steady rootDir hpar hb
  refine ⟨{ record with parentDir := h', fileType := ftDirectory }, st', ?_, rfl⟩
  rw [searchEnd, hrec, hclose]
  simp only [Option.bind_eq_bind, Option.bind_some, hopen]
  rfl

/-- The state of the loop: the open directory is `d`, the last entry found led
there, and what was taken off the path and what is left of it fit in the path. -/
structure Searching (s : Mounted p) (rootDir d : Nat) (subPath : Option (List UInt8))
    (name : List UInt8) (parentDir : DirHandle) (dirE : DirEntry) (parentInodeNo : Nat)
    (record : PathSearchRecord) (st : Mounted p) : Prop where
  dir : IsDir s d
  holds : OpenedAs s rootDir d parentDir st
  parent : record.parentDir = parentDir
  parentNo : parentInodeNo < 4096
  last : name = [] → dirE.iNo.toNat = d
  room : name ≠ [] →
    record.searchedPath.length + 1 + name.length + (subPath.getD []).length < 512
  slash : ∀ r, subPath = some r → r.head? = some slash
  names : ∀ c ∈ pending subPath name, IsName c ∧ c.length < 16

theorem parseNext_pending (subPath : Option (List UInt8)) :
    pending (parseNext subPath).1 (parseNext subPath).2 = (subPath.map components).getD [] := by
  cases subPath with
  | none => rfl
  | some path => exact (pathParse_spec path).comps.symm

theorem parseNext_slash {subPath : Option (List UInt8)} :
    ∀ r, (parseNext subPath).1 = some r → r.head? = some slash := by
  cases subPath with
  | none => exact fun r h => absurd h (by simp [parseNext])
  | some path => exact (pathParse_spec path).rest

theorem parseNext_length {subPath : Option (List UInt8)}
    (h : ∀ r, subPath = some r → r.head? = some slash) (hne : (parseNext subPath).2 ≠ []) :
    1 + (parseNext subPath).2.length + ((parseNext subPath).1.getD []).length ≤
      (subPath.getD []).length := by
  cases subPath with
  | none => exact absurd rfl hne
  | some path => exact (pathParse_spec path).length (h path rfl)

/-- **The loop makes the walk.** -/
theorem searchNames_walk (ht : Tree s rootDir) : ∀ fuel d subPath name parentDir dirE parentInodeNo
    record st, Searching s rootDir d subPath name parentDir dirE parentInodeNo record st →
    (pending subPath name).length < fuel →
    ∃ n record' st', searchNames rootDir fuel subPath name parentDir dirE parentInodeNo record st =
      some (n, record', st') ∧ Walk s d (pending subPath name) n record'.fileType := by
  intro fuel
  induction fuel with
  | zero => intro d subPath name parentDir dirE parentInodeNo record st _ h; exact absurd h (by omega)
  | succ fuel ih =>
    intro d subPath name parentDir dirE parentInodeNo record st hst hfuel
    rw [searchNames]
    by_cases hname : name = []
    · obtain ⟨record', st', hend, htype⟩ :=
        searchEnd_eq ht dirE hst.holds hst.parent hst.parentNo
      rw [if_pos hname]
      refine ⟨_, record', st', hend, ?_⟩
      have hlast := hst.last hname
      rw [htype, pending, if_pos hname, asInt_small (by rw [hlast]; exact hst.dir.lt ht), hlast]
      exact Walk.done d
    · obtain ⟨i, hat, hsec, hno⟩ := hst.holds.inode
      have hpend : pending subPath name = name :: (subPath.map components).getD [] := if_neg hname
      have hroom := hst.room hname
      obtain ⟨hchars, hshort⟩ := hst.names name (by rw [hpend]; exact List.mem_cons_self)
      have hsearch : searchDirEntry st.vol i name = searchDirEntry s.vol (inodeOf s d) name := by
        rw [hst.holds.vol]
        exact searchDirEntry_congr (ht.names d hst.dir).search hchars hsec
      rw [if_neg hname, ensure_pos hshort, ensure_pos (by omega), hat, hpend]
      simp only [Option.bind_eq_bind, Option.bind_some, hsearch]
      rcases searchDirEntry_entry ht hst.dir hchars hname with ⟨de, hfound, he⟩ | ⟨hnone, hmiss⟩
      · rw [hfound, Option.bind_some]
        rcases he.type ht hst.dir with hdir | hreg
        · obtain ⟨b, hb, hclose⟩ := hst.holds.close
          obtain ⟨h', st', hopen, hholds⟩ :=
            dirOpen_holds ht.steady rootDir (ht.entries d name de hst.dir he) hb
          simp only [if_pos hdir, hclose, Option.bind_some, hopen]
          have hlen : (pending (parseNext subPath).1 (parseNext subPath).2).length < fuel := by
            rw [parseNext_pending]
            rw [hpend, List.length_cons] at hfuel
            omega
          have hnext : Searching s rootDir de.iNo.toNat (parseNext subPath).1 (parseNext subPath).2
              h' de i.no { record with
                searchedPath := record.searchedPath ++ [slash] ++ name, parentDir := h' } st' := by
            refine ⟨hst.dir.sub he hdir, hholds, rfl, ?_, fun _ => rfl, fun hne => ?_,
              parseNext_slash, fun c hc => ?_⟩
            · rw [hno, ht.no d hst.dir]
              exact hst.dir.lt ht
            · have := parseNext_length hst.slash hne
              simp only [List.length_append, List.length_singleton]
              omega
            · rw [parseNext_pending] at hc
              exact hst.names c (by rw [hpend]; exact List.mem_cons_of_mem _ hc)
          obtain ⟨n, record', st'', hloop, hwalk⟩ := ih _ _ _ _ _ _ _ _ hnext hlen
          rw [parseNext_pending] at hwalk
          exact ⟨n, record', st'', hloop, Walk.dir he hdir hwalk⟩
        · have hnd : de.fType ≠ ftDirectory := by rw [hreg]; decide
          simp only [if_neg hnd, if_pos hreg]
          refine ⟨_, _, _, rfl, ?_⟩
          rw [asInt_small (ht.entries d name de hst.dir he)]
          exact Walk.file he hreg
      · rw [hnone, Option.bind_some]
        exact ⟨_, _, _, rfl, Walk.missing hmiss⟩

/-! ## What it is for -/

/-- `n` and `ft` are the object all the names lead to, or `n` is `-1` and there
is no such object. -/
def Resolved (s : Mounted p) (d : Nat) (names : List (List UInt8)) (n : Int) (ft : UInt32) : Prop :=
  (∃ m, Reaches s d names m ft ∧ n = m) ∨ (n = -1 ∧ ∀ m t, ¬Reaches s d names m t)

/-- Some of the names, but not all of them, lead to a regular file. -/
def FileOnTheWay (s : Mounted p) (d : Nat) (names : List (List UInt8)) : Prop :=
  ∃ pre suf m, names = pre ++ suf ∧ suf ≠ [] ∧ Reaches s d pre m ftRegular

theorem Reaches.entry {d n : Nat} {name : List UInt8} {rest : List (List UInt8)} {ft : UInt32}
    (h : Reaches s d (name :: rest) n ft) : ∃ de, Entry s d name de := by
  cases h with
  | file he _ => exact ⟨_, he⟩
  | dir he _ _ => exact ⟨_, he⟩

theorem Reaches.eq_of_nil {d n : Nat} {ft : UInt32} (h : Reaches s d [] n ft) :
    n = d ∧ ft = ftDirectory := by
  generalize hnil : [] = names at h
  cases h with
  | here => exact ⟨rfl, rfl⟩
  | file => exact absurd hnil (by simp)
  | dir => exact absurd hnil (by simp)

theorem not_reaches_nil_file {d n : Nat} : ¬Reaches s d [] n ftRegular := fun h =>
  absurd h.eq_of_nil.2 (by decide)

theorem reaches_dir_iff (ht : Tree s rootDir) {d n : Nat} (hd : IsDir s d) {name : List UInt8}
    {de : DirEntry} {rest : List (List UInt8)} {ft : UInt32} (he : Entry s d name de)
    (hdir : de.fType = ftDirectory) :
    Reaches s d (name :: rest) n ft ↔ Reaches s de.iNo.toNat rest n ft := by
  constructor
  · intro h
    cases h with
    | file he' hreg =>
      rw [← he.unique ht hd he', hdir] at hreg
      exact absurd hreg (by decide)
    | dir he' _ h =>
      rw [← he.unique ht hd he'] at h
      exact h
  · exact fun h => Reaches.dir he hdir h

/-- **The walk is right unless it ends early.** -/
theorem Walk.resolved_iff (ht : Tree s rootDir) {d : Nat} {names : List (List UInt8)} {n : Int}
    {ft : UInt32} (hd : IsDir s d) (h : Walk s d names n ft) :
    Resolved s d names n ft ↔ ¬FileOnTheWay s d names := by
  induction h with
  | done d =>
    refine iff_of_true (Or.inl ⟨d, Reaches.here d, rfl⟩) ?_
    intro hin
    obtain ⟨pre, suf, m, hsplit, hne, -⟩ := hin
    exact hne (List.append_eq_nil_iff.mp hsplit.symm).2
  | missing hmiss =>
    have hno : ∀ rest m t, ¬Reaches s _ (_ :: rest) m t := fun rest m t h => by
      obtain ⟨de, he⟩ := h.entry
      exact hmiss de he
    refine iff_of_true (Or.inr ⟨rfl, hno _⟩) ?_
    intro hin
    obtain ⟨pre, suf, m, hsplit, -, hr⟩ := hin
    cases pre with
    | nil => exact not_reaches_nil_file hr
    | cons c pre =>
      obtain ⟨rfl, -⟩ := List.cons.inj hsplit
      exact hno pre m _ hr
  | @file d name rest de he hreg =>
    cases rest with
    | nil =>
      refine iff_of_true (Or.inl ⟨_, Reaches.file he hreg, rfl⟩) ?_
      intro hin
      obtain ⟨pre, suf, m, hsplit, hne, hr⟩ := hin
      cases pre with
      | nil => exact not_reaches_nil_file hr
      | cons c pre => exact hne (List.append_eq_nil_iff.mp (List.cons.inj hsplit).2.symm).2
    | cons c rest =>
      refine iff_of_false ?_ fun hno => hno ⟨[name], c :: rest, _, rfl, by simp, Reaches.file he hreg⟩
      intro hor
      rcases hor with ⟨m, hr, -⟩ | ⟨hneg, -⟩
      · cases hr with
        | dir he' hdir _ =>
          rw [← he.unique ht hd he', hreg] at hdir
          exact absurd hdir (by decide)
      · omega
  | @dir d name rest de n ft he hdir hwalk ih =>
    have hiff : ∀ {rest m t}, Reaches s d (name :: rest) m t ↔ Reaches s de.iNo.toNat rest m t :=
      reaches_dir_iff ht hd he hdir
    have hres : Resolved s d (name :: rest) n ft ↔ Resolved s de.iNo.toNat rest n ft := by
      simp only [Resolved, hiff]
    have hway : FileOnTheWay s d (name :: rest) ↔ FileOnTheWay s de.iNo.toNat rest := by
      constructor
      · intro hin
        obtain ⟨pre, suf, m, hsplit, hne, hr⟩ := hin
        cases pre with
        | nil => exact absurd hr not_reaches_nil_file
        | cons c pre =>
          obtain ⟨rfl, hrest⟩ := List.cons.inj hsplit
          exact ⟨pre, suf, m, hrest, hne, hiff.mp hr⟩
      · intro hin
        obtain ⟨pre, suf, m, hsplit, hne, hr⟩ := hin
        exact ⟨name :: pre, suf, m, by rw [hsplit]; rfl, hne, hiff.mpr hr⟩
    rw [hres, hway]
    exact ih (hd.sub he hdir)

/-- An absolute path: it starts with a slash, and it and its components have
room in the arrays of `search_file`. -/
structure AbsPath (path : List UInt8) : Prop where
  head : path.head? = some slash
  chars : ∀ c ∈ path, c ≠ 0
  length : path.length < 512
  short : ∀ c ∈ components path, c.length < 16

/-- `search_file` returns, whatever was on the stack, and its result is the
object the whole path names. -/
def Resolves (s : Mounted p) (rootDir : Nat) (path : List UInt8) : Prop :=
  ∀ dirE, ∃ n record s', searchFile rootDir dirE s path = some (n, record, s') ∧
    Resolved s 0 (components path) n record.fileType

theorem mem_of_mem_splitOn {path : List UInt8} : ∀ c ∈ path.splitOn slash, ∀ x ∈ c, x ∈ path := by
  induction path with
  | nil =>
    intro c hc x hx
    rw [List.splitOn_nil, List.mem_singleton] at hc
    rwa [hc] at hx
  | cons a path ih =>
    intro c hc x hx
    rw [List.splitOn_cons_eq_if_modifyHead] at hc
    split at hc
    · rcases List.mem_cons.mp hc with rfl | hc
      · exact absurd hx List.not_mem_nil
      · exact List.mem_cons_of_mem _ (ih c hc x hx)
    · obtain ⟨b, l, hl⟩ := List.exists_cons_of_ne_nil (List.splitOn_ne_nil slash path)
      rw [hl] at hc ih
      rcases List.mem_cons.mp hc with rfl | hc
      · rcases List.mem_cons.mp hx with rfl | hx
        · exact List.mem_cons_self
        · exact List.mem_cons_of_mem _ (ih b List.mem_cons_self x hx)
      · exact List.mem_cons_of_mem _ (ih c (List.mem_cons_of_mem _ hc) x hx)

theorem AbsPath.isName {path : List UInt8} (h : AbsPath path) : ∀ c ∈ components path, IsName c :=
  fun c hc x hx => h.chars x (mem_of_mem_splitOn c (List.mem_filter.mp hc).1 x hx)

theorem splitOn_length_le (path : List UInt8) : (path.splitOn slash).length ≤ path.length + 1 := by
  induction path with
  | nil => exact Nat.le_refl _
  | cons a path ih =>
    rw [List.splitOn_cons_eq_if_modifyHead]
    split
    · rw [List.length_cons, List.length_cons]
      omega
    · rw [List.length_modifyHead, List.length_cons]
      omega

/-- The loop has no more rounds to make than the path has characters. -/
theorem AbsPath.components_length {path : List UInt8} (h : AbsPath path) :
    (components path).length ≤ path.length := by
  cases path with
  | nil => exact absurd h.head (by simp)
  | cons c r =>
    obtain rfl : c = slash := by simpa using h.head
    rw [components_slash, List.length_cons]
    exact Nat.le_trans (List.length_filter_le _ _) (splitOn_length_le r)

/-- The three spellings of the root directory. -/
theorem searchFile_root (ht : Tree s rootDir) {path : List UInt8}
    (h : path = [slash] ∨ path = slash :: dot ∨ path = slash :: dotDot) :
    Resolves s rootDir path ∧ (path = [slash] ∨ components path ≠ []) ∧
      ¬FileOnTheWay s 0 (components path) := by
  have hshort : (components path).length ≤ 1 ∧ (path = [slash] ∨ components path ≠ []) := by
    rcases h with rfl | rfl | rfl <;> decide
  have hreach : Reaches s 0 (components path) 0 ftDirectory := by
    have hone : ∀ {name : List UInt8} {de : DirEntry}, Entry s 0 name de → de.iNo = 0 →
        de.fType = ftDirectory → Reaches s 0 [name] 0 ftDirectory := by
      intro name de he hno hdir
      have := Reaches.dir he hdir (Reaches.here de.iNo.toNat)
      rwa [hno] at this
    rcases h with rfl | rfl | rfl
    · exact Reaches.here 0
    · obtain ⟨de, he, hno, hdir⟩ := ht.dot
      exact hone he hno hdir
    · obtain ⟨de, he, hno, hdir⟩ := ht.dotDot
      exact hone he hno hdir
  refine ⟨fun dirE => ⟨0, ⟨[], .root, ftDirectory⟩, s, if_pos h, Or.inl ⟨0, hreach, rfl⟩⟩,
    hshort.2, ?_⟩
  intro hin
  obtain ⟨pre, suf, m, hsplit, hne, hr⟩ := hin
  cases pre with
  | nil => exact not_reaches_nil_file hr
  | cons c pre =>
    have hlen := hshort.1
    rw [hsplit, List.length_append, List.length_cons] at hlen
    exact hne (List.length_eq_zero_iff.mp (by omega))

/-- Any other path goes through the loop. -/
theorem searchFile_walk (ht : Tree s rootDir) {path : List UInt8} (hp : AbsPath path)
    (hroot : ¬(path = [slash] ∨ path = slash :: dot ∨ path = slash :: dotDot))
    (hcomps : components path ≠ []) (dirE : DirEntry) :
    ∃ n record s', searchFile rootDir dirE s path = some (n, record, s') ∧
      Walk s 0 (components path) n record.fileType := by
  have hparsed := pathParse_spec path
  have hpend : pending (pathParse path).1 (pathParse path).2 = components path := hparsed.comps.symm
  have hname : (pathParse path).2 ≠ [] := by
    intro h0
    rw [hparsed.comps, if_pos h0] at hcomps
    exact hcomps rfl
  have hlength := hparsed.length hp.head
  have hlt := hp.length
  have hpos : 0 < (pathParse path).2.length := List.length_pos_iff.mpr hname
  have hstart : Searching s rootDir 0 (pathParse path).1 (pathParse path).2 .root dirE 0
      ⟨[], .root, ftUnknown⟩ s := by
    refine ⟨IsDir.root, root_holds ht, rfl, by decide, fun h0 => absurd h0 hname, fun _ => ?_,
      hparsed.rest, fun c hc => ?_⟩
    · rw [List.length_nil]
      omega
    · rw [hpend] at hc
      exact ⟨hp.isName c hc, hp.short c hc⟩
  have hfuel : (pending (pathParse path).1 (pathParse path).2).length < path.length + 1 := by
    rw [hpend]
    exact Nat.lt_succ_of_le hp.components_length
  obtain ⟨n, record, s', hloop, hwalk⟩ := searchNames_walk ht _ _ _ _ _ _ _ _ _ hstart hfuel
  rw [hpend] at hwalk
  refine ⟨n, record, s', ?_, hwalk⟩
  rw [searchFile, if_neg hroot, ensure_pos ⟨hp.head, by omega, hlt⟩]
  exact hloop

/-- Slashes alone: the result is the number that was on the stack. -/
theorem searchFile_slashes (ht : Tree s rootDir) {path : List UInt8} (hp : AbsPath path)
    (hroot : ¬(path = [slash] ∨ path = slash :: dot ∨ path = slash :: dotDot))
    (hcomps : components path = []) (dirE : DirEntry) :
    ∃ record s', searchFile rootDir dirE s path = some (asInt dirE.iNo, record, s') := by
  have hname : (pathParse path).2 = [] := by
    apply Classical.byContradiction
    intro hne
    rw [(pathParse_spec path).comps, if_neg hne] at hcomps
    exact absurd hcomps (by simp)
  have hlen : 1 < path.length := by
    refine Decidable.byContradiction fun hle => hroot (Or.inl ?_)
    have hhead := hp.head
    cases path with
    | nil => exact absurd hhead (by simp)
    | cons c r =>
      have hr : r = [] := List.length_eq_zero_iff.mp (by rw [List.length_cons] at hle; omega)
      rw [hr, show c = slash by simpa using hhead]
  obtain ⟨record, s', hend, -⟩ := searchEnd_eq ht dirE (root_holds ht)
    (show (PathSearchRecord.mk [] .root ftUnknown).parentDir = .root from rfl)
    (show 0 < 4096 by decide)
  refine ⟨record, s', ?_⟩
  rw [searchFile, if_neg hroot, ensure_pos ⟨hp.head, hlen, hp.length⟩]
  simp only [searchNames, if_pos hname]
  exact hend

/-! ## Directories of one block -/

/-- A directory with all its entries in the block `lba`. What has to be looked at
are its 21 slots. -/
structure OneBlock (v : Vol p) (ino : Inode) (lba : Nat) : Prop where
  sec : ∀ k, ino.sec k = if k = 0 then lba else 0
  used : v.Used lba
  max : lba ≤ maxLba
  typed : ∀ e : Fin 21, (entryAt v.disk lba e).Typed
  free : ∀ e : Fin 21, (entryAt v.disk lba e).fType = ftUnknown →
    ∀ i : Fin 24, v.disk (512 * lba + 24 * e + i) = 0
  named : ∀ e : Fin 21, (entryAt v.disk lba e).fType ≠ ftUnknown →
    (entryAt v.disk lba e).filename 0 ≠ 0
  unique : ∀ e e' : Fin 21, (entryAt v.disk lba e).fType ≠ ftUnknown →
    (entryAt v.disk lba e').fType ≠ ftUnknown →
    (entryAt v.disk lba e).name = (entryAt v.disk lba e').name → e = e'
  size : ino.size = 24 * (liveEntries v.disk ino).length

namespace OneBlock

variable {v : Vol p} {ino : Inode} {lba : Nat} (h : OneBlock v ino lba)

include h

theorem ne_zero : lba ≠ 0 := by
  have h1 := dataStartLba_pos p
  have h2 := h.used.1
  omega

theorem fileBlock_eq (k : Nat) : fileBlock v.disk ino k = if k = 0 then lba else 0 := by
  by_cases hk : k < 12
  · rw [fileBlock_direct _ _ hk, h.sec]
  · rw [fileBlock_no_table _ (by omega) (by rw [h.sec]; rfl), if_neg (by omega)]

theorem slot_eq {i : Nat} {de : DirEntry} (hs : dirSlot v.disk ino i = some de) :
    ∃ e : Fin 21, i = e ∧ de = entryAt v.disk lba e := by
  obtain ⟨hnz, hde⟩ := slotAt_eq_some.mp hs
  rw [h.fileBlock_eq] at hnz hde
  split at hnz
  next h0 =>
    rw [if_pos h0] at hde
    refine ⟨⟨i, by omega⟩, rfl, ?_⟩
    rw [← hde, show i % 21 = i by omega]
  next => exact absurd rfl hnz

theorem dirSlot_entry (e : Fin 21) : dirSlot v.disk ino e = some (entryAt v.disk lba e) := by
  have he := e.isLt
  apply slotAt_eq_some.mpr
  rw [h.fileBlock_eq, if_pos (by omega), show (e : Nat) % 21 = e by omega]
  exact ⟨h.ne_zero, rfl⟩

theorem dirNames : DirNames v ino := by
  have hslot : ∀ k, slot v.disk ino k ≠ 0 → k = 0 ∧ slot v.disk ino k = lba := by
    intro k hne
    rw [slot] at hne ⊢
    split at hne
    next h140 => exact absurd (by rw [h.sec]; rfl) hne
    next h140 =>
      rw [if_neg h140, h.fileBlock_eq] at *
      split at hne
      next h0 => exact ⟨h0, if_pos h0⟩
      next => exact absurd rfl hne
  refine ⟨⟨⟨fun k l he hne => ?_, fun k hne => ?_⟩, fun k e hk he hne hfree i hi => ?_, h.size⟩,
    ⟨?_, fun k => ?_, fun i de hs => ?_⟩, fun i de hs hlive => ?_,
    fun i j a b name ha hb hla hlb hna hnb => ?_⟩
  · rw [(hslot k hne).1, (hslot l (he ▸ hne)).1]
  · rw [(hslot k hne).2]
    exact h.used
  · rw [h.fileBlock_eq] at hne hfree ⊢
    split at hne
    next h0 =>
      rw [if_pos h0] at hfree ⊢
      exact h.free ⟨e, he⟩ hfree ⟨i, hi⟩
    next => exact absurd rfl hne
  · rw [h.sec]
    exact Nat.zero_le _
  · rw [h.fileBlock_eq]
    split
    · exact h.max
    · exact Nat.zero_le _
  · obtain ⟨e, -, rfl⟩ := h.slot_eq hs
    exact h.typed e
  · obtain ⟨e, -, rfl⟩ := h.slot_eq hs
    exact h.named e hlive
  · obtain ⟨e, rfl, rfl⟩ := h.slot_eq ha
    obtain ⟨e', rfl, rfl⟩ := h.slot_eq hb
    rw [h.unique e e' hla hlb (name_eq_of_named hna hnb)]

end OneBlock

/-! ## A small tree -/

/-- A root directory with one file in it. -/
def smallEntry (e : Nat) : DirEntry :=
  if e = 0 then dotEntry 1 else if e = 1 then dotEntry 2 else sampleEntry 0

def smallDisk : Mem := fun a =>
  if a / 512 = 612 ∧ a % 512 / 24 < 3 then (smallEntry (a % 512 / 24)).bytes (a % 512 % 24) else 0

def smallRoot : Inode := (rootInode.setSize 72).setOpenCnts 1

def smallTree : Mounted blankPartition where
  vol := { blankVol.setBlock 0 true with disk := smallDisk }
  openInodes := [(0, smallRoot)]
  brk := 1

theorem smallRoot_sec {k : Nat} : smallRoot.sec k = if k = 0 then 612 else 0 := by
  by_cases hk : k < 13
  · have hall : ∀ k, k < 13 → smallRoot.sec k = if k = 0 then 612 else 0 := by decide
    exact hall k hk
  · rw [Inode.sec_ge (by omega), if_neg (by omega)]

theorem small_entryAt {e : Nat} (he : e < 21) :
    entryAt smallDisk 612 e = if e < 3 then smallEntry e else zeroEntry := by
  have hdiv : ∀ i, i < 24 → (512 * 612 + 24 * e + i) / 512 = 612 := fun i hi => by omega
  have hmod : ∀ i, i < 24 → (512 * 612 + 24 * e + i) % 512 = 24 * e + i := fun i hi => by omega
  have hslot : ∀ i, i < 24 → (24 * e + i) / 24 = e := fun i hi => by omega
  have hbyte : ∀ i, i < 24 → (24 * e + i) % 24 = i := fun i hi => by omega
  by_cases h : e < 3
  · rw [if_pos h]
    apply DirEntry.ofMem_bytes
    intro i hi
    rw [smallDisk, hdiv i hi, hmod i hi, hslot i hi, hbyte i hi, if_pos ⟨rfl, h⟩]
  · rw [if_neg h]
    apply DirEntry.ofMem_congr
    intro i hi
    rw [smallDisk, hdiv i hi, hmod i hi, hslot i hi, if_neg (by omega)]
    rfl

theorem small_oneBlock : OneBlock smallTree.vol smallRoot 612 where
  sec _ := smallRoot_sec
  used := by decide
  max := by decide
  typed := by decide +kernel
  free := by decide +kernel
  named := by decide +kernel
  unique := by decide +kernel
  size := by decide +kernel

theorem small_dirSlot {i : Nat} {de : DirEntry} :
    dirSlot smallDisk smallRoot i = some de ↔
      i < 21 ∧ de = if i < 3 then smallEntry i else zeroEntry := by
  constructor
  · intro h
    obtain ⟨e, rfl, rfl⟩ := small_oneBlock.slot_eq h
    exact ⟨e.isLt, small_entryAt e.isLt⟩
  · intro hin
    obtain ⟨hi, rfl⟩ := hin
    rw [← small_entryAt hi]
    exact small_oneBlock.dirSlot_entry ⟨i, hi⟩

theorem small_live {i : Nat} {de : DirEntry} (h : dirSlot smallDisk smallRoot i = some de)
    (hlive : de.fType ≠ ftUnknown) : i < 3 ∧ de = smallEntry i := by
  obtain ⟨-, hde⟩ := small_dirSlot.mp h
  split at hde
  next hi => exact ⟨hi, hde⟩
  next => exact absurd (by rw [hde]; exact zeroEntry_free) hlive

theorem small_inodeOf : inodeOf smallTree 0 = smallRoot := by
  have hfind : smallTree.openInodes.find? (fun e => e.2.no == 0) = some (0, smallRoot) :=
    List.find?_cons_of_pos (by decide)
  rw [inodeOf, hfind]

theorem small_dir {d : Nat} (h : IsDir smallTree d) : d = 0 := by
  induction h with
  | root => rfl
  | sub _ he hdir ih =>
    subst ih
    obtain ⟨⟨i, hs⟩, hlive, -⟩ := he
    rw [small_inodeOf] at hs
    obtain ⟨hi, rfl⟩ := small_live hs hlive
    rcases (by omega : i = 0 ∨ i = 1 ∨ i = 2) with rfl | rfl | rfl
    · rfl
    · rfl
    · exact absurd hdir (by decide)

theorem small_entry {e : Nat} {name : List UInt8} (he : e < 3)
    (hnamed : (smallEntry e).named name = true) : Entry smallTree 0 name (smallEntry e) := by
  refine ⟨⟨e, ?_⟩, ?_, hnamed⟩
  · rw [small_inodeOf]
    exact small_dirSlot.mpr ⟨by omega, (if_pos he).symm⟩
  · rcases (by omega : e = 0 ∨ e = 1 ∨ e = 2) with rfl | rfl | rfl <;> decide

theorem small_tree : Tree smallTree 0 where
  steady := by
    refine ⟨?_, ?_, ?_⟩
    · intro e he
      rw [List.mem_singleton.mp he]
      decide
    · decide
    · intro e he
      rw [List.mem_singleton.mp he]
      decide
  rootOpen := by decide
  no d hd := by
    rw [small_dir hd, small_inodeOf]
    decide
  names d hd := by
    rw [small_dir hd, small_inodeOf]
    exact small_oneBlock.dirNames
  entries d name de hd he := by
    rw [small_dir hd] at he
    obtain ⟨⟨i, hs⟩, hlive, -⟩ := he
    rw [small_inodeOf] at hs
    obtain ⟨hi, rfl⟩ := small_live hs hlive
    rcases (by omega : i = 0 ∨ i = 1 ∨ i = 2) with rfl | rfl | rfl <;> decide
  dot := ⟨smallEntry 0, small_entry (by decide) (by decide), rfl, rfl⟩
  dotDot := ⟨smallEntry 1, small_entry (by decide) (by decide), rfl, rfl⟩

/-! ## When a path resolves -/

/-- **When `search_file` resolves a path.** In every well-formed tree, and for
every absolute path, the result is the object the whole path names exactly when
the path is `/` or has a component, and no file stands in its middle. -/
theorem search_file_resolves_iff {path : List UInt8} (ht : Tree s rootDir) (hp : AbsPath path) :
    Resolves s rootDir path ↔
      (path = [slash] ∨ components path ≠ []) ∧ ¬FileOnTheWay s 0 (components path) := by
  by_cases hroot : path = [slash] ∨ path = slash :: dot ∨ path = slash :: dotDot
  · exact iff_of_true (searchFile_root ht hroot).1 (searchFile_root ht hroot).2
  by_cases hcomps : components path = []
  · refine iff_of_false (fun hres => ?_) fun h => ?_
    · obtain ⟨record, s', hrun⟩ := searchFile_slashes ht hp hroot hcomps ⟨fun _ => 0, 1, ftUnknown⟩
      obtain ⟨n, record', s'', hrun', hresolved⟩ := hres ⟨fun _ => 0, 1, ftUnknown⟩
      rw [hrun, Option.some.injEq, Prod.mk.injEq] at hrun'
      obtain rfl : (1 : Int) = n := hrun'.1
      rw [hcomps] at hresolved
      rcases hresolved with ⟨m, hreach, hm⟩ | ⟨hneg, -⟩
      · rw [hreach.eq_of_nil.1] at hm
        exact absurd hm (by decide)
      · exact absurd hneg (by decide)
    · rcases h.1 with h1 | h1
      · exact hroot (Or.inl h1)
      · exact h1 hcomps
  · constructor
    · intro hres
      obtain ⟨n, record, s', hrun, hwalk⟩ :=
        searchFile_walk ht hp hroot hcomps ⟨fun _ => 0, 0, ftUnknown⟩
      obtain ⟨n', record', s'', hrun', hresolved⟩ := hres ⟨fun _ => 0, 0, ftUnknown⟩
      rw [hrun, Option.some.injEq, Prod.mk.injEq, Prod.mk.injEq] at hrun'
      obtain ⟨rfl, rfl, -⟩ := hrun'
      exact ⟨Or.inr hcomps, (hwalk.resolved_iff ht IsDir.root).mp hresolved⟩
    · intro hin dirE
      obtain ⟨-, hway⟩ := hin
      obtain ⟨n, record, s', hrun, hwalk⟩ := searchFile_walk ht hp hroot hcomps dirE
      exact ⟨n, record, s', hrun, (hwalk.resolved_iff ht IsDir.root).mpr hway⟩

/-- `/AA`, the file in the small tree. -/
def smallPath : List UInt8 := [47, 65, 65]

/-- `/AA/x`, which names nothing. -/
def deepPath : List UInt8 := [47, 65, 65, 47, 120]

theorem search_file_resolves_iff_small_path :
    Tree smallTree 0 ∧ AbsPath smallPath ∧ Resolves smallTree 0 smallPath := by
  have hp : AbsPath smallPath := ⟨rfl, by simp [smallPath], by decide, by decide⟩
  refine ⟨small_tree, hp, (search_file_resolves_iff small_tree hp).mpr ⟨Or.inr (by decide), ?_⟩⟩
  intro hin
  obtain ⟨pre, suf, m, hsplit, hne, hr⟩ := hin
  cases pre with
  | nil => exact not_reaches_nil_file hr
  | cons c pre => exact hne (List.append_eq_nil_iff.mp (List.cons.inj hsplit).2.symm).2

/-- The number of the file is returned for a path that goes on behind it. -/
theorem search_file_stops_at_a_file :
    Tree smallTree 0 ∧ AbsPath deepPath ∧ ¬Resolves smallTree 0 deepPath := by
  refine ⟨small_tree, ⟨rfl, by simp [deepPath], by decide, by decide⟩, fun hres => ?_⟩
  have hrun : (searchFile 0 zeroEntry smallTree deepPath).map (·.1) = some 1 := by decide +kernel
  obtain ⟨n, record, s', h, hresolved⟩ := hres zeroEntry
  rw [h, Option.map_some, Option.some.injEq] at hrun
  obtain rfl : n = 1 := hrun
  have hfile : Entry smallTree 0 [65, 65] (smallEntry 2) := small_entry (by decide) (by decide)
  rcases hresolved with ⟨m, hr, -⟩ | ⟨hneg, -⟩
  · have hcomps : components deepPath = [[65, 65], [120]] := by decide
    rw [hcomps] at hr
    cases hr with
    | dir he hdir _ =>
      rw [← hfile.unique small_tree IsDir.root he] at hdir
      exact absurd hdir (by decide)
  · exact absurd hneg (by decide)

end OsCore.Fs
