import OsCore.Fs.DirSearch
import OsCore.Fs.Ownership

/-!
# Path resolution (`search_file` in `fs/fs.c`)

`search_file` takes a path apart name by name and looks each one up in the
directory the names before it led to. It keeps one directory open at a time,
through `inode_open` and `inode_close`, so a directory that is in memory is read
as it is there and any other as it is on disk; `inodeOf` is that view. The loop
runs while there is another name. A regular file ends it at once, with the rest
of the path unread, and a path of slashes alone never enters it, so that the
inode number returned is whatever the uninitialised `dir_e` held.

`components` says independently what the names in a path are, and
`pathParse_spec` that `path_parse` takes off the first of them. `OpenedAs` is the
state between a `dir_open` and its `dir_close`: the volume is untouched, and the
close gives back the list of open inodes as it was.
-/

namespace OsCore.Fs

variable {p : Partition}

/-! ## Taking a path apart -/

/-- `'/'`. -/
def slash : UInt8 := 47

/-- `path_parse`: the rest of the path, or `NULL` at its end, and the first
name in it. -/
def pathParse (pathname : List UInt8) : Option (List UInt8) × List UInt8 :=
  let pathname := pathname.dropWhile (· == slash)
  let nameStore := pathname.takeWhile (· != slash)
  let pathname := pathname.dropWhile (· != slash)
  (if pathname = [] then none else some pathname, nameStore)

/-- The components of a path: what stands between slashes. -/
def components (path : List UInt8) : List (List UInt8) := (path.splitOn slash).filter (· ≠ [])

theorem components_slash (path : List UInt8) : components (slash :: path) = components path := by
  unfold components
  rw [List.splitOn_cons_eq_if_modifyHead, if_pos (beq_self_eq_true _)]
  exact List.filter_cons_of_neg (by simp)

theorem components_dropWhile (path : List UInt8) :
    components (path.dropWhile (· == slash)) = components path := by
  induction path with
  | nil => rfl
  | cons c path ih =>
    rw [List.dropWhile_cons]
    split
    next hc => rw [ih, eq_of_beq hc, components_slash]
    next => rfl

theorem takeWhile_no_slash (path : List UInt8) : slash ∉ path.takeWhile (· != slash) := by
  intro h
  have hall := List.all_takeWhile (p := (· != slash)) (l := path)
  exact absurd (List.all_eq_true.mp hall _ h) (by decide)

theorem components_name {name : List UInt8} (h : slash ∉ name) :
    components name = if name = [] then [] else [name] := by
  rw [components, List.splitOn_eq_singleton h]
  split
  next h0 => rw [h0]; rfl
  next h0 => simp [h0]

theorem dropWhile_head {α : Type} {q : α → Bool} {l : List α} {c : α} {r : List α}
    (h : l.dropWhile q = c :: r) : q c = false := by
  induction l with
  | nil => exact absurd h (by simp)
  | cons a l ih =>
    rw [List.dropWhile_cons] at h
    split at h
    next => exact ih h
    next ha =>
      obtain ⟨rfl, -⟩ := List.cons.inj h
      simpa using ha

/-- What is left to parse starts with a slash, and the name and its slash have
been taken off. -/
structure Parsed (path : List UInt8) (subPath : Option (List UInt8)) (name : List UInt8) : Prop where
  comps : components path =
    if name = [] then [] else name :: (subPath.map components).getD []
  rest : ∀ r, subPath = some r → r.head? = some slash
  length : path.head? = some slash → 1 + name.length + (subPath.getD []).length ≤ path.length

theorem parsed_of_append {path name rest : List UInt8}
    (hcomps : components (name ++ rest) = components path) (hname : slash ∉ name)
    (hrest : rest = [] ∨ ∃ r, rest = slash :: r ∧ name ≠ [])
    (hlen : path.head? = some slash → 1 + (name ++ rest).length ≤ path.length) :
    Parsed path (if rest = [] then none else some rest) name := by
  rcases hrest with rfl | ⟨r, rfl, hne⟩
  · rw [if_pos rfl]
    refine ⟨?_, fun r h => absurd h (by simp), fun hp => ?_⟩
    · rw [← hcomps, List.append_nil, components_name hname]
      rfl
    · simpa using hlen hp
  · rw [if_neg (by simp)]
    refine ⟨?_, fun r' h => ?_, fun hp => ?_⟩
    · rw [← hcomps, if_neg hne, Option.map_some, Option.getD_some, components_slash]
      unfold components
      rw [List.splitOn_append_cons_self_of_not_mem hname]
      exact List.filter_cons_of_pos (by simpa using hne)
    · rw [← Option.some.inj h]
      rfl
    · simpa [Nat.add_assoc] using hlen hp

theorem pathParse_spec (path : List UInt8) : Parsed path (pathParse path).1 (pathParse path).2 := by
  have hsplit : (pathParse path).2 ++ (path.dropWhile (· == slash)).dropWhile (· != slash) =
      path.dropWhile (· == slash) :=
    List.takeWhile_append_dropWhile
  refine parsed_of_append ?_ (takeWhile_no_slash _) ?_ fun hhead => ?_
  · rw [hsplit, components_dropWhile]
  · cases hrest : (path.dropWhile (· == slash)).dropWhile (· != slash) with
    | nil => exact Or.inl rfl
    | cons c r =>
      have hc : c = slash := by simpa using dropWhile_head hrest
      subst hc
      refine Or.inr ⟨r, rfl, fun hnil => ?_⟩
      rw [hnil, hrest] at hsplit
      exact absurd (dropWhile_head hsplit.symm) (by decide)
  · rw [hsplit]
    cases path with
    | nil => exact absurd hhead (by simp)
    | cons c r =>
      have hc : c = slash := by simpa using hhead
      have hle := (List.dropWhile_sublist (l := r) (· == slash)).length_le
      rw [List.dropWhile_cons, if_pos (by simp [hc]), List.length_cons]
      omega

/-! ## The search -/

/-- `struct dir *`: `&root_dir`, or one from `dir_open`, by the address of its
inode. -/
inductive DirHandle
  | root
  | opened (inode : Nat)

/-- `struct path_search_record`. -/
structure PathSearchRecord where
  searchedPath : List UInt8
  parentDir : DirHandle
  fileType : UInt32

/-- `dir->inode`, where `rootDir` is `root_dir.inode`. -/
def DirHandle.inode (rootDir : Nat) : DirHandle → Nat
  | root => rootDir
  | opened a => a

/-- `dir_open`. -/
def dirOpen (s : Mounted p) (inodeNo : Nat) : Option (DirHandle × Mounted p) := do
  let (a, s) ← inodeOpen s inodeNo
  return (.opened a, s)

/-- `dir_close`: the root directory stays open. -/
def dirClose (s : Mounted p) : DirHandle → Option (Mounted p)
  | .root => some s
  | .opened a => inodeClose s a

/-- An `i_no` returned as an `int`. -/
def asInt (n : UInt32) : Int := if n.toNat < 2 ^ 31 then n.toNat else (n.toNat : Int) - 2 ^ 32

/-- The end of `search_file`: all names were found and the last one was a
directory. -/
def searchEnd (s : Mounted p) (record : PathSearchRecord) (dirE : DirEntry) (parentInodeNo : Nat) :
    Option (Int × PathSearchRecord × Mounted p) := do
  let s ← dirClose s record.parentDir
  let (parentDir, s) ← dirOpen s parentInodeNo
  return (asInt dirE.iNo, { record with parentDir, fileType := ftDirectory }, s)

/-- `if (sub_path) sub_path = path_parse(sub_path, name)`, after `name` has been
cleared. -/
def parseNext (subPath : Option (List UInt8)) : Option (List UInt8) × List UInt8 :=
  match subPath with
  | some path => pathParse path
  | none => (none, [])

/-- `while (name[0])`. -/
def searchNames (rootDir : Nat) : Nat → Option (List UInt8) → List UInt8 → DirHandle → DirEntry →
    Nat → PathSearchRecord → Mounted p → Option (Int × PathSearchRecord × Mounted p)
  | 0, _, _, _, _, _, _, _ => none
  | fuel + 1, subPath, name, parentDir, dirE, parentInodeNo, record, s =>
    if name = [] then searchEnd s record dirE parentInodeNo
    else do
      -- past its 16 bytes the array `name` has no terminator
      ensure (name.length < 16)
      ensure (record.searchedPath.length < 512)
      let record := { record with searchedPath := record.searchedPath ++ [slash] ++ name }
      let inode ← s.inodeAt (parentDir.inode rootDir)
      match ← searchDirEntry s.vol inode name with
      | none => return (-1, record, s)
      | some dirE =>
        let (subPath, name) := parseNext subPath
        if dirE.fType = ftDirectory then
          let s ← dirClose s parentDir
          let (parentDir, s) ← dirOpen s dirE.iNo.toNat
          searchNames rootDir fuel subPath name parentDir dirE inode.no { record with parentDir } s
        else if dirE.fType = ftRegular then
          return (asInt dirE.iNo, { record with fileType := ftRegular }, s)
        else searchNames rootDir fuel subPath name parentDir dirE parentInodeNo record s

/-- `search_file(pathname, &record)` for a record of zero bytes. `rootDir` is
`root_dir.inode` and `dirE` what is on the stack where `dir_e` goes. -/
def searchFile (rootDir : Nat) (dirE : DirEntry) (s : Mounted p) (pathname : List UInt8) :
    Option (Int × PathSearchRecord × Mounted p) :=
  if pathname = [slash] ∨ pathname = slash :: dot ∨ pathname = slash :: dotDot then
    some (0, ⟨[], .root, ftDirectory⟩, s)
  else do
    ensure (pathname.head? = some slash ∧ 1 < pathname.length ∧ pathname.length < 512)
    let (subPath, name) := pathParse pathname
    searchNames rootDir (pathname.length + 1) subPath name .root dirE 0 ⟨[], .root, ftUnknown⟩ s

/-! ## Directories, opened and closed -/

/-- The inode numbered `n` as an open finds it: in memory, or else on disk. -/
def inodeOf (s : Mounted p) (n : Nat) : Inode :=
  match s.openInodes.find? fun e => e.2.no == n with
  | some (_, i) => i
  | none => Inode.ofMem s.vol.disk (p.slotAddr n)

/-- The list of open inodes is in order: every struct has its own address, below
the heap's end, and a user. -/
structure Steady (s : Mounted p) : Prop where
  below : ∀ e ∈ s.openInodes, e.1 < s.brk
  nodup : (s.openInodes.map (·.1)).Nodup
  users : ∀ e ∈ s.openInodes, e.2.iOpenCnts ≠ 0

theorem Steady.brk {s : Mounted p} (h : Steady s) {b : Nat} (hb : s.brk ≤ b) :
    Steady { s with brk := b } :=
  ⟨fun e he => Nat.lt_of_lt_of_le (h.below e he) hb, h.nodup, h.users⟩

/-- `h` is an open directory, and its inode is that of `d` in `s`; closing it
gives `s` back but for the heap's end. -/
structure OpenedAs (s : Mounted p) (rootDir d : Nat) (h : DirHandle) (st : Mounted p) : Prop where
  vol : st.vol = s.vol
  inode : ∃ i, st.inodeAt (h.inode rootDir) = some i ∧
    (∀ k, i.sec k = (inodeOf s d).sec k) ∧ i.no = (inodeOf s d).no
  close : ∃ b, s.brk ≤ b ∧ dirClose st h = some { s with brk := b }

theorem setOpenCnts_toNat (i : Inode) (c : Nat) :
    (i.setOpenCnts c).iOpenCnts.toNat = c % 2 ^ 32 := UInt32.toNat_ofNat'

/-- One user more and one less. -/
theorem openCnts_back {c : Nat} (h : c < 2 ^ 32) :
    ((c + 1) % 2 ^ 32 + 2 ^ 32 - 1) % 2 ^ 32 = c := by omega

theorem setOpenCnts_self (i : Inode) (c : Nat) :
    (i.setOpenCnts c).setOpenCnts i.iOpenCnts.toNat = i := by
  unfold Inode.setOpenCnts
  rw [UInt32.ofNat_toNat]

theorem inodeClose_stays {s : Mounted p} {a c : Nat} {i : Inode} (hat : s.inodeAt a = some i)
    (hcnt : (i.iOpenCnts.toNat + 2 ^ 32 - 1) % 2 ^ 32 = c) (hc : c ≠ 0) :
    inodeClose s a = some (s.modifyInode a fun i => i.setOpenCnts c) := by
  unfold inodeClose
  rw [hat, Option.bind_eq_bind, Option.bind_some]
  simp only [hcnt, if_neg hc]
  rfl

/-- A struct that was not in memory leaves it again. -/
theorem inodeOpen_miss_holds {s : Mounted p} (hs : Steady s) (rootDir : Nat) {n : Nat}
    (hn : n < 4096) (hmiss : s.Misses n) :
    ∃ a st, inodeOpen s n = some (a, st) ∧ OpenedAs s rootDir n (.opened a) st := by
  have hof : inodeOf s n = Inode.ofMem s.vol.disk (p.slotAddr n) := by
    rw [inodeOf, List.find?_eq_none.mpr fun e he => by simpa using hmiss e he]
  have hopen := inodeOpen_miss hn hmiss
  rw [← hof] at hopen
  have hat : Mounted.inodeAt { s with
      openInodes := (s.brk, (inodeOf s n).setOpenCnts 1) :: s.openInodes, brk := s.brk + 1 } s.brk =
        some ((inodeOf s n).setOpenCnts 1) := by
    rw [Mounted.inodeAt_eq_lookup, Mounted.lookup_cons, if_pos rfl]
  refine ⟨_, _, hopen, rfl, ⟨_, hat, Inode.sec_setOpenCnts _ _, Inode.no_setOpenCnts _ _⟩,
    s.brk + 1, Nat.le_succ _, ?_⟩
  have hlist : ((s.brk, (inodeOf s n).setOpenCnts 1) :: s.openInodes).filter
      (fun e => e.1 != s.brk) = s.openInodes := by
    rw [List.filter_cons_of_neg (by simp), List.filter_eq_self]
    intro e he
    have := hs.below e he
    simp
    omega
  simp only [dirClose, inodeClose, hat, Option.bind_eq_bind, Option.bind_some,
    setOpenCnts_toNat, hlist]
  rw [if_pos (by decide)]
  rfl

/-- A struct that was in memory gets one more user for a while. -/
theorem inodeOpen_hit_holds {s : Mounted p} (hs : Steady s) (rootDir : Nat) {n a : Nat} {i : Inode}
    (hfind : s.openInodes.find? (fun e => e.2.no == n) = some (a, i)) :
    ∃ a st, inodeOpen s n = some (a, st) ∧ OpenedAs s rootDir n (.opened a) st := by
  have hof : inodeOf s n = i := by rw [inodeOf, hfind]
  have hmem : (a, i) ∈ s.openInodes := List.mem_of_find?_eq_some hfind
  have hat : s.inodeAt a = some i := Mounted.lookup_of_mem hs.nodup hmem
  have hat' : (s.modifyInode a fun i => i.setOpenCnts (i.iOpenCnts.toNat + 1)).inodeAt a =
      some (i.setOpenCnts (i.iOpenCnts.toNat + 1)) := by
    rw [Mounted.inodeAt_modifyInode, if_pos rfl, hat, Option.map_some]
  refine ⟨a, s.modifyInode a fun i => i.setOpenCnts (i.iOpenCnts.toNat + 1),
    by rw [inodeOpen, hfind], rfl, ⟨_, hat', ?_, ?_⟩, s.brk, Nat.le_refl _, ?_⟩
  · rw [hof]
    exact Inode.sec_setOpenCnts _ _
  · rw [hof]
    exact Inode.no_setOpenCnts _ _
  · have hne : i.iOpenCnts.toNat ≠ 0 := fun h0 =>
      hs.users _ hmem (UInt32.toNat_inj.mp (h0.trans UInt32.toNat_zero.symm))
    have hback : (s.modifyInode a fun i => i.setOpenCnts (i.iOpenCnts.toNat + 1)).modifyInode a
        (fun j => j.setOpenCnts i.iOpenCnts.toNat) = s := by
      unfold Mounted.modifyInode
      simp only [List.map_map]
      congr 1
      refine (List.map_congr_left fun e he => ?_).trans (List.map_id _)
      by_cases hea : e.1 = a
      · have hlook := Mounted.lookup_of_mem (i := e.2) hs.nodup he
        rw [hea] at hlook
        have hei : e.2 = i := Option.some.inj (hlook.symm.trans hat)
        obtain ⟨b, j⟩ := e
        obtain rfl : b = a := hea
        obtain rfl : j = i := hei
        simp only [Function.comp, if_true, setOpenCnts_self, id]
      · simp only [Function.comp, if_neg hea, id]
    have hcnt : ((i.setOpenCnts (i.iOpenCnts.toNat + 1)).iOpenCnts.toNat + 2 ^ 32 - 1) % 2 ^ 32 =
        i.iOpenCnts.toNat := by
      rw [setOpenCnts_toNat, openCnts_back i.iOpenCnts.toNat_lt]
    rw [dirClose, inodeClose_stays hat' hcnt hne, hback]

/-- **Open, then close.** -/
theorem dirOpen_holds {s : Mounted p} (hs : Steady s) (rootDir : Nat) {n b : Nat} (hn : n < 4096)
    (hb : s.brk ≤ b) :
    ∃ h st, dirOpen { s with brk := b } n = some (h, st) ∧ OpenedAs s rootDir n h st := by
  have hopen : ∃ a st, inodeOpen { s with brk := b } n = some (a, st) ∧
      OpenedAs { s with brk := b } rootDir n (.opened a) st := by
    cases hfind : s.openInodes.find? fun e => e.2.no == n with
    | none =>
      apply inodeOpen_miss_holds (hs.brk hb) rootDir hn
      intro e he
      simpa using List.find?_eq_none.mp hfind e he
    | some e => exact inodeOpen_hit_holds (hs.brk hb) rootDir hfind
  obtain ⟨a, st, hopen, hholds⟩ := hopen
  obtain ⟨c, hc, hclose⟩ := hholds.close
  refine ⟨.opened a, st, by simp [dirOpen, hopen], hholds.vol, hholds.inode, c, ?_, hclose⟩
  exact Nat.le_trans hb hc

end OsCore.Fs
