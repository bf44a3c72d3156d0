import OsCore.Userprog.UserView

/-!
# What the loader makes of a file

What `load` does to user memory can be told from the file and from the pages that
are there. `loadable` goes through the program headers as the code does, with the
position the file is at, since a seek behind the end leaves it and the header is then
read from there; out of it come the segments that are loaded (`Segment`), each a
`Piece` of memory: its pages, and the bytes the file still has for it.

The loader stays in the user space exactly when every page it has to ask for is in
the range of the bitmap and every byte is stored below `0xc0000000` (`Confined`); then
the pieces are laid on the caller's memory one after the other (`load_confined`).
-/

namespace OsCore.Userprog

open Lib Paging Fs

variable {p : Partition}

/-! ## Segments -/

/-- `n` pages from `v` on; behind the last page is the first. -/
def pagesFrom : Nat → Nat → List Nat
  | 0, _ => []
  | n + 1, v => v :: pagesFrom n ((v + 1) % 2 ^ 20)

/-- The program header at a position of the file. -/
def Phdr.at' (content : List UInt8) (pos : Nat) : Phdr :=
  .ofMem fun i => content.getD (pos + i) 0

/-- The header at the start of the file. -/
def Ehdr.of (content : List UInt8) : Ehdr := .ofMem fun i => content.getD i 0

/-- A header of type `PT_LOAD`, with the position that the bytes are read from. -/
structure Segment where
  header : Phdr
  start : Nat
  deriving DecidableEq, Repr

/-- The pages `segment_load` goes through. -/
def Segment.pages (x : Segment) : List Nat :=
  pagesFrom (occupyPages x.header.pFilesz x.header.pVaddr) (x.header.pVaddr / 4096)

/-- The bytes it stores. -/
def Segment.bytes (content : List UInt8) (x : Segment) : List UInt8 :=
  taken content x.start x.header.pFilesz

def Segment.piece (content : List UInt8) (x : Segment) : Piece UInt8 where
  pages := x.pages.filter (· < 768 * 1024)
  addr := x.header.pVaddr
  bytes := x.bytes content

/-- The segments that are loaded for `n` program headers, the first of them at `off`,
when the file is at `pos`; and whether all of the headers could be read. -/
def loadable (content : List UInt8) : Nat → Nat → Nat → List Segment × Bool
  | 0, _, _ => ([], true)
  | n + 1, off, pos =>
    let here := seekTo content pos off
    if here + phdrSize ≤ content.length then
      let header := Phdr.at' content here
      if header.pType = ptLoad then
        let x : Segment := ⟨header, seekTo content (here + phdrSize) header.pOffset⟩
        let (xs, ok) := loadable content n ((off + phdrSize) % 2 ^ 32)
          (x.start + (x.bytes content).length)
        (x :: xs, ok)
      else loadable content n ((off + phdrSize) % 2 ^ 32) (here + phdrSize)
    else ([], false)

/-- The segments `load` loads of a file, and whether it comes to the end of the
headers. -/
def segments (content : List UInt8) : List Segment × Bool :=
  if ehdrSize ≤ content.length ∧ (Ehdr.of content).Valid then
    loadable content (Ehdr.of content).ePhnum (Ehdr.of content).ePhoff ehdrSize
  else ([], false)

/-- The pieces of the segments of a file. -/
def pieces (content : List UInt8) : List (Piece UInt8) :=
  (segments content).1.map (·.piece content)

theorem Phdr.ofMem_lt (m : Mem) : (Phdr.ofMem m).pOffset < 2 ^ 32 ∧
    (Phdr.ofMem m).pFilesz < 2 ^ 32 ∧ (Phdr.ofMem m).pVaddr < 2 ^ 32 :=
  ⟨Mem.rd32_lt m 4, Mem.rd32_lt m 16, Mem.rd32_lt m 8⟩

/-- When the table of program headers is inside the file, these are its entries of type
`PT_LOAD`, all of them. -/
theorem loadable_table {content : List UInt8} (hlen : content.length < 2 ^ 32) :
    ∀ {n off pos : Nat}, off + 32 * n ≤ content.length →
      (loadable content n off pos).2 = true ∧
      (loadable content n off pos).1.map Segment.header =
        ((List.range n).map fun i => Phdr.at' content (off + 32 * i)).filter
          (·.pType = ptLoad) := by
  intro n
  induction n with
  | zero => exact fun _ => ⟨rfl, rfl⟩
  | succ n ih =>
    intro off pos hin
    have hseek : seekTo content pos off = off := if_pos (by omega)
    have hroom : off + 32 ≤ content.length := by omega
    have hnext : (off + 32) % 2 ^ 32 = off + 32 := by omega
    have hhead : Phdr.at' content (off + 32 * 0) = Phdr.at' content off := rfl
    have hshift : ((fun i => Phdr.at' content (off + 32 * i)) ∘ Nat.succ) =
        fun i => Phdr.at' content (off + 32 + 32 * i) := by
      funext i
      simp only [Function.comp_apply]
      congr 1
      omega
    have hsize : phdrSize = 32 := rfl
    rw [loadable]
    simp only [hsize, hseek, if_pos hroom, hnext]
    rw [List.range_succ_eq_map, List.map_cons, List.map_map, hshift, List.filter_cons, hhead]
    by_cases hload : (Phdr.at' content off).pType = ptLoad
    · obtain ⟨hok, hheaders⟩ := @ih (off + 32) _ (by omega)
      simp only [hload, decide_true, if_true, List.map_cons]
      exact ⟨hok, congrArg _ hheaders⟩
    · obtain ⟨hok, hheaders⟩ := @ih (off + 32) (off + 32) (by omega)
      simp only [hload, decide_false, Bool.false_eq_true, if_false]
      exact ⟨hok, hheaders⟩

/-! ## Staying in the user space -/

/-- The bit is in the bitmap, and the byte is in the user space from `lo` on. -/
def Touch.Within (lo : Nat) : Touch → Prop
  | .bit idx => idx < 8 * userBitmapLen
  | .byte addr => lo ≤ addr ∧ addr < 0xc0000000

/-- The pages that can be reached when those of a list have been asked for. -/
def afterAll (has : Nat → Prop) (vs : List Nat) : Nat → Prop := vs.foldl afterAsk has

/-- One after the other, each page is there or is in the range of the bitmap. -/
def PagesOk : (Nat → Prop) → List Nat → Prop
  | _, [] => True
  | has, v :: vs => (has v ∨ InRange v) ∧ PagesOk (afterAsk has v) vs

/-- The bytes of a segment are in the user space from `lo` on. -/
def BytesOk (content : List UInt8) (lo : Nat) (x : Segment) : Prop :=
  ∀ i, i < (x.bytes content).length → lo ≤ (x.header.pVaddr + i) % 2 ^ 32 ∧
    (x.header.pVaddr + i) % 2 ^ 32 < 0xc0000000

/-- **The segments stay in the user space**, when `has` are the pages that are there. -/
structure Confined (content : List UInt8) (lo : Nat) (has : Nat → Prop) (xs : List Segment) :
    Prop where
  pages : PagesOk has (xs.flatMap Segment.pages)
  bytes : ∀ x ∈ xs, BytesOk content lo x

/-- An address of the user space is never behind the end of memory. -/
theorem BytesOk.lt {content : List UInt8} {lo : Nat} {x : Segment} (h : BytesOk content lo x)
    (hv : x.header.pVaddr < 2 ^ 32) {j : Nat} (hj : j < (x.bytes content).length) :
    lo ≤ x.header.pVaddr + j ∧ x.header.pVaddr + j < 0xc0000000 := by
  have hlast : x.header.pVaddr + j < 0xc0000000 := by
    by_contra hge
    have h0 := h 0 (by omega)
    -- one of the bytes is for the first address behind
    have hend := h (0xc0000000 - x.header.pVaddr) (by omega)
    omega
  have := h j hj
  omega

theorem pagesOk_append {has : Nat → Prop} {vs ws : List Nat} :
    PagesOk has (vs ++ ws) ↔ PagesOk has vs ∧ PagesOk (afterAll has vs) ws := by
  induction vs generalizing has with
  | nil => simp [PagesOk, afterAll]
  | cons v vs ih =>
    rw [List.cons_append, PagesOk, PagesOk, ih, and_assoc]
    rfl

theorem confined_nil (content : List UInt8) (lo : Nat) (has : Nat → Prop) :
    Confined content lo has [] := ⟨trivial, by simp⟩

/-- The first segment, and then the others. -/
theorem confined_cons {content : List UInt8} {lo : Nat} {has : Nat → Prop} {x : Segment}
    {xs : List Segment} : Confined content lo has (x :: xs) ↔
      (PagesOk has x.pages ∧ BytesOk content lo x) ∧
        Confined content lo (afterAll has x.pages) xs := by
  constructor
  · intro h
    have hp := h.pages
    rw [List.flatMap_cons, pagesOk_append] at hp
    exact ⟨⟨hp.1, h.bytes x List.mem_cons_self⟩, hp.2,
      fun y hy => h.bytes y (List.mem_cons_of_mem x hy)⟩
  · intro hin
    obtain ⟨⟨hp, hb⟩, hrest⟩ := hin
    refine ⟨?_, fun y hy => ?_⟩
    · rw [List.flatMap_cons, pagesOk_append]
      exact ⟨hp, hrest.pages⟩
    · rcases List.mem_cons.mp hy with rfl | hy
      · exact hb
      · exact hrest.bytes y hy

/-! ## The loops -/

variable {L : Layout} {S : Spaces} {q : Nat} {sp : Space} {F : Nat → Option Nat} {m : Paged UInt8}
  {s s' : Mm}

/-- The bit of a page is in the bitmap when the page is in its range. -/
theorem pageBit_lt {v : Nat} (hv : v < 2 ^ 20) :
    pageBit (v * 4096) < 8 * userBitmapLen ↔ InRange v := by
  have hlen : 8 * userBitmapLen = 753592 := by decide
  have hstart : userVaddrStart = 0x8048000 := rfl
  unfold pageBit InRange
  rw [hlen, hstart]
  omega

/-- **The loop over the pages of a segment.** -/
theorem UserView.pageLoop {l : Nat} : ∀ {n v : Nat} {m : Paged UInt8} {s s' : Mm} {ok : Bool}
    {log : List Touch}, UserView L S q sp F m s → v < 2 ^ 20 →
    pageLoop (pallocFrom L) n (v * 4096) s = some (ok, log, s') →
    ((∀ t ∈ log, t.Within l) ↔ PagesOk (There s) (pagesFrom n v)) ∧
    (PagesOk (There s) (pagesFrom n v) → ok = true ∧
      UserView L S q sp F (m.askAll ((pagesFrom n v).filter (· < 768 * 1024))) s' ∧
      There s' = afterAll (There s) (pagesFrom n v)) := by
  intro n
  induction n with
  | zero =>
    intro v m s s' ok log h _ hrun
    simp only [Userprog.pageLoop, Option.some.injEq, Prod.mk.injEq] at hrun
    obtain ⟨rfl, rfl, rfl⟩ := hrun
    exact ⟨by simp [pagesFrom, PagesOk], fun _ => ⟨rfl, h, rfl⟩⟩
  | succ n ih =>
    intro v m s s' ok log h hv hrun
    have hnext : (v * 4096 + 4096) % 2 ^ 32 = (v + 1) % 2 ^ 20 * 4096 := by omega
    have hv' : (v + 1) % 2 ^ 20 < 2 ^ 20 := Nat.mod_lt _ (by decide)
    rw [Userprog.pageLoop, pageThere_eq h.good.self.self hv, hnext, Option.bind_eq_bind,
      Option.bind_some] at hrun
    by_cases hthere : There s v
    · -- the page is there
      rw [if_pos (by simpa using hthere)] at hrun
      obtain ⟨hiff, hok⟩ := ih h hv' hrun
      have hafter := h.afterAsk_there hthere
      have hask : m.askAll ((pagesFrom (n + 1) v).filter (· < 768 * 1024)) =
          m.askAll ((pagesFrom n ((v + 1) % 2 ^ 20)).filter (· < 768 * 1024)) := by
        rw [pagesFrom, List.filter_cons]
        split
        next hlt =>
          have hhas : m.has v = true := (h.has_iff v).mpr ⟨by simpa using hlt, hthere⟩
          rw [Paged.askAll, List.foldl_cons, Paged.ask, if_pos hhas]
          rfl
        next => rfl
      rw [pagesFrom, PagesOk, hafter]
      refine ⟨by simp [hiff, hthere], fun hpages => ?_⟩
      obtain ⟨hokt, hview, hend⟩ := hok hpages.2
      rw [← pagesFrom, hask]
      refine ⟨hokt, hview, ?_⟩
      rw [hend, pagesFrom, afterAll, afterAll, List.foldl_cons, hafter]
    · rw [if_neg (by simpa using hthere)] at hrun
      simp only [Option.bind_eq_bind, Option.bind_eq_some_iff, Prod.exists] at hrun
      obtain ⟨page, s1, hpage, hrun⟩ := hrun
      by_cases hrange : InRange v
      · obtain ⟨rfl, hview1, hthere1⟩ := h.ask hrange.2 hthere hpage
        have hne : ¬(some (v * 4096)).getD 0 = 0 := by
          have := hrange.1
          unfold userVaddrStart at this
          simp only [Option.getD_some]
          omega
        simp only [if_neg hne, Option.bind_eq_some_iff, Option.pure_def, Option.some.injEq,
          Prod.mk.injEq, Prod.exists] at hrun
        obtain ⟨ok', log', s2, hloop, rfl, rfl, rfl⟩ := hrun
        obtain ⟨hiff, hok⟩ := ih hview1 hv' hloop
        have hask : m.askAll ((pagesFrom (n + 1) v).filter (· < 768 * 1024)) =
            (m.ask v).askAll ((pagesFrom n ((v + 1) % 2 ^ 20)).filter (· < 768 * 1024)) := by
          rw [pagesFrom, List.filter_cons, if_pos (by simpa using hrange.2), Paged.askAll,
            List.foldl_cons]
          rfl
        have hbit : Touch.Within l (.bit (pageBit (v * 4096))) := (pageBit_lt hv).mpr hrange
        rw [hthere1] at hiff hok
        refine ⟨?_, fun hpages => ?_⟩
        · rw [List.forall_mem_cons, hiff, pagesFrom, PagesOk]
          simp [hbit, hrange]
        · rw [pagesFrom, PagesOk] at hpages
          obtain ⟨hokt, hview, hend⟩ := hok hpages.2
          rw [hask]
          refine ⟨hokt, hview, ?_⟩
          rw [hend, pagesFrom, afterAll, afterAll, List.foldl_cons]
      · -- a bit outside the bitmap is set, whatever comes of it
        have hbit : ¬Touch.Within l (.bit (pageBit (v * 4096))) := fun hw =>
          hrange ((pageBit_lt hv).mp hw)
        have hnot : ¬PagesOk (There s) (pagesFrom (n + 1) v) := by
          rw [pagesFrom, PagesOk]
          exact fun hp => hp.1.elim hthere hrange
        have hmem : Touch.bit (pageBit (v * 4096)) ∈ log := by
          split at hrun
          next =>
            simp only [Option.pure_def, Option.some.injEq, Prod.mk.injEq] at hrun
            obtain ⟨-, rfl, -⟩ := hrun
            exact List.mem_singleton.mpr rfl
          next =>
            simp only [Option.bind_eq_some_iff, Option.pure_def, Option.some.injEq,
              Prod.mk.injEq, Prod.exists] at hrun
            obtain ⟨ok', log', s2, -, -, rfl, -⟩ := hrun
            exact List.mem_cons_self
        exact ⟨⟨fun hall => absurd (hall _ hmem) hbit, fun hp => absurd hp hnot⟩,
          fun hp => absurd hp hnot⟩

/-- Bytes below `0xc0000000` go where they are meant to. -/
theorem UserView.storeBytes : ∀ {bs : List UInt8} {a : Nat} {m : Paged UInt8} {s s' : Mm},
    UserView L S q sp F m s → (∀ i, i < bs.length → (a + i) % 2 ^ 32 < 0xc0000000) → a < 2 ^ 32 →
    storeBytes a bs s = some s' →
    UserView L S q sp F (m.storeAll 4096 a bs) s' ∧ There s' = There s ∧
      ∀ j, j < bs.length → m.has ((a + j) / 4096) = true := by
  intro bs
  induction bs with
  | nil =>
    intro a m s s' h _ _ hrun
    rw [← Option.some.inj hrun]
    exact ⟨h, rfl, by simp⟩
  | cons b bs ih =>
    intro a m s s' h hlow ha hrun
    obtain ⟨s1, hstore, hrun⟩ := Option.bind_eq_some_iff.mp hrun
    have ha' : a < 0xc0000000 := by
      have := hlow 0 (by simp)
      omega
    obtain ⟨hhas, hview, hthere⟩ := h.store ha' hstore
    have hnext : (a + 1) % 2 ^ 32 = a + 1 := by omega
    rw [hnext] at hrun
    obtain ⟨hview', hthere', hhas'⟩ := ih hview (fun i hi => by
      have := hlow (i + 1) (by simpa using hi)
      rw [← Nat.add_assoc, Nat.add_right_comm] at this
      exact this) (by omega) hrun
    refine ⟨hview', hthere'.trans hthere, fun j hj => ?_⟩
    cases j with
    | zero => exact hhas
    | succ j =>
      have := hhas' j (by simpa using hj)
      rw [Paged.store_has, Nat.add_assoc, Nat.add_comm 1] at this
      exact this

/-- What a step of the loader leaves, besides memory. -/
structure Onward (k k' : KernelState p) (fd : Int) (g : Nat) (ino : Inode) (content : List UInt8)
    (pos : Nat) : Prop where
  cur : k'.cur = k.cur
  pcb : k'.fs.pcb = k.fs.pcb
  file : OnFile k'.fs k'.cur fd g ino content pos

variable {k k' : KernelState p} {fd : Int} {g : Nat} {ino : Inode} {content : List UInt8} {pos : Nat}

/-- **One segment.** -/
theorem UserView.segmentLoad (h : UserView L S q sp F m k.mm)
    (hfile : OnFile k.fs k.cur fd g ino content pos) {l : Nat} {header : Phdr}
    (hoff : header.pOffset < 2 ^ 32) (hsize : header.pFilesz < 2 ^ 32)
    (haddr : header.pVaddr < 2 ^ 32) {ok : Bool} {log : List Touch} {x : Segment}
    (hx : x = ⟨header, seekTo content pos header.pOffset⟩)
    (hrun : segmentLoad (pallocFrom L) k fd header.pOffset header.pFilesz header.pVaddr =
      some (ok, log, k')) :
    ((∀ t ∈ log, t.Within l) ↔ PagesOk (There k.mm) x.pages ∧ BytesOk content l x) ∧
    (PagesOk (There k.mm) x.pages ∧ BytesOk content l x → ok = true ∧
      m.Fits 4096 (x.piece content) ∧ UserView L S q sp F (m.lay 4096 (x.piece content)) k'.mm ∧
      There k'.mm = afterAll (There k.mm) x.pages ∧
      Onward k k' fd g ino content (x.start + (x.bytes content).length)) := by
  subst hx
  simp only [Userprog.segmentLoad, Option.bind_eq_bind, Option.bind_eq_some_iff, Prod.exists] at hrun
  obtain ⟨ok1, log1, mm1, hloop, hrun⟩ := hrun
  have hfirst : header.pVaddr / 4096 < 2 ^ 20 := by omega
  obtain ⟨hiff, hgo⟩ := h.pageLoop (l := l) hfirst hloop
  by_cases hpages : PagesOk (There k.mm)
      (pagesFrom (occupyPages header.pFilesz header.pVaddr) (header.pVaddr / 4096))
  · obtain ⟨rfl, hview1, hthere1⟩ := hgo hpages
    have hlog1 := hiff.mpr hpages
    simp only [Bool.not_true, Bool.false_eq_true, if_false, Option.bind_eq_some_iff,
      ensure_eq_some, Option.pure_def, Option.some.injEq, Prod.mk.injEq, Prod.exists,
      exists_const] at hrun
    obtain ⟨r1, fs1, hseek, -, r2, buf, fs2, hread, mm2, hstore, rfl, rfl, rfl⟩ := hrun
    obtain ⟨r1', fs1', hseek', -, hpcb1, hfile1⟩ := hfile.seek hoff
    rw [hseek, Option.some.injEq, Prod.mk.injEq] at hseek'
    obtain ⟨-, rfl⟩ := hseek'
    obtain ⟨-, hbytes, -, hpcb2, hfile2⟩ := hfile1.read hsize hread
    rw [hbytes] at hstore
    have hlen : r2.toNat =
        (taken content (seekTo content pos header.pOffset) header.pFilesz).length := by
      rw [← hbytes, length_bytesOf]
    have hbytesIff : (∀ t ∈ (List.range r2.toNat).map fun i =>
        Touch.byte ((header.pVaddr + i) % 2 ^ 32), t.Within l) ↔
        BytesOk content l ⟨header, seekTo content pos header.pOffset⟩ := by
      rw [hlen, List.forall_mem_map]
      simp only [List.mem_range, BytesOk, Segment.bytes, Touch.Within]
    refine ⟨?_, fun hok => ?_⟩
    · rw [List.forall_mem_append, hbytesIff]
      exact and_congr_left' ⟨fun _ => hpages, fun _ => hlog1⟩
    · obtain ⟨hview2, hthere2, hhas⟩ := hview1.storeBytes (fun i hi => (hok.2 i hi).2) haddr hstore
      refine ⟨rfl, fun j hj => ?_, hview2, hthere2.trans hthere1, ⟨rfl, ?_, hfile2⟩⟩
      · have := hhas j hj
        rw [Paged.askAll_has, Bool.or_eq_true, decide_eq_true_eq] at this
        exact this.symm
      · exact hpcb2.trans hpcb1
  · -- a page outside the range is asked for
    have hbad : ¬∀ t ∈ log1, t.Within l := fun hall => hpages (hiff.mp hall)
    have hsub : ∀ t ∈ log1, t ∈ log := by
      intro t ht
      split at hrun
      next =>
        simp only [Option.pure_def, Option.some.injEq, Prod.mk.injEq] at hrun
        obtain ⟨-, rfl, -⟩ := hrun
        exact ht
      next =>
        simp only [Option.bind_eq_some_iff, Option.pure_def, Option.some.injEq, Prod.mk.injEq,
          Prod.exists] at hrun
        obtain ⟨-, -, -, -, -, -, -, -, -, -, -, -, rfl, -⟩ := hrun
        exact List.mem_append_left _ ht
    exact ⟨⟨fun hall => absurd (fun t ht => hall t (hsub t ht)) hbad, fun hp => absurd hp.1 hpages⟩,
      fun hp => absurd hp.1 hpages⟩

/-- A buffer that was filled, byte by byte. -/
theorem OnFile.read_all (hfile : OnFile k.fs k.cur fd g ino content pos) {count : Nat}
    (hcount : count < 2 ^ 32) (hpos : 0 < count) {r : Int} {buf : Mem} {fs : FileSys p}
    (hrun : k.fs.sysRead k.cur fd count = some (r, buf, fs)) :
    (r = count ↔ pos + count ≤ content.length) ∧
      (pos + count ≤ content.length → (∀ i, i < count → buf i = content.getD (pos + i) 0) ∧
        OnFile fs k.cur fd g ino content (pos + count)) ∧ fs.pcb = k.fs.pcb := by
  obtain ⟨hr, hbytes, -, hpcb, hfile'⟩ := hfile.read hcount hrun
  have hin := hfile.inside
  rw [length_taken] at hr hfile'
  refine ⟨?_, fun hroom => ?_, hpcb⟩
  · rw [hr]
    split <;> omega
  · have hmin : min count (content.length - pos) = count := by omega
    rw [hmin] at hr hfile'
    have hr' : r = count := by
      rw [hr, if_neg (by omega)]
    refine ⟨fun i hi => ?_, hfile'⟩
    rw [hr', Int.toNat_natCast] at hbytes
    have h1 : (bytesOf buf count)[i]? = some (buf i) := by
      simp [bytesOf, hi]
    have h2 : (taken content pos count)[i]? = content[pos + i]? := by
      simp [taken, hi]
    rw [hbytes, h2] at h1
    rw [List.getD_eq_getElem?_getD, h1, Option.getD_some]

/-- A header read from a buffer is the one in the file. -/
theorem Phdr.ofMem_congr {a b : Mem} (h : ∀ i, i < phdrSize → a i = b i) :
    Phdr.ofMem a = Phdr.ofMem b := by
  have hword : ∀ o, o + 4 ≤ 32 → Mem.rd32 a o = Mem.rd32 b o := fun o ho =>
    Mem.rd32_congr fun i hi => h _ (by unfold phdrSize; omega)
  simp only [Phdr.ofMem, hword 0 (by decide), hword 4 (by decide), hword 8 (by decide),
    hword 16 (by decide), hword 20 (by decide)]

theorem Ehdr.ofMem_congr {a b : Mem} (h : ∀ i, i < ehdrSize → a i = b i) :
    Ehdr.ofMem a = Ehdr.ofMem b := by
  have hbyte : ∀ o, o < 52 → a o = b o := h
  have hword : ∀ o, o + 4 ≤ 52 → Mem.rd32 a o = Mem.rd32 b o := fun o ho =>
    Mem.rd32_congr fun i hi => h _ (by unfold ehdrSize; omega)
  have hident : (List.range 7).map a = (List.range 7).map b :=
    List.map_congr_left fun i hi => hbyte i (by have := List.mem_range.mp hi; omega)
  simp only [Ehdr.ofMem, rd16, hident, hword 20 (by decide), hword 24 (by decide),
    hword 28 (by decide), hbyte 16 (by decide), hbyte (16 + 1) (by decide), hbyte 18 (by decide),
    hbyte (18 + 1) (by decide), hbyte 42 (by decide), hbyte (42 + 1) (by decide),
    hbyte 44 (by decide), hbyte (44 + 1) (by decide)]

/-- **The loop over the program headers.** -/
theorem UserView.headerLoop {l : Nat} : ∀ {n off pos : Nat} {m : Paged UInt8}
    {k k' : KernelState p} {ok : Bool} {log : List Touch}, UserView L S q sp F m k.mm →
    OnFile k.fs k.cur fd g ino content pos → off < 2 ^ 32 →
    headerLoop (pallocFrom L) fd n off k = some (ok, log, k') →
    ((∀ t ∈ log, t.Within l) ↔
      Confined content l (There k.mm) (loadable content n off pos).1) ∧
    (Confined content l (There k.mm) (loadable content n off pos).1 →
      ok = (loadable content n off pos).2 ∧
      m.FitAll 4096 ((loadable content n off pos).1.map (·.piece content)) ∧
      UserView L S q sp F (m.layAll 4096 ((loadable content n off pos).1.map (·.piece content)))
        k'.mm ∧ There k'.mm = afterAll (There k.mm)
          ((loadable content n off pos).1.flatMap Segment.pages) ∧
      ∃ pos', Onward k k' fd g ino content pos') := by
  intro n
  induction n with
  | zero =>
    intro off pos m k k' ok log h hfile _ hrun
    simp only [Userprog.headerLoop, Option.some.injEq, Prod.mk.injEq] at hrun
    obtain ⟨rfl, rfl, rfl⟩ := hrun
    exact ⟨by simp [loadable, confined_nil], fun _ => ⟨rfl, trivial, h, rfl, pos, rfl, rfl, hfile⟩⟩
  | succ n ih =>
    intro off pos m k k' ok log h hfile hoff hrun
    obtain ⟨r1, fs1, hseek, -, hpcb1, hfile1⟩ := hfile.seek hoff
    simp only [Userprog.headerLoop, hseek, Option.bind_eq_bind, Option.bind_some,
      Option.bind_eq_some_iff, Prod.exists] at hrun
    obtain ⟨r2, buf, fs2, hread, hrun⟩ := hrun
    have hoff' : (off + phdrSize) % 2 ^ 32 < 2 ^ 32 := Nat.mod_lt _ (by decide)
    obtain ⟨hfull, hgot, hpcb2⟩ := OnFile.read_all (k := { k with fs := fs1 }) hfile1
      (by decide) (by decide) hread
    have hpcb : fs2.pcb = k.fs.pcb := hpcb2.trans hpcb1
    rw [loadable]
    by_cases hroom : seekTo content pos off + phdrSize ≤ content.length
    · obtain ⟨hbuf, hfile2⟩ := hgot hroom
      have hheader : Phdr.ofMem buf = Phdr.at' content (seekTo content pos off) :=
        Phdr.ofMem_congr hbuf
      have hr2 : ¬r2 ≠ (phdrSize : Int) := not_not.mpr (hfull.mpr hroom)
      simp only [if_neg hr2, hheader] at hrun
      simp only [if_pos hroom]
      generalize hhdr : Phdr.at' content (seekTo content pos off) = header at hrun ⊢
      by_cases hload : header.pType = ptLoad
      · simp only [if_pos hload, Option.bind_eq_some_iff, Prod.exists] at hrun
        simp only [if_pos hload]
        obtain ⟨ok1, log1, k1, hseg, hrun⟩ := hrun
        have hlt : header.pOffset < 2 ^ 32 ∧ header.pFilesz < 2 ^ 32 ∧ header.pVaddr < 2 ^ 32 := by
          rw [← hhdr]
          exact Phdr.ofMem_lt _
        generalize hx : (Segment.mk header
          (seekTo content (seekTo content pos off + phdrSize) header.pOffset)) = x
        have hstart : seekTo content (seekTo content pos off + phdrSize) header.pOffset = x.start := by
          rw [← hx]
        rw [hstart]
        obtain ⟨hiff, hgo⟩ := UserView.segmentLoad (k := { k with fs := fs2 }) (l := l) h hfile2
          hlt.1 hlt.2.1 hlt.2.2 hx.symm hseg
        dsimp only at hiff hgo
        rw [confined_cons]
        by_cases hok : PagesOk (There k.mm) x.pages ∧ BytesOk content l x
        · obtain ⟨rfl, hfits, hview1, hthere1, honward⟩ := hgo hok
          have hlog1 := hiff.mpr hok
          simp only [Bool.not_true, Bool.false_eq_true, if_false, Option.bind_eq_some_iff,
            Option.pure_def, Option.some.injEq, Prod.mk.injEq, Prod.exists] at hrun
          obtain ⟨ok2, log2, k2, hrest, rfl, rfl, rfl⟩ := hrun
          obtain ⟨hiff2, hgo2⟩ := ih hview1 honward.file hoff' hrest
          rw [hthere1] at hiff2 hgo2
          refine ⟨?_, fun hc => ?_⟩
          · rw [List.forall_mem_append, hiff2]
            exact and_congr_left' ⟨fun _ => hok, fun _ => hlog1⟩
          · obtain ⟨hok2, hfits2, hview2, hthere2, pos', honward2⟩ := hgo2 hc.2
            refine ⟨hok2, ⟨hfits, hfits2⟩, hview2, ?_, pos', honward2.cur.trans honward.cur,
              (honward2.pcb.trans honward.pcb).trans hpcb, honward2.file⟩
            rw [hthere2, List.flatMap_cons, afterAll, afterAll, afterAll, List.foldl_append]
        · -- the segment leaves the user space
          have hbad : ¬∀ t ∈ log1, t.Within l := fun hall => hok (hiff.mp hall)
          have hsub : ∀ t ∈ log1, t ∈ log := by
            intro t ht
            split at hrun
            next =>
              simp only [Option.pure_def, Option.some.injEq, Prod.mk.injEq] at hrun
              obtain ⟨-, rfl, -⟩ := hrun
              exact ht
            next =>
              simp only [Option.bind_eq_some_iff, Option.pure_def, Option.some.injEq,
                Prod.mk.injEq, Prod.exists] at hrun
              obtain ⟨-, -, -, -, -, rfl, -⟩ := hrun
              exact List.mem_append_left _ ht
          exact ⟨⟨fun hall => absurd (fun t ht => hall t (hsub t ht)) hbad,
            fun hc => absurd hc.1 hok⟩, fun hc => absurd hc.1 hok⟩
      · simp only [if_neg hload, Bool.not_true, Bool.false_eq_true,
          if_false, Option.bind_eq_some_iff, Option.pure_def, Option.some.injEq, Prod.mk.injEq,
          Prod.exists, List.nil_append] at hrun
        simp only [if_neg hload]
        obtain ⟨ok2, log2, k2, hrest, rfl, rfl, rfl⟩ := hrun
        obtain ⟨hiff2, hgo2⟩ := ih (k := { k with fs := fs2 }) h hfile2 hoff' hrest
        refine ⟨hiff2, fun hc => ?_⟩
        obtain ⟨hok2, hfits2, hview2, hthere2, pos', honward2⟩ := hgo2 hc
        exact ⟨hok2, hfits2, hview2, hthere2, pos', honward2.cur, honward2.pcb.trans hpcb,
          honward2.file⟩
    · have hr2 : r2 ≠ (phdrSize : Int) := fun he => hroom (hfull.mp he)
      simp only [if_pos hr2, Option.pure_def, Option.some.injEq, Prod.mk.injEq] at hrun
      obtain ⟨rfl, rfl, rfl⟩ := hrun
      simp only [if_neg hroom]
      obtain ⟨-, -, -, -, hfile2⟩ := OnFile.read hfile1 (by decide) hread
      exact ⟨by simp [confined_nil], fun _ => ⟨trivial, trivial, h, rfl, _, rfl, hpcb, hfile2⟩⟩

/-- **`load` between open and close**: the segments of the file, one after the other. -/
theorem UserView.loadFrom {l : Nat} {k k' : KernelState p} (h : UserView L S q sp F m k.mm)
    (hfile : OnFile k.fs k.cur fd g ino content 0) {ret : Int} {log : List Touch}
    (hrun : loadFrom (pallocFrom L) k fd = some (ret, log, k')) :
    ((∀ t ∈ log, t.Within l) ↔ Confined content l (There k.mm) (segments content).1) ∧
    (Confined content l (There k.mm) (segments content).1 →
      ret = (if (segments content).2 then toInt32 (Ehdr.of content).eEntry else -1) ∧
      m.FitAll 4096 (pieces content) ∧
      UserView L S q sp F (m.layAll 4096 (pieces content)) k'.mm ∧
      There k'.mm = afterAll (There k.mm) ((segments content).1.flatMap Segment.pages) ∧
      ∃ pos', Onward k k' fd g ino content pos') := by
  simp only [Userprog.loadFrom, Option.bind_eq_bind, Option.bind_eq_some_iff, Prod.exists] at hrun
  obtain ⟨r, buf, fs, hread, hrun⟩ := hrun
  obtain ⟨hfull, hgot, hpcb⟩ := OnFile.read_all hfile (by decide) (by decide) hread
  obtain ⟨-, -, -, -, hfile'⟩ := OnFile.read hfile (by decide) hread
  rw [Nat.zero_add] at hfull hgot
  -- what is left when the file is turned down
  have hrefused : ∀ {ret : Int} {log : List Touch} {k' : KernelState p},
      (-1, [], { k with fs }) = (ret, log, k') → segments content = ([], false) →
      ((∀ t ∈ log, t.Within l) ↔ Confined content l (There k.mm) (segments content).1) ∧
      (Confined content l (There k.mm) (segments content).1 →
        ret = (if (segments content).2 then toInt32 (Ehdr.of content).eEntry else -1) ∧
        m.FitAll 4096 (pieces content) ∧
        UserView L S q sp F (m.layAll 4096 (pieces content)) k'.mm ∧
        There k'.mm = afterAll (There k.mm) ((segments content).1.flatMap Segment.pages) ∧
        ∃ pos', Onward k k' fd g ino content pos') := by
    intro ret log k' heq hnone
    simp only [Prod.mk.injEq] at heq
    obtain ⟨rfl, rfl, rfl⟩ := heq
    rw [pieces, hnone]
    exact ⟨by simp [confined_nil], fun _ => ⟨rfl, trivial, h, rfl, _, rfl, hpcb, hfile'⟩⟩
  by_cases hroom : ehdrSize ≤ content.length
  · obtain ⟨hbuf, hfile1⟩ := hgot hroom
    have hheader : Ehdr.ofMem buf = Ehdr.of content := by
      apply Ehdr.ofMem_congr
      intro i hi
      rw [hbuf i hi, Nat.zero_add]
    have hr : ¬r ≠ (ehdrSize : Int) := not_not.mpr (hfull.mpr hroom)
    simp only [if_neg hr, hheader] at hrun
    by_cases hvalid : (Ehdr.of content).Valid
    · have hsegs : segments content =
          loadable content (Ehdr.of content).ePhnum (Ehdr.of content).ePhoff ehdrSize :=
        if_pos ⟨hroom, hvalid⟩
      simp only [if_neg (not_not.mpr hvalid), Option.bind_eq_some_iff, Option.pure_def,
        Option.some.injEq, Prod.mk.injEq, Prod.exists] at hrun
      obtain ⟨ok, log', k1, hloop, rfl, rfl, rfl⟩ := hrun
      have hphoff : (Ehdr.of content).ePhoff < 2 ^ 32 := Mem.rd32_lt (fun i => content.getD i 0) 28
      obtain ⟨hiff, hgo⟩ := UserView.headerLoop (l := l) (k := { k with fs }) h hfile1 hphoff hloop
      rw [pieces, hsegs]
      refine ⟨hiff, fun hc => ?_⟩
      obtain ⟨rfl, hfits, hview, hthere, pos', honward⟩ := hgo hc
      exact ⟨rfl, hfits, hview, hthere, pos', honward.cur, honward.pcb.trans hpcb, honward.file⟩
    · simp only [if_pos hvalid, Option.pure_def, Option.some.injEq] at hrun
      exact hrefused hrun (if_neg fun hc => hvalid hc.2)
  · have hr : r ≠ (ehdrSize : Int) := fun he => hroom (by
      have := hfull.mp he
      omega)
    simp only [if_pos hr, Option.pure_def, Option.some.injEq] at hrun
    exact hrefused hrun (if_neg fun hc => hroom hc.1)

end OsCore.Userprog
