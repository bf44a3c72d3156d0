import OsCore.Fs.BitmapSync
import OsCore.Lib.Paged
import OsCore.Userprog.Exec

/-!
# User memory as pages of bytes

`UserView` ties memory to what a process sees of it: each page below `0xc0000000` with
its 4096 bytes, on the frame it was on at the start if it was there, and as the supply of new pages the free frames of the user pool, in
the order in which `palloc` will take them. `get_a_page` is then one request for a
page (`UserView.ask`), and writing a byte is one store (`UserView.store`).

`There` is whether a page can be reached at all. Pages above `0xc0000000` do not
change under the loader, but for the last 4 MB: a page there appears with the table
that it shows.
-/

namespace OsCore.Userprog

open Lib Paging Fs

variable {L : Layout} {S : Spaces} {q : Nat} {sp : Space} {F : Nat → Option Nat} {m : Paged UInt8}
  {s s' : Mm}

/-! ## Bytes of a word -/

theorem byteOf_setByte (w : Nat) {k j : Nat} (hk : k < 4) (hj : j < 4) (b : UInt8) :
    Mem.byteOf (setByte w k b) j = if j = k then b else Mem.byteOf w j := by
  have hb := b.toNat_lt
  apply UInt8.toNat_inj.mp
  rcases (by omega : k = 0 ∨ k = 1 ∨ k = 2 ∨ k = 3) with rfl | rfl | rfl | rfl <;>
    rcases (by omega : j = 0 ∨ j = 1 ∨ j = 2 ∨ j = 3) with rfl | rfl | rfl | rfl <;>
    simp [Mem.byteOf, setByte, UInt8.toNat_ofNat'] <;> omega

/-- The bytes of a frame. -/
def frameBytes (mem : Phys) (f : Nat) : Nat → UInt8 := fun o => Mem.byteOf (mem f (o / 4)) (o % 4)

theorem frameBytes_congr {mem mem' : Phys} {f : Nat} (h : ∀ j, mem' f j = mem f j) :
    frameBytes mem' f = frameBytes mem f := by
  funext o
  simp only [frameBytes, h]

/-- One byte of a frame is written. -/
theorem frameBytes_set (mem : Phys) (f o : Nat) (b : UInt8) :
    frameBytes (mem.set f (o / 4) (setByte (mem f (o / 4)) (o % 4) b)) f =
      Function.update (frameBytes mem f) o b := by
  funext i
  by_cases hio : i = o
  · subst hio
    rw [Function.update_self, frameBytes, Phys.set_same,
      byteOf_setByte _ (Nat.mod_lt _ (by decide)) (Nat.mod_lt _ (by decide)), if_pos rfl]
  · rw [Function.update_of_ne hio]
    by_cases hword : i / 4 = o / 4
    · have hbyte : i % 4 ≠ o % 4 := by omega
      rw [frameBytes, hword, Phys.set_same,
        byteOf_setByte _ (Nat.mod_lt _ (by decide)) (Nat.mod_lt _ (by decide)), if_neg hbyte,
        frameBytes, hword]
    · rw [frameBytes, Phys.set_ne (Or.inr hword)]
      rfl

/-! ## The view -/

/-- **What process `q` sees of memory while it runs.** -/
structure UserView (L : Layout) (S : Spaces) (q : Nat) (sp : Space) (F : Nat → Option Nat)
    (m : Paged UInt8) (s : Mm) : Prop where
  space : S q = some sp
  alive : sp.alive = true
  cr3 : s.cr3 = sp.dir
  good : Good L s S noFrame
  bitmap : s.userVaddr.bytesLen = userBitmapLen
  page : ∀ v, m.page v = (slotFrame s.mem S (.page q v)).map (frameBytes s.mem)
  supply : ∀ n i, NthFree s.userPool n i → m.supply n = frameBytes s.mem (L.userFrame + i)
  /-- the pages that were there at the start are on their frames -/
  kept : ∀ v f, F v = some f → slotFrame s.mem S (.page q v) = some f

/-- Page `v` can be reached. -/
def There (s : Mm) (v : Nat) : Prop := v < 2 ^ 20 ∧ (walk s.mem s.cr3 v).isSome = true

instance (s : Mm) (v : Nat) : Decidable (There s v) := inferInstanceAs (Decidable (_ ∧ _))

/-- `pde` and `pte` together say whether the page is there. -/
theorem pageThere_eq (hself : SelfMapped s.mem s.cr3) {v : Nat} (hv : v < 2 ^ 20) :
    pageThere s (v * 4096) = some (decide (There s v)) := by
  have haddr : v * 4096 < 2 ^ 32 := by omega
  have hd : v * 4096 / 0x400000 = v / 1024 := by omega
  have hr : v * 4096 / 4096 % 1024 = v % 1024 := by omega
  have hpde := load_pde hself haddr
  rw [hd] at hpde
  by_cases hpres : Present (s.mem s.cr3 (v / 1024))
  · have htab : entryFrame (s.mem s.cr3 (v * 4096 / 0x400000)) =
        some (frameOf (s.mem s.cr3 (v / 1024))) := by
      rw [hd]
      exact if_pos hpres
    have hpte := load_pte hself haddr htab
    rw [hr] at hpte
    have hthere : There s v ↔ Present (s.mem (frameOf (s.mem s.cr3 (v / 1024))) (v % 1024)) := by
      rw [There, and_iff_right hv, walk]
      by_cases h : Present (s.mem (frameOf (s.mem s.cr3 (v / 1024))) (v % 1024))
      · simp [hpres, h]
      · simp [hpres, h]
    rw [pageThere, hpde, Option.bind_eq_bind, Option.bind_some, if_pos hpres, hpte]
    simp only [Option.bind_some, Option.pure_def, hthere]
  · have hthere : ¬There s v := by
      unfold There walk
      simp [hpres]
    rw [pageThere, hpde, Option.bind_eq_bind, Option.bind_some, if_neg hpres, Option.pure_def,
      decide_eq_false hthere]

/-- A word of an address below `0xc0000000`, on the frame of its page. -/
theorem UserView.walk_eq (h : UserView L S q sp F m s) {v : Nat} (hv : v < 768 * 1024) :
    walk s.mem s.cr3 v = slotFrame s.mem S (.page q v) := by
  rw [h.cr3]
  exact walk_page h.space h.alive hv

theorem UserView.there_user (h : UserView L S q sp F m s) {v : Nat} (hv : v < 768 * 1024) :
    There s v ↔ (slotFrame s.mem S (.page q v)).isSome = true := by
  have hlt : v < 2 ^ 20 := by omega
  rw [There, and_iff_right hlt, h.walk_eq hv]

/-- The kernel's tables are below the pools. -/
theorem UserView.there_kernel (h : UserView L S q sp F m s) {v : Nat} (h1 : 768 * 1024 ≤ v)
    (h2 : v < 1023 * 1024) :
    There s v ↔ Present (s.mem (0x101 + (v / 1024 - 768)) (v % 1024)) := by
  have hhalf := h.good.self.tables (v / 1024) (by omega) (by omega)
  have hlt : v < 2 ^ 20 := by omega
  rw [There, and_iff_right hlt, walk, hhalf]
  by_cases hp : Present (s.mem (0x101 + (v / 1024 - 768)) (v % 1024))
  · simp [hp]
  · simp [hp]

/-- In the last 4 MB the pages are the tables. -/
theorem UserView.there_window (h : UserView L S q sp F m s) {d : Nat} (hd : d < 1024) :
    There s (1023 * 1024 + d) ↔
      768 ≤ d ∨ (slotFrame s.mem S (.table q d)).isSome = true := by
  have hhalf := h.good.self
  have hlt : 1023 * 1024 + d < 2 ^ 20 := by omega
  rw [There, and_iff_right hlt, walk_table hhalf.self hd]
  by_cases h768 : 768 ≤ d
  · have hpres : Present (s.mem s.cr3 d) := by
      by_cases hlast : d = 1023
      · subst hlast
        exact hhalf.self.1
      · rw [hhalf.tables d h768 (by omega)]
        exact present_entry _
    simp [hpres, h768]
  · have htab : slotFrame s.mem S (.table q d) = entryFrame (s.mem sp.dir d) :=
      tableFrame_eq h.space h.alive (by omega)
    rw [htab, ← h.cr3, entryFrame]
    by_cases hpres : Present (s.mem s.cr3 d)
    · simp [hpres]
    · simp [hpres, h768]

theorem UserView.has_iff (h : UserView L S q sp F m s) (v : Nat) :
    m.has v = true ↔ v < 768 * 1024 ∧ There s v := by
  rw [Paged.has, h.page, Option.isSome_map]
  constructor
  · intro hsome
    obtain ⟨f, hf⟩ := Option.isSome_iff_exists.mp hsome
    obtain ⟨-, -, -, hv⟩ := page_mapped hf
    exact ⟨hv, (h.there_user hv).mpr hsome⟩
  · intro hin
    obtain ⟨hv, hthere⟩ := hin
    exact (h.there_user hv).mp hthere

/-! ## Asking for a page -/

/-- The pages that can be reached once page `v` has been asked for, when it was there or
below `0xc0000000`. -/
def afterAsk (has : Nat → Prop) (v : Nat) : Nat → Prop := fun w =>
  has w ∨ v < 768 * 1024 ∧ (w = v ∨ w = 1023 * 1024 + v / 1024)

/-- Nothing new is reached by a page that was there. -/
theorem UserView.afterAsk_there (h : UserView L S q sp F m s) {v : Nat} (hv : There s v) :
    afterAsk (There s) v = There s := by
  funext w
  refine propext ⟨?_, Or.inl⟩
  intro hor
  rcases hor with hw | ⟨hlt, rfl | rfl⟩
  · exact hw
  · exact hv
  · rw [h.there_window (by omega)]
    apply Or.inr
    obtain ⟨f, hf⟩ := Option.isSome_iff_exists.mp ((h.there_user hlt).mp hv)
    obtain ⟨t, ht, -⟩ := page_mapped hf
    exact Option.isSome_iff_exists.mpr ⟨t, ht⟩

/-- What is there is decided by the slots of the process and the words below the pools. -/
theorem UserView.there_iff (h : UserView L S q sp F m s) (v : Nat) : There s v ↔
    (v < 768 * 1024 ∧ (slotFrame s.mem S (.page q v)).isSome = true) ∨
    (768 * 1024 ≤ v ∧ v < 1023 * 1024 ∧
      Present (s.mem (0x101 + (v / 1024 - 768)) (v % 1024))) ∨
    (∃ d, d < 1024 ∧ v = 1023 * 1024 + d ∧
      (768 ≤ d ∨ (slotFrame s.mem S (.table q d)).isSome = true)) := by
  constructor
  · intro hv
    have hlt := hv.1
    by_cases h1 : v < 768 * 1024
    · exact Or.inl ⟨h1, (h.there_user h1).mp hv⟩
    · by_cases h2 : v < 1023 * 1024
      · exact Or.inr (Or.inl ⟨by omega, h2, (h.there_kernel (by omega) h2).mp hv⟩)
      · obtain ⟨d, rfl⟩ : ∃ d, v = 1023 * 1024 + d := ⟨v - 1023 * 1024, by omega⟩
        exact Or.inr (Or.inr ⟨d, by omega, rfl, (h.there_window (by omega)).mp hv⟩)
  · intro hor
    rcases hor with ⟨h1, hv⟩ | ⟨h1, h2, hv⟩ | ⟨d, hd, rfl, hv⟩
    · exact (h.there_user h1).mpr hv
    · exact (h.there_kernel h1 h2).mpr hv
    · exact (h.there_window hd).mpr hv

/-- The frame of a new page is the first free one of the user pool. -/
theorem pallocFrom_first {r : Option Nat} (h : pallocFrom L .user s = some (r, s')) :
    ∃ i, r = some ((L.userFrame + i) * 4096) ∧ NthFree s.userPool 0 i ∧
      s'.userPool = s.userPool.bitmapSet i true := by
  obtain ⟨i, rfl, -, hfree, hfirst, rfl⟩ := pallocFrom_user h
  exact ⟨i, by rw [L.userAddr_eq], nthFree_zero hfree hfirst, rfl⟩

/-- Entering a page takes at most a table, which is the kernel's. -/
theorem pageTableAdd_userPool {vaddr phy : Nat}
    (h : pageTableAdd (pallocFrom L) s vaddr phy = some s') : s'.userPool = s.userPool := by
  have hstore : ∀ {s s' : Mm} {a w : Nat}, s.store a w = some s' → s'.userPool = s.userPool := by
    intro s s' a w hs
    rw [Mm.store_eq] at hs
    obtain ⟨mem, -, rfl⟩ := Option.map_eq_some_iff.mp hs
    rfl
  have hclear : ∀ {s s' : Mm} {a : Nat}, s.clearPage a = some s' → s'.userPool = s.userPool := by
    intro s s' a hs
    obtain ⟨f, -, rfl⟩ := Option.map_eq_some_iff.mp hs
    rfl
  have halloc : ∀ {s s' : Mm} {r : Option Nat}, pallocFrom L .kernel s = some (r, s') →
      s'.userPool = s.userPool := by
    intro s s' r hs
    obtain ⟨i, -, -, -, -, rfl⟩ := pallocFrom_kernel hs
    rfl
  simp only [pageTableAdd, Option.bind_eq_bind, Option.bind_eq_some_iff] at h
  obtain ⟨pde, -, h⟩ := h
  split at h
  next =>
    simp only [Option.bind_eq_some_iff] at h
    obtain ⟨pte, -, -, -, h⟩ := h
    exact hstore h
  next =>
    simp only [Option.bind_eq_some_iff, Prod.exists] at h
    obtain ⟨r, s1, h1, s2, h2, s3, h3, -, -, -, -, h4⟩ := h
    exact (hstore h4).trans ((hclear h3).trans ((hstore h2).trans (halloc h1)))

/-- The pages whose bits are in the bitmap. -/
def InRange (v : Nat) : Prop := userVaddrStart / 4096 ≤ v ∧ v < 768 * 1024

instance (v : Nat) : Decidable (InRange v) := inferInstanceAs (Decidable (_ ∧ _))

/-- **`get_a_page`** of a page that is not there asks for it. -/
theorem UserView.ask (h : UserView L S q sp F m s) {v : Nat} (hv : v < 768 * 1024)
    (hno : ¬There s v) {r : Option Nat} (hrun : getAPage (pallocFrom L) s (v * 4096) = some (r, s')) :
    r = some (v * 4096) ∧ UserView L S q sp F (m.ask v) s' ∧ There s' = afterAsk (There s) v := by
  obtain ⟨⟨r1, s1⟩, htake, hrun⟩ := Option.bind_eq_some_iff.mp hrun
  have hg0 := h.good.setUserVaddr (s.userVaddr.bitmapSet (pageBit (v * 4096)) true)
  obtain ⟨f, rfl, hfree, hpage⟩ := Good.userPage (s := { s with
    userVaddr := s.userVaddr.bitmapSet (pageBit (v * 4096)) true }) h.space h.alive h.cr3 hg0 htake
  obtain ⟨i, hi, hfirst, hpool⟩ := pallocFrom_first htake
  obtain rfl : f = L.userFrame + i := by
    have := Option.some.inj hi
    omega
  obtain ⟨s2, hadd, hrun⟩ := Option.bind_eq_some_iff.mp hrun
  obtain ⟨hadded, hgood⟩ := hpage v s2 hv hadd
  have hpool' := (pageTableAdd_userPool hadd).trans hpool
  simp only [Option.pure_def, Option.some.injEq, Prod.mk.injEq] at hrun
  obtain ⟨rfl, rfl⟩ := hrun
  obtain ⟨t, htab, htabold⟩ := hadded.table
  obtain ⟨hdirhalf, k, hdir⟩ := h.good.dir q sp h.space
  have hdirKernel := h.good.dir_kernel h.space
  have htKernel : L.IsKernel t := hgood.inPool _ t htab
  -- only the directory and the table are written to
  have hdata : ∀ g j, g ≠ sp.dir → g ≠ t → s2.mem g j = s.mem g j := by
    intro g j h1 h2
    refine hadded.data g j h1 fun he => h2 ?_
    rw [htab] at he
    exact (Option.some.inj he).symm
  have huser : ∀ g j, L.userFrame ≤ g → s2.mem g j = s.mem g j := by
    intro g j hg
    have h1 := Layout.kernel_lt_user hdirKernel
    have h2 := Layout.kernel_lt_user htKernel
    exact hdata g j (by omega) (by omega)
  have hpages : ∀ w, w ≠ v → slotFrame s2.mem S (.page q w) = slotFrame s.mem S (.page q w) := by
    intro w hw
    refine hadded.other _ ?_ (by simp)
    simpa using hw
  have hask : m.ask v = ⟨Function.update m.page v (some (m.supply 0)), fun n => m.supply (n + 1)⟩ := by
    refine if_neg fun hhas => hno ?_
    exact ((h.has_iff v).mp hhas).2
  have hview : UserView L S q sp F (m.ask v) s2 := by
    rw [hask]
    refine ⟨h.space, h.alive, hadded.cr3.trans h.cr3, hgood, ?_, fun w => ?_, fun n j hj => ?_,
      fun w g hg => ?_⟩
    · rw [hadded.userVaddr]
      exact h.bitmap
    · by_cases hw : w = v
      · subst hw
        rw [hadded.slot, Option.map_some, frameBytes_congr (fun j => huser _ j (by omega))]
        simp only [Function.update_self]
        rw [h.supply 0 i hfirst]
      · simp only [Function.update_of_ne hw]
        rw [h.page, hpages w hw]
        cases hslot : slotFrame s.mem S (.page q w) with
        | none => rfl
        | some g =>
          have hg : L.IsUser g := h.good.inPool _ g hslot
          rw [Option.map_some, Option.map_some, frameBytes_congr (fun j => huser g j hg.1)]
    · rw [hpool'] at hj
      show m.supply (n + 1) = _
      rw [h.supply (n + 1) j (hfirst.after hj), frameBytes_congr (fun l => huser _ l (by omega))]
    · have hslot := h.kept w g hg
      rw [hpages w, hslot]
      intro heq
      subst heq
      rw [hadded.was] at hslot
      cases hslot
  refine ⟨rfl, hview, funext fun w => propext ?_⟩
  have hlow : ∀ d j, d < 0x200 → s2.mem d j = s.mem d j := by
    intro d j hd
    have h1 := hdirKernel.1
    have h2 := htKernel.1
    exact hdata d j (by omega) (by omega)
  rw [hview.there_iff, afterAsk, h.there_iff]
  constructor
  · intro hor
    rcases hor with ⟨h1, hw⟩ | ⟨h1, h2, hw⟩ | ⟨d, hd, rfl, hw⟩
    · by_cases hwv : w = v
      · exact Or.inr ⟨hv, Or.inl hwv⟩
      · rw [hpages w hwv] at hw
        exact Or.inl (Or.inl ⟨h1, hw⟩)
    · rw [hlow _ _ (by omega)] at hw
      exact Or.inl (Or.inr (Or.inl ⟨h1, h2, hw⟩))
    · rcases hw with hw | hw
      · exact Or.inl (Or.inr (Or.inr ⟨d, hd, rfl, Or.inl hw⟩))
      · by_cases hdv : d = v / 1024
        · exact Or.inr ⟨hv, Or.inr (by rw [hdv])⟩
        · have hother : slotFrame s2.mem S (.table q d) = slotFrame s.mem S (.table q d) :=
            hadded.other _ (by simp) (by simpa using hdv)
          rw [hother] at hw
          exact Or.inl (Or.inr (Or.inr ⟨d, hd, rfl, Or.inr hw⟩))
  · intro hor
    rcases hor with (⟨h1, hw⟩ | ⟨h1, h2, hw⟩ | ⟨d, hd, rfl, hw⟩) | ⟨-, rfl | rfl⟩
    · refine Or.inl ⟨h1, ?_⟩
      by_cases hwv : w = v
      · rw [hwv, hadded.slot]
        rfl
      · rw [hpages w hwv]
        exact hw
    · refine Or.inr (Or.inl ⟨h1, h2, ?_⟩)
      rw [hlow _ _ (by omega)]
      exact hw
    · refine Or.inr (Or.inr ⟨d, hd, rfl, ?_⟩)
      rcases hw with hw | hw
      · exact Or.inl hw
      · apply Or.inr
        by_cases hdv : d = v / 1024
        · rw [hdv, htab]
          rfl
        · rw [hadded.other _ (by simp) (by simpa using hdv)]
          exact hw
    · refine Or.inl ⟨hv, ?_⟩
      rw [hadded.slot]
      rfl
    · refine Or.inr (Or.inr ⟨v / 1024, by omega, rfl, Or.inr ?_⟩)
      rw [htab]
      rfl

/-! ## Writing a byte -/

/-- **A byte on a page of the process is written.** -/
theorem UserView.store (h : UserView L S q sp F m s) {a : Nat} (ha : a < 0xc0000000) {b : UInt8}
    (hrun : storeByte s a b = some s') :
    m.has (a / 4096) = true ∧ UserView L S q sp F (m.store 4096 a b) s' ∧ There s' = There s := by
  have hv : a / 4096 < 768 * 1024 := by omega
  obtain ⟨w, hload, hstore⟩ := Option.bind_eq_some_iff.mp hrun
  obtain ⟨f, hwalk, hw⟩ := Option.map_eq_some_iff.mp hload
  have hslot : slotFrame s.mem S (.page q (a / 4096)) = some f := by
    rw [← h.walk_eq hv]
    exact hwalk
  have hidx : a % 4096 / 4 = a / 4 % 1024 := by omega
  have hs' : s' = s.setMem (s.mem.set f (a % 4096 / 4) (setByte w (a % 4) b)) := by
    rw [Mm.store_eq, storeWord, hwalk, Option.map_some, Option.map_some] at hstore
    exact (Option.some.inj hstore).symm
  have hdirs : NoDir S f := by
    intro p' sp' hp' hd
    obtain ⟨-, k, hk⟩ := h.good.dir p' sp' hp'
    rw [hd] at hk
    exact absurd (h.good.inj _ _ _ hk hslot) (by simp)
  obtain ⟨hslots, hgood⟩ := h.good.write
    (m := s.mem.set f (a % 4096 / 4) (setByte w (a % 4) b)) hslot (by simp) hdirs
    fun g j hg => Phys.set_ne (Or.inl hg)
  have hf : L.IsUser f := h.good.inPool _ f hslot
  have hbit : frameBit L s f = true := (h.good.bit f (Or.inr hf)).mpr (Or.inl ⟨_, hslot⟩)
  have hview : UserView L S q sp F (m.store 4096 a b) s' := by
    subst hs'
    refine ⟨h.space, h.alive, h.cr3, hgood, h.bitmap, fun v => ?_, fun n i hi => ?_,
      fun v g hg => (hslots _).trans (h.kept v g hg)⟩
    · rw [Mm.setMem_mem, hslots]
      by_cases hva : v = a / 4096
      · subst hva
        have hw' : w = s.mem f (a % 4096 / 4) := hw.symm
        have hoff : a % 4 = a % 4096 % 4 := by omega
        rw [hslot, Option.map_some]
        simp only [Paged.store, Function.update_self]
        rw [h.page, hslot, Option.map_some, Option.map_some, hw', hoff, frameBytes_set]
      · simp only [Paged.store, Function.update_of_ne hva]
        rw [h.page]
        cases hg : slotFrame s.mem S (.page q v) with
        | none => rfl
        | some g =>
          have hgf : g ≠ f := by
            intro heq
            subst heq
            have := h.good.inj _ _ _ hg hslot
            simp only [Slot.page.injEq, true_and] at this
            exact hva this
          rw [Option.map_some, Option.map_some,
            frameBytes_congr fun j => Phys.set_ne (Or.inl hgf)]
    · -- the frame is not free
      have hne : L.userFrame + i ≠ f := by
        intro heq
        subst heq
        have hfree := hi.1
        rw [frameBit, if_pos (Nat.le_add_right _ _), Nat.add_sub_cancel_left] at hbit
        rw [Mm.setMem_userPool, hbit] at hfree
        cases hfree
      show m.supply n = _
      rw [h.supply n i hi, Mm.setMem_mem, frameBytes_congr fun j => Phys.set_ne (Or.inl hne)]
  refine ⟨(h.has_iff _).mpr ⟨hv, (h.there_user hv).mpr (by rw [hslot]; rfl)⟩, hview,
    funext fun v => propext ?_⟩
  have hge := Layout.frame_ge (Or.inr hf : L.IsFrame f)
  rw [hview.there_iff, h.there_iff]
  subst hs'
  simp only [Mm.setMem_mem, hslots]
  refine or_congr Iff.rfl (or_congr (and_congr_right fun h1 => and_congr_right fun h2 => ?_) Iff.rfl)
  rw [Phys.set_ne (Or.inl (by omega))]

/-! ## Every process has a view -/

/-- A process runs: its directory is in use, and its bitmap is that of `userVaddr`. -/
structure Runs (L : Layout) (S : Spaces) (q : Nat) (sp : Space) (s : Mm) : Prop where
  space : S q = some sp
  alive : sp.alive = true
  cr3 : s.cr3 = sp.dir
  good : Good L s S noFrame
  bitmap : s.userVaddr.bytesLen = userBitmapLen

open Classical in
/-- What process `q` sees of memory. -/
noncomputable def userImage (L : Layout) (S : Spaces) (q : Nat) (s : Mm) : Paged UInt8 where
  page v := (slotFrame s.mem S (.page q v)).map (frameBytes s.mem)
  supply n :=
    if h : ∃ i, NthFree s.userPool n i then frameBytes s.mem (L.userFrame + h.choose) else fun _ => 0

theorem Runs.view (h : Runs L S q sp s) :
    UserView L S q sp (fun v => slotFrame s.mem S (.page q v)) (userImage L S q s) s where
  space := h.space
  alive := h.alive
  cr3 := h.cr3
  good := h.good
  bitmap := h.bitmap
  page _ := rfl
  supply n i hi := by
    have hex : ∃ i, NthFree s.userPool n i := ⟨i, hi⟩
    rw [userImage]
    simp only [dif_pos hex, hi.unique hex.choose_spec]
  kept _ _ hf := hf

/-- The address spaces when `init` runs. -/
def initSpaces : Spaces := fun t => if t = initPcb then some ⟨0x218, true⟩ else none

/-- What the small memory says about the places. -/
def initSlot : Slot → Option Nat
  | .heap k => if k < 26 then some (0x200 + k) else none
  | .table t d => if t = initPcb ∧ d = 767 then some 0x21a else none
  | .page t v => if t = initPcb ∧ v = 768 * 1024 - 1 then some 0x1100 else none

theorem init_heapWord {k : Nat} (hk : k < heapMax) :
    heapWord initMem k = if k < 26 then entry ((0x200 + k) * 4096) else 0 := by
  have h1 : ¬(heapTable k = 0x100 ∨ heapTable k = 0x218) := by
    have := heapTable_lt hk
    unfold heapTable at this ⊢
    omega
  have h2 : ¬(heapTable k = 0x21a ∧ (0x100 + k) % 1024 = 1023) := by
    have := heapTable_lt hk
    omega
  rw [heapWord, initMem, if_neg h1]
  by_cases hfirst : heapTable k = 0x101
  · have hmod : (0x100 + k) % 1024 = 0x100 + k := by
      unfold heapTable at hfirst
      omega
    have hsub : 0x100 + k - 0x100 = k := by omega
    rw [if_pos hfirst, hmod, if_neg (by omega), hsub]
    by_cases h26 : k < 26
    · rw [if_pos (by omega), if_pos h26]
    · rw [if_neg (by omega), if_neg h26]
  · have h26 : ¬k < 26 := by
      unfold heapTable at hfirst
      omega
    rw [if_neg hfirst, if_neg h2, if_neg h26]

theorem init_tableFrame (t d : Nat) :
    tableFrame initMem initSpaces t d = if t = initPcb ∧ d = 767 then some 0x21a else none := by
  by_cases ht : t = initPcb
  · have hS : initSpaces t = some ⟨0x218, true⟩ := if_pos ht
    rw [tableFrame, hS, Option.bind_some]
    by_cases hd : d = 767
    · subst hd
      rw [if_pos (by decide), if_pos ⟨ht, rfl⟩]
      decide +kernel
    · by_cases hlt : d < 768
      · rw [if_pos ⟨rfl, hlt⟩, if_neg (fun hc => hd hc.2), initMem, if_pos (Or.inr rfl),
          if_neg (by omega), if_neg (by omega), if_neg (fun hc => hd hc.2)]
        exact entryFrame_zero
      · rw [if_neg (fun hc => hlt hc.2), if_neg (fun hc => hd hc.2)]
  · have hS : initSpaces t = none := if_neg ht
    rw [tableFrame, hS, if_neg (fun hc => ht hc.1)]
    rfl

theorem init_slotFrame (x : Slot) : slotFrame initMem initSpaces x = initSlot x := by
  cases x with
  | heap k =>
    by_cases hk : k < heapMax
    · rw [slotFrame, if_pos hk, init_heapWord hk, initSlot]
      by_cases h26 : k < 26
      · rw [if_pos h26, if_pos h26, entryFrame_entry]
      · rw [if_neg h26, if_neg h26, entryFrame_zero]
    · have h26 : ¬k < 26 := fun h => hk (Nat.lt_trans h (by decide))
      rw [slotFrame, if_neg hk, initSlot, if_neg h26]
  | table t d => exact init_tableFrame t d
  | page t v =>
    rw [slotFrame, init_tableFrame, initSlot]
    by_cases ht : t = initPcb ∧ v / 1024 = 767
    · rw [if_pos ht, Option.bind_some, initMem, if_neg (by decide), if_neg (by decide)]
      by_cases hv : v = 768 * 1024 - 1
      · rw [if_pos ⟨rfl, by omega⟩, if_pos ⟨ht.1, hv⟩, entryFrame_entry]
      · rw [if_neg (by omega), if_neg (fun hc => hv hc.2), entryFrame_zero]
    · rw [if_neg ht, Option.bind_none, if_neg (fun hc => ht ⟨hc.1, by omega⟩)]

theorem initSlot_heap {k f : Nat} : initSlot (.heap k) = some f ↔ k < 26 ∧ f = 0x200 + k := by
  rw [initSlot]
  split <;> simp_all [eq_comm]

theorem initSlot_table {t d f : Nat} :
    initSlot (.table t d) = some f ↔ (t = initPcb ∧ d = 767) ∧ f = 0x21a := by
  rw [initSlot]
  split <;> simp_all [eq_comm]

theorem initSlot_page {t v f : Nat} :
    initSlot (.page t v) = some f ↔ (t = initPcb ∧ v = 768 * 1024 - 1) ∧ f = 0x1100 := by
  rw [initSlot]
  split <;> simp_all [eq_comm]

/-- The frames that a place names. -/
theorem init_named {f : Nat} :
    (∃ x, initSlot x = some f) ↔ (0x200 ≤ f ∧ f < 0x21b) ∨ f = 0x1100 := by
  constructor
  · intro hin
    obtain ⟨x, hx⟩ := hin
    cases x with
    | heap k =>
      rw [initSlot_heap] at hx
      omega
    | table t d =>
      rw [initSlot_table] at hx
      omega
    | page t v =>
      rw [initSlot_page] at hx
      omega
  · intro hor
    rcases hor with ⟨h1, h2⟩ | h3
    · by_cases hlast : f = 0x21a
      · exact ⟨.table initPcb 767, initSlot_table.mpr ⟨⟨rfl, rfl⟩, hlast⟩⟩
      · exact ⟨.heap (f - 0x200), initSlot_heap.mpr (by omega)⟩
    · exact ⟨.page initPcb (768 * 1024 - 1), initSlot_page.mpr ⟨⟨rfl, rfl⟩, h3⟩⟩

/-- The directories of the loader and of `init`. -/
theorem init_half {dir : Nat} (h : dir = 0x100 ∨ dir = 0x218) : KernelHalf initMem dir := by
  refine ⟨fun d h1 h2 => ?_, ?_⟩
  · rw [initMem, if_pos h, if_neg (by omega), if_pos h1]
  · have hself : initMem dir 1023 = entry (dir * 4096) := by
      rw [initMem, if_pos h, if_pos rfl]
    rw [SelfMapped, hself]
    exact ⟨present_entry _, frameOf_entry _⟩

theorem init_kernelBit (i : Nat) : initRuns.mm.kernelPool.bit i = decide (i < 27) := by
  by_cases h32 : i < 32
  · have hall : ∀ i, i < 32 → initRuns.mm.kernelPool.bit i = decide (i < 27) := by decide
    exact hall i h32
  · have hbyte : initRuns.mm.kernelPool.bits (i / 8) = 0 := by
      show (if i / 8 < 3 then (0xff : UInt8) else if i / 8 = 3 then 0x07 else 0) = 0
      rw [if_neg (by omega), if_neg (by omega)]
    have hlt : ¬i < 27 := by omega
    simp [Bitmap.bit, hbyte, hlt]

theorem init_userBit (i : Nat) : initRuns.mm.userPool.bit i = decide (i = 0) := by
  by_cases h8 : i < 8
  · have hall : ∀ i, i < 8 → initRuns.mm.userPool.bit i = decide (i = 0) := by decide
    exact hall i h8
  · have hbyte : initRuns.mm.userPool.bits (i / 8) = 0 := by
      show (if i / 8 = 0 then (0x01 : UInt8) else 0) = 0
      rw [if_neg (by omega)]
    have hne : i ≠ 0 := by omega
    simp [Bitmap.bit, hbyte, hne]

theorem initRuns_good : Good smallLayout initRuns.mm initSpaces noFrame := by
  have hpool : smallLayout.kbmLength = 480 ∧ smallLayout.ubmLength = 480 ∧
      smallLayout.userFrame = 0x1100 := by decide
  obtain ⟨hk, hu, huf⟩ := hpool
  have hmem : initRuns.mm.mem = initMem := rfl
  constructor
  case kernelLen => exact hk.symm
  case userLen => exact hu.symm
  case inj =>
    intro x y f hx hy
    rw [hmem, init_slotFrame] at hx hy
    cases x <;> cases y <;>
      simp only [initSlot_heap, initSlot_table, initSlot_page] at hx hy <;>
      simp only [Slot.heap.injEq, Slot.table.injEq, Slot.page.injEq, reduceCtorEq] <;> omega
  case heldOut => exact fun _ _ _ hf => hf
  case inPool =>
    intro x f hx
    rw [hmem, init_slotFrame] at hx
    cases x with
    | heap k =>
      rw [initSlot_heap] at hx
      exact ⟨by omega, by rw [hk]; omega⟩
    | table t d =>
      rw [initSlot_table] at hx
      exact ⟨by omega, by rw [hk]; omega⟩
    | page t v =>
      rw [initSlot_page] at hx
      exact ⟨by rw [huf]; omega, by rw [huf, hu]; omega⟩
  case heldPool => exact fun _ hf => hf.elim
  case bit =>
    intro f hf
    rw [hmem, frameBit, huf]
    simp only [init_slotFrame]
    have hin : ((∃ x, initSlot x = some f) ∨ noFrame f) ↔ ∃ x, initSlot x = some f :=
      or_iff_left fun hno => hno
    rw [hin, init_named]
    by_cases hge : 0x1100 ≤ f
    · rw [if_pos hge, init_userBit, decide_eq_true_eq]
      omega
    · have hge2 := Layout.frame_ge hf
      rw [if_neg hge, init_kernelBit, decide_eq_true_eq]
      omega
  case low =>
    intro i hi
    have hword : initMem 0x101 i = entry (i * 4096) := by
      rw [initMem, if_neg (by decide), if_pos rfl, if_pos hi]
    rw [hmem, hword]
    exact present_entry i
  case kernelDir => exact init_half (Or.inl rfl)
  case dir =>
    intro t st ht
    rw [initSpaces] at ht
    split at ht
    next =>
      obtain rfl := Option.some.inj ht
      refine ⟨init_half (Or.inr rfl), 0x18, ?_⟩
      rw [hmem, init_slotFrame, initSlot_heap]
      decide
    next => cases ht
  case dirInj =>
    intro t u a b ht hu _
    rw [initSpaces] at ht hu
    split at ht
    next h1 =>
      split at hu
      next h2 => rw [h1, h2]
      next => cases hu
    next => cases ht
  case cur => exact Or.inr ⟨initPcb, ⟨0x218, true⟩, if_pos rfl, rfl⟩

theorem initRuns_runs : Runs smallLayout initSpaces initPcb ⟨0x218, true⟩ initRuns.mm where
  space := if_pos rfl
  alive := rfl
  cr3 := rfl
  good := initRuns_good
  bitmap := rfl

end OsCore.Userprog
