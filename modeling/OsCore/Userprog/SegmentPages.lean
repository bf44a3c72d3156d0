import OsCore.Kernel.Exhaustion
import OsCore.Userprog.UserView

/-!
# The pages of a segment

`segment_load` counts pages from the room in the first one: a rounded-up rest and one
more, or one. `occupyPages_end` says that the count ends with the page of the last byte,
so the loop goes over exactly the pages that have a byte of the segment
(`segmentPages_eq`).

A page that is not there takes a frame of the user pool, and one of the kernel's for its
table if that is missing (`Granted`). Whether the pools have enough for all of them is
decided before the loop starts (`Enough`), and each round keeps the decision
(`enough_there`, `Granted.enough`). With enough, the loop makes the pages of the segment
present and no other below the last 4 MB, where the new tables appear as pages
(`segment_load_pages`).
-/

namespace OsCore.Userprog

open Lib Paging Kernel

variable {L : Layout} {s s1 s' : Mm} {v n : Nat} {vs : Finset Nat}

/-! ## What is missing -/

/-- The pages of `vs` that are not there. -/
def pagesMissing (s : Mm) (vs : Finset Nat) : Finset Nat :=
  vs.filter fun v => walk s.mem s.cr3 v = none

/-- The tables they lack. -/
def tablesMissing (s : Mm) (vs : Finset Nat) : Finset Nat :=
  (vs.image (· / 1024)).filter fun d => tableAt s d = none

/-- The pools have a frame for each of them. -/
structure Enough (s : Mm) (vs : Finset Nat) : Prop where
  pages : (pagesMissing s vs).card ≤ s.userPool.free.card
  tables : (tablesMissing s vs).card ≤ s.kernelPool.free.card

theorem enough_iff : Enough s vs ↔ (pagesMissing s vs).card ≤ s.userPool.free.card ∧
    (tablesMissing s vs).card ≤ s.kernelPool.free.card :=
  ⟨fun h => ⟨h.pages, h.tables⟩, fun h => ⟨h.1, h.2⟩⟩

/-- There is a frame for page `v`, and for its table. -/
def Room (s : Mm) (v : Nat) : Prop :=
  s.userPool.free.Nonempty ∧ (tableAt s (v / 1024) = none → s.kernelPool.free.Nonempty)

theorem mem_pagesMissing : v ∈ pagesMissing s vs ↔ v ∈ vs ∧ walk s.mem s.cr3 v = none :=
  Finset.mem_filter

theorem mem_tablesMissing {d : Nat} : d ∈ tablesMissing s vs ↔
    (∃ w ∈ vs, w / 1024 = d) ∧ tableAt s d = none := by
  rw [tablesMissing, Finset.mem_filter, Finset.mem_image]

theorem enough_empty (s : Mm) : Enough s ∅ := ⟨Nat.zero_le _, Nat.zero_le _⟩

/-- A page that is there has its table. -/
theorem table_of_walk {f : Nat} (h : walk s.mem s.cr3 v = some f) :
    ∃ t, tableAt s (v / 1024) = some t := by
  cases ht : tableAt s (v / 1024) with
  | some t => exact ⟨t, rfl⟩
  | none =>
    rw [walk_of_none ht] at h
    cases h

/-- Nothing is needed for a page that is there. -/
theorem enough_there {f : Nat} (h : walk s.mem s.cr3 v = some f) :
    Enough s (insert v vs) ↔ Enough s vs := by
  obtain ⟨t, ht⟩ := table_of_walk h
  have hpages : pagesMissing s (insert v vs) = pagesMissing s vs := by
    rw [pagesMissing, Finset.filter_insert, if_neg (by rw [h]; simp), pagesMissing]
  have htables : tablesMissing s (insert v vs) = tablesMissing s vs := by
    rw [tablesMissing, Finset.image_insert, Finset.filter_insert, if_neg (by rw [ht]; simp),
      tablesMissing]
  rw [enough_iff, enough_iff, hpages, htables]

theorem Enough.room (h : Enough s (insert v vs)) (hnone : walk s.mem s.cr3 v = none) :
    Room s v := by
  have hpage : v ∈ pagesMissing s (insert v vs) :=
    mem_pagesMissing.mpr ⟨Finset.mem_insert_self v vs, hnone⟩
  refine ⟨Finset.card_pos.mp ((Finset.card_pos.mpr ⟨v, hpage⟩).trans_le h.pages), fun ht => ?_⟩
  have htable : v / 1024 ∈ tablesMissing s (insert v vs) :=
    mem_tablesMissing.mpr ⟨⟨v, Finset.mem_insert_self v vs, rfl⟩, ht⟩
  exact Finset.card_pos.mp ((Finset.card_pos.mpr ⟨_, htable⟩).trans_le h.tables)

/-! ## One page -/

/-- Page `v` has been granted. -/
structure Granted (v : Nat) (s s' : Mm) : Prop where
  tables : Tables s'
  entered : ∃ f, Entered v f s s'
  user : s'.userPool.free.card + 1 = s.userPool.free.card
  kernel : s'.kernelPool.free.card + (if tableAt s (v / 1024) = none then 1 else 0) =
    s.kernelPool.free.card

/-- `get_a_page` takes a frame of the user pool and enters it. -/
theorem getAPage_frame (L : Layout) (s : Mm) (vaddr : Nat) :
    (s.userPool.free = ∅ ∧ getAPage (pallocFrom L) s vaddr = none) ∨
    ∃ f s1, s1.mem = s.mem ∧ s1.cr3 = s.cr3 ∧ s1.kernelPool = s.kernelPool ∧
      s1.userPool.free.card + 1 = s.userPool.free.card ∧
      getAPage (pallocFrom L) s vaddr =
        (pageTableAdd (pallocFrom L) s1 vaddr (f * 4096)).map fun s2 => (some vaddr, s2) := by
  obtain ⟨s0, hs0⟩ : ∃ s0, s0 = { s with
    userVaddr := s.userVaddr.bitmapSet (pageBit vaddr) true } := ⟨_, rfl⟩
  have hpool : s0.pool .user = s.userPool := by rw [hs0, Mm.pool_user]
  rcases Finset.eq_empty_or_nonempty s.userPool.free with hempty | hfree
  · refine Or.inl ⟨hempty, ?_⟩
    rw [← hpool] at hempty
    have hpal := pallocFrom_of_free (L := L) hempty
    rw [hs0] at hpal
    exact congrArg (Option.bind · _) hpal
  · rw [← hpool] at hfree
    obtain ⟨r, s1, hpal⟩ := pallocFrom_returns L .user hfree
    have hcard := pallocFrom_free hpal
    rw [hpool, Mm.pool_user] at hcard
    obtain ⟨i, rfl, -, -, -, hs1⟩ := pallocFrom_user hpal
    rw [L.userAddr_eq, hs0] at hpal
    rw [hs0] at hs1
    refine Or.inr ⟨L.userFrame + i, s1, ?_, ?_, ?_, hcard, ?_⟩
    · rw [hs1]
    · rw [hs1]
    · rw [hs1]
    · refine (congrArg (Option.bind · _) hpal).trans ?_
      exact Option.map_eq_bind.symm

section

variable (h : Tables s) (hv : v < 768 * 1024)

include h hv

/-- **`get_a_page`** of a page that is not there, with frames for it. -/
theorem getAPage_granted (hnone : walk s.mem s.cr3 v = none) (hroom : Room s v) :
    ∃ s', getAPage (pallocFrom L) s (v * 4096) = some (some (v * 4096), s') ∧ Granted v s s' := by
  obtain ⟨huser, hkernel⟩ := hroom
  rcases getAPage_frame L s (v * 4096) with ⟨hempty, -⟩ | ⟨f, s1, hmem, hcr3, hpool, hcard, hrun⟩
  · rw [hempty] at huser
    exact absurd huser Finset.not_nonempty_empty
  have h1 : Tables s1 := h.congr hmem hcr3 hpool
  have htab : tableAt s1 (v / 1024) = tableAt s (v / 1024) := by rw [tableAt, hmem, hcr3, tableAt]
  have hnone1 : walk s1.mem s1.cr3 v = none := by rw [hmem, hcr3, hnone]
  have hentered : ∀ {s2 : Mm}, Entered v f s1 s2 → Entered v f s s2 := by
    intro s2 he
    refine ⟨he.page, he.window, fun w g hw hg => he.kept w g hw ?_, fun w hw h2 h3 => ?_⟩
    · rw [hmem, hcr3]
      exact hg
    · rw [he.other w hw h2 h3, hmem, hcr3]
  cases ht : tableAt s (v / 1024) with
  | some t =>
    obtain ⟨m, hadd, h2, he⟩ := h1.pageTableAdd_there (L := L) hv (htab.trans ht) hnone1 f
    refine ⟨s1.setMem m, ?_, h2, ⟨f, hentered he⟩, ?_, ?_⟩
    · rw [hrun, hadd, Option.map_some]
    · rw [Mm.setMem_userPool]
      exact hcard
    · rw [ht, if_neg (by simp), Mm.setMem_kernelPool, hpool]
      rfl
  | none =>
    have hkernel1 : (s1.pool .kernel).free.Nonempty := by
      rw [Mm.pool_kernel, hpool]
      exact hkernel ht
    obtain ⟨r, s2, hpal⟩ := pallocFrom_returns L .kernel hkernel1
    obtain ⟨m, hadd, h2, he⟩ := h1.pageTableAdd_new hv (htab.trans ht) hpal f
    have hfree := pallocFrom_free hpal
    rw [Mm.pool_kernel, Mm.pool_kernel] at hfree
    obtain ⟨i, -, -, -, -, hs2⟩ := pallocFrom_kernel hpal
    refine ⟨s2.setMem m, ?_, h2, ⟨f, hentered he⟩, ?_, ?_⟩
    · rw [hrun, hadd, Option.map_some]
    · rw [Mm.setMem_userPool, hs2]
      exact hcard
    · rw [ht, if_pos rfl, Mm.setMem_kernelPool, hfree, hpool]

/-- Without them it does not come back. -/
theorem getAPage_refused (hroom : ¬Room s v) :
    getAPage (pallocFrom L) s (v * 4096) = none := by
  rcases getAPage_frame L s (v * 4096) with ⟨-, hnone⟩ | ⟨f, s1, hmem, hcr3, hpool, hcard, hrun⟩
  · exact hnone
  have huser : s.userPool.free.Nonempty := Finset.card_pos.mp (by omega)
  have htable : ¬(tableAt s (v / 1024) = none → s.kernelPool.free.Nonempty) := fun hc =>
    hroom ⟨huser, hc⟩
  rw [Classical.not_imp, Finset.not_nonempty_iff_eq_empty] at htable
  obtain ⟨ht, hempty⟩ := htable
  have ht1 : tableAt s1 (v / 1024) = none := by
    rw [tableAt, hmem, hcr3]
    exact ht
  have hempty1 : (s1.pool .kernel).free = ∅ := by
    rw [Mm.pool_kernel, hpool]
    exact hempty
  have hadd := (h.congr hmem hcr3 hpool).pageTableAdd_none hv ht1
    (pallocFrom_of_free (L := L) hempty1) (f * 4096)
  rw [hrun, hadd]
  rfl

end

/-- The tables of other pages are what they were. -/
theorem Granted.tableAt (hg : Granted v s s') (h : Tables s) (hv : v < 768 * 1024) {d : Nat}
    (hd : d < 1024) (hdv : d ≠ v / 1024) : Paging.tableAt s' d = Paging.tableAt s d := by
  obtain ⟨f, he⟩ := hg.entered
  have hother := he.other (1023 * 1024 + d) (by omega) (by omega) (by omega)
  rw [hg.tables.walk_window hd, h.walk_window hd] at hother
  exact hother

section

variable (hg : Granted v s s') (hvs : ∀ w ∈ vs, w < 768 * 1024)

include hg hvs

/-- It was the one page more that was missing. -/
theorem Granted.card_pagesMissing (hnone : walk s.mem s.cr3 v = none) (hout : v ∉ vs) :
    (pagesMissing s (insert v vs)).card = (pagesMissing s' vs).card + 1 := by
  obtain ⟨f, he⟩ := hg.entered
  have hsame : pagesMissing s' vs = pagesMissing s vs := by
    apply Finset.filter_congr
    intro w hw
    have hlt := hvs w hw
    rw [he.other w (by omega) (fun hc => hout (hc ▸ hw)) (by omega)]
  rw [hsame, pagesMissing, Finset.filter_insert, if_pos hnone, pagesMissing,
    Finset.card_insert_of_notMem fun hc => hout (Finset.mem_of_mem_filter v hc)]

/-- Its table is missing no more. -/
theorem Granted.tablesMissing_eq (h : Tables s) (hv : v < 768 * 1024) :
    tablesMissing s' vs = (tablesMissing s (insert v vs)).erase (v / 1024) := by
  have hthere : Paging.tableAt s' (v / 1024) ≠ none := by
    obtain ⟨f, he⟩ := hg.entered
    have hwindow := he.window
    rw [hg.tables.walk_window (by omega), Option.isSome_iff_ne_none] at hwindow
    exact hwindow
  ext d
  rw [Finset.mem_erase, mem_tablesMissing, mem_tablesMissing]
  constructor
  · intro hin
    obtain ⟨⟨w, hw, rfl⟩, hno⟩ := hin
    have hlt := hvs w hw
    have hne : w / 1024 ≠ v / 1024 := fun hc => hthere (hc ▸ hno)
    rw [hg.tableAt h hv (by omega) hne] at hno
    exact ⟨hne, ⟨w, Finset.mem_insert_of_mem hw, rfl⟩, hno⟩
  · intro hin
    obtain ⟨hne, ⟨w, hw, rfl⟩, hno⟩ := hin
    have hw : w ∈ vs := Finset.mem_of_mem_insert_of_ne hw fun hc => hne (by rw [hc])
    have hlt := hvs w hw
    rw [← hg.tableAt h hv (by omega) hne] at hno
    exact ⟨⟨w, hw, rfl⟩, hno⟩

theorem Granted.card_tablesMissing (h : Tables s) (hv : v < 768 * 1024) :
    (tablesMissing s (insert v vs)).card =
      (tablesMissing s' vs).card + (if Paging.tableAt s (v / 1024) = none then 1 else 0) := by
  rw [hg.tablesMissing_eq hvs h hv]
  split
  next ht =>
    have hmem : v / 1024 ∈ tablesMissing s (insert v vs) :=
      mem_tablesMissing.mpr ⟨⟨v, Finset.mem_insert_self v vs, rfl⟩, ht⟩
    exact (Finset.card_erase_add_one hmem).symm
  next ht => rw [Finset.erase_eq_of_notMem fun hc => ht (mem_tablesMissing.mp hc).2, Nat.add_zero]

/-- The other pages need as much as before. -/
theorem Granted.enough (h : Tables s) (hv : v < 768 * 1024) (hnone : walk s.mem s.cr3 v = none)
    (hout : v ∉ vs) : Enough s (insert v vs) ↔ Enough s' vs := by
  have huser := hg.user
  have hkernel := hg.kernel
  rw [enough_iff, enough_iff, hg.card_pagesMissing hvs hnone hout, hg.card_tablesMissing hvs h hv]
  omega

end

/-! ## The loop -/

/-- The pages of `vs` have been mapped, and the tables they need. -/
structure Mapped (vs : Finset Nat) (s s' : Mm) : Prop where
  kept : ∀ w f, w < 2 ^ 20 → walk s.mem s.cr3 w = some f → walk s'.mem s'.cr3 w = some f
  there : ∀ w, There s' w ↔ There s w ∨ w ∈ vs ∨ ∃ u ∈ vs, w = 1023 * 1024 + u / 1024

theorem Mapped.refl (s : Mm) : Mapped ∅ s s := ⟨fun _ _ _ h => h, by simp⟩

/-- What one page more makes present. -/
theorem Granted.there (hg : Granted v s s') (hv : v < 768 * 1024) (w : Nat) :
    There s' w ↔ There s w ∨ w = v ∨ w = 1023 * 1024 + v / 1024 := by
  obtain ⟨f, he⟩ := hg.entered
  constructor
  · intro hin
    by_cases hwv : w = v
    · exact Or.inr (Or.inl hwv)
    · by_cases hwin : w = 1023 * 1024 + v / 1024
      · exact Or.inr (Or.inr hwin)
      · refine Or.inl ⟨hin.1, ?_⟩
        rw [← he.other w hin.1 hwv hwin]
        exact hin.2
  · intro hor
    rcases hor with ⟨hw, hsome⟩ | rfl | rfl
    · obtain ⟨g, hwalk⟩ := Option.isSome_iff_exists.mp hsome
      exact ⟨hw, by rw [he.kept w g hw hwalk]; rfl⟩
    · exact ⟨by omega, by rw [he.page]; rfl⟩
    · exact ⟨by omega, he.window⟩

theorem mem_insert_window {has : Prop} {w : Nat} :
    (has ∨ w ∈ insert v vs ∨ ∃ u ∈ insert v vs, w = 1023 * 1024 + u / 1024) ↔
      (has ∨ w = v ∨ w = 1023 * 1024 + v / 1024) ∨ w ∈ vs ∨
        ∃ u ∈ vs, w = 1023 * 1024 + u / 1024 := by
  rw [Finset.exists_mem_insert, Finset.mem_insert]
  tauto

/-- A page that is there, and the others. -/
theorem Mapped.insert_there (hm : Mapped vs s s') (h : Tables s) (hv : v < 768 * 1024) {f : Nat}
    (hf : walk s.mem s.cr3 v = some f) : Mapped (insert v vs) s s' := by
  obtain ⟨t, ht⟩ := table_of_walk hf
  have hpage : There s v := ⟨by omega, by rw [hf]; rfl⟩
  have hwindow : There s (1023 * 1024 + v / 1024) := by
    refine ⟨by omega, ?_⟩
    rw [h.walk_window (by omega), ht]
    rfl
  refine ⟨hm.kept, fun w => ?_⟩
  rw [hm.there, mem_insert_window]
  refine or_congr_left ⟨Or.inl, fun hor => ?_⟩
  rcases hor with hw | rfl | rfl
  · exact hw
  · exact hpage
  · exact hwindow

/-- A page that is granted, and then the others. -/
theorem Granted.mapped (hg : Granted v s s1) (hv : v < 768 * 1024) (hm : Mapped vs s1 s') :
    Mapped (insert v vs) s s' := by
  obtain ⟨f, he⟩ := hg.entered
  refine ⟨fun w g hw hwalk => hm.kept w g hw (he.kept w g hw hwalk), fun w => ?_⟩
  rw [hm.there, hg.there hv, mem_insert_window]

theorem Ico_succ (v n : Nat) :
    Finset.Ico v (v + (n + 1)) = insert v (Finset.Ico (v + 1) (v + 1 + n)) := by
  ext w
  rw [Finset.mem_insert, Finset.mem_Ico, Finset.mem_Ico]
  omega

/-- **The loop** over `n` pages from `v` on comes to its end exactly with enough frames,
and has then mapped them. -/
theorem pageLoop_maps : ∀ {n v : Nat} {s : Mm}, Tables s → 0 < v → v + n ≤ 768 * 1024 →
    (Enough s (Finset.Ico v (v + n)) → ∃ log s',
      pageLoop (pallocFrom L) n (v * 4096) s = some (true, log, s') ∧
        Mapped (Finset.Ico v (v + n)) s s') ∧
    (¬Enough s (Finset.Ico v (v + n)) → pageLoop (pallocFrom L) n (v * 4096) s = none) := by
  intro n
  induction n with
  | zero =>
    intro v s _ _ _
    rw [Nat.add_zero, Finset.Ico_self]
    exact ⟨fun _ => ⟨[], s, rfl, .refl s⟩, fun hno => absurd (enough_empty s) hno⟩
  | succ n ih =>
    intro v s h hpos hend
    have hv : v < 768 * 1024 := by omega
    have hnext : (v * 4096 + 4096) % 2 ^ 32 = (v + 1) * 4096 := by omega
    have hrest : ∀ w ∈ Finset.Ico (v + 1) (v + 1 + n), w < 768 * 1024 := fun w hw => by
      have := (Finset.mem_Ico.mp hw).2
      omega
    have hout : v ∉ Finset.Ico (v + 1) (v + 1 + n) := fun hc => by
      have := (Finset.mem_Ico.mp hc).1
      omega
    rw [Ico_succ, pageLoop, pageThere_eq h.self (by omega), Option.bind_eq_bind, Option.bind_some,
      hnext]
    cases hwalk : walk s.mem s.cr3 v with
    | some f =>
      -- the page is there
      have hthere : There s v := ⟨by omega, by rw [hwalk]; rfl⟩
      rw [if_pos (decide_eq_true hthere), enough_there hwalk]
      obtain ⟨hyes, hno⟩ := ih h (Nat.succ_pos v) (by omega)
      refine ⟨fun he => ?_, hno⟩
      obtain ⟨log, s', hrun, hm⟩ := hyes he
      exact ⟨log, s', hrun, hm.insert_there h hv hwalk⟩
    | none =>
      have hthere : ¬There s v := fun hc => by
        have hsome := hc.2
        rw [hwalk] at hsome
        cases hsome
      rw [if_neg (by simpa using hthere)]
      by_cases hroom : Room s v
      · obtain ⟨s1, hpage, hg⟩ := getAPage_granted (L := L) h hv hwalk hroom
        have hne : ¬(some (v * 4096)).getD 0 = 0 := by
          rw [Option.getD_some]
          omega
        rw [hpage, Option.bind_eq_bind, Option.bind_some, hg.enough hrest h hv hwalk hout]
        simp only [if_neg hne]
        obtain ⟨hyes, hno⟩ := ih hg.tables (Nat.succ_pos v) (by omega)
        refine ⟨fun he => ?_, fun he => ?_⟩
        · obtain ⟨log, s', hrun, hm⟩ := hyes he
          refine ⟨.bit (pageBit (v * 4096)) :: log, s', ?_, hg.mapped hv hm⟩
          rw [hrun]
          rfl
        · rw [hno he]
          rfl
      · refine ⟨fun he => absurd (he.room hwalk) hroom, fun _ => ?_⟩
        rw [getAPage_refused h hv hroom]
        rfl

/-! ## The segment -/

/-- Page `w` has a byte of the segment. -/
def InSegment (vaddr filesz w : Nat) : Prop := w * 4096 < vaddr + filesz ∧ vaddr < (w + 1) * 4096

instance (vaddr filesz w : Nat) : Decidable (InSegment vaddr filesz w) :=
  inferInstanceAs (Decidable (_ ∧ _))

/-- The pages below `0xc0000000` that have one. -/
def segmentPages (vaddr filesz : Nat) : Finset Nat :=
  (Finset.range (768 * 1024)).filter (InSegment vaddr filesz)

/-- The count ends with the page of the last byte. -/
theorem occupyPages_end {vaddr filesz : Nat} (hsize : 1 ≤ filesz)
    (hend : vaddr + filesz ≤ 0xc0000000) :
    vaddr / 4096 + occupyPages filesz vaddr = (vaddr + filesz - 1) / 4096 + 1 := by
  unfold occupyPages
  dsimp only
  split
  next => omega
  next => omega

theorem mem_segmentPages {vaddr filesz : Nat} (hend : vaddr + filesz ≤ 0xc0000000) {w : Nat} :
    w ∈ segmentPages vaddr filesz ↔ InSegment vaddr filesz w := by
  rw [segmentPages, Finset.mem_filter, Finset.mem_range, and_iff_right_iff_imp]
  intro hw
  have := hw.1
  omega

theorem segmentPages_eq {vaddr filesz : Nat} (hsize : 1 ≤ filesz)
    (hend : vaddr + filesz ≤ 0xc0000000) : segmentPages vaddr filesz =
      Finset.Ico (vaddr / 4096) (vaddr / 4096 + occupyPages filesz vaddr) := by
  ext w
  rw [mem_segmentPages hend, Finset.mem_Ico, occupyPages_end hsize hend]
  unfold InSegment
  omega

/-- Before the loop `s`, after it `s'`. -/
structure SegmentMapped (vaddr filesz : Nat) (s s' : Mm) : Prop where
  kept : ∀ w f, w < 2 ^ 20 → walk s.mem s.cr3 w = some f → walk s'.mem s'.cr3 w = some f
  there : ∀ w, w < 1023 * 1024 → (There s' w ↔ There s w ∨ InSegment vaddr filesz w)
  /-- in the last 4 MB the tables of the pages -/
  window : ∀ d, d < 1024 → (There s' (1023 * 1024 + d) ↔
    There s (1023 * 1024 + d) ∨ ∃ w, InSegment vaddr filesz w ∧ d = w / 1024)

theorem Mapped.segment {vaddr filesz : Nat} (hend : vaddr + filesz ≤ 0xc0000000)
    (hm : Mapped (segmentPages vaddr filesz) s s') : SegmentMapped vaddr filesz s s' := by
  refine ⟨hm.kept, fun w hw => ?_, fun d hd => ?_⟩
  · rw [hm.there, mem_segmentPages hend]
    refine or_congr_right (or_iff_left ?_)
    intro hin
    obtain ⟨u, -, hu⟩ := hin
    omega
  · rw [hm.there, mem_segmentPages hend]
    refine or_congr_right ⟨fun hor => ?_, fun hin => ?_⟩
    · rcases hor with hw | ⟨u, hu, heq⟩
      · have := hw.1
        omega
      · exact ⟨u, (mem_segmentPages hend).mp hu, by omega⟩
    · obtain ⟨u, hu, heq⟩ := hin
      exact Or.inr ⟨u, (mem_segmentPages hend).mpr hu, by rw [heq]⟩

/-- **The page loop of `segment_load`.** With enough frames it comes to its end and has
mapped the pages of the segment that were not there; otherwise a request for a frame
does not come back. -/
theorem segment_load_pages (L : Layout) {s : Mm} (h : Tables s) (vaddr filesz : Nat)
    (hstart : userVaddrStart ≤ vaddr) (hsize : 1 ≤ filesz)
    (hend : vaddr + filesz ≤ 0xc0000000) :
    (Enough s (segmentPages vaddr filesz) → ∃ log s',
      pageLoop (pallocFrom L) (occupyPages filesz vaddr) (vaddr / 4096 * 4096) s =
        some (true, log, s') ∧ SegmentMapped vaddr filesz s s') ∧
    (¬Enough s (segmentPages vaddr filesz) →
      pageLoop (pallocFrom L) (occupyPages filesz vaddr) (vaddr / 4096 * 4096) s = none) := by
  have hpos : 0 < vaddr / 4096 := by
    unfold userVaddrStart at hstart
    omega
  have hlast := occupyPages_end hsize hend
  obtain ⟨hyes, hno⟩ := pageLoop_maps (L := L) h hpos (n := occupyPages filesz vaddr) (by omega)
  rw [← segmentPages_eq hsize hend] at hyes hno
  refine ⟨fun he => ?_, hno⟩
  obtain ⟨log, s', hrun, hm⟩ := hyes he
  exact ⟨log, s', hrun, hm.segment hend⟩

/-! ## While `init` runs -/

theorem initRuns_tables : Tables initRuns.mm := by
  have hinit : initSpaces initPcb = some ⟨0x218, true⟩ := if_pos rfl
  exact initRuns_good.tables hinit rfl rfl

/-- There are frames for two pages. -/
theorem initRuns_enough (hvs : vs.card ≤ 2) : Enough initRuns.mm vs := by
  have huser : ({1, 2} : Finset Nat) ⊆ initRuns.mm.userPool.free := by decide +kernel
  have hkernel : ({27, 28} : Finset Nat) ⊆ initRuns.mm.kernelPool.free := by decide +kernel
  refine ⟨?_, ?_⟩
  · exact (Finset.card_filter_le _ _).trans (hvs.trans (Finset.card_le_card huser))
  · refine (Finset.card_filter_le _ _).trans (Finset.card_image_le.trans ?_)
    exact hvs.trans (Finset.card_le_card hkernel)

/-- A segment of 256 bytes, half of them at the end of the first page. -/
theorem segment_load_pages_two : ∃ log s',
    pageLoop (pallocFrom smallLayout) 2 0x8048000 initRuns.mm = some (true, log, s') ∧
      SegmentMapped 0x8048f80 0x100 initRuns.mm s' := by
  have hpages : (segmentPages 0x8048f80 0x100).card ≤ 2 := by
    rw [segmentPages_eq (by decide) (by decide)]
    decide
  exact (segment_load_pages smallLayout initRuns_tables 0x8048f80 0x100 (by decide) (by decide)
    (by decide)).1 (initRuns_enough hpages)

/-- **The table of a new page is a page itself**: the loop changes one that has no byte of
the segment. -/
theorem new_table_is_page : ¬∀ (L : Layout) (s : Mm) (vaddr filesz : Nat), Tables s →
    userVaddrStart ≤ vaddr → 1 ≤ filesz → vaddr + filesz ≤ 0xc0000000 →
    Enough s (segmentPages vaddr filesz) → ∃ log s',
      pageLoop (pallocFrom L) (occupyPages filesz vaddr) (vaddr / 4096 * 4096) s =
        some (true, log, s') ∧
      ∀ w, w < 2 ^ 20 → ¬InSegment vaddr filesz w →
        walk s'.mem s'.cr3 w = walk s.mem s.cr3 w := by
  intro h
  have hone : segmentPages 0x8048000 1 = Finset.Ico 0x8048 (0x8048 + 1) :=
    segmentPages_eq (by decide) (by decide)
  have henough : Enough initRuns.mm (segmentPages 0x8048000 1) := by
    apply initRuns_enough
    rw [hone]
    decide
  obtain ⟨log, s', hrun, hsame⟩ := h smallLayout initRuns.mm 0x8048000 1 initRuns_tables
    (by decide) (by decide) (by decide) henough
  rw [hone] at henough
  obtain ⟨log1, s1, hrun1, hm⟩ := (pageLoop_maps (L := smallLayout) (n := 1) (v := 0x8048)
    initRuns_tables (by decide) (by decide)).1 henough
  have heq : some (true, log, s') = some (true, log1, s1) := hrun.symm.trans hrun1
  obtain rfl : s' = s1 := congrArg (fun x => x.2.2) (Option.some.inj heq)
  -- page `0xffc20` shows the table of page `0x8048`
  have hthere : There s' (1023 * 1024 + 32) :=
    (hm.there _).mpr (Or.inr (Or.inr ⟨0x8048, by decide, by decide⟩))
  have hsame := hsame (1023 * 1024 + 32) (by decide) (by decide)
  have hnone : tableAt initRuns.mm 32 = none := by decide
  rw [initRuns_tables.walk_window (by decide), hnone] at hsame
  have hsome := hthere.2
  rw [hsame] at hsome
  cases hsome

end OsCore.Userprog
