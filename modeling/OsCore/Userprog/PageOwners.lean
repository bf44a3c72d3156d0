import OsCore.Userprog.CopyBody
import OsCore.Userprog.Exit

/-!
# Who owns which pages of the kernel's heap

A task has one region of the heap: the page of its PCB. A process has two more: its
directory, and the pages of its bitmap. `Owners` ties them to the regions that are in use. Each region
carries a tag that says what it is for, and since a region has one tag no two
processes, and no two purposes, can share one (`Use`).

The life of a process is followed here on memory alone: its regions are taken one by
one (`Owners.add`), the directory makes it an address space (`Owners.newSpace`), at
exit the space is emptied and the bitmap given back but for its last page
(`Owners.exit`), and directory and PCB go when it is reaped (`Owners.reap`).
-/

namespace OsCore.Userprog

open Lib Paging

/-- What a region of the heap is for. -/
inductive Use
  | pcb (t : Nat)
  | bits (t : Nat)
  | dir (t : Nat)
  | other

/-- The number of the first page of the heap. -/
def heapPage : Nat := 0xc0100

/-- The address space of `c` is forgotten. -/
def gone (S : Spaces) (c : Nat) : Spaces := Function.update S c none

variable {L : Layout} {s s' : Mm} {T T' : List Nat} {vm : Nat → Vm} {S : Spaces}
  {R : List (Nat × Nat)} {use : Nat × Nat → Use} {t c q : Nat} {sp : Space}

@[simp] theorem gone_same (S : Spaces) (c : Nat) : gone S c c = none := Function.update_self ..

theorem gone_ne (h : t ≠ c) : gone S c t = S t := Function.update_of_ne h ..

theorem gone_some (h : gone S c t = some sp) : t ≠ c ∧ S t = some sp := by
  by_cases htc : t = c
  · rw [htc, gone_same] at h
    cases h
  · rw [gone_ne htc] at h
    exact ⟨htc, h⟩

/-- The tasks with a new one at the end. -/
theorem mem_snoc : t ∈ T ++ [c] ↔ t = c ∨ t ∈ T := by
  rw [List.mem_append, List.mem_singleton, or_comm]

/-- The regions in use, and those of them that the tasks in `T` have. -/
structure Owners (L : Layout) (s : Mm) (T : List Nat) (vm : Nat → Vm) (S : Spaces)
    (R : List (Nat × Nat)) (use : Nat × Nat → Use) : Prop where
  regions : Regions L s S noFrame R
  /-- the PCBs, but for that of `main`, which is below the heap -/
  pcb : ∀ t ∈ T, heapPage ≤ t → ∃ j, t = heapPage + j ∧ (j, 1) ∈ R ∧ use (j, 1) = .pcb t
  listed : ∀ t sp, S t = some sp → t ∈ T ∧ heapPage ≤ t
  dir : ∀ t sp, S t = some sp → ∃ i, (vm t).pgdir = kHeapStart + i * 4096 ∧
    slotFrame s.mem S (.heap i) = some sp.dir ∧ (i, 1) ∈ R ∧ use (i, 1) = .dir t
  /-- a process that has exited has no bitmap any more -/
  bits : ∀ t sp, S t = some sp → sp.alive = true → ∃ b, (vm t).bits = kHeapStart + b * 4096 ∧
    (b, bitmapPgCnt) ∈ R ∧ use (b, bitmapPgCnt) = .bits t

namespace Owners

/-- The heap's entries are the same. -/
theorem keep (h : Owners L s T vm S R use) (hregions : Regions L s' S noFrame R)
    (hslots : ∀ k, slotFrame s'.mem S (.heap k) = slotFrame s.mem S (.heap k)) :
    Owners L s' T vm S R use where
  regions := hregions
  pcb := h.pcb
  listed := h.listed
  dir t sp ht := by
    obtain ⟨i, h1, h2, h3⟩ := h.dir t sp ht
    exact ⟨i, h1, (hslots i).trans h2, h3⟩
  bits := h.bits

/-- Only the address space of `q` has changed. -/
theorem «local» (h : Owners L s T vm S R use) (hl : Local S q s s') (hgood : Good L s' S noFrame) :
    Owners L s' T vm S R use :=
  h.keep (h.regions.local hl hgood) fun _ => hl.other _ rfl

/-- The fields of a PCB that matter here. -/
theorem congrVm (h : Owners L s T vm S R use) {vm' : Nat → Vm}
    (hvm : ∀ t sp, S t = some sp → (vm' t).pgdir = (vm t).pgdir ∧ (vm' t).bits = (vm t).bits) :
    Owners L s T vm' S R use where
  regions := h.regions
  pcb := h.pcb
  listed := h.listed
  dir t sp ht := by
    rw [(hvm t sp ht).1]
    exact h.dir t sp ht
  bits t sp ht := by
    rw [(hvm t sp ht).2]
    exact h.bits t sp ht

/-- The tags of the regions there are. -/
theorem use_kept {q r : Nat × Nat} {u : Use} (hnew : q ∉ R) (hr : r ∈ R) :
    Function.update use q u r = use r := by
  apply Function.update_of_ne
  intro heq
  exact hnew (heq ▸ hr)

/-- **A region more**, with a tag of its own. -/
theorem add (h : Owners L s T vm S R use) {i n : Nat} (hpages : NewPages S i n s s')
    (hregions : Regions L s' S noFrame ((i, n) :: R)) (u : Use) :
    Owners L s' T vm S ((i, n) :: R) (Function.update use (i, n) u) := by
  have hnew : (i, n) ∉ R := (List.nodup_cons.mp hregions.nodup).1
  have htag : ∀ r ∈ R, Function.update use (i, n) u r = use r := fun r => use_kept hnew
  constructor
  case regions => exact hregions
  case pcb =>
    intro t ht hge
    obtain ⟨j, hj, hmem, hu⟩ := h.pcb t ht hge
    exact ⟨j, hj, List.mem_cons_of_mem _ hmem, (htag _ hmem).trans hu⟩
  case listed => exact h.listed
  case dir =>
    intro t sp ht
    obtain ⟨i', hi, hslot, hmem, hu⟩ := h.dir t sp ht
    exact ⟨i', hi, h.regions.keeps hpages hregions hslot, List.mem_cons_of_mem _ hmem,
      (htag _ hmem).trans hu⟩
  case bits =>
    intro t sp ht ha
    obtain ⟨b, hb, hmem, hu⟩ := h.bits t sp ht ha
    exact ⟨b, hb, List.mem_cons_of_mem _ hmem, (htag _ hmem).trans hu⟩

/-- A frame of a region that is no directory is the directory of no process. -/
theorem noDir (h : Owners L s T vm S R use) {r : Nat × Nat} (hr : r ∈ R)
    (huse : ∀ t sp, S t = some sp → use r ≠ .dir t) {k f : Nat} (hk : InRegion k r)
    (hf : slotFrame s.mem S (.heap k) = some f) : NoDir S f := by
  intro t sp ht heq
  subst heq
  obtain ⟨i, -, hslot, hmem, hu⟩ := h.dir t sp ht
  obtain rfl := Slot.heap.inj (h.regions.good.inj _ _ _ hf hslot)
  by_cases hri : r = (k, 1)
  · rw [hri] at huse
    exact huse t sp ht hu
  · have hap := h.regions.apart_of_ne hr hmem hri
    unfold Paging.Apart at hap
    unfold InRegion at hk
    dsimp only at hap
    omega

/-- **A region that no process needs is given back.** -/
theorem free (h : Owners L s T vm S R use) {r : Nat × Nat} (hr : r ∈ R)
    (hpcb : ∀ t ∈ T, use r ≠ .pcb t)
    (huse : ∀ t sp, S t = some sp → use r ≠ .dir t ∧ (sp.alive = true → use r ≠ .bits t)) :
    ∃ s', mfreePage L .kernel s (kHeapStart + r.1 * 4096) r.2 = some s' ∧
      Owners L s' T vm S (R.erase r) use ∧
      (∀ x, slotFrame s'.mem S x = if inRun r.1 r.2 x then none else slotFrame s.mem S x) ∧
      (∀ g j, 0x200 ≤ g → s'.mem g j = s.mem g j) ∧ s'.cr3 = s.cr3 ∧
      s'.userVaddr = s.userVaddr := by
  obtain ⟨u, hrun, hun, hregions⟩ := h.regions.free hr fun k f hk hf =>
    h.noDir hr (fun t sp ht => (huse t sp ht).1) hk hf
  have hmem : ∀ a, a ∈ R.erase r ↔ a ≠ r ∧ a ∈ R := fun a => h.regions.nodup.mem_erase_iff
  refine ⟨_, hrun, ?_, hun.slots, hun.data, hun.rest.cr3, hun.rest.userVaddr⟩
  constructor
  case regions => exact hregions
  case pcb =>
    intro t ht hge
    obtain ⟨j, hj, hjR, hu⟩ := h.pcb t ht hge
    refine ⟨j, hj, (hmem _).mpr ⟨?_, hjR⟩, hu⟩
    intro heq
    subst heq
    exact hpcb t ht hu
  case listed => exact h.listed
  case dir =>
    intro t sp ht
    obtain ⟨i, hi, hslot, hiR, hu⟩ := h.dir t sp ht
    have hne : (i, 1) ≠ r := by
      intro heq
      subst heq
      exact (huse t sp ht).1 hu
    refine ⟨i, hi, ?_, (hmem _).mpr ⟨hne, hiR⟩, hu⟩
    have hap := h.regions.apart_of_ne hiR hr hne
    have hout : ¬inRun r.1 r.2 (.heap i) = true := by
      rw [inRun_heap]
      unfold Paging.Apart at hap
      dsimp only at hap
      omega
    exact (hun.slots _).trans ((if_neg hout).trans hslot)
  case bits =>
    intro t sp ht ha
    obtain ⟨b, hb, hbR, hu⟩ := h.bits t sp ht ha
    refine ⟨b, hb, (hmem _).mpr ⟨?_, hbR⟩, hu⟩
    intro heq
    subst heq
    exact (huse t sp ht).2 ha hu

/-- A task more, with its PCB on its page. -/
theorem list (h : Owners L s T vm S R use) {j : Nat} (hc : c = heapPage + j) (hR : (j, 1) ∈ R)
    (huse : use (j, 1) = .pcb c) (hT : ∀ t, t ∈ T' ↔ t = c ∨ t ∈ T) : Owners L s T' vm S R use where
  regions := h.regions
  pcb t ht hge := by
    rcases (hT t).mp ht with rfl | ht
    · exact ⟨j, hc, hR, huse⟩
    · exact h.pcb t ht hge
  listed t sp ht := ⟨(hT t).mpr (Or.inr (h.listed t sp ht).1), (h.listed t sp ht).2⟩
  dir := h.dir
  bits := h.bits

/-- **A new address space** for a task that has its bitmap. -/
theorem newSpace (h : Owners L s T vm S R use) (hc : c ∈ T ∧ heapPage ≤ c) (hnew : S c = none)
    {b i dir : Nat} (hbits : (b, bitmapPgCnt) ∈ R ∧ use (b, bitmapPgCnt) = .bits c)
    (hmade : MadeDir S i dir s s') (hregions : Regions L s' (withSpace S c dir) noFrame ((i, 1) :: R))
    {vm' : Nat → Vm} (hvm : ∀ t, t ≠ c → vm' t = vm t) (hpgdir : (vm' c).pgdir = kHeapStart + i * 4096)
    (haddr : (vm' c).bits = kHeapStart + b * 4096) :
    Owners L s' T vm' (withSpace S c dir) ((i, 1) :: R) (Function.update use (i, 1) (.dir c)) := by
  have hfresh : (i, 1) ∉ R := (List.nodup_cons.mp hregions.nodup).1
  have htag : ∀ r ∈ R, Function.update use (i, 1) (.dir c) r = use r := fun r => use_kept hfresh
  have hslots := fun x => withSpace_slots (x := x) hnew hmade.empty
  constructor
  case regions => exact hregions
  case pcb =>
    intro t ht hge
    obtain ⟨j, hj, hmem, hu⟩ := h.pcb t ht hge
    exact ⟨j, hj, List.mem_cons_of_mem _ hmem, (htag _ hmem).trans hu⟩
  case listed =>
    intro t sp ht
    rcases withSpace_some ht with ⟨rfl, -⟩ | ⟨-, ht⟩
    · exact hc
    · exact h.listed t sp ht
  case dir =>
    intro t sp ht
    rcases withSpace_some ht with ⟨rfl, rfl⟩ | ⟨htc, ht⟩
    · exact ⟨i, hpgdir, (hslots _).trans hmade.slot, List.mem_cons_self, Function.update_self ..⟩
    · obtain ⟨i', hi, hslot, hmem, hu⟩ := h.dir t sp ht
      refine ⟨i', by rw [hvm t htc, hi], ?_, List.mem_cons_of_mem _ hmem, (htag _ hmem).trans hu⟩
      rw [hslots, hmade.other, hslot]
      intro hc'
      rw [hc', hmade.was] at hslot
      cases hslot
  case bits =>
    intro t sp ht ha
    rcases withSpace_some ht with ⟨rfl, -⟩ | ⟨htc, ht⟩
    · exact ⟨b, haddr, List.mem_cons_of_mem _ hbits.1, (htag _ hbits.1).trans hbits.2⟩
    · obtain ⟨b', hb, hmem, hu⟩ := h.bits t sp ht ha
      exact ⟨b', by rw [hvm t htc, hb], List.mem_cons_of_mem _ hmem, (htag _ hmem).trans hu⟩

/-- A page of the heap that has just been taken is the PCB of nobody. -/
theorem fresh_pcb (h : Owners L s T vm S R use) {j : Nat}
    (hregions : Regions L s' S noFrame ((j, 1) :: R)) : heapPage + j ∉ T ∧ S (heapPage + j) = none := by
  have hnot : heapPage + j ∉ T := by
    intro hmem
    obtain ⟨j', hj, hR, -⟩ := h.pcb _ hmem (Nat.le_add_right ..)
    obtain rfl : j' = j := by omega
    exact (List.nodup_cons.mp hregions.nodup).1 hR
  refine ⟨hnot, ?_⟩
  cases hS : S (heapPage + j) with
  | none => rfl
  | some sp => exact absurd (h.listed _ sp hS).1 hnot

/-! ## Exit -/

/-- A process that has exited keeps its PCB and its directory. -/
theorem die (h : Owners L s T vm S R use) {dir : Nat} (hp : S q = some ⟨dir, true⟩)
    (hgood : Good L s' (died S q dir) noFrame) (hbits : BitsOnly s s') :
    Owners L s' T vm (died S q dir) R use := by
  have hslots : ∀ k, slotFrame s'.mem (died S q dir) (.heap k) = slotFrame s.mem S (.heap k) := by
    intro k
    rw [hbits.mem, died_slots]
    rfl
  constructor
  case regions => exact h.regions.congr hgood hslots hbits.rest.kernelVaddr
  case pcb => exact h.pcb
  case listed =>
    intro t sp ht
    rcases died_some ht with ⟨rfl, -⟩ | ⟨-, ht⟩
    · exact h.listed t _ hp
    · exact h.listed t sp ht
  case dir =>
    intro t sp ht
    rcases died_some ht with ⟨rfl, rfl⟩ | ⟨-, ht⟩
    · obtain ⟨i, h1, h2, h3⟩ := h.dir t _ hp
      exact ⟨i, h1, (hslots i).trans h2, h3⟩
    · obtain ⟨i, h1, h2, h3⟩ := h.dir t sp ht
      exact ⟨i, h1, (hslots i).trans h2, h3⟩
  case bits =>
    intro t sp ht ha
    rcases died_some ht with ⟨-, rfl⟩ | ⟨-, ht⟩
    · cases ha
    · exact h.bits t sp ht ha

/-- A region that no process needs is used in two parts. -/
theorem split (h : Owners L s T vm S R use) {a n m : Nat} (hr : (a, n + m) ∈ R) (hn : 0 < n)
    (hm : 0 < m) (hpcb : ∀ t ∈ T, use (a, n + m) ≠ .pcb t)
    (huse : ∀ t sp, S t = some sp →
      use (a, n + m) ≠ .dir t ∧ (sp.alive = true → use (a, n + m) ≠ .bits t)) :
    Owners L s T vm S ((a, n) :: (a + n, m) :: R.erase (a, n + m))
      (Function.update (Function.update use (a, n) .other) (a + n, m) .other) := by
  have hmem : ∀ b, b ∈ R.erase (a, n + m) ↔ b ≠ (a, n + m) ∧ b ∈ R := fun b =>
    h.regions.nodup.mem_erase_iff
  -- the parts were no regions before
  have hnew : ∀ r ∈ R, r ≠ (a, n + m) → r ≠ (a, n) ∧ r ≠ (a + n, m) := by
    intro r hrR hne
    have hap := h.regions.apart_of_ne hrR hr hne
    unfold Paging.Apart at hap
    dsimp only at hap
    constructor
    · intro heq
      subst heq
      dsimp only at hap
      omega
    · intro heq
      subst heq
      dsimp only at hap
      omega
  have htag : ∀ r ∈ R, r ≠ (a, n + m) → r ∈ (a, n) :: (a + n, m) :: R.erase (a, n + m) ∧
      Function.update (Function.update use (a, n) .other) (a + n, m) .other r = use r := by
    intro r hrR hne
    obtain ⟨h1, h2⟩ := hnew r hrR hne
    exact ⟨List.mem_cons_of_mem _ (List.mem_cons_of_mem _ ((hmem r).mpr ⟨hne, hrR⟩)),
      (Function.update_of_ne h2 ..).trans (Function.update_of_ne h1 ..)⟩
  constructor
  case regions => exact h.regions.split hr hn hm
  case pcb =>
    intro t ht hge
    obtain ⟨j, hj, hjR, hu⟩ := h.pcb t ht hge
    have hne : (j, 1) ≠ (a, n + m) := by
      intro he
      rw [he] at hu
      exact hpcb t ht hu
    obtain ⟨h1, h2⟩ := htag _ hjR hne
    exact ⟨j, hj, h1, h2.trans hu⟩
  case listed => exact h.listed
  case dir =>
    intro t sp ht
    obtain ⟨i, hi, hslot, hiR, hu⟩ := h.dir t sp ht
    have hne : (i, 1) ≠ (a, n + m) := by
      intro he
      rw [he] at hu
      exact (huse t sp ht).1 hu
    obtain ⟨h1, h2⟩ := htag _ hiR hne
    exact ⟨i, hi, hslot, h1, h2.trans hu⟩
  case bits =>
    intro t sp ht ha
    obtain ⟨b, hb, hbR, hu⟩ := h.bits t sp ht ha
    have hne : (b, bitmapPgCnt) ≠ (a, n + m) := by
      intro he
      rw [he] at hu
      exact (huse t sp ht).2 ha hu
    obtain ⟨h1, h2⟩ := htag _ hbR hne
    exact ⟨b, hb, h1, h2.trans hu⟩

/-- **The memory of a process that exits**: what `release_prog_resource` makes of it.
The last page of the bitmap stays, since the length is divided without rounding up. -/
theorem exit (h : Owners L s T vm S R use) {dir : Nat} (hp : S q = some ⟨dir, true⟩)
    (hcur : s.cr3 = dir) (hlen : s.userVaddr.bytesLen = userBitmapLen) :
    ∃ b s1 s2 use', (vm q).bits = kHeapStart + b * 4096 ∧
      releasePdes L (vm q).pgdir 768 0 s = some s1 ∧
      mfreePage L .kernel s1 (vm q).bits (s1.userVaddr.bytesLen / 4096) = some s2 ∧
      Owners L s2 T vm (died S q dir) ((b + 22, 1) :: R.erase (b, 23)) use' ∧
      (∀ x, slotFrame s2.mem (died S q dir) x =
        if inRun b 22 x then none else if x.of q = true then none else slotFrame s.mem S x) ∧
      s2.cr3 = dir := by
  obtain ⟨k, hpgdir, hk, -, -⟩ := h.dir q _ hp
  obtain ⟨b, hbits, hbR, hbuse⟩ := h.bits q _ hp rfl
  have h23 : bitmapPgCnt = 22 + 1 := by decide
  rw [h23] at hbR hbuse
  obtain ⟨s1, hwalk, honly, hgood⟩ := h.regions.good.release hp hcur hk
  have hdead := h.die hp hgood honly
  have hpcb : ∀ t ∈ T, use (b, 22 + 1) ≠ .pcb t := by
    intro t _
    rw [hbuse]
    simp
  have htag : ∀ t sp, died S q dir t = some sp →
      use (b, 22 + 1) ≠ .dir t ∧ (sp.alive = true → use (b, 22 + 1) ≠ .bits t) := by
    intro t sp ht
    rw [hbuse]
    refine ⟨by simp, fun ha hu => ?_⟩
    obtain rfl := Use.bits.inj hu
    rw [died_same] at ht
    obtain rfl := Option.some.inj ht
    cases ha
  have hsplit := hdead.split hbR (by decide) (by decide) hpcb htag
  obtain ⟨s2, hfree, howners, hslots, -, hcr3, -⟩ := hsplit.free (r := (b, 22)) (by simp)
    (fun t _ => by simp) fun t sp ht => by simp
  have hcnt : s1.userVaddr.bytesLen / 4096 = 22 := by
    rw [honly.rest.userVaddr, hlen]
    decide
  refine ⟨b, s1, s2, Function.update (Function.update use (b, 22) .other) (b + 22, 1) .other,
    hbits, ?_, ?_, ?_, fun x => ?_, ?_⟩
  · rw [hpgdir]
    exact hwalk
  · rw [hbits, hcnt]
    exact hfree
  · rw [List.erase_cons_head] at howners
    exact howners
  · rw [hslots, honly.mem, died_slots]
  · rw [hcr3, honly.rest.cr3, hcur]

/-! ## Reaping -/

/-- A process that has exited is forgotten, when its directory is not in use. -/
theorem forget (h : Owners L s T vm S R use) {dir : Nat} (hc : S c = some ⟨dir, false⟩)
    (hcur : s.cr3 ≠ dir) (hT : ∀ t, t ∈ T' ↔ t ≠ c ∧ t ∈ T) : Owners L s T' vm (gone S c) R use ∧
      ∀ x, slotFrame s.mem (gone S c) x = slotFrame s.mem S x := by
  have hgood := h.regions.good
  have htab : ∀ t d, tableFrame s.mem (gone S c) t d = tableFrame s.mem S t d := by
    intro t d
    by_cases htc : t = c
    · rw [htc, tableFrame, tableFrame, gone_same, hc, Option.bind_none,
        Option.bind_some, if_neg (by simp)]
    · rw [tableFrame, tableFrame, gone_ne htc]
  have hslots : ∀ x, slotFrame s.mem (gone S c) x = slotFrame s.mem S x := by
    intro x
    cases x with
    | heap k => rfl
    | table t d => exact htab t d
    | page t v => simp only [slotFrame, htab]
  have hcur' : s.cr3 = kernelDir ∨ ∃ t sp, gone S c t = some sp ∧ s.cr3 = sp.dir := by
    rcases hgood.cur with hk | ⟨t, sp, ht, hd⟩
    · exact Or.inl hk
    · have htc : t ≠ c := by
        intro heq
        subst heq
        rw [hc] at ht
        obtain rfl := Option.some.inj ht
        exact hcur hd
      exact Or.inr ⟨t, sp, (gone_ne htc).trans ht, hd⟩
  have hgood' : Good L s (gone S c) noFrame := by
    refine hgood.congrSpaces hslots (fun t sp ht => ?_) (fun t u a b ht hu hab => ?_) hcur'
    · obtain ⟨h1, k, hk⟩ := hgood.dir t sp (gone_some ht).2
      exact ⟨h1, k, (hslots _).trans hk⟩
    · exact hgood.dirInj t u a b (gone_some ht).2 (gone_some hu).2 hab
  refine ⟨⟨h.regions.congr hgood' (fun _ => hslots _) rfl, fun t ht hge => ?_, fun t sp ht => ?_,
    fun t sp ht => ?_, fun t sp ht => h.bits t sp (gone_some ht).2⟩, hslots⟩
  · exact h.pcb t ((hT t).mp ht).2 hge
  · obtain ⟨htc, ht⟩ := gone_some ht
    exact ⟨(hT t).mpr ⟨htc, (h.listed t sp ht).1⟩, (h.listed t sp ht).2⟩
  obtain ⟨i, h1, h2, h3⟩ := h.dir t sp (gone_some ht).2
  exact ⟨i, h1, (hslots _).trans h2, h3⟩

/-- **The memory of a process that is reaped**: directory and PCB are given back. -/
theorem reap (h : Owners L s T vm S R use) {dir : Nat} (hc : S c = some ⟨dir, false⟩)
    (hcur : s.cr3 ≠ dir) (hT : ∀ t, t ∈ T' ↔ t ≠ c ∧ t ∈ T) :
    ∃ i j s1 s2, (vm c).pgdir = kHeapStart + i * 4096 ∧ c = heapPage + j ∧
      mfreePage L .kernel s (vm c).pgdir 1 = some s1 ∧
      mfreePage L .kernel s1 (c * 4096) 1 = some s2 ∧
      Owners L s2 T' vm (gone S c) ((R.erase (i, 1)).erase (j, 1)) use ∧
      (∀ x, slotFrame s2.mem (gone S c) x =
        if inRun j 1 x then none else if inRun i 1 x then none else slotFrame s.mem S x) ∧
      s2.cr3 = s.cr3 ∧ s2.userVaddr = s.userVaddr := by
  obtain ⟨i, hpgdir, -, hiR, hiu⟩ := h.dir c _ hc
  obtain ⟨j, hj, hjR, hju⟩ := h.pcb c (h.listed c _ hc).1 (h.listed c _ hc).2
  obtain ⟨hforgot, hslots⟩ := h.forget hc hcur hT
  obtain ⟨s1, hfree1, h1, hslots1, -, hcr1, huv1⟩ := hforgot.free hiR (fun t _ => by
    rw [hiu]
    simp) fun t sp ht => by
    rw [hiu]
    refine ⟨fun hu => ?_, by simp⟩
    exact (gone_some ht).1 (Use.dir.inj hu).symm
  have hne : (j, 1) ≠ (i, 1) := by
    intro he
    rw [he, hiu] at hju
    cases hju
  have hjR1 : (j, 1) ∈ R.erase (i, 1) := (List.mem_erase_of_ne hne).mpr hjR
  obtain ⟨s2, hfree2, h2, hslots2, -, hcr2, huv2⟩ := h1.free hjR1 (fun t ht hu => by
    rw [hju] at hu
    exact ((hT t).mp ht).1 (Use.pcb.inj hu).symm) fun t sp ht => by
    rw [hju]
    simp
  have haddr : c * 4096 = kHeapStart + j * 4096 := by
    rw [hj]
    unfold heapPage kHeapStart
    omega
  refine ⟨i, j, s1, s2, hpgdir, hj, ?_, ?_, h2, fun x => ?_, hcr2.trans hcr1,
    huv2.trans huv1⟩
  · rw [hpgdir]
    exact hfree1
  · rw [haddr]
    exact hfree2
  · rw [hslots2, hslots1, hslots]

end Owners

end OsCore.Userprog
