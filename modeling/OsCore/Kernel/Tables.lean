import OsCore.Kernel.Frames

/-!
# The tables of one directory

What entering a page relies on, whoever the directory in `cr3` belongs to: it names
itself, no two of its entries name one frame, and a frame of the kernel's pool that it
names is not free (`Tables`).

The page is then the only one that changes, but for the page at the end of the address
space that shows its table, when the table is new (`Entered`). `page_table_add` of a page
that is not there comes back when the table is there (`Tables.pageTableAdd_there`) or
there is a frame for one (`Tables.pageTableAdd_new`), and only then
(`Tables.pageTableAdd_none`).
-/

namespace OsCore.Paging

open OsCore.Lib

variable {L : Layout} {s s1 : Mm} {d v f : Nat}

/-- The table for the pages from `1024 * d` on. -/
def tableAt (s : Mm) (d : Nat) : Option Nat := entryFrame (s.mem s.cr3 d)

structure Tables (s : Mm) : Prop where
  self : SelfMapped s.mem s.cr3
  inj : ∀ d e t, d < 1024 → e < 1024 → tableAt s d = some t → tableAt s e = some t → d = e
  taken : ∀ d t, d < 1024 → tableAt s d = some t → 0x200 ≤ t →
    t - 0x200 < 8 * s.kernelPool.bytesLen → s.kernelPool.bit (t - 0x200) = true

/-- Page `v` has been entered on frame `f`. -/
structure Entered (v f : Nat) (s s' : Mm) : Prop where
  page : walk s'.mem s'.cr3 v = some f
  window : (walk s'.mem s'.cr3 (1023 * 1024 + v / 1024)).isSome = true
  kept : ∀ w g, w < 2 ^ 20 → walk s.mem s.cr3 w = some g → walk s'.mem s'.cr3 w = some g
  other : ∀ w, w < 2 ^ 20 → w ≠ v → w ≠ 1023 * 1024 + v / 1024 →
    walk s'.mem s'.cr3 w = walk s.mem s.cr3 w

/-! ## Looking up -/

theorem walk_eq_bind (m : Phys) (dir page : Nat) : walk m dir page =
    (entryFrame (m dir (page / 1024))).bind fun t => entryFrame (m t (page % 1024)) := by
  unfold walk entryFrame
  by_cases h : Present (m dir (page / 1024))
  · simp only [if_pos h, Option.bind_some]
  · simp only [if_neg h, Option.bind_none]

theorem walk_of_table {t : Nat} (ht : tableAt s (v / 1024) = some t) :
    walk s.mem s.cr3 v = entryFrame (s.mem t (v % 1024)) := by
  rw [walk_eq_bind]
  exact congrArg (Option.bind · _) ht

theorem walk_of_none (ht : tableAt s (v / 1024) = none) : walk s.mem s.cr3 v = none := by
  rw [walk_eq_bind]
  exact congrArg (Option.bind · _) ht

/-- Only memory and the kernel's pool matter. -/
theorem Tables.congr (h : Tables s) (hmem : s1.mem = s.mem) (hcr3 : s1.cr3 = s.cr3)
    (hpool : s1.kernelPool = s.kernelPool) : Tables s1 := by
  have htab : ∀ e, tableAt s1 e = tableAt s e := fun e => by rw [tableAt, hmem, hcr3, tableAt]
  refine ⟨?_, fun d e t hd he h1 h2 => ?_, fun d t hd h1 => ?_⟩
  · rw [hmem, hcr3]
    exact h.self
  · rw [htab] at h1 h2
    exact h.inj d e t hd he h1 h2
  · rw [htab] at h1
    rw [hpool]
    exact h.taken d t hd h1

/-- The last entry names the directory. -/
theorem Tables.last (h : Tables s) : tableAt s 1023 = some s.cr3 := entryFrame_eq_some.mpr h.self

/-- A table is not the directory. -/
theorem Tables.ne_cr3 (h : Tables s) {t : Nat} (hd : d < 1023) (ht : tableAt s d = some t) :
    t ≠ s.cr3 := by
  intro heq
  subst heq
  have := h.inj d 1023 _ (by omega) (by decide) ht h.last
  omega

/-- The page at the end that shows a table. -/
theorem Tables.walk_window (h : Tables s) (hd : d < 1024) :
    walk s.mem s.cr3 (1023 * 1024 + d) = tableAt s d := walk_table h.self hd

/-! ## Entering -/

/-- **A page is entered in a table that is there.** -/
theorem Tables.enter (h : Tables s) (hv : v < 768 * 1024) {t : Nat}
    (ht : tableAt s (v / 1024) = some t) (hnone : walk s.mem s.cr3 v = none) (f : Nat) :
    Tables (s.setMem (s.mem.set t (v % 1024) (entry (f * 4096)))) ∧
      Entered v f s (s.setMem (s.mem.set t (v % 1024) (entry (f * 4096)))) := by
  have hne : t ≠ s.cr3 := h.ne_cr3 (by omega) ht
  obtain ⟨m, hm⟩ : ∃ m, m = s.mem.set t (v % 1024) (entry (f * 4096)) := ⟨_, rfl⟩
  rw [← hm]
  have htab : ∀ e, tableAt (s.setMem m) e = tableAt s e := by
    intro e
    rw [tableAt, Mm.setMem_mem, Mm.setMem_cr3, hm, Phys.set_ne (Or.inl hne.symm), tableAt]
  have htables : Tables (s.setMem m) := by
    refine ⟨?_, fun d e u hd he h1 h2 => ?_, fun d u hd h1 => ?_⟩
    · have hlast := h.last
      rw [← htab] at hlast
      exact entryFrame_eq_some.mp hlast
    · rw [htab] at h1 h2
      exact h.inj d e u hd he h1 h2
    · rw [htab] at h1
      exact h.taken d u hd h1
  have hpage : walk (s.setMem m).mem (s.setMem m).cr3 v = some f := by
    rw [walk_of_table ((htab _).trans ht), Mm.setMem_mem, hm, Phys.set_same, entryFrame_entry]
  have hother : ∀ w, w < 2 ^ 20 → w ≠ v →
      walk (s.setMem m).mem (s.setMem m).cr3 w = walk s.mem s.cr3 w := by
    intro w hw hwv
    cases hu : tableAt s (w / 1024) with
    | none => rw [walk_of_none hu, walk_of_none ((htab _).trans hu)]
    | some u =>
      rw [walk_of_table hu, walk_of_table ((htab _).trans hu), Mm.setMem_mem, hm]
      refine congrArg entryFrame (Phys.set_ne ?_)
      by_cases hut : u = t
      · -- another entry of the same table
        subst hut
        have := h.inj _ _ u (by omega) (by omega) hu ht
        exact Or.inr (by omega)
      · exact Or.inl hut
  refine ⟨htables, hpage, ?_, fun w g hw hg => ?_, fun w hw hwv _ => hother w hw hwv⟩
  · rw [htables.walk_window (by omega), htab, ht]
    rfl
  · rw [hother w hw]
    · exact hg
    · intro hwv
      rw [hwv, hnone] at hg
      cases hg

/-- **A new table**, empty, in a frame that the directory does not name. -/
theorem Tables.newTable (h : Tables s) (hd : d < 1023) (hnone : tableAt s d = none) {g : Nat}
    (hout : ∀ e, e < 1024 → tableAt s e ≠ some g)
    (htaken : 0x200 ≤ g → g - 0x200 < 8 * s.kernelPool.bytesLen →
      s.kernelPool.bit (g - 0x200) = true) :
    Tables (s.setMem ((s.mem.set s.cr3 d (entry (g * 4096))).clear g)) ∧
      tableAt (s.setMem ((s.mem.set s.cr3 d (entry (g * 4096))).clear g)) d = some g ∧
      ∀ w, w < 2 ^ 20 → w ≠ 1023 * 1024 + d →
        walk (s.setMem ((s.mem.set s.cr3 d (entry (g * 4096))).clear g)).mem
            (s.setMem ((s.mem.set s.cr3 d (entry (g * 4096))).clear g)).cr3 w =
          walk s.mem s.cr3 w := by
  have hdir : s.cr3 ≠ g := fun hc => hout 1023 (by decide) (hc ▸ h.last)
  obtain ⟨m, hm⟩ : ∃ m, m = (s.mem.set s.cr3 d (entry (g * 4096))).clear g := ⟨_, rfl⟩
  rw [← hm]
  have hnew : tableAt (s.setMem m) d = some g := by
    rw [tableAt, Mm.setMem_mem, Mm.setMem_cr3, hm, Phys.clear_ne hdir, Phys.set_same,
      entryFrame_entry]
  have htab : ∀ e, e ≠ d → tableAt (s.setMem m) e = tableAt s e := by
    intro e he
    rw [tableAt, Mm.setMem_mem, Mm.setMem_cr3, hm, Phys.clear_ne hdir, Phys.set_ne (Or.inr he),
      tableAt]
  have htables : Tables (s.setMem m) := by
    refine ⟨?_, fun a b t ha hb h1 h2 => ?_, fun a t ha h1 => ?_⟩
    · have hlast := h.last
      rw [← htab 1023 (by omega)] at hlast
      exact entryFrame_eq_some.mp hlast
    · by_cases had : a = d
      · by_cases hbd : b = d
        · exact had.trans hbd.symm
        · rw [had, hnew] at h1
          rw [htab b hbd, ← h1] at h2
          exact absurd h2 (hout b hb)
      · rw [htab a had] at h1
        by_cases hbd : b = d
        · rw [hbd, hnew] at h2
          rw [← h2] at h1
          exact absurd h1 (hout a ha)
        · rw [htab b hbd] at h2
          exact h.inj a b t ha hb h1 h2
    · by_cases had : a = d
      · rw [had, hnew] at h1
        rw [← Option.some.inj h1]
        exact htaken
      · rw [htab a had] at h1
        exact h.taken a t ha h1
  refine ⟨htables, hnew, fun w hw hwin => ?_⟩
  by_cases hwd : w / 1024 = d
  · -- the table has no pages yet
    rw [← hwd] at hnew hnone
    rw [walk_of_none hnone]
    refine (walk_of_table hnew).trans ?_
    rw [Mm.setMem_mem, hm, Phys.clear_same, entryFrame_zero]
  · cases hu : tableAt s (w / 1024) with
    | none =>
      rw [walk_of_none hu]
      exact walk_of_none ((htab _ hwd).trans hu)
    | some u =>
      rw [walk_of_table hu]
      refine (walk_of_table ((htab _ hwd).trans hu)).trans ?_
      have hug : u ≠ g := fun hc => hout (w / 1024) (by omega) (hc ▸ hu)
      rw [Mm.setMem_mem, hm, Phys.clear_ne hug]
      refine congrArg entryFrame (Phys.set_ne ?_)
      by_cases huc : u = s.cr3
      · have := h.inj _ 1023 u (by omega) (by decide) hu (huc ▸ h.last)
        exact Or.inr (by omega)
      · exact Or.inl huc

/-! ## `page_table_add` -/

/-- A frame for a table is not one that the directory names. -/
theorem Tables.takeKernel (h : Tables s) {r : Option Nat}
    (hp : pallocFrom L .kernel s = some (r, s1)) : ∃ g, r = some (g * 4096) ∧ Tables s1 ∧
      (∀ e, e < 1024 → tableAt s1 e ≠ some g) ∧ s1.mem = s.mem ∧ s1.cr3 = s.cr3 ∧
      s1.kernelPool.bit (g - 0x200) = true := by
  obtain ⟨i, rfl, hi, hfree, -, rfl⟩ := pallocFrom_kernel hp
  have hsub : 0x200 + i - 0x200 = i := by omega
  refine ⟨0x200 + i, by rw [L.kernelAddr_eq], ⟨h.self, h.inj, fun d t hd ht h1 h2 => ?_⟩, fun e he ht => ?_, rfl, rfl,
    ?_⟩
  · rw [Bitmap.bit_bitmapSet]
    split
    next => rfl
    next => exact h.taken d t hd ht h1 h2
  · have hset := h.taken e (0x200 + i) he ht (by omega) (by omega)
    rw [hsub, hfree] at hset
    cases hset
  · rw [hsub, Bitmap.bit_bitmapSet, if_pos rfl]

section

variable (h : Tables s) (hv : v < 768 * 1024)

include h hv

/-- **`page_table_add`** of a page whose table is there. -/
theorem Tables.pageTableAdd_there {t : Nat} (ht : tableAt s (v / 1024) = some t)
    (hnone : walk s.mem s.cr3 v = none) (f : Nat) :
    ∃ m, pageTableAdd (pallocFrom L) s (v * 4096) (f * 4096) = some (s.setMem m) ∧
      Tables (s.setMem m) ∧ Entered v f s (s.setMem m) := by
  have hv32 : v * 4096 < 2 ^ 32 := by omega
  have hd : v * 4096 / 0x400000 = v / 1024 := by omega
  have hr : v * 4096 / 4096 % 1024 = v % 1024 := by omega
  have ht' : entryFrame (s.mem s.cr3 (v * 4096 / 0x400000)) = some t := by
    rw [hd]
    exact ht
  have hpte : ¬Present (s.mem t (v * 4096 / 4096 % 1024)) := by
    rw [hr, ← entryFrame_eq_none, ← walk_of_table ht]
    exact hnone
  refine ⟨_, ?_, h.enter hv ht hnone f⟩
  rw [pageTableAdd, load_pde h.self hv32, Option.bind_eq_bind, Option.bind_some,
    if_pos (entryFrame_eq_some.mp ht').1, load_pte h.self hv32 ht', Option.bind_eq_bind,
    Option.bind_some, ensure_pos hpte, Option.bind_some, store_pte h.self hv32 ht', hr]

/-- **`page_table_add`** of the first page of a table, in a frame of the kernel's pool. -/
theorem Tables.pageTableAdd_new (ht : tableAt s (v / 1024) = none) {r : Option Nat}
    (hp : pallocFrom L .kernel s = some (r, s1)) (f : Nat) :
    ∃ m, pageTableAdd (pallocFrom L) s (v * 4096) (f * 4096) = some (s1.setMem m) ∧
      Tables (s1.setMem m) ∧ Entered v f s (s1.setMem m) := by
  have hv32 : v * 4096 < 2 ^ 32 := by omega
  have hd : v * 4096 / 0x400000 = v / 1024 := by omega
  have hr : v * 4096 / 4096 % 1024 = v % 1024 := by omega
  obtain ⟨g, rfl, h1, hout, hmem, hcr3, hbit⟩ := h.takeKernel hp
  have hdir : s1.cr3 ≠ g := fun hc => hout 1023 (by decide) (hc ▸ h1.last)
  have ht1 : tableAt s1 (v / 1024) = none := by
    rw [tableAt, hmem, hcr3]
    exact ht
  obtain ⟨h3, htab3, hwalk3⟩ := h1.newTable (by omega) ht1 hout fun _ _ => hbit
  -- the directory with the new table in it, which the window shows at once
  obtain ⟨s2, hs2⟩ : ∃ s2, s2 = s1.setMem (s1.mem.set s1.cr3 (v / 1024) (entry (g * 4096))) :=
    ⟨_, rfl⟩
  have hself2 : SelfMapped s2.mem s2.cr3 := by
    unfold SelfMapped
    rw [hs2, Mm.setMem_mem, Mm.setMem_cr3, Phys.set_ne (Or.inr (by omega))]
    exact h1.self
  have hentry2 : entryFrame (s2.mem s2.cr3 (v * 4096 / 0x400000)) = some g := by
    rw [hs2, Mm.setMem_mem, Mm.setMem_cr3, hd, Phys.set_same, entryFrame_entry]
  obtain ⟨s3, hs3⟩ : ∃ s3, s3 = s2.setMem (s2.mem.clear g) := ⟨_, rfl⟩
  have hs3' : s3 = s1.setMem ((s1.mem.set s1.cr3 (v / 1024) (entry (g * 4096))).clear g) := by
    rw [hs3, hs2, Mm.setMem_setMem, Mm.setMem_mem]
  rw [← hs3'] at h3 htab3 hwalk3
  have hmem3 : s3.mem = (s1.mem.set s1.cr3 (v / 1024) (entry (g * 4096))).clear g := by
    rw [hs3', Mm.setMem_mem]
  rw [hmem, hcr3] at hwalk3
  have hentry3 : entryFrame (s3.mem s3.cr3 (v * 4096 / 0x400000)) = some g := by
    rw [hd]
    exact htab3
  have hnone3 : walk s3.mem s3.cr3 v = none := by
    rw [hwalk3 v (by omega) (by omega), walk_of_none ht]
  obtain ⟨h4, hent⟩ := h3.enter hv htab3 hnone3 f
  have hzero : s3.mem g (v * 4096 / 4096 % 1024) = 0 := by rw [hmem3, Phys.clear_same]
  have hend : s3.setMem (s3.mem.set g (v % 1024) (entry (f * 4096))) =
      s1.setMem (s3.mem.set g (v % 1024) (entry (f * 4096))) := by
    rw [hs3', Mm.setMem_setMem]
  rw [hend] at h4 hent
  refine ⟨_, ?_, h4, hent.page, hent.window, fun w u hw hu => ?_, fun w hw hwv hwin => ?_⟩
  · have hpde : ¬Present (s.mem s.cr3 (v * 4096 / 0x400000)) := by
      rw [hd]
      exact entryFrame_eq_none.mp ht
    rw [pageTableAdd, load_pde h.self hv32, Option.bind_eq_bind, Option.bind_some, if_neg hpde, hp]
    simp only [Option.bind_eq_bind, Option.bind_some, Option.getD_some]
    rw [store_pde h1.self hv32, hd, ← hs2, Option.bind_some, clear_pte hself2 hv32 hentry2, ← hs3,
      Option.bind_some, load_pte h3.self hv32 hentry3, Option.bind_some, hzero,
      ensure_pos (by decide), Option.bind_some, store_pte h3.self hv32 hentry3, hr, hend]
  · apply hent.kept w u hw
    rw [hwalk3 w hw]
    · exact hu
    · intro hc
      rw [hc, h.walk_window (by omega), ht] at hu
      cases hu
  · rw [hent.other w hw hwv hwin, hwalk3 w hw hwin]

/-- Without a frame for the table it does not come back. -/
theorem Tables.pageTableAdd_none (ht : tableAt s (v / 1024) = none)
    (hp : pallocFrom L .kernel s = none) (phy : Nat) :
    pageTableAdd (pallocFrom L) s (v * 4096) phy = none := by
  have hd : v * 4096 / 0x400000 = v / 1024 := by omega
  have hpde : ¬Present (s.mem s.cr3 (v * 4096 / 0x400000)) := by
    rw [hd]
    exact entryFrame_eq_none.mp ht
  rw [pageTableAdd, load_pde h.self (by omega), Option.bind_eq_bind, Option.bind_some, if_neg hpde,
    hp]
  rfl

end

/-! ## Of a process -/

/-- The directory of a process that runs has its tables for itself. -/
theorem Good.tables {S : Spaces} {held : Nat → Prop} {p : Nat} {sp : Space} (hg : Good L s S held)
    (hp : S p = some sp) (ha : sp.alive = true) (hcur : s.cr3 = sp.dir) : Tables s := by
  have hhalf := hg.self
  have hlow : ∀ d, d < 768 → tableAt s d = slotFrame s.mem S (.table p d) := by
    intro d hd
    rw [tableAt, hcur]
    exact (tableFrame_eq hp ha hd).symm
  have hhigh : ∀ d, 768 ≤ d → d < 1023 → tableAt s d = some (0x101 + (d - 768)) := by
    intro d h1 h2
    rw [tableAt, hhalf.tables d h1 h2, entryFrame_entry]
  have hlast : tableAt s 1023 = some s.cr3 := entryFrame_eq_some.mpr hhalf.self
  obtain ⟨-, k, hk⟩ := hg.dir p sp hp
  rw [← hcur] at hk
  -- which place names the frame, or that it is one of the loader's
  have hwhere : ∀ d t, d < 1024 → tableAt s d = some t →
      (d < 768 ∧ slotFrame s.mem S (.table p d) = some t) ∨
      (768 ≤ d ∧ d < 1023 ∧ t = 0x101 + (d - 768)) ∨ (d = 1023 ∧ t = s.cr3) := by
    intro d t hd ht
    by_cases h1 : d < 768
    · exact Or.inl ⟨h1, (hlow d h1).symm.trans ht⟩
    · by_cases h2 : d < 1023
      · exact Or.inr (Or.inl ⟨by omega, h2, Option.some.inj (ht.symm.trans (hhigh d (by omega) h2))⟩)
      · obtain rfl : d = 1023 := by omega
        exact Or.inr (Or.inr ⟨rfl, Option.some.inj (ht.symm.trans hlast)⟩)
  have hpool : ∀ x t, slotFrame s.mem S x = some t → 0x200 ≤ t := fun x t hx => by
    have := hg.inPool x t hx
    cases x with
    | heap k => exact this.1
    | table p d => exact this.1
    | page p v => exact Layout.frame_ge (Or.inr this)
  refine ⟨hhalf.self, fun d e t hd he h1 h2 => ?_, fun d t hd ht hlo hhi => ?_⟩
  · rcases hwhere d t hd h1 with ⟨-, hx⟩ | ⟨hd1, hd2, hx⟩ | ⟨rfl, hx⟩ <;>
      rcases hwhere e t he h2 with ⟨-, hy⟩ | ⟨he1, he2, hy⟩ | ⟨rfl, hy⟩
    · simpa using hg.inj _ _ t hx hy
    · have := hpool _ _ hx
      omega
    · rw [← hy] at hk
      exact absurd (hg.inj _ _ t hx hk) (by simp)
    · have := hpool _ _ hy
      omega
    · omega
    · have := hpool _ _ hk
      omega
    · rw [← hx] at hk
      exact absurd (hg.inj _ _ t hy hk) (by simp)
    · have := hpool _ _ hk
      omega
    · rfl
  · have hslot : ∃ x, slotFrame s.mem S x = some t := by
      rcases hwhere d t hd ht with ⟨-, hx⟩ | ⟨h1, h2, hx⟩ | ⟨-, hx⟩
      · exact ⟨_, hx⟩
      · omega
      · exact ⟨_, by rw [hx]; exact hk⟩
    rw [hg.kernelLen] at hhi
    have hker : L.IsKernel t := ⟨hlo, by omega⟩
    have hlt := Layout.kernel_lt_user hker
    have hbit := (hg.bit t (Or.inl hker)).mpr (Or.inl hslot)
    rw [frameBit, if_neg (by omega)] at hbit
    exact hbit

end OsCore.Paging
