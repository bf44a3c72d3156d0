import OsCore.Kernel.Regions

/-!
# Address spaces and what the calls of a process do to them

The paths by which a process gets and loses pages, one lemma each: `get_a_page`,
`malloc_page` and `mfree_page` below `0xc0000000`, a new directory for a child, and the
walk through the tables at exit. Each says that the book-keeping of frames holds again
and that the address spaces of others and the kernel's heap are as they were
(`Local`).
-/

namespace OsCore.Paging

open OsCore.Lib

variable {L : Layout} {s s' : Mm} {S : Spaces} {held : Nat → Prop} {R : List (Nat × Nat)}

/-! ## Regions and memory -/

/-- The heap's entries are the same, in spaces that may have changed. -/
theorem Regions.congr (h : Regions L s S held R) {S' : Spaces} {held' : Nat → Prop}
    (hgood : Good L s' S' held')
    (hslots : ∀ k, slotFrame s'.mem S' (.heap k) = slotFrame s.mem S (.heap k))
    (hmap : s'.kernelVaddr = s.kernelVaddr) : Regions L s' S' held' R where
  good := hgood
  vlen := by
    rw [hmap]
    exact h.vlen
  pos := h.pos
  small := h.small
  apart := h.apart
  mapped k := by
    rw [hslots]
    exact h.mapped k
  marked := by
    rw [hmap]
    exact h.marked
  marks := by
    rw [hmap]
    exact h.marks

/-- A region that is used in two parts. -/
theorem Regions.split (h : Regions L s S held R) {a n m : Nat} (hr : (a, n + m) ∈ R) (hn : 0 < n)
    (hm : 0 < m) : Regions L s S held ((a, n) :: (a + n, m) :: R.erase (a, n + m)) := by
  have hmem : ∀ b, b ∈ R.erase (a, n + m) ↔ b ≠ (a, n + m) ∧ b ∈ R := fun b =>
    h.nodup.mem_erase_iff
  have hapart : ∀ b ∈ R.erase (a, n + m), Apart (a, n + m) b := fun b hb =>
    h.apart_of_ne hr ((hmem b).mp hb).2 ((hmem b).mp hb).1.symm
  have hsplit : ∀ k, (∃ r ∈ (a, n) :: (a + n, m) :: R.erase (a, n + m), InRegion k r) ↔
      ∃ r ∈ R, InRegion k r := by
    intro k
    constructor
    · intro hin
      obtain ⟨r, hrm, hk⟩ := hin
      rcases List.mem_cons.mp hrm with rfl | hrm
      · exact ⟨_, hr, hk.1, by have := hk.2; dsimp only at this ⊢; omega⟩
      · rcases List.mem_cons.mp hrm with rfl | hrm
        · exact ⟨_, hr, by have := hk.1; dsimp only at this ⊢; omega,
            by have := hk.2; dsimp only at this ⊢; omega⟩
        · exact ⟨r, ((hmem r).mp hrm).2, hk⟩
    · intro hin
      obtain ⟨r, hrm, hk⟩ := hin
      by_cases hra : r = (a, n + m)
      · subst hra
        have h1 := hk.1
        have h2 := hk.2
        dsimp only at h1 h2
        by_cases hka : k < a + n
        · exact ⟨(a, n), by simp, h1, hka⟩
        · exact ⟨(a + n, m), by simp, by dsimp only; omega, by dsimp only; omega⟩
      · exact ⟨r, List.mem_cons_of_mem _ (List.mem_cons_of_mem _ ((hmem r).mpr ⟨hra, hrm⟩)), hk⟩
  have hsub : ∀ r ∈ (a, n) :: (a + n, m) :: R.erase (a, n + m), ∀ k, InRegion k r →
      ∃ r' ∈ R, InRegion k r' := fun r hr' k hk => (hsplit k).mp ⟨r, hr', hk⟩
  have hbound := h.small _ hr
  dsimp only at hbound
  constructor
  case good => exact h.good
  case vlen => exact h.vlen
  case pos =>
    intro r hrm
    rcases List.mem_cons.mp hrm with rfl | hrm
    · exact hn
    · rcases List.mem_cons.mp hrm with rfl | hrm
      · exact hm
      · exact h.pos r ((hmem r).mp hrm).2
  case small =>
    intro r hrm
    rcases List.mem_cons.mp hrm with rfl | hrm
    · dsimp only
      omega
    · rcases List.mem_cons.mp hrm with rfl | hrm
      · dsimp only
        omega
      · exact h.small r ((hmem r).mp hrm).2
  case apart =>
    refine List.pairwise_cons.mpr ⟨fun b hb => ?_, List.pairwise_cons.mpr ⟨fun b hb => ?_,
      h.apart.sublist List.erase_sublist⟩⟩
    · rcases List.mem_cons.mp hb with rfl | hb
      · exact Or.inl (Nat.le_refl _)
      · have := hapart b hb
        unfold Apart at this ⊢
        dsimp only at this ⊢
        omega
    · have := hapart b hb
      unfold Apart at this ⊢
      dsimp only at this ⊢
      omega
  case mapped => exact fun k => (h.mapped k).trans (hsplit k).symm
  case marked =>
    intro r hrm k hk
    obtain ⟨r', hr', hk'⟩ := hsub r hrm k hk
    exact h.marked r' hr' k hk'
  case marks => exact fun k hk hset => (hsplit k).mpr (h.marks k hk hset)

/-- New heap pages, full of zeros. -/
structure NewPages (S : Spaces) (i n : Nat) (s s' : Mm) : Prop where
  now : ∀ k, i ≤ k → k < i + n → ∃ f, slotFrame s'.mem S (.heap k) = some f ∧
    (∀ x, slotFrame s.mem S x ≠ some f) ∧ ∀ j, s'.mem f j = 0
  other : ∀ x, inRun i n x = false → slotFrame s'.mem S x = slotFrame s.mem S x
  data : ∀ g j, 0x200 ≤ g → (∀ k, i ≤ k → k < i + n → slotFrame s'.mem S (.heap k) ≠ some g) →
    s'.mem g j = s.mem g j
  cr3 : s'.cr3 = s.cr3
  userVaddr : s'.userVaddr = s.userVaddr

/-- **`get_kernel_pages`**: no room, or a region more, with zeros in it. -/
theorem Regions.getKernelPages (h : Regions L s S held R) {n : Nat} {v : Option Nat}
    (hrun : getKernelPages (pallocFrom L) s n = some (v, s')) :
    (v = none ∧ s' = s) ∨ ∃ i, v = some (kHeapStart + i * 4096) ∧ NewPages S i n s s' ∧
      Regions L s' S held ((i, n) :: R) := by
  simp only [Paging.getKernelPages, Option.bind_eq_bind, Option.bind_eq_some_iff, Prod.exists]
    at hrun
  obtain ⟨w, t, hmalloc, hend⟩ := hrun
  rcases h.malloc hmalloc with ⟨rfl, rfl⟩ | ⟨i, rfl, -, hmap, ht⟩
  · simp only [Option.pure_def, Option.some.injEq, Prod.mk.injEq] at hend
    exact Or.inl ⟨hend.1.symm, hend.2.symm⟩
  · simp only [Option.bind_eq_some_iff, Option.pure_def, Option.some.injEq, Prod.mk.injEq] at hend
    obtain ⟨t', hclear, rfl, rfl⟩ := hend
    have hmax : i + n ≤ heapMax := ht.lt_heapMax List.mem_cons_self
    have hdir : ∀ k f, i ≤ k → k < i + n → slotFrame t.mem S (.heap k) = some f → NoDir S f := by
      intro k f h1 h2 hf p sp hp
      obtain ⟨g, hg, hfree⟩ := hmap.now k h1 h2
      rw [hf] at hg
      obtain rfl := Option.some.inj hg
      exact h.good.dir_ne hfree hp
    obtain ⟨hc, hgood⟩ := ht.good.clearHeap hmax hdir hclear
    refine Or.inr ⟨i, rfl, ⟨fun k h1 h2 => ?_, fun x hx => ?_, fun g j hg hout => ?_, ?_, ?_⟩,
      ht.congr hgood (fun k => hc.slots _) hc.rest.kernelVaddr⟩
    · obtain ⟨f, hf, hfree⟩ := hmap.now k h1 h2
      exact ⟨f, (hc.slots _).trans hf, hfree, fun j => hc.zero k f j h1 h2 hf⟩
    · rw [hc.slots]
      apply hmap.other x
      intro k h1 h2 he
      rw [he, inRun_heap.mpr ⟨h1, h2⟩] at hx
      cases hx
    · rw [hc.data g j fun k h1 h2 hk => hout k h1 h2 ((hc.slots _).trans hk), hmap.data g j hg]
    · exact hc.rest.cr3.trans hmap.rest.cr3
    · exact hc.rest.userVaddr.trans hmap.rest.userVaddr

/-! ## Pages of a process -/

/-- The place is in the address space of `p`. -/
def Slot.of (p : Nat) : Slot → Bool
  | .heap _ => false
  | .table q _ => q == p
  | .page q _ => q == p

/-- Only the address space of `p` has changed. -/
structure Local (S : Spaces) (p : Nat) (s s' : Mm) : Prop where
  other : ∀ x, x.of p = false → slotFrame s'.mem S x = slotFrame s.mem S x
  cr3 : s'.cr3 = s.cr3
  kernelVaddr : s'.kernelVaddr = s.kernelVaddr
  userLen : s'.userVaddr.bytesLen = s.userVaddr.bytesLen

theorem Local.refl (S : Spaces) (p : Nat) (s : Mm) : Local S p s s := ⟨fun _ _ => rfl, rfl, rfl, rfl⟩

theorem Local.trans {p : Nat} {s t u : Mm} (h1 : Local S p s t) (h2 : Local S p t u) :
    Local S p s u :=
  ⟨fun x hx => (h2.other x hx).trans (h1.other x hx), h2.cr3.trans h1.cr3,
    h2.kernelVaddr.trans h1.kernelVaddr, h2.userLen.trans h1.userLen⟩

theorem AddedPage.local {p v f : Nat} {sp : Space} (h : AddedPage S p sp v f s s') :
    Local S p s s' where
  other x hx := by
    refine h.other x ?_ ?_
    · intro heq
      subst heq
      simp [Slot.of] at hx
    · intro heq
      subst heq
      simp [Slot.of] at hx
  cr3 := h.cr3
  kernelVaddr := h.kernelVaddr
  userLen := by rw [h.userVaddr]

/-- Regions stay what they are. -/
theorem Regions.local (h : Regions L s S held R) {p : Nat} (hl : Local S p s s')
    (hgood : Good L s' S held) : Regions L s' S held R :=
  h.congr hgood (fun _ => hl.other _ rfl) hl.kernelVaddr

theorem Good.setUserVaddr (hg : Good L s S held) (b : Bitmap) :
    Good L { s with userVaddr := b } S held := hg.reuse s.kernelVaddr b hg.cur

/-- The page at `0xc0000000` is mapped, in a table of the kernel. -/
theorem Good.pageTableAdd_low (hg : Good L s S held) (phy : Nat) :
    pageTableAdd (pallocFrom L) s (768 * 1024 * 4096) phy = none := by
  have hhalf := hg.self
  have hd : 768 * 1024 * 4096 / 0x400000 = 768 := by decide
  have hr : 768 * 1024 * 4096 / 4096 % 1024 = 0 := by decide
  have htab : entryFrame (s.mem s.cr3 (768 * 1024 * 4096 / 0x400000)) = some 0x101 := by
    rw [hd, hhalf.tables 768 (by decide) (by decide), entryFrame_entry]
  cases hrun : pageTableAdd (pallocFrom L) s (768 * 1024 * 4096) phy with
  | none => rfl
  | some s' =>
    rcases pageTableAdd_cases hhalf.self (by decide) hrun with ⟨t, ht, hnone, -⟩ | ⟨hno, -⟩
    · rw [htab] at ht
      obtain rfl := Option.some.inj ht
      rw [hr, entryFrame_eq_none] at hnone
      exact absurd (hg.low 0 (by decide)) hnone
    · rw [htab] at hno
      cases hno

/-- A page that is mapped is below `0xc0000000`, in a table of its process. -/
theorem page_mapped {m : Phys} {p v f : Nat} (h : slotFrame m S (.page p v) = some f) :
    ∃ t, tableFrame m S p (v / 1024) = some t ∧ entryFrame (m t (v % 1024)) = some f ∧
      v < 768 * 1024 := by
  obtain ⟨t, ht, hf⟩ := Option.bind_eq_some_iff.mp h
  obtain ⟨-, -, -, hd, -⟩ := tableFrame_some.mp ht
  exact ⟨t, ht, hf, by omega⟩

/-- A frame of the user pool is in its range. -/
theorem Layout.user_addr {L : Layout} {f : Nat} (h : L.IsUser f) : L.userStart ≤ f * 4096 := by
  have h1 := h.1
  have h2 := L.userStart_eq
  omega

section

variable {p : Nat} {sp : Space} (hp : S p = some sp) (ha : sp.alive = true)

include hp ha

section

variable (hcur : s.cr3 = sp.dir)

include hcur

/-- A frame of the user pool is taken and entered for page `v`. -/
theorem Good.userPage (hg : Good L s S held) {r : Option Nat} {s1 : Mm}
    (htake : pallocFrom L .user s = some (r, s1)) :
    ∃ f, r = some (f * 4096) ∧ (∀ x, slotFrame s.mem S x ≠ some f) ∧
      ∀ v s2, v < 768 * 1024 → pageTableAdd (pallocFrom L) s1 (v * 4096) (f * 4096) = some s2 →
        AddedPage S p sp v f s s2 ∧ Good L s2 S held := by
  obtain ⟨f, rfl, huser, hfree, hnheld, rfl, hg1⟩ := hg.take htake
  refine ⟨f, rfl, hfree, fun v s2 hv hadd => ?_⟩
  obtain ⟨hadded, hgood⟩ := hg1.addPage hp ha (by rw [setFrameBit_cr3]; exact hcur) hv (Or.inr rfl)
    huser hadd
  refine ⟨⟨?_, hadded.slot, ?_, ?_, ?_, ?_, ?_, ?_⟩, hgood.held_congr fun g => ?_⟩
  · simpa using hadded.was
  · simpa using hadded.other
  · simpa using hadded.table
  · simpa using hadded.data
  · simpa using hadded.cr3
  · simpa using hadded.kernelVaddr
  · simpa using hadded.userVaddr
  · exact ⟨fun hh => ⟨Or.inl hh, fun he => hnheld (he ▸ hh)⟩, fun ⟨hor, hne⟩ => hor.resolve_right hne⟩

/-- **`get_a_page_without_opvaddrbitmap`**. -/
theorem Good.getAPageWithoutOp (hg : Good L s S held) {v : Nat} (hv : v < 768 * 1024)
    {r : Option Nat} (h : getAPageWithoutOpvaddrbitmap (pallocFrom L) s (v * 4096) = some (r, s')) :
    ∃ f, r = some (v * 4096) ∧ (∀ x, slotFrame s.mem S x ≠ some f) ∧ AddedPage S p sp v f s s' ∧
      Good L s' S held := by
  obtain ⟨⟨r1, s1⟩, htake, h⟩ := Option.bind_eq_some_iff.mp h
  obtain ⟨f, rfl, hfree, hpage⟩ := hg.userPage hp ha hcur htake
  obtain ⟨s2, hadd, h⟩ := Option.bind_eq_some_iff.mp h
  obtain ⟨hadded, hgood⟩ := hpage v s2 hv hadd
  simp only [Option.pure_def, Option.some.injEq, Prod.mk.injEq] at h
  obtain ⟨rfl, rfl⟩ := h
  exact ⟨f, rfl, hfree, hadded, hgood⟩

end

/-- The bit `get_a_page` sets. -/
def pageBit (vaddr : Nat) : Nat := (vaddr + 2 ^ 32 - userVaddrStart) % 2 ^ 32 / 4096

/-- **`get_a_page`** marks the page, and is otherwise the same. -/
theorem Good.getAPage (hcur : s.cr3 = sp.dir) (hg : Good L s S held) {v : Nat} (hv : v < 768 * 1024)
    {r : Option Nat} (h : getAPage (pallocFrom L) s (v * 4096) = some (r, s')) :
    ∃ f, r = some (v * 4096) ∧ (∀ x, slotFrame s.mem S x ≠ some f) ∧
      AddedPage S p sp v f
        { s with userVaddr := s.userVaddr.bitmapSet (pageBit (v * 4096)) true } s' ∧
      Local S p s s' ∧ Good L s' S held := by
  obtain ⟨⟨r1, s1⟩, htake, h⟩ := Option.bind_eq_some_iff.mp h
  have hg0 := hg.setUserVaddr (s.userVaddr.bitmapSet (pageBit (v * 4096)) true)
  obtain ⟨f, rfl, hfree, hpage⟩ := Good.userPage (s := { s with
    userVaddr := s.userVaddr.bitmapSet (pageBit (v * 4096)) true }) hp ha hcur hg0 htake
  obtain ⟨s2, hadd, h⟩ := Option.bind_eq_some_iff.mp h
  obtain ⟨hadded, hgood⟩ := hpage v s2 hv hadd
  simp only [Option.pure_def, Option.some.injEq, Prod.mk.injEq] at h
  obtain ⟨rfl, rfl⟩ := h
  refine ⟨f, rfl, hfree, hadded, ?_, hgood⟩
  exact ⟨hadded.local.other, hadded.cr3, hadded.kernelVaddr, by rw [hadded.userVaddr]; rfl⟩

/-- The loop of `malloc_page`, which may come to the page at `0xc0000000`. -/
theorem Good.mallocUser : ∀ {cnt v : Nat} {s s' : Mm} {done : Bool}, s.cr3 = sp.dir →
    Good L s S held → v + cnt ≤ 768 * 1024 + 1 →
    mallocLoop (pallocFrom L) .user cnt (v * 4096) s = some (done, s') →
    Local S p s s' ∧ Good L s' S held := by
  intro cnt
  induction cnt with
  | zero =>
    intro v s s' done _ hg _ h
    simp only [mallocLoop, Option.some.injEq, Prod.mk.injEq] at h
    obtain ⟨-, rfl⟩ := h
    exact ⟨.refl S p s, hg⟩
  | succ cnt ih =>
    intro v s s' done hcur hg hv h
    obtain ⟨⟨r, s1⟩, htake, h⟩ := Option.bind_eq_some_iff.mp h
    by_cases hlast : v = 768 * 1024
    · -- the entry is there, and the assertion fails
      obtain ⟨f, rfl, -, -, -, -, hg1⟩ := hg.take htake
      obtain ⟨s2, hadd, -⟩ := Option.bind_eq_some_iff.mp h
      rw [hlast, hg1.pageTableAdd_low] at hadd
      cases hadd
    · obtain ⟨f, rfl, -, hpage⟩ := hg.userPage hp ha hcur htake
      obtain ⟨s2, hadd, h⟩ := Option.bind_eq_some_iff.mp h
      obtain ⟨hadded, hgood⟩ := hpage v s2 (by omega) hadd
      have hnext : v * 4096 + 4096 = (v + 1) * 4096 := by omega
      rw [hnext] at h
      obtain ⟨hl, hg'⟩ := ih (hadded.cr3.trans hcur) hgood (by omega) h
      exact ⟨hadded.local.trans hl, hg'⟩

/-- **`malloc_page`** of a process. -/
theorem Good.mallocPageUser (hcur : s.cr3 = sp.dir) (hg : Good L s S held)
    (hlen : s.userVaddr.bytesLen = userBitmapLen) {n : Nat} {r : Option Nat}
    (h : mallocPage (pallocFrom L) .user s n = some (r, s')) :
    Local S p s s' ∧ Good L s' S held := by
  simp only [mallocPage, vaddrGet, Option.bind_eq_bind, Option.bind_eq_some_iff, ensure_eq_some,
    exists_const, Prod.exists] at h
  obtain ⟨⟨hn, -⟩, r1, t, ⟨x, hscan, hget⟩, h⟩ := h
  by_cases hx : x = -1
  · simp only [if_pos hx, Option.pure_def, Option.some.injEq, Prod.mk.injEq] at hget
    obtain ⟨rfl, rfl⟩ := hget
    simp only [Option.pure_def, Option.some.injEq, Prod.mk.injEq] at h
    obtain ⟨-, rfl⟩ := h
    exact ⟨.refl S p s, hg⟩
  · rcases Bitmap.bitmapScan_zero hn hscan with hm1 | ⟨i, rfl, hi, -⟩
    · exact absurd hm1 hx
    simp only [if_neg hx, Option.bind_eq_some_iff, Option.pure_def, Option.some.injEq,
      Prod.mk.injEq, Int.toNat_natCast] at hget
    obtain ⟨-, -, rfl, rfl⟩ := hget
    simp only [Option.bind_eq_some_iff, Option.pure_def, Option.some.injEq, Prod.mk.injEq,
      Prod.exists] at h
    obtain ⟨done, s1, hloop, -, rfl⟩ := h
    have haddr : userVaddrStart + i * 4096 = (0x8048 + i) * 4096 := by
      unfold userVaddrStart
      omega
    have hbound : 0x8048 + i + n ≤ 768 * 1024 + 1 := by
      have h8 : 8 * userBitmapLen = 753592 := by decide
      rw [hlen] at hi
      omega
    rw [haddr] at hloop
    obtain ⟨hl, hgood⟩ := Good.mallocUser (s := { s with
      userVaddr := setBits s.userVaddr i true n }) hp ha hcur (hg.setUserVaddr _) hbound hloop
    exact ⟨⟨hl.other, hl.cr3, hl.kernelVaddr, hl.userLen.trans bytesLen_setBits⟩, hgood⟩

/-- The entry of a page that is mapped, through the window. -/
theorem Good.load_page (hcur : s.cr3 = sp.dir) (hg : Good L s S held) {v f : Nat}
    (h : slotFrame s.mem S (.page p v) = some f) :
    ∃ t w, tableFrame s.mem S p (v / 1024) = some t ∧ v < 768 * 1024 ∧ frameOf w = f ∧
      s.load (ptePtr (v * 4096)) = some w ∧
      ∀ w', s.store (ptePtr (v * 4096)) w' = some (s.setMem (s.mem.set t (v % 1024) w')) := by
  obtain ⟨t, ht, hf, hv⟩ := page_mapped h
  have hd : v * 4096 / 0x400000 = v / 1024 := by omega
  have hr : v * 4096 / 4096 % 1024 = v % 1024 := by omega
  have htab : entryFrame (s.mem s.cr3 (v * 4096 / 0x400000)) = some t := by
    rw [hd, hcur, ← tableFrame_eq hp ha (by omega)]
    exact ht
  refine ⟨t, s.mem t (v % 1024), ht, hv, (entryFrame_eq_some.mp hf).2, ?_, fun w' => ?_⟩
  · rw [load_pte hg.self.self (by omega) htab, hr]
  · rw [store_pte hg.self.self (by omega) htab, hr]

/-- One round of `mfree_page` of a process. -/
theorem Good.freePage (hcur : s.cr3 = sp.dir) (hg : Good L s S held) {v f : Nat}
    (hslot : slotFrame s.mem S (.page p v) = some f) :
    ∃ s', pageTablePteRemove (pfree L s (f * 4096)) (v * 4096) = some s' ∧
      (∀ x, slotFrame s'.mem S x = if x = .page p v then none else slotFrame s.mem S x) ∧
      SameRest s s' ∧ Good L s' S held := by
  obtain ⟨t, w, ht, hv, hw, hload, hstore⟩ := hg.load_page hp ha hcur hslot
  have hvv : v / 1024 * 1024 + v % 1024 = v := by omega
  have hslots : ∀ x, slotFrame (s.mem.set t (v % 1024) (w / 2 * 2)) S x =
      if x = .page p v then none else slotFrame s.mem S x := by
    intro x
    rw [hg.slotFrame_page ht (Nat.mod_lt _ (by decide)), hvv, entryFrame_removed]
  have hdir : NoDir S f := by
    intro q sq hq heq
    subst heq
    obtain ⟨-, k, hk⟩ := hg.dir q sq hq
    exact absurd (hg.inj _ _ _ hk hslot) (by simp)
  have hhalf : SameHalf S s.mem (s.mem.set t (v % 1024) (w / 2 * 2)) :=
    .of_frame (hg.table_kernel ht).1 (fun q sq hq => (hg.table_ne_dir ht hq).symm)
      fun g j hg => Phys.set_ne (Or.inl hg)
  have hgive := (hg.leave hslot hdir hslots hhalf).give (f := f) (Or.inr rfl)
  have hheldf : ¬held f := hg.heldOut _ f hslot
  have hgood := hgive.held_congr (P := held) fun g =>
    ⟨fun hh => ⟨Or.inl hh, fun he => hheldf (he ▸ hh)⟩, fun ⟨hor, hne⟩ => hor.resolve_right hne⟩
  rw [setFrameBit_setMem] at hgood
  have hload' := hload
  rw [← setFrameBit_load L s f false] at hload'
  have hstore' := setFrameBit_store L s f false (ptePtr (v * 4096)) (w / 2 * 2)
  rw [hstore, Option.map_some, Mm.setMem_mem] at hstore'
  refine ⟨(setFrameBit L s f false).setMem (s.mem.set t (v % 1024) (w / 2 * 2)), ?_, hslots,
    (sameRest_setFrameBit L s f false).trans (sameRest_setMem _ _), hgood⟩
  rw [pfree_eq, pageTablePteRemove, hload', Option.bind_eq_bind, Option.bind_some]
  exact hstore'

/-- The address `addr_v2p` finds for a page that is mapped. -/
theorem Good.addrV2p_page (hcur : s.cr3 = sp.dir) (hg : Good L s S held) {v f : Nat}
    (h : slotFrame s.mem S (.page p v) = some f) : addrV2p s (v * 4096) = some (f * 4096) := by
  obtain ⟨t, w, -, -, hw, hload, -⟩ := hg.load_page hp ha hcur h
  have hoff : v * 4096 % 4096 = 0 := by omega
  rw [addrV2p, hload, Option.map_some, hw, hoff, Nat.add_zero]

/-- The loop of `mfree_page` over pages that are mapped. -/
theorem Good.mfreeUser : ∀ {cnt v : Nat} {s : Mm}, s.cr3 = sp.dir → Good L s S held →
    (∀ k, v ≤ k → k < v + cnt → ∃ f, slotFrame s.mem S (.page p k) = some f) →
    ∃ s', mfreeLoop L (fun a => L.userStart ≤ a) cnt (v * 4096) s = some s' ∧ Local S p s s' ∧
      s'.userVaddr = s.userVaddr ∧ Good L s' S held := by
  intro cnt
  induction cnt with
  | zero => exact fun {v s} _ hg _ => ⟨s, rfl, .refl S p s, rfl, hg⟩
  | succ cnt ih =>
    intro v s hcur hg hmapped
    obtain ⟨f, hslot⟩ := hmapped v (Nat.le_refl v) (by omega)
    have huser := Layout.user_addr (hg.inPool (.page p v) f hslot)
    obtain ⟨s1, hs1, hslots, hrest, hg1⟩ := hg.freePage hp ha hcur hslot
    have hmapped1 : ∀ k, v + 1 ≤ k → k < v + 1 + cnt →
        ∃ g, slotFrame s1.mem S (.page p k) = some g := by
      intro k h1 h2
      obtain ⟨g, hg'⟩ := hmapped k (by omega) (by omega)
      have hne : Slot.page p k ≠ .page p v := by simp; omega
      exact ⟨g, by rw [hslots, if_neg hne]; exact hg'⟩
    have hlocal : Local S p s s1 := by
      refine ⟨fun x hx => ?_, hrest.cr3, hrest.kernelVaddr, by rw [hrest.userVaddr]⟩
      have hne : x ≠ .page p v := by
        intro heq
        subst heq
        simp [Slot.of] at hx
      rw [hslots, if_neg hne]
    obtain ⟨s', hloop, hl, huv, hgood⟩ := ih (hrest.cr3.trans hcur) hg1 hmapped1
    have hnext : v * 4096 + 4096 = (v + 1) * 4096 := by omega
    refine ⟨s', ?_, hlocal.trans hl, huv.trans hrest.userVaddr, hgood⟩
    rw [mfreeLoop, hg.addrV2p_page hp ha hcur hslot, Option.bind_eq_bind, Option.bind_some,
      ensure_pos ⟨by omega, by simpa using huser⟩, Option.bind_eq_bind, Option.bind_some, hs1,
      Option.bind_eq_bind, Option.bind_some, hnext]
    exact hloop

/-- **`mfree_page`** of pages that the process has. -/
theorem Good.mfreePageUser (hcur : s.cr3 = sp.dir) (hg : Good L s S held) {v n : Nat} (hn : 0 < n)
    (hmapped : ∀ k, v ≤ k → k < v + n → ∃ f, slotFrame s.mem S (.page p k) = some f) :
    ∃ s', mfreePage L .user s (v * 4096) n = some s' ∧ Local S p s s' ∧ Good L s' S held := by
  obtain ⟨f, hslot⟩ := hmapped v (Nat.le_refl v) (by omega)
  have huser := Layout.user_addr (hg.inPool (.page p v) f hslot)
  have hlow : 0x102000 ≤ f * 4096 := by
    have h1 : 0x200 ≤ f := Layout.frame_ge (Or.inr (hg.inPool (.page p v) f hslot))
    omega
  obtain ⟨t, hloop, hl, huv, hgood⟩ := hg.mfreeUser hp ha hcur hmapped
  refine ⟨vaddrRemove .user t (v * 4096) n, ?_, ?_, hgood.setUserVaddr _⟩
  · rw [mfreePage, ensure_pos ⟨hn, by omega⟩, Option.bind_eq_bind, Option.bind_some,
      hg.addrV2p_page hp ha hcur hslot, Option.bind_eq_bind, Option.bind_some,
      ensure_pos ⟨by omega, hlow⟩, Option.bind_eq_bind, Option.bind_some, if_pos huser, hloop,
      Option.bind_some]
    rfl
  · exact ⟨hl.other, hl.cr3, hl.kernelVaddr, bytesLen_setBits.trans hl.userLen⟩

end

end OsCore.Paging
