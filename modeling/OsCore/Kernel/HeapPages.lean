import OsCore.Kernel.FrameSteps

/-!
# Pages of the kernel's heap and their frames

The loops of `malloc_page`, `mfree_page` and the `memset` of `get_kernel_pages`, over
a run of heap pages: which entries change, which frames they name afterwards, and
that the book-keeping of frames holds again at the end. A heap page is named by its
number, `kHeapStart + k * 4096` is its address.
-/

namespace OsCore.Paging

open OsCore.Lib

variable {L : Layout} {s s' : Mm} {S : Spaces} {held : Nat → Prop}

/-- Frame `f` is the directory of no process. -/
def NoDir (S : Spaces) (f : Nat) : Prop := ∀ p sp, S p = some sp → sp.dir ≠ f

/-- The same but for memory and pools. -/
structure SameRest (s s' : Mm) : Prop where
  cr3 : s'.cr3 = s.cr3
  kernelVaddr : s'.kernelVaddr = s.kernelVaddr
  userVaddr : s'.userVaddr = s.userVaddr

theorem SameRest.refl (s : Mm) : SameRest s s := ⟨rfl, rfl, rfl⟩

theorem SameRest.trans {s t u : Mm} (h1 : SameRest s t) (h2 : SameRest t u) : SameRest s u :=
  ⟨h2.cr3.trans h1.cr3, h2.kernelVaddr.trans h1.kernelVaddr, h2.userVaddr.trans h1.userVaddr⟩

theorem sameRest_setFrameBit (L : Layout) (s : Mm) (f : Nat) (v : Bool) :
    SameRest s (setFrameBit L s f v) := ⟨by simp, by simp, by simp⟩

theorem sameRest_setMem (s : Mm) (m : Phys) : SameRest s (s.setMem m) := ⟨rfl, rfl, rfl⟩

/-! ## Pages are mapped -/

/-- Heap pages `i` to `i + cnt - 1` get frames that were free. -/
structure MappedPages (S : Spaces) (i cnt : Nat) (s s' : Mm) : Prop where
  was : ∀ k, i ≤ k → k < i + cnt → slotFrame s.mem S (.heap k) = none
  now : ∀ k, i ≤ k → k < i + cnt → ∃ f, slotFrame s'.mem S (.heap k) = some f ∧
    ∀ x, slotFrame s.mem S x ≠ some f
  other : ∀ x, (∀ k, i ≤ k → k < i + cnt → x ≠ .heap k) →
    slotFrame s'.mem S x = slotFrame s.mem S x
  data : ∀ g j, 0x200 ≤ g → s'.mem g j = s.mem g j
  rest : SameRest s s'

theorem Good.mallocHeap : ∀ {cnt i : Nat} {s s' : Mm} {done : Bool}, Good L s S held →
    i + cnt ≤ heapMax →
    mallocLoop (pallocFrom L) .kernel cnt (kHeapStart + i * 4096) s = some (done, s') →
    done = true ∧ MappedPages S i cnt s s' ∧ Good L s' S held := by
  intro cnt
  induction cnt with
  | zero =>
    intro i s s' done hg _ h
    simp only [mallocLoop, Option.some.injEq, Prod.mk.injEq] at h
    obtain ⟨rfl, rfl⟩ := h
    exact ⟨rfl, ⟨fun k h1 h2 => absurd h2 (by omega), fun k h1 h2 => absurd h2 (by omega),
      fun _ _ => rfl, fun _ _ _ => rfl, .refl s⟩, hg⟩
  | succ cnt ih =>
    intro i s s' done hg hi h
    obtain ⟨⟨r, s1⟩, htake, h⟩ := Option.bind_eq_some_iff.mp h
    obtain ⟨f, rfl, hker, hfree, hnheld, rfl, hg1⟩ := hg.take htake
    obtain ⟨s2, hadd, h⟩ := Option.bind_eq_some_iff.mp h
    have hk : i < heapMax := by omega
    obtain ⟨hnone, rfl, hg2⟩ := hg1.addHeap hk (Or.inr rfl) hker hadd
    have hg2' : Good L ((setFrameBit L s f true).setMem
        ((setFrameBit L s f true).mem.set (heapTable i) ((0x100 + i) % 1024) (entry (f * 4096)))) S
        held := hg2.held_congr fun g =>
      ⟨fun hh => ⟨Or.inl hh, fun he => hnheld (he ▸ hh)⟩, fun ⟨hor, hne⟩ => hor.resolve_right hne⟩
    have hnext : kHeapStart + i * 4096 + 4096 = kHeapStart + (i + 1) * 4096 := by omega
    rw [hnext] at h
    obtain ⟨hdone, hmap, hgood⟩ := ih hg2' (by omega) h
    rw [setFrameBit_mem] at hnone hmap
    have hslots := fun x => hg.slotFrame_heap (w := entry (f * 4096)) hk x
    simp only [entryFrame_entry] at hslots
    have hself : slotFrame s'.mem S (.heap i) = some f := by
      rw [hmap.other _ fun k h1 h2 => by simp; omega, Mm.setMem_mem, hslots, if_pos rfl]
    refine ⟨hdone, ⟨fun k h1 h2 => ?_, fun k h1 h2 => ?_, fun x hx => ?_, fun g j hg' => ?_, ?_⟩,
      hgood⟩
    · by_cases hki : k = i
      · rw [hki]
        exact hnone
      · have := hmap.was k (by omega) (by omega)
        rw [Mm.setMem_mem, hslots, if_neg (by simpa using hki)] at this
        exact this
    · by_cases hki : k = i
      · subst hki
        exact ⟨f, hself, hfree⟩
      · obtain ⟨g, hgk, hgfree⟩ := hmap.now k (by omega) (by omega)
        refine ⟨g, hgk, fun x hx => ?_⟩
        -- a frame that was named is named in the same place after the first page
        have hxi : x ≠ .heap i := by
          intro heq
          subst heq
          rw [hnone] at hx
          cases hx
        exact hgfree x (by rw [Mm.setMem_mem, hslots, if_neg hxi]; exact hx)
    · rw [hmap.other x fun k h1 h2 => hx k (by omega) (by omega), Mm.setMem_mem, hslots,
        if_neg (hx i (Nat.le_refl i) (by omega))]
    · have := heapTable_lt hk
      rw [hmap.data g j hg', Mm.setMem_mem, Phys.set_ne (Or.inl (by omega))]
    · exact ((sameRest_setFrameBit L s f true).trans (sameRest_setMem _ _)).trans hmap.rest

/-! ## Pages are cleared -/

/-- A frame that is neither directory nor table is written to. -/
theorem Good.write (hg : Good L s S held) {f : Nat} {x : Slot} {m : Phys}
    (hx : slotFrame s.mem S x = some f) (htable : ∀ p d, x ≠ .table p d) (hdir : NoDir S f)
    (hm : ∀ g j, g ≠ f → m g j = s.mem g j) :
    (∀ y, slotFrame m S y = slotFrame s.mem S y) ∧ Good L (s.setMem m) S held := by
  have hf2 : 0x200 ≤ f := by
    have := hg.inPool x f hx
    cases x with
    | heap k => exact this.1
    | table p d => exact this.1
    | page p v => exact Layout.frame_ge (Or.inr this)
  have htab : ∀ p d, tableFrame s.mem S p d ≠ some f := fun p d ht =>
    htable p d (hg.inj x (.table p d) f hx ht)
  have hslots := slotFrame_data hf2 hdir htab hm
  exact ⟨hslots, hg.keep hslots (.of_frame hf2 hdir hm)⟩

/-- What zeroing heap pages `i` to `i + n - 1` changes. -/
structure Cleared (S : Spaces) (i n : Nat) (s s' : Mm) : Prop where
  slots : ∀ x, slotFrame s'.mem S x = slotFrame s.mem S x
  zero : ∀ k f j, i ≤ k → k < i + n → slotFrame s.mem S (.heap k) = some f → s'.mem f j = 0
  data : ∀ g j, (∀ k, i ≤ k → k < i + n → slotFrame s.mem S (.heap k) ≠ some g) →
    s'.mem g j = s.mem g j
  rest : SameRest s s'
  kernelPool : s'.kernelPool = s.kernelPool
  userPool : s'.userPool = s.userPool

theorem Good.clearHeap : ∀ {n i : Nat} {s s' : Mm}, Good L s S held → i + n ≤ heapMax →
    (∀ k f, i ≤ k → k < i + n → slotFrame s.mem S (.heap k) = some f → NoDir S f) →
    Mm.clearPages (kHeapStart + i * 4096) n s = some s' →
    Cleared S i n s s' ∧ Good L s' S held := by
  intro n
  induction n with
  | zero =>
    intro i s s' hg _ _ h
    rw [← Option.some.inj h]
    exact ⟨⟨fun _ => rfl, fun k f j h1 h2 => absurd h2 (by omega), fun _ _ _ => rfl, .refl s, rfl, rfl⟩,
      hg⟩
  | succ n ih =>
    intro i s s' hg hi hdir h
    have hk : i < heapMax := by omega
    obtain ⟨s1, hclear, h⟩ := Option.bind_eq_some_iff.mp h
    obtain ⟨f, hwalk, hs1⟩ := Option.map_eq_some_iff.mp hclear
    rw [heapAddr_div, walk_heap (S := S) hg.self hk] at hwalk
    have hs1' : s1 = s.setMem (s.mem.clear f) := hs1.symm
    subst hs1'
    obtain ⟨hslots, hg1⟩ := hg.write (m := s.mem.clear f) hwalk (by simp)
      (hdir i f (Nat.le_refl i) (by omega) hwalk) (fun g j hgf => Phys.clear_ne hgf)
    have hnext : kHeapStart + i * 4096 + 4096 = kHeapStart + (i + 1) * 4096 := by omega
    rw [hnext] at h
    obtain ⟨hc, hgood⟩ := ih hg1 (by omega)
      (fun k g h1 h2 hg' => hdir k g (by omega) (by omega) ((hslots _).symm.trans hg')) h
    refine ⟨⟨fun x => (hc.slots x).trans (hslots x), fun k g j h1 h2 hkg => ?_, fun g j hout => ?_,
      (sameRest_setMem _ _).trans hc.rest, hc.kernelPool, hc.userPool⟩, hgood⟩
    · by_cases hki : k = i
      · subst hki
        rw [hwalk] at hkg
        obtain rfl := Option.some.inj hkg
        rw [hc.data, Mm.setMem_mem, Phys.clear_same]
        intro k' h1' h2' hk'
        rw [Mm.setMem_mem, hslots] at hk'
        have := hg.inj (.heap k') (.heap k) f hk' hwalk
        simp only [Slot.heap.injEq] at this
        omega
      · exact hc.zero k g j (by omega) (by omega) ((hslots _).trans hkg)
    · have hgf : g ≠ f := fun h => hout i (Nat.le_refl i) (by omega) (h ▸ hwalk)
      rw [hc.data, Mm.setMem_mem, Phys.clear_ne hgf]
      intro k h1 h2 hk'
      rw [Mm.setMem_mem, hslots] at hk'
      exact hout k (by omega) (by omega) hk'

/-! ## Pages are given back -/

/-- The entry of a heap page, through the window. -/
theorem Good.load_heap (hg : Good L s S held) {k : Nat} (hk : k < heapMax) :
    s.load (ptePtr (kHeapStart + k * 4096)) = some (heapWord s.mem k) ∧
      ∀ w, s.store (ptePtr (kHeapStart + k * 4096)) w =
        some (s.setMem (s.mem.set (heapTable k) ((0x100 + k) % 1024) w)) := by
  have hhalf := hg.self
  obtain ⟨hv, hd, hr⟩ := heapAddr_slices hk
  have htab : entryFrame (s.mem s.cr3 ((kHeapStart + k * 4096) / 0x400000)) = some (heapTable k) := by
    rw [hd, hhalf.heap_entry hk, entryFrame_entry]
  refine ⟨?_, fun w => ?_⟩
  · rw [load_pte hhalf.self hv htab, hr]
    rfl
  · rw [store_pte hhalf.self hv htab, hr]

/-- The frame of a heap page, as `addr_v2p` reads it. -/
theorem Good.addrV2p_heap (hg : Good L s S held) {k f : Nat} (hk : k < heapMax)
    (hslot : slotFrame s.mem S (.heap k) = some f) :
    addrV2p s (kHeapStart + k * 4096) = some (f * 4096) := by
  have hoff : (kHeapStart + k * 4096) % 4096 = 0 := by
    unfold kHeapStart
    omega
  have hframe : frameOf (heapWord s.mem k) = f := by
    simp only [slotFrame, if_pos hk] at hslot
    exact (entryFrame_eq_some.mp hslot).2
  rw [addrV2p, (hg.load_heap hk).1, Option.map_some, hoff, hframe, Nat.add_zero]

/-- One round of `mfree_page`: the frame goes back and its page is unmapped. -/
theorem Good.freeHeap (hg : Good L s S held) {k f : Nat} (hk : k < heapMax)
    (hslot : slotFrame s.mem S (.heap k) = some f) (hdir : NoDir S f) :
    ∃ s', pageTablePteRemove (pfree L s (f * 4096)) (kHeapStart + k * 4096) = some s' ∧
      (∀ x, slotFrame s'.mem S x = if x = .heap k then none else slotFrame s.mem S x) ∧
      (∀ g j, 0x200 ≤ g → s'.mem g j = s.mem g j) ∧ SameRest s s' ∧ Good L s' S held := by
  have hslots := fun x => hg.slotFrame_heap (w := heapWord s.mem k / 2 * 2) hk x
  simp only [entryFrame_removed] at hslots
  have hleave := hg.leave hslot hdir hslots (hg.sameHalf_heap hk)
  have hgive := hleave.give (f := f) (Or.inr rfl)
  have hheldf : ¬held f := hg.heldOut (.heap k) f hslot
  have hgood := hgive.held_congr (P := held) fun g =>
    ⟨fun hh => ⟨Or.inl hh, fun he => hheldf (he ▸ hh)⟩, fun ⟨hor, hne⟩ => hor.resolve_right hne⟩
  rw [setFrameBit_setMem] at hgood
  -- the bit is cleared first, and the entry is read in the same memory
  have hload := (hg.load_heap hk).1
  rw [← setFrameBit_load L s f false] at hload
  have hstore := setFrameBit_store L s f false (ptePtr (kHeapStart + k * 4096))
    (heapWord s.mem k / 2 * 2)
  rw [(hg.load_heap hk).2, Option.map_some, Mm.setMem_mem] at hstore
  refine ⟨(setFrameBit L s f false).setMem
      (s.mem.set (heapTable k) ((0x100 + k) % 1024) (heapWord s.mem k / 2 * 2)), ?_, hslots,
    fun g j hg' => ?_, (sameRest_setFrameBit L s f false).trans (sameRest_setMem _ _), hgood⟩
  · rw [pfree_eq, pageTablePteRemove, hload, Option.bind_eq_bind, Option.bind_some]
    exact hstore
  · have := heapTable_lt hk
    rw [Mm.setMem_mem, Phys.set_ne (Or.inl (by omega))]

/-- `x` is one of the heap pages from `i` on, `cnt` of them. -/
def inRun (i cnt : Nat) : Slot → Bool
  | .heap k => decide (i ≤ k ∧ k < i + cnt)
  | _ => false

theorem inRun_heap {i cnt k : Nat} : inRun i cnt (.heap k) = true ↔ i ≤ k ∧ k < i + cnt :=
  decide_eq_true_iff

/-- Heap pages `i` to `i + cnt - 1` lose their frames. -/
structure UnmappedPages (S : Spaces) (i cnt : Nat) (s s' : Mm) : Prop where
  slots : ∀ x, slotFrame s'.mem S x = if inRun i cnt x then none else slotFrame s.mem S x
  data : ∀ g j, 0x200 ≤ g → s'.mem g j = s.mem g j
  rest : SameRest s s'

/-- A frame of the kernel's pool is in its range. -/
theorem Layout.kernel_addr {L : Layout} {f : Nat} (h : L.IsKernel f) :
    L.kernelStart ≤ f * 4096 ∧ f * 4096 < L.userStart ∧ 0x102000 ≤ f * 4096 := by
  have h1 := h.1
  have h2 := kernel_lt_user h
  have h3 := L.userStart_eq
  have h4 : L.kernelStart = 0x200 * 4096 := rfl
  omega

theorem Good.mfreeHeap : ∀ {cnt i : Nat} {s : Mm}, Good L s S held → i + cnt ≤ heapMax →
    (∀ k, i ≤ k → k < i + cnt → ∃ f, slotFrame s.mem S (.heap k) = some f ∧ NoDir S f) →
    ∃ s', mfreeLoop L (fun a => L.kernelStart ≤ a ∧ a < L.userStart) cnt (kHeapStart + i * 4096) s =
      some s' ∧ UnmappedPages S i cnt s s' ∧ Good L s' S held := by
  intro cnt
  induction cnt with
  | zero =>
    intro i s hg _ _
    refine ⟨s, rfl, ⟨fun x => ?_, fun _ _ _ => rfl, .refl s⟩, hg⟩
    have hout : ¬inRun i 0 x = true := by
      cases x with
      | heap k =>
        rw [inRun_heap]
        omega
      | table => exact Bool.false_ne_true
      | page => exact Bool.false_ne_true
    rw [if_neg hout]
  | succ cnt ih =>
    intro i s hg hi hmapped
    have hk : i < heapMax := by omega
    obtain ⟨f, hslot, hdir⟩ := hmapped i (Nat.le_refl i) (by omega)
    have hpool := Layout.kernel_addr (hg.inPool (.heap i) f hslot)
    obtain ⟨s1, hs1, hslots, hdata, hrest, hg1⟩ := hg.freeHeap hk hslot hdir
    have hmapped1 : ∀ k, i + 1 ≤ k → k < i + 1 + cnt →
        ∃ g, slotFrame s1.mem S (.heap k) = some g ∧ NoDir S g := by
      intro k h1 h2
      obtain ⟨g, hg', hd⟩ := hmapped k (by omega) (by omega)
      have hne : Slot.heap k ≠ .heap i := by simp; omega
      exact ⟨g, by rw [hslots, if_neg hne]; exact hg', hd⟩
    obtain ⟨s', hloop, hun, hgood⟩ := ih hg1 (by omega) hmapped1
    have hnext : kHeapStart + i * 4096 + 4096 = kHeapStart + (i + 1) * 4096 := by omega
    refine ⟨s', ?_, ⟨fun x => ?_, fun g j hg' => ?_, hrest.trans hun.rest⟩, hgood⟩
    · simp only [mfreeLoop, hg.addrV2p_heap hk hslot, Option.bind_eq_bind, Option.bind_some,
        ensure_pos (show f * 4096 % 4096 = 0 ∧
          decide (L.kernelStart ≤ f * 4096 ∧ f * 4096 < L.userStart) = true from
          ⟨by omega, by simpa using ⟨hpool.1, hpool.2.1⟩⟩), hs1, hnext]
      exact hloop
    · rw [hun.slots, hslots]
      cases x with
      | heap k =>
        simp only [inRun_heap, Slot.heap.injEq]
        by_cases hki : k = i
        · rw [if_pos hki, ite_self, if_pos (by omega)]
        · rw [if_neg hki]
          by_cases hin : i + 1 ≤ k ∧ k < i + 1 + cnt
          · rw [if_pos hin, if_pos (by omega)]
          · rw [if_neg hin, if_neg (by omega)]
      | table p d => simp [inRun]
      | page p v => simp [inRun]
    · rw [hun.data g j hg', hdata g j hg']

end OsCore.Paging
