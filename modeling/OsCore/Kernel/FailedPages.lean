import OsCore.Kernel.Allocation

/-!
# What a failed `malloc_page` leaves behind

The pages of the address space are marked for the whole request at once, then
the frames are taken and entered one by one. When a frame is missing the loop
returns `NULL` from where it is: the marks, the frames taken so far and their
entries stay, and the address that could free them is not returned.

So nothing is left behind exactly when nothing had been marked, that is when the
address space has no room for the request (`failed_malloc_page_unchanged`).
-/

namespace OsCore.Paging

/-- `palloc`, finding nothing in the states marked `full`. A frame that is
granted changes its pool's map and a page that is entered changes its table, so
the requests of one call are made in different states and any pattern of refusals
is such a marking. -/
def pallocOr (L : Layout) (full : PoolFlags → Mm → Bool) (pf : PoolFlags) (s : Mm) :
    Option (Option Nat × Mm) :=
  if full pf s then some (none, s) else pallocFrom L pf s

/-- The bitmaps and the page tables are what they were. -/
structure Unleaked (s s' : Mm) : Prop where
  kernelVaddr : s'.kernelVaddr = s.kernelVaddr
  userVaddr : s'.userVaddr = s.userVaddr
  kernelPool : s'.kernelPool = s.kernelPool
  userPool : s'.userPool = s.userPool
  pdes : ∀ vaddr, s'.load (pdePtr vaddr) = s.load (pdePtr vaddr)
  ptes : ∀ vaddr, s'.load (ptePtr vaddr) = s.load (ptePtr vaddr)

theorem Unleaked.refl (s : Mm) : Unleaked s s :=
  ⟨rfl, rfl, rfl, rfl, fun _ => rfl, fun _ => rfl⟩

theorem Unleaked.vaddrMap {s s' : Mm} (h : Unleaked s s') (pf : PoolFlags) :
    s'.vaddrMap pf = s.vaddrMap pf := by
  cases pf with
  | kernel => exact h.kernelVaddr
  | user => exact h.userVaddr

/-! ## Marks stay -/

/-- What a request for a frame makes of a state: the pool is another one, with a
bit set more when it is granted. -/
theorem pallocOr_cases {L : Layout} {full : PoolFlags → Mm → Bool} {pf : PoolFlags}
    {s s' : Mm} {r : Option Nat} (h : pallocOr L full pf s = some (r, s')) :
    (r = none ∧ s' = s) ∨ ∃ i b, r.isSome = true ∧
      (pf = .kernel ∧ s.kernelPool.bit i = false ∧ b = s.kernelPool.bitmapSet i true ∧
          s' = { s with kernelPool := b } ∨
        pf = .user ∧ s.userPool.bit i = false ∧ b = s.userPool.bitmapSet i true ∧
          s' = { s with userPool := b }) := by
  unfold pallocOr at h
  split at h
  next =>
    simp only [Option.some.injEq, Prod.mk.injEq] at h
    exact Or.inl ⟨h.1.symm, h.2.symm⟩
  next =>
    apply Or.inr
    cases pf with
    | kernel =>
      obtain ⟨i, rfl, -, hfree, -, rfl⟩ := pallocFrom_kernel h
      exact ⟨i, _, rfl, Or.inl ⟨rfl, hfree, rfl, rfl⟩⟩
    | user =>
      obtain ⟨i, rfl, -, hfree, -, rfl⟩ := pallocFrom_user h
      exact ⟨i, _, rfl, Or.inr ⟨rfl, hfree, rfl, rfl⟩⟩

/-- Frames and page tables change, the maps of the address space do not. -/
def SameMaps (s s' : Mm) : Prop := ∀ pf, s'.vaddrMap pf = s.vaddrMap pf

theorem sameMaps_keeps (L : Layout) (full : PoolFlags → Mm → Bool) :
    Keeps (pallocOr L full) SameMaps where
  refl _ _ := rfl
  trans h1 h2 pf := (h2 pf).trans (h1 pf)
  mem _ _ pf := by cases pf <;> rfl
  alloc h q := by
    rcases pallocOr_cases h with ⟨-, rfl⟩ | ⟨i, b, -, ⟨-, -, -, rfl⟩ | ⟨-, -, -, rfl⟩⟩
    · rfl
    · cases q <;> rfl
    · cases q <;> rfl

/-! ## The failed call -/

/-- Either the address space has no room, or a page that was free is marked. -/
theorem vaddrGet_cases {pf : PoolFlags} {s s' : Mm} {n : Nat} {r : Option Nat} (hn : 0 < n)
    (h : vaddrGet pf s n = some (r, s')) :
    (r = none ∧ s' = s ∧ (s.vaddrMap pf).bitmapScan n = some (-1)) ∨
      ((s.vaddrMap pf).bitmapScan n ≠ some (-1) ∧ (∃ v, r = some v) ∧
        ∃ i, (s.vaddrMap pf).bit i = false ∧ (s'.vaddrMap pf).bit i = true) := by
  have hmark : ∀ {b : Bitmap} {x : Int}, b.bitmapScan n = some x → x ≠ -1 →
      b.bit x.toNat = false ∧ (setBits b x.toNat true n).bit x.toNat = true := by
    intro b x hscan hx
    rcases Bitmap.bitmapScan_zero hn hscan with hm1 | ⟨i, rfl, -, hfree⟩
    · exact absurd hm1 hx
    · refine ⟨by simpa using hfree 0 hn, ?_⟩
      rw [bit_setBits, if_pos (by omega)]
  cases pf with
  | kernel =>
    unfold vaddrGet at h
    obtain ⟨x, hscan, h⟩ := Option.bind_eq_some_iff.mp h
    by_cases hx : x = -1
    · simp only [if_pos hx, Option.pure_def, Option.some.injEq, Prod.mk.injEq] at h
      exact Or.inl ⟨h.1.symm, h.2.symm, by rw [← hx]; exact hscan⟩
    · simp only [if_neg hx, Option.pure_def, Option.some.injEq, Prod.mk.injEq] at h
      obtain ⟨rfl, rfl⟩ := h
      refine Or.inr ⟨fun he => hx ?_, ⟨_, rfl⟩, x.toNat, hmark hscan hx⟩
      have hsame := hscan.symm.trans he
      exact Option.some.inj hsame
  | user =>
    unfold vaddrGet at h
    obtain ⟨x, hscan, h⟩ := Option.bind_eq_some_iff.mp h
    by_cases hx : x = -1
    · simp only [if_pos hx, Option.pure_def, Option.some.injEq, Prod.mk.injEq] at h
      exact Or.inl ⟨h.1.symm, h.2.symm, by rw [← hx]; exact hscan⟩
    · simp only [if_neg hx, Option.bind_eq_bind, Option.bind_eq_some_iff, Option.pure_def,
        Option.some.injEq, Prod.mk.injEq] at h
      obtain ⟨-, -, rfl, rfl⟩ := h
      refine Or.inr ⟨fun he => hx ?_, ⟨_, rfl⟩, x.toNat, hmark hscan hx⟩
      have hsame := hscan.symm.trans he
      exact Option.some.inj hsame

/-- **A failed `malloc_page` leaks nothing** exactly when the address space had
no room for the request, so that no frame was asked for. -/
theorem failed_malloc_page_unchanged (L : Layout) (full : PoolFlags → Mm → Bool) {s s' : Mm}
    {pf : PoolFlags} {pgCnt : Nat}
    (h : mallocPage (pallocOr L full) pf s pgCnt = some (none, s')) :
    Unleaked s s' ↔ (s.vaddrMap pf).bitmapScan pgCnt = some (-1) := by
  simp only [mallocPage, Option.bind_eq_bind, Option.bind_eq_some_iff, ensure_eq_some,
    exists_const, Prod.exists] at h
  obtain ⟨⟨hcnt, -⟩, r, s1, hget, h⟩ := h
  rcases vaddrGet_cases hcnt hget with ⟨rfl, rfl, hnone⟩ | ⟨hsome, hv, hbit⟩
  · simp only [Option.pure_def, Option.some.injEq, Prod.mk.injEq, true_and] at h
    subst h
    exact ⟨fun _ => hnone, fun _ => Unleaked.refl _⟩
  · obtain ⟨v, rfl⟩ := hv
    obtain ⟨i, hfree, hset⟩ := hbit
    simp only [Option.bind_eq_some_iff, Option.pure_def, Option.some.injEq, Prod.mk.injEq,
      Prod.exists] at h
    obtain ⟨done, s2, hloop, -, rfl⟩ := h
    refine ⟨fun hu => ?_, fun hc => absurd hc hsome⟩
    -- the mark is still there when the loop gives up
    have hsame := (sameMaps_keeps L full).mallocLoop hloop pf
    rw [← hsame, hu.vaddrMap, hfree] at hset
    cases hset

/-- Memory of zeros with one page of the kernel's address space free. -/
def onePage : Mm where
  mem _ _ := 0
  cr3 := 0x100
  kernelPool := ⟨1, Mem.zero⟩
  userPool := ⟨1, Mem.zero⟩
  kernelVaddr := ⟨1, fun _ => 0xfe⟩
  userVaddr := ⟨1, Mem.zero⟩

theorem failed_malloc_page_unchanged_no_room :
    mallocPage (pallocOr ⟨0x2000000⟩ fun _ _ => true) .kernel onePage 2 = some (none, onePage) ∧
      (Unleaked onePage onePage ↔ (onePage.vaddrMap .kernel).bitmapScan 2 = some (-1)) := by
  have hscan : onePage.kernelVaddr.bitmapScan 2 = some (-1) := by decide
  have hrun : mallocPage (pallocOr ⟨0x2000000⟩ fun _ _ => true) .kernel onePage 2 =
      some (none, onePage) := by
    simp only [mallocPage, vaddrGet, hscan, if_true, Option.bind_eq_bind, Option.bind_some,
      Option.pure_def]
    rfl
  exact ⟨hrun, failed_malloc_page_unchanged _ _ hrun⟩

/-- The page is marked, the frame is refused. -/
theorem failed_malloc_page_keeps_the_page :
    ∃ s', mallocPage (pallocOr ⟨0x2000000⟩ fun _ _ => true) .kernel onePage 1 = some (none, s') ∧
      onePage.kernelVaddr.bit 0 = false ∧ s'.kernelVaddr.bit 0 = true ∧ ¬Unleaked onePage s' := by
  have hscan : onePage.kernelVaddr.bitmapScan 1 = some 0 := by decide
  have hbit : (setBits onePage.kernelVaddr 0 true 1).bit 0 = true := by decide
  refine ⟨{ onePage with kernelVaddr := setBits onePage.kernelVaddr 0 true 1 }, ?_, by decide,
    hbit, fun hu => ?_⟩
  · simp only [mallocPage, vaddrGet, hscan, Option.bind_eq_bind, Option.bind_some,
      Option.pure_def]
    rfl
  · have hsame := hu.kernelVaddr
    dsimp only at hsame
    rw [hsame] at hbit
    exact absurd hbit (by decide)

end OsCore.Paging
