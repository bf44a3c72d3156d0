import OsCore.Kernel.FailedPages

/-!
# Pages of the kernel (`get_kernel_pages`, `mfree_page`)

What a request for pages of the kernel's heap makes of the four bitmaps, whatever
the pattern in which frames are refused. A request that is granted marks a run of
free pages of the kernel's part of the address space and takes a frame that was
free; none of the frames taken on the way is given back, also when the request
fails in the end (`getKernelPages_taken`).
-/

namespace OsCore.Paging

variable {L : Layout} {full : PoolFlags → Mm → Bool}

/-! ## Frames -/

/-- The frames that were taken are taken. -/
structure Taken (s s' : Mm) : Prop where
  kernel : ∀ i, s.kernelPool.bit i = true → s'.kernelPool.bit i = true
  user : ∀ i, s.userPool.bit i = true → s'.userPool.bit i = true

theorem Taken.refl (s : Mm) : Taken s s := ⟨fun _ h => h, fun _ h => h⟩

theorem Taken.trans {s t u : Mm} (h1 : Taken s t) (h2 : Taken t u) : Taken s u :=
  ⟨fun i h => h2.kernel i (h1.kernel i h), fun i h => h2.user i (h1.user i h)⟩

theorem Taken.of_pools {s s' : Mm} (hk : s'.kernelPool = s.kernelPool)
    (hu : s'.userPool = s.userPool) : Taken s s' := by
  constructor
  · rw [hk]
    exact fun _ h => h
  · rw [hu]
    exact fun _ h => h

theorem taken_keeps (L : Layout) (full : PoolFlags → Mm → Bool) :
    Keeps (pallocOr L full) Taken where
  refl := Taken.refl
  trans := Taken.trans
  mem _ _ := .of_pools rfl rfl
  alloc h := by
    have hset : ∀ (b : Bitmap) i j, b.bit j = true → (b.bitmapSet i true).bit j = true := by
      intro b i j hj
      rw [Bitmap.bit_bitmapSet]
      split
      next => rfl
      next => exact hj
    rcases pallocOr_cases h with ⟨-, rfl⟩ | ⟨i, b, -, ⟨-, -, rfl, rfl⟩ | ⟨-, -, rfl, rfl⟩⟩
    · exact .refl _
    · exact ⟨hset _ i, fun _ hj => hj⟩
    · exact ⟨fun _ hj => hj, hset _ i⟩

/-! ## Requests -/

/-- What `vaddr_get` makes of the kernel's part of the address space. -/
theorem vaddrGet_kernel {s s' : Mm} {n : Nat} {r : Option Nat} (hn : 0 < n)
    (h : vaddrGet .kernel s n = some (r, s')) :
    (r = none ∧ s' = s) ∨ ∃ i, r = some (kHeapStart + i * 4096) ∧
      i + n ≤ 8 * s.kernelVaddr.bytesLen + 1 ∧ (∀ k, k < n → s.kernelVaddr.bit (i + k) = false) ∧
      s' = { s with kernelVaddr := setBits s.kernelVaddr i true n } := by
  unfold vaddrGet at h
  obtain ⟨x, hscan, h⟩ := Option.bind_eq_some_iff.mp h
  by_cases hx : x = -1
  · simp only [if_pos hx, Option.pure_def, Option.some.injEq, Prod.mk.injEq] at h
    exact Or.inl ⟨h.1.symm, h.2.symm⟩
  · rcases Bitmap.bitmapScan_zero hn hscan with hm1 | ⟨i, rfl, hi, hfree⟩
    · exact absurd hm1 hx
    · simp only [if_neg hx, Option.pure_def, Option.some.injEq, Prod.mk.injEq,
        Int.toNat_natCast] at h
      exact Or.inr ⟨i, h.1.symm, hi, hfree, h.2.symm⟩

/-- A request for pages of the heap: no room for it, or the loop over its pages. -/
theorem mallocPage_cases {alloc : PoolFlags → Mm → Option (Option Nat × Mm)} {s s' : Mm} {n : Nat}
    {r : Option Nat} (h : mallocPage alloc .kernel s n = some (r, s')) :
    0 < n ∧ ((r = none ∧ s' = s) ∨ ∃ i done, i + n ≤ 8 * s.kernelVaddr.bytesLen + 1 ∧
      (∀ k, k < n → s.kernelVaddr.bit (i + k) = false) ∧
      mallocLoop alloc .kernel n (kHeapStart + i * 4096)
        { s with kernelVaddr := setBits s.kernelVaddr i true n } = some (done, s') ∧
      r = if done = true then some (kHeapStart + i * 4096) else none) := by
  simp only [mallocPage, Option.bind_eq_bind, Option.bind_eq_some_iff, ensure_eq_some,
    exists_const, Prod.exists] at h
  obtain ⟨⟨hn, -⟩, r2, t1, hget, h⟩ := h
  refine ⟨hn, ?_⟩
  rcases vaddrGet_kernel hn hget with ⟨rfl, rfl⟩ | ⟨i, rfl, hi, hfree, rfl⟩
  · simp only [Option.pure_def, Option.some.injEq, Prod.mk.injEq] at h
    exact Or.inl ⟨h.1.symm, h.2.symm⟩
  · simp only [Option.bind_eq_some_iff, Option.pure_def, Option.some.injEq, Prod.mk.injEq,
      Prod.exists] at h
    obtain ⟨done, s1, hloop, hr, rfl⟩ := h
    exact Or.inr ⟨i, done, hi, hfree, hloop, hr.symm⟩

/-- A request of `get_kernel_pages`: no room for it, or the frames are missing, or it
is granted. -/
theorem getKernelPages_cases {alloc : PoolFlags → Mm → Option (Option Nat × Mm)} {s s' : Mm}
    {n : Nat} {r : Option Nat} (h : getKernelPages alloc s n = some (r, s')) :
    0 < n ∧ ((r = none ∧ s' = s) ∨ ∃ i s1 done, (∀ k, k < n → s.kernelVaddr.bit (i + k) = false) ∧
      mallocLoop alloc .kernel n (kHeapStart + i * 4096)
        { s with kernelVaddr := setBits s.kernelVaddr i true n } = some (done, s1) ∧
      ((done = false ∧ r = none ∧ s' = s1) ∨ (done = true ∧ r = some (kHeapStart + i * 4096) ∧
        Mm.clearPages (kHeapStart + i * 4096) n s1 = some s'))) := by
  simp only [getKernelPages, Option.bind_eq_bind, Option.bind_eq_some_iff, Prod.exists] at h
  obtain ⟨r1, t, hpage, h⟩ := h
  obtain ⟨hn, hcases⟩ := mallocPage_cases hpage
  refine ⟨hn, ?_⟩
  rcases hcases with ⟨rfl, rfl⟩ | ⟨i, done, -, hfree, hloop, rfl⟩
  · simp only [Option.pure_def, Option.some.injEq, Prod.mk.injEq] at h
    exact Or.inl ⟨h.1.symm, h.2.symm⟩
  · refine Or.inr ⟨i, t, done, hfree, hloop, ?_⟩
    cases done with
    | false =>
      simp only [Bool.false_eq_true, if_false, Option.pure_def, Option.some.injEq,
        Prod.mk.injEq] at h
      exact Or.inl ⟨rfl, h.1.symm, h.2.symm⟩
    | true =>
      simp only [if_true, Option.bind_eq_some_iff, Option.pure_def, Option.some.injEq,
        Prod.mk.injEq] at h
      obtain ⟨s2, hclear, rfl, rfl⟩ := h
      exact Or.inr ⟨rfl, rfl, hclear⟩

/-- Granted or not, a request gives no frame back. -/
theorem getKernelPages_taken {s s' : Mm} {n : Nat} {r : Option Nat}
    (h : getKernelPages (pallocOr L full) s n = some (r, s')) : Taken s s' := by
  have hk := taken_keeps L full
  rcases (getKernelPages_cases h).2 with ⟨-, rfl⟩ | ⟨i, s1, done, -, hloop, hend⟩
  · exact .refl _
  · have hmark : Taken s { s with kernelVaddr := setBits s.kernelVaddr i true n } :=
      .of_pools rfl rfl
    have hs1 : Taken s s1 := hmark.trans (hk.mallocLoop hloop)
    rcases hend with ⟨-, -, rfl⟩ | ⟨-, -, hclear⟩
    · exact hs1
    · exact hs1.trans (hk.clearPages hclear)

/-- A request for one page that is refused takes no frame. -/
theorem getKernelPages_refused {s s' : Mm}
    (h : getKernelPages (pallocOr L full) s 1 = some (none, s')) :
    s'.kernelPool = s.kernelPool ∧ s'.userPool = s.userPool := by
  rcases (getKernelPages_cases h).2 with ⟨-, rfl⟩ | ⟨i, s1, done, -, hloop, hend⟩
  · exact ⟨rfl, rfl⟩
  rcases hend with ⟨rfl, -, rfl⟩ | ⟨-, hnone, -⟩
  · obtain ⟨⟨f, t⟩, halloc, hloop⟩ := Option.bind_eq_some_iff.mp hloop
    rcases pallocOr_cases halloc with ⟨rfl, rfl⟩ | ⟨j, b, hsome, -⟩
    · simp only [Option.pure_def, Option.some.injEq, Prod.mk.injEq, true_and] at hloop
      subst hloop
      exact ⟨rfl, rfl⟩
    · -- the frame is there, and it was the only one
      obtain ⟨phy, rfl⟩ := Option.isSome_iff_exists.mp hsome
      obtain ⟨t2, -, hloop⟩ := Option.bind_eq_some_iff.mp hloop
      simp [mallocLoop] at hloop
  · cases hnone

/-- A request that is granted. -/
structure GotPages (s s' : Mm) (n i : Nat) : Prop where
  free : ∀ k, k < n → s.kernelVaddr.bit (i + k) = false
  kernelVaddr : s'.kernelVaddr = setBits s.kernelVaddr i true n
  userVaddr : s'.userVaddr = s.userVaddr
  taken : Taken s s'
  frame : ∃ j, s.kernelPool.bit j = false ∧ s'.kernelPool.bit j = true

theorem getKernelPages_granted {s s' : Mm} {n v : Nat}
    (h : getKernelPages (pallocOr L full) s n = some (some v, s')) :
    ∃ i, v = kHeapStart + i * 4096 ∧ GotPages s s' n i := by
  have htaken := getKernelPages_taken h
  obtain ⟨hn, hcases⟩ := getKernelPages_cases h
  rcases hcases with ⟨hnone, -⟩ | ⟨i, s1, done, hfree, hloop, hend⟩
  · cases hnone
  rcases hend with ⟨-, hnone, -⟩ | ⟨rfl, hv, hclear⟩
  · cases hnone
  have hmaps : SameMaps { s with kernelVaddr := setBits s.kernelVaddr i true n } s' :=
    (sameMaps_keeps L full).trans ((sameMaps_keeps L full).mallocLoop hloop)
      ((sameMaps_keeps L full).clearPages hclear)
  refine ⟨i, Option.some.inj hv, hfree, hmaps .kernel, hmaps .user, htaken, ?_⟩
  -- the first frame of the loop
  obtain ⟨m, rfl⟩ := Nat.exists_eq_succ_of_ne_zero (Nat.pos_iff_ne_zero.mp hn)
  obtain ⟨⟨f, t⟩, halloc, hloop⟩ := Option.bind_eq_some_iff.mp hloop
  rcases pallocOr_cases halloc with ⟨rfl, rfl⟩ | ⟨j, b, hsome, hpool⟩
  · simp at hloop
  · obtain ⟨phy, rfl⟩ := Option.isSome_iff_exists.mp hsome
    have hk := taken_keeps L full
    obtain ⟨t2, hadd, hmore⟩ := Option.bind_eq_some_iff.mp hloop
    have hrest : Taken t s' :=
      ((hk.pageTableAdd hadd).trans (hk.mallocLoop hmore)).trans (hk.clearPages hclear)
    rcases hpool with ⟨-, hfree, rfl, rfl⟩ | ⟨hpf, -⟩
    · refine ⟨j, hfree, hrest.kernel j ?_⟩
      rw [Bitmap.bit_bitmapSet, if_pos rfl]
    · cases hpf

/-! ## Pages given back -/

theorem pfree_sameMaps (L : Layout) (s : Mm) (a : Nat) : SameMaps s (pfree L s a) := by
  intro pf
  unfold pfree
  split
  next => cases pf <;> rfl
  next => cases pf <;> rfl

theorem pageTablePteRemove_sameMaps {s s' : Mm} {a : Nat}
    (h : pageTablePteRemove s a = some s') : SameMaps s s' := by
  obtain ⟨pte, -, h⟩ := Option.bind_eq_some_iff.mp h
  exact (sameMaps_keeps ⟨0⟩ fun _ _ => false).store h

theorem mfreeLoop_sameMaps {inPool : Nat → Bool} : ∀ {cnt vaddr : Nat} {s s' : Mm},
    mfreeLoop L inPool cnt vaddr s = some s' → SameMaps s s' := by
  intro cnt
  induction cnt with
  | zero =>
    intro vaddr s s' h
    rw [← Option.some.inj h]
    exact fun _ => rfl
  | succ cnt ih =>
    intro vaddr s s' h
    obtain ⟨a, -, h⟩ := Option.bind_eq_some_iff.mp h
    obtain ⟨_, -, h⟩ := Option.bind_eq_some_iff.mp h
    obtain ⟨s1, h1, h⟩ := Option.bind_eq_some_iff.mp h
    intro pf
    rw [ih h pf, pageTablePteRemove_sameMaps h1 pf, pfree_sameMaps L s a pf]

/-- Of the maps of the address space, `mfree_page` changes the one it is called for. -/
theorem mfreePage_maps {pf : PoolFlags} {s s' : Mm} {vaddr n : Nat}
    (h : mfreePage L pf s vaddr n = some s') :
    ∃ t, SameMaps s t ∧ s' = vaddrRemove pf t vaddr n := by
  obtain ⟨_, -, h⟩ := Option.bind_eq_some_iff.mp h
  obtain ⟨a, -, h⟩ := Option.bind_eq_some_iff.mp h
  obtain ⟨_, -, h⟩ := Option.bind_eq_some_iff.mp h
  split at h
  next =>
    obtain ⟨t, hloop, h⟩ := Option.bind_eq_some_iff.mp h
    exact ⟨t, mfreeLoop_sameMaps hloop, (Option.some.inj h).symm⟩
  next =>
    obtain ⟨t, hloop, h⟩ := Option.bind_eq_some_iff.mp h
    exact ⟨t, mfreeLoop_sameMaps hloop, (Option.some.inj h).symm⟩

end OsCore.Paging
