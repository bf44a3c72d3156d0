import OsCore.Kernel.HeapRun

/-!
# A heap in two parts

After a `sys_fork` the heap of the child is in two parts: the arenas that came
with the copy of the parent's pages, and those the child makes itself. The
free lists and the counts are right only for the second part. The first is
blocks that lie still: none of them is handed out again, and a large one can be
given back.

The calls do not look at pages they are not about, so that what is known of a
call on one part (`sysMalloc_represents`, `sysFree_represents`) carries over to
the heap with the other part beside it.
-/

namespace OsCore.Kernel

namespace Heap

/-- The page ranges of a heap. -/
def ranges (h : Heap) : List (Nat × Nat) := h.arenas.map fun A => (A.page, A.pages)

/-- No arena of one is in pages of the other. -/
def Apart (h g : Heap) : Prop := ∀ A ∈ h.arenas, ∀ B ∈ g.arenas, PagesApart A B

/-- Both parts as one heap. -/
def append (h g : Heap) : Heap :=
  ⟨h.arenas ++ g.arenas, fun k => h.free k ++ g.free k, h.live ++ g.live⟩

variable {o : HeapOwner} {h g : Heap}

theorem ranges_append : (h.append g).ranges = h.ranges ++ g.ranges := List.map_append

theorem used_append : (h.append g).used = h.used ++ g.used := List.map_append

theorem isBlock_append {k b : Nat} :
    IsBlock (h.arenas ++ g.arenas) k b ↔ IsBlock h.arenas k b ∨ IsBlock g.arenas k b := by
  simp only [IsBlock, List.mem_append, or_and_right, exists_or]

theorem mem_ranges {e : Nat × Nat} : e ∈ h.ranges ↔ ∃ A ∈ h.arenas, e = (A.page, A.pages) := by
  rw [ranges, List.mem_map]
  exact ⟨fun ⟨A, hA, he⟩ => ⟨A, hA, he.symm⟩, fun ⟨A, hA, he⟩ => ⟨A, hA, he.symm⟩⟩

theorem Apart.page_ne (hap : Apart h g) (hok : h.Ok o) (hok' : g.Ok o) {A B : Arena}
    (hA : A ∈ h.arenas) (hB : B ∈ g.arenas) : A.page ≠ B.page := by
  have h1 := hap A hA B hB
  have h2 := (hok.placed A hA).some
  have h3 := (hok'.placed B hB).some
  unfold PagesApart at h1
  omega

/-- A block of one part is not in use in the other. -/
theorem Apart.block_unused (hap : Apart h g) (hok : h.Ok o) (hok' : g.Ok o) {k b : Nat}
    (hb : IsBlock h.arenas k b) : b ∉ g.used := by
  intro hu
  obtain ⟨A, hA, -, hbA⟩ := hb
  obtain ⟨B, hB, hpage, -⟩ := hok'.used_arena hu
  exact hap.page_ne hok hok' hA hB ((hok.block_arena hA hbA).symm.trans hpage)

theorem Apart.symm (hap : Apart h g) : Apart g h := fun B hB A hA => (hap A hA B hB).symm

theorem Apart.used (hap : Apart h g) (hok : h.Ok o) (hok' : g.Ok o) {p : Nat} (hp : p ∈ h.used) :
    p ∉ g.used := by
  intro hq
  obtain ⟨A, hA, hpA, -⟩ := hok.used_arena hp
  obtain ⟨B, hB, hpB, -⟩ := hok'.used_arena hq
  exact hap.page_ne hok hok' hA hB (hpA.symm.trans hpB)

/-- Two heaps that are apart are one heap. -/
theorem Ok.append (hok : h.Ok o) (hok' : g.Ok o) (hap : Apart h g) : (h.append g).Ok o := by
  refine ⟨fun A hA => ?_, List.pairwise_append.mpr ⟨hok.apart, hok'.apart, hap⟩, fun A hA k hk => ?_,
    fun A hA hc => ?_, fun k hk b => ?_, fun k hk => ?_, fun e he => ?_, ?_⟩
  · rcases List.mem_append.mp hA with hA | hA
    · exact hok.placed A hA
    · exact hok'.placed A hA
  · rcases List.mem_append.mp hA with hA | hA
    · exact hok.small A hA k hk
    · exact hok'.small A hA k hk
  · rw [used_append]
    rcases List.mem_append.mp hA with hA | hA
    · exact List.mem_append_left _ (hok.large A hA hc)
    · exact List.mem_append_right _ (hok'.large A hA hc)
  · show b ∈ h.free k ++ g.free k ↔ IsBlock (h.arenas ++ g.arenas) k b ∧ b ∉ (h.append g).used
    rw [used_append, isBlock_append, List.mem_append, List.mem_append, not_or, hok.free_iff k hk,
      hok'.free_iff k hk]
    constructor
    · intro hor
      rcases hor with ⟨hb, hu⟩ | ⟨hb, hu⟩
      · exact ⟨Or.inl hb, hu, hap.block_unused hok hok' hb⟩
      · exact ⟨Or.inr hb, hap.symm.block_unused hok' hok hb, hu⟩
    · intro hin
      obtain ⟨hb | hb, hu, hu'⟩ := hin
      · exact Or.inl ⟨hb, hu⟩
      · exact Or.inr ⟨hb, hu'⟩
  · refine List.nodup_append.mpr ⟨hok.free_nodup k hk, hok'.free_nodup k hk, fun b hb c hc hbc => ?_⟩
    -- the same block would be in an arena of each
    obtain ⟨A, hA, -, hbA⟩ := ((hok.free_iff k hk b).mp hb).1
    obtain ⟨B, hB, -, hcB⟩ := ((hok'.free_iff k hk c).mp hc).1
    have h1 := hok.block_arena hA hbA
    have h2 := hok'.block_arena hB hcB
    exact hap.page_ne hok hok' hA hB (h1.symm.trans (hbc ▸ h2))
  · show HasRoom (h.arenas ++ g.arenas) e.1 e.2
    rcases List.mem_append.mp he with he | he
    · rcases hok.room e he with ⟨k, hb, hle⟩ | ⟨A, hA, hrest⟩
      · exact Or.inl ⟨k, isBlock_append.mpr (Or.inl hb), hle⟩
      · exact Or.inr ⟨A, List.mem_append_left _ hA, hrest⟩
    · rcases hok'.room e he with ⟨k, hb, hle⟩ | ⟨A, hA, hrest⟩
      · exact Or.inl ⟨k, isBlock_append.mpr (Or.inr hb), hle⟩
      · exact Or.inr ⟨A, List.mem_append_right _ hA, hrest⟩
  · rw [used_append]
    refine List.nodup_append.mpr ⟨hok.used_nodup, hok'.used_nodup, fun p hp q hq hpq => ?_⟩
    exact hap.used hok hok' hp (hpq ▸ hq)

/-- Whose heap it is matters for where its pages may be. -/
theorem Ok.owner {o' : HeapOwner} (hok : h.Ok o)
    (hplaced : ∀ A ∈ h.arenas, Placed o' A.page A.pages) : h.Ok o' :=
  ⟨hplaced, hok.apart, hok.small, hok.large, hok.free_iff, hok.free_nodup, hok.room, hok.used_nodup⟩

end Heap

/-- The pages a `sys_malloc` adds are the ones it was handed. -/
theorem Heap.malloc_arenas {o : HeapOwner} {h : Heap} {size : Nat} {answer : Option Nat} {A : Arena}
    (hA : A ∈ (h.malloc o size answer).2.arenas) :
    A ∈ h.arenas ∨ ∃ a, answer = some a ∧ A.page = a ∧ A.pages = pagesAsked size := by
  unfold Heap.malloc at hA
  split at hA
  · exact Or.inl hA
  · split at hA
    next hbig =>
      split at hA
      · exact Or.inl hA
      next a =>
        rcases List.mem_cons.mp hA with rfl | hA
        · exact Or.inr ⟨a, rfl, rfl, (if_pos hbig).symm⟩
        · exact Or.inl hA
    next hsmall =>
      dsimp only at hA
      split at hA
      · exact Or.inl hA
      · exact Or.inl hA
      next a _ =>
        rcases List.mem_cons.mp hA with rfl | hA
        · exact Or.inr ⟨a, rfl, rfl, (if_neg hsmall).symm⟩
        · exact Or.inl hA

/-! ## Calls that do not look at the other part -/

variable {o : HeapOwner} {m : Mem} {held extra : List (Nat × Nat)}

/-- More pages held change nothing for `sys_malloc`. -/
theorem sysMalloc_extra (size : Nat) (answer : Option Nat) {p : Nat} {s : HeapState}
    (h : sysMalloc o ⟨m, held⟩ size answer = some (p, s)) :
    sysMalloc o ⟨m, held ++ extra⟩ size answer = some (p, { s with held := s.held ++ extra }) := by
  unfold sysMalloc at h ⊢
  by_cases hsize : 0 < size ∧ size < o.poolSize
  swap
  · rw [if_pos hsize] at h ⊢
    cases h
    rfl
  rw [if_neg (not_not.mpr hsize)] at h ⊢
  by_cases hbig : 1024 < size
  · rw [if_pos hbig] at h ⊢
    cases answer with
    | none =>
      cases h
      rfl
    | some a =>
      cases h
      rfl
  · rw [if_neg hbig] at h ⊢
    dsimp only at h ⊢
    by_cases hempty : listEmpty m (freeList (descAt o.descs (findDesc m o.descs size 7 0))) = true
    · rw [if_pos hempty] at h ⊢
      cases answer with
      | none =>
        cases h
        rfl
      | some a =>
        simp only [mallocPage, Option.bind_eq_bind, Option.bind_eq_some_iff, Option.pure_def,
          Option.some.injEq] at h ⊢
        obtain ⟨m', hm', h⟩ := h
        refine ⟨m', hm', ?_⟩
        cases h
        rfl
    · rw [if_neg hempty] at h ⊢
      cases h
      rfl

theorem mfreePage_extra {vaddr pgCnt : Nat} {s : HeapState}
    (h : mfreePage ⟨m, held⟩ vaddr pgCnt = some s) :
    mfreePage ⟨m, held ++ extra⟩ vaddr pgCnt = some { s with held := s.held ++ extra } := by
  unfold mfreePage at h ⊢
  by_cases hmem : (vaddr, pgCnt) ∈ held
  · rw [ensure_pos hmem] at h
    rw [ensure_pos (List.mem_append_left _ hmem)]
    cases h
    exact congrArg (fun l => some (HeapState.mk m l)) (List.erase_append_left _ hmem)
  · rw [ensure_neg hmem] at h
    exact absurd h (by simp)

/-- A `sys_free` that works goes the same way when more pages are held. -/
theorem sysFree_extra {p : Nat} {s : HeapState} (h : sysFree o ⟨m, held⟩ p = some s) :
    sysFree o ⟨m, held ++ extra⟩ p = some { s with held := s.held ++ extra } := by
  unfold sysFree at h ⊢
  simp only [Option.bind_eq_bind, Option.bind_eq_some_iff] at h ⊢
  obtain ⟨_, h1, _, h2, _, h3, h⟩ := h
  refine ⟨_, h1, _, h2, _, h3, ?_⟩
  split at h
  next hlarge =>
    rw [if_pos hlarge]
    exact mfreePage_extra h
  next hsmall =>
    rw [if_neg hsmall]
    split at h
    next hfull =>
      rw [if_pos hfull]
      obtain ⟨m', hm', h⟩ := Option.bind_eq_some_iff.mp h
      exact Option.bind_eq_some_iff.mpr ⟨m', hm', mfreePage_extra h⟩
    next hsome =>
      rw [if_neg hsome]
      cases h
      rfl

/-- `sys_free` of a block with pages of its own looks at the header alone. -/
theorem sysFree_large {s : HeapState} {p page n : Nat} (hpos : p ≠ 0) (hbase : o.base ≤ p)
    (hpage : block2arena p = page) (h0 : s.mem.rd32 page = 0) (h4 : s.mem.rd32 (page + 4) = n)
    (h8 : s.mem.rd32 (page + 8) = 1) (hin : (page, n) ∈ s.held) :
    sysFree o s p = some { s with held := s.held.erase (page, n) } := by
  unfold sysFree
  rw [ensure_pos hpos, ensure_pos hbase, hpage]
  simp only [Option.bind_eq_bind, Option.bind_some]
  rw [ensure_pos (Or.inr h8), Option.bind_some, if_pos ⟨h0, h8⟩, h4, mfreePage, ensure_pos hin]
  rfl

end OsCore.Kernel
