import OsCore.Kernel.Heap

/-!
# Blocks, free and live

The heap without its memory: which pages are arenas, which blocks are on which
free list, and which are in use. `Heap.Ok` is what makes this a heap. A block of
a small arena is on the free list of its class or in use, never both, and every
block in use is long enough and lies in its arena behind the header.

The steps here are the ones the code takes one at a time: a page becomes an
arena, a block is taken, a block is given, an arena without users is dropped.
Each keeps `Ok`. `Busy`, that every arena has a user, only holds between calls.
-/

namespace OsCore.Kernel

/-! ## Block sizes -/

/-- The block size of class `k`. -/
def blockSize (k : Nat) : Nat := 16 * 2 ^ k

/-- How many blocks of class `k` a page holds behind the header. -/
def perArena (k : Nat) : Nat := (4096 - arenaSize) / blockSize k

/-- Block `i` of the page. -/
def blockAt (k page i : Nat) : Nat := page + arenaSize + i * blockSize k

theorem blockSize_ge (k : Nat) : 16 ≤ blockSize k := by
  have := Nat.one_le_two_pow (n := k)
  unfold blockSize
  omega

/-- A block ends in its page. -/
theorem blockAt_end {k i : Nat} (page : Nat) (hi : i < perArena k) :
    blockAt k page i + blockSize k ≤ page + 4096 := by
  have h1 : (i + 1) * blockSize k ≤ perArena k * blockSize k := Nat.mul_le_mul_right _ hi
  have h2 : perArena k * blockSize k ≤ 4096 - arenaSize := Nat.div_mul_le_self _ _
  rw [Nat.succ_mul] at h1
  unfold blockAt
  unfold arenaSize at h2 ⊢
  omega

theorem block2arena_eq {page b : Nat} (hp : page % 4096 = 0) (h1 : page ≤ b) (h2 : b < page + 4096) :
    block2arena b = page := by
  unfold block2arena
  omega

theorem block2arena_blockAt {k page i : Nat} (hp : page % 4096 = 0) (hi : i < perArena k) :
    block2arena (blockAt k page i) = page := by
  have h1 := blockAt_end page hi
  have h2 := blockSize_ge k
  refine block2arena_eq hp ?_ (by omega)
  unfold blockAt
  omega

/-- Different blocks of a page do not overlap. -/
theorem blockAt_lt {i j : Nat} (k page : Nat) (h : i < j) :
    blockAt k page i + blockSize k ≤ blockAt k page j := by
  have : (i + 1) * blockSize k ≤ j * blockSize k := Nat.mul_le_mul_right _ h
  rw [Nat.succ_mul] at this
  unfold blockAt
  omega

theorem blockAt_inj {k page i j : Nat} (h : blockAt k page i = blockAt k page j) : i = j := by
  have hs := blockSize_ge k
  rcases Nat.lt_trichotomy i j with hlt | heq | hlt
  · have := blockAt_lt k page hlt
    omega
  · exact heq
  · have := blockAt_lt k page hlt
    omega

/-- The blocks of a page. -/
def blocksOf (k page : Nat) : List Nat := (List.range (perArena k)).map (blockAt k page)

theorem mem_blocksOf {k page b : Nat} : b ∈ blocksOf k page ↔ ∃ i, i < perArena k ∧ b = blockAt k page i := by
  simp only [blocksOf, List.mem_map, List.mem_range]
  exact ⟨fun ⟨i, hi, he⟩ => ⟨i, hi, he.symm⟩, fun ⟨i, hi, he⟩ => ⟨i, hi, he.symm⟩⟩

theorem nodup_blocksOf (k page : Nat) : (blocksOf k page).Nodup := by
  rw [blocksOf, List.Nodup, List.pairwise_map]
  exact List.nodup_range.imp fun hne he => hne (blockAt_inj he)

theorem block2arena_of_mem {k page b : Nat} (hp : page % 4096 = 0) (h : b ∈ blocksOf k page) :
    block2arena b = page := by
  obtain ⟨i, hi, rfl⟩ := mem_blocksOf.mp h
  exact block2arena_blockAt hp hi

/-! ## The heap -/

/-- An arena: its pages, and its class when it is one for small blocks. -/
structure Arena where
  page : Nat
  pages : Nat
  cls : Option Nat

/-- Arenas, the free list of each class, and the blocks in use with the sizes
asked for. -/
structure Heap where
  arenas : List Arena
  free : Nat → List Nat
  live : List (Nat × Nat)

/-- `b` is a block of class `k`. -/
def IsBlock (arenas : List Arena) (k b : Nat) : Prop :=
  ∃ A ∈ arenas, A.cls = some k ∧ b ∈ blocksOf k A.page

/-- `p` is a block with room for `size` bytes. -/
def HasRoom (arenas : List Arena) (p size : Nat) : Prop :=
  (∃ k, IsBlock arenas k p ∧ size ≤ blockSize k) ∨
    ∃ A ∈ arenas, A.cls = none ∧ p = A.page + arenaSize ∧ size + arenaSize ≤ 4096 * A.pages

theorem IsBlock.cons {arenas : List Arena} {A : Arena} {k b : Nat} (hb : IsBlock arenas k b) :
    IsBlock (A :: arenas) k b := by
  obtain ⟨B, hB, hBb⟩ := hb
  exact ⟨B, List.mem_cons_of_mem _ hB, hBb⟩

theorem HasRoom.cons {arenas : List Arena} {A : Arena} {p size : Nat} (hp : HasRoom arenas p size) :
    HasRoom (A :: arenas) p size := by
  rcases hp with ⟨k, hk, hle⟩ | ⟨B, hB, hBp⟩
  · exact Or.inl ⟨k, hk.cons, hle⟩
  · exact Or.inr ⟨B, List.mem_cons_of_mem _ hB, hBp⟩

/-- Two arenas share no page. -/
def PagesApart (A B : Arena) : Prop :=
  A.page + 4096 * A.pages ≤ B.page ∨ B.page + 4096 * B.pages ≤ A.page

theorem PagesApart.symm {A B : Arena} (h : PagesApart A B) : PagesApart B A := Or.symm h

/-- Pages an owner's heap can have: of the address space, accepted by
`sys_free`, and away from the descriptors. -/
structure Placed (o : HeapOwner) (page pages : Nat) : Prop where
  aligned : page % 4096 = 0
  pos : 0 < page
  base : o.base ≤ page
  some : 0 < pages
  word : page + 4096 * pages ≤ 2 ^ 32
  descs : page + 4096 * pages ≤ o.descs ∨ o.descs + 168 ≤ page

namespace Heap

/-- The pointers in use. -/
def used (h : Heap) : List Nat := h.live.map (·.1)

/-- Replace one free list. -/
def setFree (h : Heap) (k : Nat) (xs : List Nat) : Heap :=
  { h with free := fun j => if j = k then xs else h.free j }

/-- How many blocks of the page are on the free list of class `k`. -/
def freeIn (h : Heap) (k page : Nat) : Nat := (h.free k).countP (block2arena · = page)

structure Ok (o : HeapOwner) (h : Heap) : Prop where
  placed : ∀ A ∈ h.arenas, Placed o A.page A.pages
  apart : h.arenas.Pairwise PagesApart
  small : ∀ A ∈ h.arenas, ∀ k, A.cls = some k → k < 7 ∧ A.pages = 1
  large : ∀ A ∈ h.arenas, A.cls = none → A.page + arenaSize ∈ h.used
  free_iff : ∀ k, k < 7 → ∀ b, b ∈ h.free k ↔ IsBlock h.arenas k b ∧ b ∉ h.used
  free_nodup : ∀ k, k < 7 → (h.free k).Nodup
  room : ∀ e ∈ h.live, HasRoom h.arenas e.1 e.2
  used_nodup : h.used.Nodup

/-- Every arena has a user. -/
def Busy (h : Heap) : Prop :=
  ∀ A ∈ h.arenas, ∀ k, A.cls = some k → ∃ p ∈ h.used, block2arena p = A.page

variable {o : HeapOwner} {h : Heap}

theorem Ok.pagesApart (hok : h.Ok o) {A B : Arena} (hA : A ∈ h.arenas) (hB : B ∈ h.arenas)
    (hne : A ≠ B) : PagesApart A B :=
  have : Std.Symm PagesApart := ⟨fun _ _ => PagesApart.symm⟩
  hok.apart.forall hA hB hne

/-- Arenas are told apart by their page. -/
theorem Ok.eq_of_page (hok : h.Ok o) {A B : Arena} (hA : A ∈ h.arenas) (hB : B ∈ h.arenas)
    (hpage : A.page = B.page) : A = B := by
  apply Classical.byContradiction
  intro hne
  have hsome := (hok.placed A hA).some
  have hsome' := (hok.placed B hB).some
  have := hok.pagesApart hA hB hne
  unfold PagesApart at this
  omega

theorem Ok.block_arena (hok : h.Ok o) {A : Arena} {k b : Nat} (hA : A ∈ h.arenas)
    (hb : b ∈ blocksOf k A.page) : block2arena b = A.page :=
  block2arena_of_mem (hok.placed A hA).aligned hb

/-- A block has one class. -/
theorem Ok.cls_unique (hok : h.Ok o) {j k b : Nat} (hj : IsBlock h.arenas j b)
    (hk : IsBlock h.arenas k b) : j = k := by
  obtain ⟨A, hA, hAj, hbA⟩ := hj
  obtain ⟨B, hB, hBk, hbB⟩ := hk
  have hAB : A = B := hok.eq_of_page hA hB
    ((hok.block_arena hA hbA).symm.trans (hok.block_arena hB hbB))
  subst hAB
  exact Option.some.inj (hAj.symm.trans hBk)

/-- Two blocks do not overlap. -/
theorem Ok.blocks_apart (hok : h.Ok o) {j k b c : Nat} (hb : IsBlock h.arenas j b)
    (hc : IsBlock h.arenas k c) (hne : b ≠ c) : b + blockSize j ≤ c ∨ c + blockSize k ≤ b := by
  obtain ⟨A, hA, hAj, hbA⟩ := hb
  obtain ⟨B, hB, hBk, hcB⟩ := hc
  obtain ⟨i, hi, rfl⟩ := mem_blocksOf.mp hbA
  obtain ⟨l, hl, rfl⟩ := mem_blocksOf.mp hcB
  by_cases hAB : A = B
  · subst hAB
    obtain rfl := Option.some.inj (hAj.symm.trans hBk)
    rcases Nat.lt_trichotomy i l with hlt | rfl | hlt
    · exact Or.inl (blockAt_lt _ _ hlt)
    · exact absurd rfl hne
    · exact Or.inr (blockAt_lt _ _ hlt)
  · have hpages := hok.pagesApart hA hB hAB
    have h1 := blockAt_end A.page hi
    have h2 := blockAt_end B.page hl
    have h3 := (hok.small A hA j hAj).2
    have h4 := (hok.small B hB k hBk).2
    unfold PagesApart at hpages
    unfold blockAt at h1 h2 ⊢
    omega

/-- A pointer in use points into an arena, behind its header. -/
theorem Ok.used_arena (hok : h.Ok o) {p : Nat} (hp : p ∈ h.used) :
    ∃ A ∈ h.arenas, block2arena p = A.page ∧
      ((∃ k, A.cls = some k ∧ p ∈ blocksOf k A.page) ∨ A.cls = none ∧ p = A.page + arenaSize) := by
  obtain ⟨⟨q, size⟩, he, rfl⟩ := List.mem_map.mp hp
  rcases hok.room _ he with ⟨k, ⟨A, hA, hAk, hb⟩, -⟩ | ⟨A, hA, hcls, hpa, -⟩
  · exact ⟨A, hA, hok.block_arena hA hb, Or.inl ⟨k, hAk, hb⟩⟩
  · refine ⟨A, hA, ?_, Or.inr ⟨hcls, hpa⟩⟩
    refine block2arena_eq (hok.placed A hA).aligned ?_ ?_
    · rw [hpa]
      exact Nat.le_add_right _ _
    · rw [hpa]
      unfold arenaSize
      omega

/-! ## Taking and giving blocks -/

/-- A block of the free list comes into use. -/
def take (h : Heap) (k b size : Nat) (rest : List Nat) : Heap :=
  { h.setFree k rest with live := (b, size) :: h.live }

theorem Ok.take (hok : h.Ok o) {k b size : Nat} {rest : List Nat} (hk : k < 7)
    (hfree : h.free k = b :: rest) (hsize : size ≤ blockSize k) : (h.take k b size rest).Ok o := by
  obtain ⟨hblock, hunused⟩ := (hok.free_iff k hk b).mp (by rw [hfree]; exact List.mem_cons_self)
  have hnodup := hok.free_nodup k hk
  rw [hfree, List.nodup_cons] at hnodup
  have hused : (h.take k b size rest).used = b :: h.used := rfl
  refine ⟨hok.placed, hok.apart, hok.small, fun A hA hcls => ?_, fun j hj c => ?_, fun j hj => ?_,
    fun e he => ?_, ?_⟩
  · rw [hused]
    exact List.mem_cons_of_mem _ (hok.large A hA hcls)
  · have hiff := hok.free_iff j hj c
    show c ∈ (if j = k then rest else h.free j) ↔ IsBlock h.arenas j c ∧ c ∉ b :: h.used
    by_cases hjk : j = k
    · subst hjk
      rw [if_pos rfl]
      rw [hfree, List.mem_cons] at hiff
      rw [List.mem_cons, not_or]
      constructor
      · intro hc
        have hcb : c ≠ b := fun hcb => hnodup.1 (hcb ▸ hc)
        obtain ⟨h1, h2⟩ := hiff.mp (Or.inr hc)
        exact ⟨h1, hcb, h2⟩
      · intro hin
        obtain ⟨h1, hcb, h2⟩ := hin
        exact (hiff.mpr ⟨h1, h2⟩).resolve_left hcb
    · rw [if_neg hjk, hiff, List.mem_cons, not_or]
      constructor
      · intro hin
        obtain ⟨h1, h2⟩ := hin
        refine ⟨h1, ?_, h2⟩
        intro heq
        subst heq
        exact hjk (hok.cls_unique h1 hblock)
      · intro hin
        obtain ⟨h1, -, h2⟩ := hin
        exact ⟨h1, h2⟩
  · show (if j = k then rest else h.free j).Nodup
    split
    · exact hnodup.2
    · exact hok.free_nodup j hj
  · rcases List.mem_cons.mp he with rfl | he
    · exact Or.inl ⟨k, hblock, hsize⟩
    · exact hok.room e he
  · rw [hused, List.nodup_cons]
    exact ⟨hunused, hok.used_nodup⟩

/-- A block in use goes back to its free list. -/
def give (h : Heap) (k p : Nat) : Heap :=
  { h.setFree k (h.free k ++ [p]) with live := h.live.filter (·.1 ≠ p) }

theorem mem_used_filter {p q : Nat} :
    q ∈ (h.live.filter (·.1 ≠ p)).map (·.1) ↔ q ∈ h.used ∧ q ≠ p := by
  simp only [used, List.mem_map, List.mem_filter, decide_eq_true_eq]
  constructor
  · intro hin
    obtain ⟨e, ⟨he, hne⟩, rfl⟩ := hin
    exact ⟨⟨e, he, rfl⟩, hne⟩
  · intro hin
    obtain ⟨⟨e, he, rfl⟩, hne⟩ := hin
    exact ⟨e, ⟨he, hne⟩, rfl⟩

theorem used_filter_nodup (hok : h.Ok o) {p : Nat} :
    ((h.live.filter (·.1 ≠ p)).map (·.1)).Nodup :=
  List.Nodup.sublist (List.filter_sublist.map _) hok.used_nodup

theorem Ok.give (hok : h.Ok o) {k p : Nat} (hk : k < 7) (hblock : IsBlock h.arenas k p)
    (hp : p ∈ h.used) : (h.give k p).Ok o := by
  refine ⟨hok.placed, hok.apart, hok.small, fun A hA hcls => ?_, fun j hj c => ?_, fun j hj => ?_,
    fun e he => hok.room e (List.mem_of_mem_filter he), used_filter_nodup hok⟩
  · refine mem_used_filter.mpr ⟨hok.large A hA hcls, fun hc => ?_⟩
    obtain ⟨B, hB, hBk, hbB⟩ := hblock
    have hAB : A = B := hok.eq_of_page hA hB (by
      rw [← hok.block_arena hB hbB, ← hc]
      exact (block2arena_eq (hok.placed A hA).aligned (Nat.le_add_right _ _)
        (by unfold arenaSize; omega)).symm)
    rw [hAB, hBk] at hcls
    exact absurd hcls (by simp)
  · have hiff := hok.free_iff j hj c
    show c ∈ (if j = k then h.free k ++ [p] else h.free j) ↔ IsBlock h.arenas j c ∧
      c ∉ (h.live.filter (·.1 ≠ p)).map (·.1)
    rw [mem_used_filter, not_and_or, Classical.not_not]
    by_cases hjk : j = k
    · subst hjk
      rw [if_pos rfl, List.mem_append, List.mem_singleton, hiff]
      constructor
      · intro hor
        rcases hor with ⟨h1, h2⟩ | rfl
        · exact ⟨h1, Or.inl h2⟩
        · exact ⟨hblock, Or.inr rfl⟩
      · intro hin
        obtain ⟨h1, h2 | rfl⟩ := hin
        · exact Or.inl ⟨h1, h2⟩
        · exact Or.inr rfl
    · rw [if_neg hjk, hiff]
      constructor
      · intro hin
        obtain ⟨h1, h2⟩ := hin
        exact ⟨h1, Or.inl h2⟩
      · intro hin
        obtain ⟨h1, h2 | rfl⟩ := hin
        · exact ⟨h1, h2⟩
        · exact absurd (hok.cls_unique h1 hblock) hjk
  · show (if j = k then h.free k ++ [p] else h.free j).Nodup
    split
    · rw [List.nodup_append]
      refine ⟨hok.free_nodup k hk, by simp, fun a ha b hb => ?_⟩
      rw [List.mem_singleton.mp hb]
      intro heq
      subst heq
      exact ((hok.free_iff k hk a).mp ha).2 hp
    · exact hok.free_nodup j hj

/-! ## Arenas that come -/

/-- No pointer in use points into pages of which no arena has one. -/
theorem Ok.used_ne (hok : h.Ok o) {A : Arena} (hnew : ∀ B ∈ h.arenas, PagesApart A B)
    (hpages : 0 < A.pages) {p : Nat} (hp : p ∈ h.used) : block2arena p ≠ A.page := by
  obtain ⟨B, hB, hpB, -⟩ := hok.used_arena hp
  have := hnew B hB
  have := (hok.placed B hB).some
  unfold PagesApart at *
  omega

theorem isBlock_cons {arenas : List Arena} {A : Arena} {k b : Nat} :
    IsBlock (A :: arenas) k b ↔ (A.cls = some k ∧ b ∈ blocksOf k A.page) ∨ IsBlock arenas k b := by
  simp only [IsBlock, List.mem_cons, exists_eq_or_imp]

/-- A page becomes an arena, and all its blocks are free. -/
def addSmall (h : Heap) (k page : Nat) : Heap :=
  { h.setFree k (blocksOf k page) with arenas := ⟨page, 1, some k⟩ :: h.arenas }

theorem Ok.addSmall (hok : h.Ok o) {k page : Nat} (hk : k < 7) (hempty : h.free k = [])
    (hplaced : Placed o page 1) (hnew : ∀ B ∈ h.arenas, PagesApart ⟨page, 1, some k⟩ B) :
    (h.addSmall k page).Ok o := by
  have hunused : ∀ b ∈ blocksOf k page, b ∉ h.used := fun b hb hp =>
    hok.used_ne hnew Nat.one_pos hp (block2arena_of_mem hplaced.aligned hb)
  refine ⟨fun A hA => ?_, List.pairwise_cons.mpr ⟨hnew, hok.apart⟩, fun A hA j hj => ?_,
    fun A hA hcls => ?_, fun j hj c => ?_, fun j hj => ?_, fun e he => (hok.room e he).cons,
    hok.used_nodup⟩
  · rcases List.mem_cons.mp hA with rfl | hA
    · exact hplaced
    · exact hok.placed A hA
  · rcases List.mem_cons.mp hA with rfl | hA
    · obtain rfl := Option.some.inj hj
      exact ⟨hk, rfl⟩
    · exact hok.small A hA j hj
  · rcases List.mem_cons.mp hA with rfl | hA
    · exact absurd hcls (by simp)
    · exact hok.large A hA hcls
  · have hiff := hok.free_iff j hj c
    show c ∈ (if j = k then blocksOf k page else h.free j) ↔
      IsBlock (⟨page, 1, some k⟩ :: h.arenas) j c ∧ c ∉ h.used
    rw [isBlock_cons]
    by_cases hjk : j = k
    · subst hjk
      rw [hempty] at hiff
      rw [if_pos rfl]
      constructor
      · intro hc
        exact ⟨Or.inl ⟨rfl, hc⟩, hunused c hc⟩
      · intro hin
        obtain ⟨⟨-, hc⟩ | hc, hu⟩ := hin
        · exact hc
        · exact absurd (hiff.mpr ⟨hc, hu⟩) List.not_mem_nil
    · rw [if_neg hjk, hiff]
      constructor
      · intro hin
        obtain ⟨hc, hu⟩ := hin
        exact ⟨Or.inr hc, hu⟩
      · intro hin
        obtain ⟨⟨he, -⟩ | hc, hu⟩ := hin
        · exact absurd (Option.some.inj he).symm hjk
        · exact ⟨hc, hu⟩
  · show (if j = k then blocksOf k page else h.free j).Nodup
    split
    · exact nodup_blocksOf k page
    · exact hok.free_nodup j hj

/-- Pages are handed out whole. -/
def addLarge (h : Heap) (page pages size : Nat) : Heap :=
  { h with arenas := ⟨page, pages, none⟩ :: h.arenas, live := (page + arenaSize, size) :: h.live }

theorem block2arena_header {page : Nat} (hp : page % 4096 = 0) :
    block2arena (page + arenaSize) = page :=
  block2arena_eq hp (Nat.le_add_right _ _) (by unfold arenaSize; omega)

theorem Ok.addLarge (hok : h.Ok o) {page pages size : Nat} (hplaced : Placed o page pages)
    (hnew : ∀ B ∈ h.arenas, PagesApart ⟨page, pages, none⟩ B)
    (hsize : size + arenaSize ≤ 4096 * pages) : (h.addLarge page pages size).Ok o := by
  have hused : (h.addLarge page pages size).used = (page + arenaSize) :: h.used := rfl
  have hheader := block2arena_header hplaced.aligned
  refine ⟨fun A hA => ?_, List.pairwise_cons.mpr ⟨hnew, hok.apart⟩, fun A hA j hj => ?_,
    fun A hA hcls => ?_, fun j hj c => ?_, hok.free_nodup, fun e he => ?_, ?_⟩
  · rcases List.mem_cons.mp hA with rfl | hA
    · exact hplaced
    · exact hok.placed A hA
  · rcases List.mem_cons.mp hA with rfl | hA
    · exact absurd hj (by simp)
    · exact hok.small A hA j hj
  · rw [hused]
    rcases List.mem_cons.mp hA with rfl | hA
    · exact List.mem_cons_self
    · exact List.mem_cons_of_mem _ (hok.large A hA hcls)
  · rw [hused, List.mem_cons, not_or]
    show c ∈ h.free j ↔ IsBlock (⟨page, pages, none⟩ :: h.arenas) j c ∧ _
    rw [isBlock_cons, hok.free_iff j hj c]
    constructor
    · intro hin
      obtain ⟨hc, hu⟩ := hin
      refine ⟨Or.inr hc, ?_, hu⟩
      intro heq
      subst heq
      obtain ⟨B, hB, -, hcB⟩ := hc
      have hpage := hok.block_arena hB hcB
      rw [hheader] at hpage
      have := hnew B hB
      have := (hok.placed B hB).some
      have := hplaced.some
      unfold PagesApart at *
      simp only at *
      omega
    · intro hin
      obtain ⟨⟨he, -⟩ | hc, -, hu⟩ := hin
      · exact absurd he (by simp)
      · exact ⟨hc, hu⟩
  · rcases List.mem_cons.mp he with rfl | he
    · exact Or.inr ⟨_, List.mem_cons_self, rfl, rfl, hsize⟩
    · exact (hok.room e he).cons
  · rw [hused, List.nodup_cons]
    exact ⟨fun hp => hok.used_ne hnew hplaced.some hp hheader, hok.used_nodup⟩

/-! ## Arenas that go -/

/-- The arenas but the one at `page`. -/
def others (h : Heap) (page : Nat) : List Arena := h.arenas.filter (·.page ≠ page)

theorem mem_others {page : Nat} {A : Arena} : A ∈ h.others page ↔ A ∈ h.arenas ∧ A.page ≠ page := by
  simp [others]

/-- The blocks of the others are those that are not in the page. -/
theorem Ok.isBlock_others (hok : h.Ok o) {page k b : Nat} :
    IsBlock (h.others page) k b ↔ IsBlock h.arenas k b ∧ block2arena b ≠ page := by
  constructor
  · intro hin
    obtain ⟨A, hA, hk, hb⟩ := hin
    obtain ⟨hA, hne⟩ := mem_others.mp hA
    exact ⟨⟨A, hA, hk, hb⟩, by rwa [hok.block_arena hA hb]⟩
  · intro hin
    obtain ⟨⟨A, hA, hk, hb⟩, hne⟩ := hin
    rw [hok.block_arena hA hb] at hne
    exact ⟨A, mem_others.mpr ⟨hA, hne⟩, hk, hb⟩

/-- An arena without users is gone, with its blocks. -/
def dropSmall (h : Heap) (k page : Nat) : Heap :=
  { h.setFree k ((h.free k).filter (block2arena · ≠ page)) with arenas := h.others page }

theorem Ok.room_others (hok : h.Ok o) {page : Nat} {e : Nat × Nat} (he : e ∈ h.live)
    (hne : block2arena e.1 ≠ page) : HasRoom (h.others page) e.1 e.2 := by
  rcases hok.room e he with ⟨k, hk, hle⟩ | ⟨A, hA, hcls, hp, hle⟩
  · exact Or.inl ⟨k, hok.isBlock_others.mpr ⟨hk, hne⟩, hle⟩
  · refine Or.inr ⟨A, mem_others.mpr ⟨hA, fun hc => hne ?_⟩, hcls, hp, hle⟩
    rw [hp, block2arena_header (hok.placed A hA).aligned, hc]

theorem Ok.dropSmall (hok : h.Ok o) {A : Arena} {k : Nat} (hA : A ∈ h.arenas) (hcls : A.cls = some k)
    (hidle : ∀ p ∈ h.used, block2arena p ≠ A.page) : (h.dropSmall k A.page).Ok o := by
  have hother : ∀ B ∈ h.others A.page, B ∈ h.arenas := fun B hB => (mem_others.mp hB).1
  refine ⟨fun B hB => hok.placed B (hother B hB), hok.apart.filter _,
    fun B hB j hj => hok.small B (hother B hB) j hj, fun B hB hc => hok.large B (hother B hB) hc,
    fun j hj c => ?_, fun j hj => ?_,
    fun e he => hok.room_others he (hidle e.1 (List.mem_map.mpr ⟨e, he, rfl⟩)), hok.used_nodup⟩
  · have hiff := hok.free_iff j hj c
    show c ∈ (if j = k then (h.free k).filter (block2arena · ≠ A.page) else h.free j) ↔
      IsBlock (h.others A.page) j c ∧ c ∉ h.used
    rw [hok.isBlock_others]
    by_cases hjk : j = k
    · subst hjk
      rw [if_pos rfl, List.mem_filter, hiff, decide_eq_true_eq]
      exact ⟨fun ⟨⟨h1, h2⟩, h3⟩ => ⟨⟨h1, h3⟩, h2⟩, fun ⟨⟨h1, h3⟩, h2⟩ => ⟨⟨h1, h2⟩, h3⟩⟩
    · rw [if_neg hjk, hiff]
      refine ⟨fun ⟨h1, h2⟩ => ⟨⟨h1, fun hc => ?_⟩, h2⟩, fun ⟨⟨h1, _⟩, h2⟩ => ⟨h1, h2⟩⟩
      obtain ⟨B, hB, hBj, hcB⟩ := h1
      rw [hok.block_arena hB hcB] at hc
      rw [hok.eq_of_page hB hA hc, hcls] at hBj
      exact hjk (Option.some.inj hBj).symm
  · show (if j = k then (h.free k).filter (block2arena · ≠ A.page) else h.free j).Nodup
    split
    next hjk => exact List.Nodup.sublist List.filter_sublist (hok.free_nodup k (hjk ▸ hj))
    next => exact hok.free_nodup j hj

/-- Pages that were handed out whole are given back. -/
def dropLarge (h : Heap) (page : Nat) : Heap :=
  { h with arenas := h.others page, live := h.live.filter (·.1 ≠ page + arenaSize) }

theorem Ok.dropLarge (hok : h.Ok o) {A : Arena} (hA : A ∈ h.arenas) (hcls : A.cls = none) :
    (h.dropLarge A.page).Ok o := by
  have hother : ∀ B ∈ h.others A.page, B ∈ h.arenas := fun B hB => (mem_others.mp hB).1
  have hheader := block2arena_header (hok.placed A hA).aligned
  -- the only pointer in use in these pages is the one behind the header
  have honly : ∀ p ∈ h.used, block2arena p = A.page → p = A.page + arenaSize := by
    intro p hp hpA
    obtain ⟨B, hB, hpB, hkind⟩ := hok.used_arena hp
    obtain rfl := hok.eq_of_page hB hA (hpB.symm.trans hpA)
    rcases hkind with ⟨k, hk, -⟩ | ⟨-, hp⟩
    · rw [hcls] at hk
      exact absurd hk (by simp)
    · exact hp
  refine ⟨fun B hB => hok.placed B (hother B hB), hok.apart.filter _,
    fun B hB j hj => hok.small B (hother B hB) j hj, fun B hB hc => ?_, fun j hj c => ?_,
    hok.free_nodup, fun e he => ?_, used_filter_nodup hok⟩
  · refine mem_used_filter.mpr ⟨hok.large B (hother B hB) hc, fun he => ?_⟩
    exact (mem_others.mp hB).2 (Nat.add_right_cancel he)
  · show c ∈ h.free j ↔ IsBlock (h.others A.page) j c ∧
      c ∉ (h.live.filter (·.1 ≠ A.page + arenaSize)).map (·.1)
    rw [mem_used_filter, hok.isBlock_others, hok.free_iff j hj c]
    have hne : ∀ {b}, IsBlock h.arenas j b → block2arena b ≠ A.page := by
      intro b hin hc
      obtain ⟨B, hB, hBj, hbB⟩ := hin
      rw [hok.block_arena hB hbB] at hc
      rw [hok.eq_of_page hB hA hc, hcls] at hBj
      exact absurd hBj (by simp)
    constructor
    · intro hin
      obtain ⟨h1, h2⟩ := hin
      exact ⟨⟨h1, hne h1⟩, fun hc => h2 hc.1⟩
    · intro hin
      obtain ⟨⟨h1, h3⟩, h2⟩ := hin
      refine ⟨h1, fun hc => h2 ⟨hc, fun he => h3 ?_⟩⟩
      rw [he, hheader]
  · obtain ⟨he, hne⟩ := List.mem_filter.mp he
    apply hok.room_others he
    intro hc
    have := honly e.1 (List.mem_map.mpr ⟨e, he, rfl⟩) hc
    simp [this] at hne

/-! ## Counting -/

/-- The free blocks of a page, counted on the list or on the page. -/
theorem Ok.freeIn_eq (hok : h.Ok o) {A : Arena} {k : Nat} (hA : A ∈ h.arenas) (hcls : A.cls = some k) :
    h.freeIn k A.page =
      ((List.range (perArena k)).filter fun i => blockAt k A.page i ∈ h.free k).length := by
  have hk := (hok.small A hA k hcls).1
  have hperm : ((h.free k).filter (block2arena · = A.page)).Perm
      (((List.range (perArena k)).filter fun i => blockAt k A.page i ∈ h.free k).map
        (blockAt k A.page)) := by
    refine (List.perm_ext_iff_of_nodup ?_ ?_).mpr fun b => ?_
    · exact List.Nodup.sublist List.filter_sublist (hok.free_nodup k hk)
    · rw [List.Nodup, List.pairwise_map]
      refine List.Pairwise.imp ?_ (List.Nodup.sublist List.filter_sublist List.nodup_range)
      exact fun hne he => hne (blockAt_inj he)
    · simp only [List.mem_filter, List.mem_map, List.mem_range, decide_eq_true_eq]
      constructor
      · intro hin
        obtain ⟨hb, hpage⟩ := hin
        obtain ⟨⟨B, hB, hBk, hbB⟩, -⟩ := (hok.free_iff k hk b).mp hb
        obtain rfl := hok.eq_of_page hB hA ((hok.block_arena hB hbB).symm.trans hpage)
        obtain ⟨i, hi, rfl⟩ := mem_blocksOf.mp hbB
        exact ⟨i, ⟨hi, hb⟩, rfl⟩
      · intro hin
        obtain ⟨i, ⟨hi, hb⟩, rfl⟩ := hin
        exact ⟨hb, block2arena_blockAt (hok.placed A hA).aligned hi⟩
  have hlen := hperm.length_eq
  rw [List.length_map] at hlen
  rw [freeIn, List.countP_eq_length_filter, hlen]

/-- **All blocks of an arena are on the free list exactly when it has no user.** -/
theorem Ok.freeIn_full_iff (hok : h.Ok o) {A : Arena} {k : Nat} (hA : A ∈ h.arenas)
    (hcls : A.cls = some k) :
    h.freeIn k A.page = perArena k ↔ ∀ p ∈ h.used, block2arena p ≠ A.page := by
  have hk := (hok.small A hA k hcls).1
  rw [hok.freeIn_eq hA hcls]
  have hall : ((List.range (perArena k)).filter fun i => blockAt k A.page i ∈ h.free k).length =
      perArena k ↔ ∀ i, i < perArena k → blockAt k A.page i ∈ h.free k := by
    have := List.length_filter_eq_length_iff (l := List.range (perArena k))
      (p := fun i => decide (blockAt k A.page i ∈ h.free k))
    rw [List.length_range] at this
    simpa using this
  rw [hall]
  constructor
  · intro hfree p hp hpage
    obtain ⟨B, hB, hpB, hkind⟩ := hok.used_arena hp
    obtain rfl := hok.eq_of_page hB hA (hpB.symm.trans hpage)
    rcases hkind with ⟨j, hj, hpj⟩ | ⟨hnone, -⟩
    · obtain rfl := Option.some.inj (hj.symm.trans hcls)
      obtain ⟨i, hi, rfl⟩ := mem_blocksOf.mp hpj
      exact ((hok.free_iff j hk _).mp (hfree i hi)).2 hp
    · rw [hcls] at hnone
      exact absurd hnone (by simp)
  · intro hidle i hi
    refine (hok.free_iff k hk _).mpr ⟨⟨A, hA, hcls, mem_blocksOf.mpr ⟨i, hi, rfl⟩⟩, fun hp => ?_⟩
    exact hidle _ hp (block2arena_blockAt (hok.placed A hA).aligned hi)

/-! ## The calls -/

/-- The smallest class with room for `size` bytes: `n` classes from `k` on. -/
def findClass (size : Nat) : Nat → Nat → Nat
  | 0, k => k
  | n + 1, k => if size ≤ blockSize k then k else findClass size n (k + 1)

/-- What `sys_malloc` answers and leaves behind, when `malloc_page` answers
`answer`. -/
def malloc (o : HeapOwner) (h : Heap) (size : Nat) (answer : Option Nat) : Nat × Heap :=
  if ¬(0 < size ∧ size < o.poolSize) then (0, h)
  else if 1024 < size then
    match answer with
    | none => (0, h)
    | some a => (a + arenaSize, h.addLarge a (pageCnt size) size)
  else
    let k := findClass size 7 0
    match h.free k, answer with
    | b :: rest, _ => (b, h.take k b size rest)
    | [], none => (0, h)
    | [], some a =>
      (a + arenaSize, (h.addSmall k a).take k (a + arenaSize) size (blocksOf k a).tail)

/-- What `sys_free` leaves behind. -/
def release (h : Heap) (p : Nat) : Heap :=
  match h.arenas.find? fun A => A.page = block2arena p with
  | none => h
  | some A =>
    match A.cls with
    | none => h.dropLarge A.page
    | some k =>
      if ∀ q ∈ (h.give k p).used, block2arena q ≠ A.page then (h.give k p).dropSmall k A.page
      else h.give k p

theorem Ok.find_arena (hok : h.Ok o) {A : Arena} (hA : A ∈ h.arenas) {p : Nat}
    (hp : block2arena p = A.page) :
    h.arenas.find? (fun B => B.page = block2arena p) = some A := by
  cases hfind : h.arenas.find? fun B => B.page = block2arena p with
  | none =>
    have := List.find?_eq_none.mp hfind A hA
    simp [hp] at this
  | some B =>
    have hB := List.mem_of_find?_eq_some hfind
    have hpage : B.page = block2arena p := by simpa using List.find?_some hfind
    rw [hok.eq_of_page hB hA (hpage.trans hp)]

end Heap

end OsCore.Kernel
