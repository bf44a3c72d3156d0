import OsCore.Kernel.HeapBlocks

/-!
# A heap in memory

`Rep o h m` says that the bytes of `m` are the heap `h`: the descriptors hold
the block sizes, the lists hold the free blocks, and the headers of the arenas
hold their class and their count. Each step of `sys_malloc` and `sys_free` on
the bytes is then one of the steps on `h`.

Memory is divided by class. `InClass k` are the bytes the free list of class `k`
may run through: its two ends in the descriptor and all blocks of that size. No
byte is in two classes, and headers and block sizes are in none, so a step on
one class leaves the rest of the heap alone.
-/

namespace OsCore.Kernel

variable {o : HeapOwner} {h : Heap} {m m' : Mem}

/-- The list of class `k`. -/
abbrev listOf (o : HeapOwner) (k : Nat) : Nat := freeList (descAt o.descs k)

/-- The bytes of class `k`. -/
def InClass (o : HeapOwner) (h : Heap) (k a : Nat) : Prop :=
  (listOf o k ≤ a ∧ a < listOf o k + 16) ∨
    ∃ b, IsBlock h.arenas k b ∧ b ≤ a ∧ a < b + blockSize k

structure Rep (o : HeapOwner) (h : Heap) (m : Mem) : Prop where
  size : ∀ k, k < 7 → m.rd32 (descAt o.descs k) = blockSize k
  per : ∀ k, k < 7 → m.rd32 (descAt o.descs k + 4) = perArena k
  lists : ∀ k, k < 7 → IsList m (listOf o k) (h.free k)
  small : ∀ A ∈ h.arenas, ∀ k, A.cls = some k → m.rd32 A.page = descAt o.descs k ∧
    m.rd32 (A.page + 4) = h.freeIn k A.page ∧ m.rd32 (A.page + 8) = 0
  large : ∀ A ∈ h.arenas, A.cls = none → m.rd32 A.page = 0 ∧
    m.rd32 (A.page + 4) = A.pages ∧ m.rd32 (A.page + 8) = 1

/-! ## What is where -/

/-- The bytes of the heap: descriptors and pages. -/
def Heap.Within (o : HeapOwner) (h : Heap) (a : Nat) : Prop :=
  (o.descs ≤ a ∧ a < o.descs + 168) ∨
    ∃ A ∈ h.arenas, A.page ≤ a ∧ a < A.page + 4096 * A.pages

theorem inClass_of_nodes {k : Nat} {xs : List Nat} (hxs : ∀ b ∈ xs, IsBlock h.arenas k b) {a : Nat}
    (ha : InNodes (nodes (listOf o k) xs) a) : InClass o h k a := by
  obtain ⟨x, hx, h1, h2⟩ := ha
  have hs := blockSize_ge k
  rcases List.mem_cons.mp hx with rfl | hx
  · exact Or.inl ⟨h1, by omega⟩
  · rcases List.mem_append.mp hx with hx | hx
    · exact Or.inr ⟨x, hxs x hx, h1, by omega⟩
    · rw [List.mem_singleton.mp hx] at h1 h2
      exact Or.inl ⟨by omega, by omega⟩

namespace Heap.Ok

variable (hok : h.Ok o)

include hok

/-- A block lies in a page, behind its header. -/
theorem block_in {k b : Nat} (hb : IsBlock h.arenas k b) :
    ∃ A ∈ h.arenas, A.cls = some k ∧ A.page = block2arena b ∧ A.page + arenaSize ≤ b ∧
      b + blockSize k ≤ A.page + 4096 ∧ A.pages = 1 := by
  obtain ⟨A, hA, hcls, hbA⟩ := hb
  refine ⟨A, hA, hcls, (hok.block_arena hA hbA).symm, ?_, ?_, (hok.small A hA k hcls).2⟩
  · obtain ⟨i, hi, rfl⟩ := mem_blocksOf.mp hbA
    exact Nat.le_add_right _ _
  · obtain ⟨i, hi, rfl⟩ := mem_blocksOf.mp hbA
    exact blockAt_end _ hi

/-- Every class is of the heap. -/
theorem within_of_inClass {k a : Nat} (hk : k < 7) (ha : InClass o h k a) : h.Within o a := by
  rcases ha with hl | ⟨b, hb, hlt⟩
  · unfold listOf freeList descAt at hl
    exact Or.inl ⟨by omega, by omega⟩
  · obtain ⟨A, hA, -, -, hlo, hhi, hpages⟩ := hok.block_in hb
    exact Or.inr ⟨A, hA, by omega, by rw [hpages]; omega⟩

/-- So is every header. -/
theorem out_of_header {A : Arena} (hA : A ∈ h.arenas) {a : Nat} (ha : ¬h.Within o a) :
    a < A.page ∨ A.page + arenaSize ≤ a := by
  have hsome := (hok.placed A hA).some
  refine Decidable.byContradiction fun hc => ha (Or.inr ⟨A, hA, by omega, ?_⟩)
  unfold arenaSize at hc
  omega

/-- Pages and descriptors are apart. -/
theorem desc_out {A : Arena} (hA : A ∈ h.arenas) {a : Nat} (h1 : o.descs ≤ a)
    (h2 : a < o.descs + 168) : a < A.page ∨ A.page + 4096 * A.pages ≤ a := by
  have := (hok.placed A hA).descs
  omega

theorem desc_not_block {k b a : Nat} (hb : IsBlock h.arenas k b) (h1 : o.descs ≤ a)
    (h2 : a < o.descs + 168) : a < b ∨ b + blockSize k ≤ a := by
  obtain ⟨A, hA, -, -, hlo, hhi, hpages⟩ := hok.block_in hb
  have := hok.desc_out hA h1 h2
  omega

/-- The sizes in a descriptor are in no class. -/
theorem desc_not_inClass {j k i : Nat} (hj : j < 7) (hi : i < 8) :
    ¬InClass o h k (descAt o.descs j + i) := by
  intro hor
  rcases hor with hl | ⟨b, hb, hlt⟩
  · unfold listOf freeList descAt at hl
    omega
  · have := hok.desc_not_block hb (a := descAt o.descs j + i) (by unfold descAt; omega)
      (by unfold descAt; omega)
    omega

/-- Headers are in no class. -/
theorem header_not_inClass {A : Arena} (hA : A ∈ h.arenas) {k i : Nat} (hk : k < 7)
    (hi : i < arenaSize) : ¬InClass o h k (A.page + i) := by
  have hsome := (hok.placed A hA).some
  intro hor
  rcases hor with hl | ⟨b, hb, hlt⟩
  · have := hok.desc_out hA (a := A.page + i) (by unfold listOf freeList descAt at hl; omega)
      (by unfold listOf freeList descAt at hl; omega)
    unfold arenaSize at hi
    omega
  · obtain ⟨B, hB, -, -, hlo, hhi, hpages⟩ := hok.block_in hb
    by_cases hAB : A = B
    · subst hAB
      omega
    · have := hok.pagesApart hA hB hAB
      unfold PagesApart at this
      unfold arenaSize at hi hlo
      omega

/-- No byte is in two classes. -/
theorem inClass_unique {j k a : Nat} (hj : j < 7) (hk : k < 7) (ha : InClass o h j a)
    (ha' : InClass o h k a) : j = k := by
  rcases ha with hl | ⟨b, hb, hlt⟩
  · rcases ha' with hl' | ⟨c, hc, hlt'⟩
    · unfold listOf freeList descAt at hl hl'
      omega
    · have := hok.desc_not_block hc (a := a) (by unfold listOf freeList descAt at hl; omega)
        (by unfold listOf freeList descAt at hl; omega)
      omega
  · rcases ha' with hl' | ⟨c, hc, hlt'⟩
    · have := hok.desc_not_block hb (a := a) (by unfold listOf freeList descAt at hl'; omega)
        (by unfold listOf freeList descAt at hl'; omega)
      omega
    · apply hok.cls_unique hb
      rwa [show b = c from ?_]
      apply Classical.byContradiction
      intro hne
      have := hok.blocks_apart hb hc hne
      omega

theorem free_isBlock {k : Nat} (hk : k < 7) : ∀ b ∈ h.free k, IsBlock h.arenas k b := fun b hb =>
  ((hok.free_iff k hk b).mp hb).1

end Heap.Ok

/-! ## What stays -/

theorem rd32_same {a : Nat} (hm : ∀ i, i < 4 → m' (a + i) = m (a + i)) : m'.rd32 a = m.rd32 a :=
  Mem.rd32_congr hm

theorem Rep.desc_kept (hrep : Rep o h m) (m' : Mem)
    (hm : ∀ j, j < 7 → ∀ i, i < 8 → m' (descAt o.descs j + i) = m (descAt o.descs j + i)) :
    (∀ k, k < 7 → m'.rd32 (descAt o.descs k) = blockSize k) ∧
      ∀ k, k < 7 → m'.rd32 (descAt o.descs k + 4) = perArena k := by
  refine ⟨fun k hk => ?_, fun k hk => ?_⟩
  · rw [← hrep.size k hk]
    exact rd32_same fun i hi => hm k hk i (by omega)
  · rw [← hrep.per k hk]
    apply rd32_same
    intro i hi
    rw [Nat.add_assoc]
    exact hm k hk _ (by omega)

theorem Rep.list_kept (hrep : Rep o h m) (hok : h.Ok o) {k : Nat} (hk : k < 7)
    (hm : ∀ a, InClass o h k a → m' a = m a) : IsList m' (listOf o k) (h.free k) :=
  (hrep.lists k hk).congr fun a ha => hm a (inClass_of_nodes (hok.free_isBlock hk) ha)

/-- A header that stays. -/
theorem header_kept {page : Nat} (hm : ∀ i, i < arenaSize → m' (page + i) = m (page + i)) :
    m'.rd32 page = m.rd32 page ∧ m'.rd32 (page + 4) = m.rd32 (page + 4) ∧
      m'.rd32 (page + 8) = m.rd32 (page + 8) := by
  unfold arenaSize at hm
  refine ⟨rd32_same fun i hi => hm i (by omega), rd32_same fun i hi => ?_, rd32_same fun i hi => ?_⟩
  · rw [Nat.add_assoc]
    exact hm _ (by omega)
  · rw [Nat.add_assoc]
    exact hm _ (by omega)

/-- **A step on one class.** The bytes of class `k` and the count of the arena
`A` may change; the list of that class and the count have to be right, and what
arenas are left must have the count they had. -/
theorem Rep.step {h' : Heap} (hrep : Rep o h m) (hok : h.Ok o) {k : Nat} (hk : k < 7) {A : Arena}
    (hA : A ∈ h.arenas) (hcls : A.cls = some k) (harenas : ∀ B ∈ h'.arenas, B ∈ h.arenas)
    (hfree : ∀ j, j ≠ k → h'.free j = h.free j)
    (hm : ∀ a, ¬InClass o h k a → a < A.page + 4 ∨ A.page + 8 ≤ a → m' a = m a)
    (hlist : IsList m' (listOf o k) (h'.free k))
    (hcnt : A ∈ h'.arenas → m'.rd32 (A.page + 4) = h'.freeIn k A.page)
    (hothers : ∀ B ∈ h'.arenas, B.page ≠ A.page → h'.freeIn k B.page = h.freeIn k B.page) :
    Rep o h' m' := by
  have hdescA : ∀ a, o.descs ≤ a → a < o.descs + 168 → a < A.page + 4 ∨ A.page + 8 ≤ a := by
    intro a h1 h2
    have := hok.desc_out hA h1 h2
    have := (hok.placed A hA).some
    omega
  have hdesc := hrep.desc_kept m' fun j hj i hi =>
    hm _ (hok.desc_not_inClass hj hi) (hdescA _ (by unfold descAt; omega) (by unfold descAt; omega))
  have hheader : ∀ B ∈ h.arenas, B ≠ A → ∀ i, i < arenaSize → m' (B.page + i) = m (B.page + i) := by
    intro B hB hne i hi
    apply hm _ (hok.header_not_inClass hB hk hi)
    have := hok.pagesApart hB hA hne
    have := (hok.placed B hB).some
    have := (hok.placed A hA).some
    unfold PagesApart at *
    unfold arenaSize at hi
    omega
  refine ⟨hdesc.1, hdesc.2, fun j hj => ?_, fun B hB j hj => ?_, fun B hB hnone => ?_⟩
  · by_cases hjk : j = k
    · rw [hjk]
      exact hlist
    · rw [hfree j hjk]
      refine hrep.list_kept hok hj fun a ha => hm a (fun hc => hjk (hok.inClass_unique hj hk ha hc)) ?_
      have hnot := fun i hi => hok.header_not_inClass hA (i := i) hj hi
      refine Decidable.byContradiction fun hc => hnot (a - A.page) ?_ ?_
      · unfold arenaSize
        omega
      · rwa [show A.page + (a - A.page) = a by omega]
  · have hBh := harenas B hB
    by_cases hBA : B = A
    · subst hBA
      obtain rfl := Option.some.inj (hj.symm.trans hcls)
      obtain ⟨h1, -, h3⟩ := hrep.small B hBh j hj
      have hnot := fun i hi => hok.header_not_inClass hA (i := i) hk hi
      refine ⟨?_, hcnt hB, ?_⟩
      · rw [← h1]
        exact rd32_same fun i hi => hm _ (hnot i (by unfold arenaSize; omega)) (by omega)
      · rw [← h3]
        refine rd32_same fun i hi => hm _ ?_ (by omega)
        rw [Nat.add_assoc]
        exact hnot _ (by unfold arenaSize; omega)
    · obtain ⟨k0, k4, k8⟩ := header_kept (hheader B hBh hBA)
      obtain ⟨h1, h2, h3⟩ := hrep.small B hBh j hj
      refine ⟨k0.trans h1, ?_, k8.trans h3⟩
      rw [k4, h2]
      by_cases hjk : j = k
      · subst hjk
        exact (hothers B hB fun hc => hBA (hok.eq_of_page hBh hA hc)).symm
      · rw [Heap.freeIn, Heap.freeIn, hfree j hjk]
  · have hBh := harenas B hB
    have hBA : B ≠ A := by
      intro heq
      subst heq
      rw [hcls] at hnone
      exact absurd hnone (by simp)
    obtain ⟨k0, k4, k8⟩ := header_kept (hheader B hBh hBA)
    obtain ⟨h1, h2, h3⟩ := hrep.large B hBh hnone
    exact ⟨k0.trans h1, k4.trans h2, k8.trans h3⟩

/-! ## Taking a block -/

/-- Nodes of a class do not reach into another block of it. -/
theorem Heap.Ok.nodes_not_block (hok : h.Ok o) {k b a : Nat} {xs : List Nat} (hk : k < 7)
    (hxs : ∀ x ∈ xs, IsBlock h.arenas k x) (hb : IsBlock h.arenas k b) (hbx : b ∉ xs)
    (ha : InNodes (nodes (listOf o k) xs) a) : a < b ∨ b + blockSize k ≤ a := by
  obtain ⟨x, hx, h1, h2⟩ := ha
  have hs := blockSize_ge k
  have hend : ∀ y, y = listOf o k ∨ y = listOf o k + 8 → y ≤ a → a < y + 8 →
      a < b ∨ b + blockSize k ≤ a := by
    intro y hy h1 h2
    refine hok.desc_not_block hb ?_ ?_ <;>
      rcases hy with rfl | rfl <;> unfold listOf freeList descAt at * <;> omega
  rcases List.mem_cons.mp hx with rfl | hx
  · exact hend _ (Or.inl rfl) h1 h2
  · rcases List.mem_append.mp hx with hx | hx
    · have hne : x ≠ b := fun hc => hbx (hc ▸ hx)
      have := hok.blocks_apart (hxs x hx) hb hne
      omega
    · rw [List.mem_singleton.mp hx] at h1 h2
      exact hend _ (Or.inr rfl) h1 h2

theorem takeBlock_rep (hok : h.Ok o) (hrep : Rep o h m) (size : Nat) {k b : Nat} {rest : List Nat}
    (hk : k < 7) (hfree : h.free k = b :: rest) :
    (takeBlock m (descAt o.descs k)).1 = b ∧
      Rep o (h.take k b size rest) (takeBlock m (descAt o.descs k)).2 ∧
      ∀ a, ¬h.Within o a → (takeBlock m (descAt o.descs k)).2 a = m a := by
  have hlist := hrep.lists k hk
  rw [hfree] at hlist
  have hblocks := hok.free_isBlock hk
  have hnodup := hok.free_nodup k hk
  rw [hfree] at hblocks hnodup
  have hb : IsBlock h.arenas k b := hblocks b List.mem_cons_self
  have hrest : ∀ x ∈ rest, IsBlock h.arenas k x := fun x hx => hblocks x (List.mem_cons_of_mem _ hx)
  obtain ⟨A, hA, hcls, hpage, -, -, -⟩ := hok.block_in hb
  obtain ⟨m1, hpop, hlist1, hframe⟩ : ∃ m1, listPop m (listOf o k) = (b, m1) ∧
      IsList m1 (listOf o k) rest ∧ ∀ a, ¬InNodes (nodes (listOf o k) rest) a → m1 a = m a :=
    ⟨_, Prod.ext hlist.pop.1 rfl, hlist.pop.2⟩
  -- the list is changed, then the block cleared, then the count
  have hm1 : ∀ a, ¬InClass o h k a → m1 a = m a := fun a ha =>
    hframe a fun hc => ha (inClass_of_nodes hrest hc)
  have hsize1 : m1.rd32 (descAt o.descs k) = blockSize k := by
    rw [← hrep.size k hk]
    exact rd32_same fun i hi => hm1 _ (hok.desc_not_inClass hk (by omega))
  have hm2 : ∀ a, ¬InClass o h k a → m1.fill b 0 (blockSize k) a = m a := by
    intro a ha
    rw [Mem.fill, Mem.blit_out, hm1 a ha]
    exact Decidable.byContradiction fun hc => ha (Or.inr ⟨b, hb, by omega, by omega⟩)
  have hlist2 : IsList (m1.fill b 0 (blockSize k)) (listOf o k) rest :=
    hlist1.congr fun a ha => Mem.blit_out
      (hok.nodes_not_block hk hrest hb (List.nodup_cons.mp hnodup).1 ha)
  have hcnt2 : (m1.fill b 0 (blockSize k)).rd32 (A.page + 4) = h.freeIn k A.page := by
    rw [← (hrep.small A hA k hcls).2.1]
    refine rd32_same fun i hi => hm2 _ ?_
    rw [Nat.add_assoc]
    exact hok.header_not_inClass hA hk (by unfold arenaSize; omega)
  have htake : takeBlock m (descAt o.descs k) =
      (b, (m1.fill b 0 (blockSize k)).wr32 (A.page + 4)
        ((h.freeIn k A.page + 2 ^ 32 - 1) % 2 ^ 32)) := by
    rw [← hcnt2, ← hsize1, hpage, takeBlock, hpop]
  rw [htake]
  have hout : ∀ a, ¬h.Within o a → (m1.fill b 0 (blockSize k)).wr32 (A.page + 4)
      ((h.freeIn k A.page + 2 ^ 32 - 1) % 2 ^ 32) a = m a := by
    intro a ha
    have hhead := hok.out_of_header hA ha
    unfold arenaSize at hhead
    rw [wr32_out (by omega), hm2 a fun hc => ha (hok.within_of_inClass hk hc)]
  refine ⟨rfl, ?_, hout⟩
  dsimp only
  have hin : h.freeIn k A.page = rest.countP (block2arena · = A.page) + 1 := by
    rw [Heap.freeIn, hfree, List.countP_cons_of_pos (by simp [hpage])]
  have hfree' : (h.take k b size rest).free k = rest := if_pos rfl
  refine hrep.step hok hk hA hcls (fun B hB => hB) (fun j hj => if_neg hj)
    (fun a ha hc => ?_) ?_ (fun _ => ?_) fun B hB hne => ?_
  · rw [wr32_out (by omega), hm2 a ha]
  · rw [hfree']
    refine hlist2.congr fun a ha => wr32_out ?_
    have hcl := inClass_of_nodes (o := o) hrest ha
    refine Decidable.byContradiction fun hc =>
      hok.header_not_inClass hA (k := k) (i := a - A.page) hk (by unfold arenaSize; omega) ?_
    rwa [show A.page + (a - A.page) = a by omega]
  · have hlt := m.rd32_lt (A.page + 4)
    rw [(hrep.small A hA k hcls).2.1, hin] at hlt
    rw [Mem.rd32_wr32 (Nat.mod_lt _ (by decide)), hin, Heap.freeIn, hfree']
    omega
  · rw [Heap.freeIn, Heap.freeIn, hfree', hfree, List.countP_cons_of_neg]
    simpa [← hpage] using Ne.symm hne

/-! ## Giving a block -/

theorem Heap.Ok.apart_nodes (hok : h.Ok o) {k b : Nat} {xs : List Nat} (hk : k < 7)
    (hxs : ∀ x ∈ xs, IsBlock h.arenas k x) (hb : IsBlock h.arenas k b) (hbx : b ∉ xs) :
    ∀ x ∈ nodes (listOf o k) xs, Apart b x := by
  intro x hx
  have hs := blockSize_ge k
  have h0 := hok.nodes_not_block hk hxs hb hbx (a := x) ⟨x, hx, by omega, by omega⟩
  have h7 := hok.nodes_not_block hk hxs hb hbx (a := x + 7) ⟨x, hx, by omega, by omega⟩
  unfold Apart
  omega

theorem Heap.Ok.block_word (hok : h.Ok o) {k b : Nat} (hb : IsBlock h.arenas k b) : b < 2 ^ 32 := by
  obtain ⟨A, hA, -, -, -, hhi, hpages⟩ := hok.block_in hb
  have hs := blockSize_ge k
  have := (hok.placed A hA).word
  omega

theorem giveBlock_rep (hok : h.Ok o) (hrep : Rep o h m) {k p : Nat} {A : Arena} (hk : k < 7)
    (hA : A ∈ h.arenas) (hcls : A.cls = some k) (hpA : p ∈ blocksOf k A.page) (hp : p ∈ h.used) :
    (listAppend m (listOf o k) p).rd32 (A.page + 4) = h.freeIn k A.page ∧
      (h.give k p).freeIn k A.page = h.freeIn k A.page + 1 ∧
      Rep o (h.give k p) ((listAppend m (listOf o k) p).wr32 (A.page + 4)
        ((h.freeIn k A.page + 1) % 2 ^ 32)) ∧
      ∀ a, ¬h.Within o a → (listAppend m (listOf o k) p).wr32 (A.page + 4)
        ((h.freeIn k A.page + 1) % 2 ^ 32) a = m a := by
  have hb : IsBlock h.arenas k p := ⟨A, hA, hcls, hpA⟩
  have hpage := hok.block_arena hA hpA
  have hblocks := hok.free_isBlock hk
  have hpfree : p ∉ h.free k := fun hc => ((hok.free_iff k hk p).mp hc).2 hp
  obtain ⟨hlist, hframe⟩ := (hrep.lists k hk).append (hok.block_word hb)
    (hok.apart_nodes hk hblocks hb hpfree)
  have hm1 : ∀ a, ¬InClass o h k a → listAppend m (listOf o k) p a = m a := by
    refine fun a ha => hframe a fun hc => ha ?_
    obtain ⟨x, hx, h1, h2⟩ := hc
    rcases List.mem_cons.mp hx with rfl | hx
    · have := blockSize_ge k
      exact Or.inr ⟨x, hb, h1, by omega⟩
    · exact inClass_of_nodes hblocks ⟨x, hx, h1, h2⟩
  have hcnt1 : (listAppend m (listOf o k) p).rd32 (A.page + 4) = h.freeIn k A.page := by
    rw [← (hrep.small A hA k hcls).2.1]
    refine rd32_same fun i hi => hm1 _ ?_
    rw [Nat.add_assoc]
    exact hok.header_not_inClass hA hk (by unfold arenaSize; omega)
  have hfree' : (h.give k p).free k = h.free k ++ [p] := if_pos rfl
  have hin : (h.give k p).freeIn k A.page = h.freeIn k A.page + 1 := by
    rw [Heap.freeIn, Heap.freeIn, hfree', List.countP_append,
      List.countP_cons_of_pos (by simp [hpage])]
    simp
  have hblocks' : ∀ x ∈ h.free k ++ [p], IsBlock h.arenas k x := by
    intro x hx
    rcases List.mem_append.mp hx with hx | hx
    · exact hblocks x hx
    · rw [List.mem_singleton.mp hx]
      exact hb
  have hout : ∀ a, ¬h.Within o a → (listAppend m (listOf o k) p).wr32 (A.page + 4)
      ((h.freeIn k A.page + 1) % 2 ^ 32) a = m a := by
    intro a ha
    have hhead := hok.out_of_header hA ha
    unfold arenaSize at hhead
    rw [wr32_out (by omega), hm1 a fun hc => ha (hok.within_of_inClass hk hc)]
  refine ⟨hcnt1, hin, hrep.step hok hk hA hcls (fun B hB => hB) (fun j hj => if_neg hj)
    (fun a ha hc => ?_) ?_ (fun _ => ?_) fun B hB hne => ?_, hout⟩
  · rw [wr32_out (by omega), hm1 a ha]
  · rw [hfree']
    refine hlist.congr fun a ha => wr32_out ?_
    have hcl := inClass_of_nodes (o := o) hblocks' ha
    refine Decidable.byContradiction fun hc =>
      hok.header_not_inClass hA (k := k) (i := a - A.page) hk (by unfold arenaSize; omega) ?_
    rwa [show A.page + (a - A.page) = a by omega]
  · have hle : h.freeIn k A.page + 1 ≤ perArena k := by
      rw [← hin, (hok.give hk hb hp).freeIn_eq hA hcls]
      exact Nat.le_trans (List.length_filter_le _ _) (by rw [List.length_range])
    have hper : perArena k ≤ 4096 := Nat.le_trans (Nat.div_le_self _ _) (by decide)
    rw [Mem.rd32_wr32 (Nat.mod_lt _ (by decide)), hin, Nat.mod_eq_of_lt (by omega)]
  · rw [Heap.freeIn, Heap.freeIn, hfree', List.countP_append, List.countP_cons_of_neg]
    · simp
    · simpa [hpage] using Ne.symm hne

/-! ## Dropping an arena -/

theorem filter_not_mem_cons {b : Nat} {xs bs : List Nat} :
    (xs.filter (· ≠ b)).filter (· ∉ bs) = xs.filter (· ∉ b :: bs) := by
  rw [List.filter_filter]
  apply List.filter_congr
  intro x _
  simp [Bool.and_comm]

/-- The loop takes the blocks off, from `idx` on. -/
theorem unsplitLoop_spec (hok : h.Ok o) {A : Arena} {k : Nat} (hk : k < 7) (hA : A ∈ h.arenas) :
    ∀ cnt idx fuel m xs, idx + cnt = perArena k → cnt < fuel →
    m.rd32 A.page = descAt o.descs k → m.rd32 (descAt o.descs k) = blockSize k →
    m.rd32 (descAt o.descs k + 4) = perArena k → IsList m (listOf o k) xs →
    (∀ x ∈ xs, IsBlock h.arenas k x) → (∀ i, idx ≤ i → i < perArena k → blockAt k A.page i ∈ xs) →
    ∃ m', unsplitLoop A.page fuel idx m = some m' ∧
      IsList m' (listOf o k) (xs.filter (· ∉ (List.range' idx cnt).map (blockAt k A.page))) ∧
      ∀ a, ¬InClass o h k a → m' a = m a := by
  intro cnt
  induction cnt with
  | zero =>
    intro idx fuel m xs hidx hfuel hdesc hsize hper hlist hxs hin
    obtain ⟨fuel, rfl⟩ : ∃ n, fuel = n + 1 := ⟨fuel - 1, by omega⟩
    refine ⟨m, ?_, ?_, fun _ _ => rfl⟩
    · rw [unsplitLoop, hdesc, hper, if_neg (by omega)]
    · rwa [List.filter_eq_self.mpr fun x _ => by simp]
  | succ cnt ih =>
    intro idx fuel m xs hidx hfuel hdesc hsize hper hlist hxs hin
    obtain ⟨fuel, rfl⟩ : ∃ n, fuel = n + 1 := ⟨fuel - 1, by omega⟩
    have hb : arena2block m A.page idx = blockAt k A.page idx := by
      rw [arena2block, hdesc, hsize]
      rfl
    have hmem := hin idx (Nat.le_refl _) (by omega)
    obtain ⟨hlist', hframe⟩ := hlist.remove_mem hmem
    have hm1 : ∀ a, ¬InClass o h k a → listRemove m (blockAt k A.page idx) a = m a := fun a ha =>
      hframe a fun hc => ha (inClass_of_nodes hxs hc)
    have hhead : ∀ i, i < 4 → listRemove m (blockAt k A.page idx) (A.page + i) = m (A.page + i) :=
      fun i hi => hm1 _ (hok.header_not_inClass hA hk (by unfold arenaSize; omega))
    have hword : ∀ i, i < 8 → listRemove m (blockAt k A.page idx) (descAt o.descs k + i) =
        m (descAt o.descs k + i) := fun i hi => hm1 _ (hok.desc_not_inClass hk hi)
    obtain ⟨m', hrun, hl', hm'⟩ := ih (idx + 1) fuel _ _ (by omega) (by omega)
      ((rd32_same hhead).trans hdesc) ((rd32_same fun i hi => hword i (by omega)).trans hsize)
      ((rd32_same fun i hi => by rw [Nat.add_assoc]; exact hword _ (by omega)).trans hper) hlist'
      (fun x hx => hxs x (List.mem_of_mem_filter hx))
      (fun i h1 h2 => List.mem_filter.mpr ⟨hin i (by omega) h2, by
        have : blockAt k A.page i ≠ blockAt k A.page idx := fun hc => by
          have := blockAt_inj hc
          omega
        simpa using this⟩)
    refine ⟨m', ?_, ?_, fun a ha => (hm' a ha).trans (hm1 a ha)⟩
    · have hfind : elemFind m (freeList (descAt o.descs k)) (blockAt k A.page idx) = some true :=
        hlist.elemFind_eq.trans (congrArg some (decide_eq_true hmem))
      rw [unsplitLoop, hdesc, hper, if_pos (by omega), hb]
      simp only [hfind, Option.bind_eq_bind, Option.bind_some, ensure_pos]
      exact hrun
    · rw [filter_not_mem_cons] at hl'
      rw [List.range'_succ, List.map_cons]
      exact hl'

/-- **The emptied arena.** -/
theorem unsplit_rep (hok : h.Ok o) (hrep : Rep o h m) {A : Arena} {k : Nat} (hk : k < 7)
    (hA : A ∈ h.arenas) (hcls : A.cls = some k) (hidle : ∀ p ∈ h.used, block2arena p ≠ A.page) :
    ∃ m', unsplitLoop A.page 4096 0 m = some m' ∧ Rep o (h.dropSmall k A.page) m' ∧
      ∀ a, ¬h.Within o a → m' a = m a := by
  have hper : perArena k < 4096 := Nat.lt_of_le_of_lt (Nat.div_le_self _ _) (by decide)
  have hblocks := hok.free_isBlock hk
  obtain ⟨m', hrun, hlist, hm⟩ := unsplitLoop_spec hok hk hA (perArena k) 0 4096 m (h.free k)
    (Nat.zero_add _) hper (hrep.small A hA k hcls).1 (hrep.size k hk) (hrep.per k hk)
    (hrep.lists k hk) hblocks fun i _ hi =>
      (hok.free_iff k hk _).mpr ⟨⟨A, hA, hcls, mem_blocksOf.mpr ⟨i, hi, rfl⟩⟩, fun hp =>
        hidle _ hp (block2arena_blockAt (hok.placed A hA).aligned hi)⟩
  have hfree' : (h.dropSmall k A.page).free k = (h.free k).filter (block2arena · ≠ A.page) :=
    if_pos rfl
  have hfilter : (h.free k).filter (· ∉ (List.range' 0 (perArena k)).map (blockAt k A.page)) =
      (h.free k).filter (block2arena · ≠ A.page) := by
    apply List.filter_congr
    intro x hx
    rw [← List.range_eq_range']
    obtain ⟨B, hB, hBk, hxB⟩ := hblocks x hx
    have hiff : x ∉ (List.range (perArena k)).map (blockAt k A.page) ↔ block2arena x ≠ A.page := by
      refine not_congr ⟨fun hxA => hok.block_arena hA hxA, fun hc => ?_⟩
      rwa [hok.eq_of_page hB hA ((hok.block_arena hB hxB).symm.trans hc)] at hxB
    simp only [hiff]
  rw [hfilter] at hlist
  refine ⟨m', hrun, hrep.step hok hk hA hcls (fun B hB => (Heap.mem_others.mp hB).1)
    (fun j hj => if_neg hj) (fun a ha _ => hm a ha) (by rwa [hfree']) (fun hc => ?_)
    fun B hB hne => ?_, fun a ha => hm a fun hc => ha (hok.within_of_inClass hk hc)⟩
  · exact absurd rfl (Heap.mem_others.mp hc).2
  · rw [Heap.freeIn, Heap.freeIn, hfree', List.countP_filter]
    apply List.countP_congr
    intro x _
    simp only [decide_eq_true_eq, Bool.and_eq_true]
    exact ⟨fun hc => hc.1, fun hc => ⟨hc, fun hd => hne (hc.symm.trans hd)⟩⟩

/-! ## New arenas -/

/-- **Growth.** Only the new pages and the ends of the list of their class
change. -/
theorem Rep.grow {h' : Heap} (hrep : Rep o h m) (hok : h.Ok o) {A : Arena}
    (hnew : ∀ B ∈ h.arenas, PagesApart A B) (hplaced : Placed o A.page A.pages)
    (harenas : h'.arenas = A :: h.arenas)
    (hfree : ∀ j, A.cls ≠ some j → h'.free j = h.free j)
    (hm : ∀ a, a < A.page ∨ A.page + 4096 * A.pages ≤ a →
      (∀ k, A.cls = some k → a < listOf o k ∨ listOf o k + 16 ≤ a) → m' a = m a)
    (hlist : ∀ k, A.cls = some k → k < 7 ∧ h.free k = [] ∧
      h'.free k = blocksOf k A.page ∧ IsList m' (listOf o k) (h'.free k))
    (hsmall : ∀ k, A.cls = some k → m'.rd32 A.page = descAt o.descs k ∧
      m'.rd32 (A.page + 4) = perArena k ∧ m'.rd32 (A.page + 8) = 0)
    (hlarge : A.cls = none → m'.rd32 A.page = 0 ∧ m'.rd32 (A.page + 4) = A.pages ∧
      m'.rd32 (A.page + 8) = 1) : Rep o h' m' := by
  have hdescs := hplaced.descs
  have hdesc := hrep.desc_kept m' fun j hj i hi => by
    apply hm _ (by unfold descAt; omega)
    intro k hk
    have := (hlist k hk).1
    unfold listOf freeList descAt
    omega
  have hheader : ∀ B ∈ h.arenas, ∀ i, i < arenaSize → m' (B.page + i) = m (B.page + i) := by
    intro B hB i hi
    have hap := hnew B hB
    have hsome := (hok.placed B hB).some
    unfold PagesApart at hap
    unfold arenaSize at hi
    apply hm _ (by omega)
    intro k hk
    have := (hok.placed B hB).descs
    have := (hlist k hk).1
    unfold listOf freeList descAt
    omega
  -- the free blocks of the other arenas are those there were
  have hcount : ∀ B ∈ h.arenas, ∀ k, B.cls = some k → h'.freeIn k B.page = h.freeIn k B.page := by
    intro B hB k hk
    by_cases hAk : A.cls = some k
    · obtain ⟨-, hnil, hall, -⟩ := hlist k hAk
      rw [Heap.freeIn, Heap.freeIn, hnil, hall, List.countP_nil, List.countP_eq_zero]
      intro b hb
      have hpage := block2arena_of_mem hplaced.aligned hb
      have hap := hnew B hB
      have hsome := (hok.placed B hB).some
      have hsome' := hplaced.some
      unfold PagesApart at hap
      simp only [hpage, decide_eq_true_eq]
      omega
    · rw [Heap.freeIn, Heap.freeIn, hfree k hAk]
  refine ⟨hdesc.1, hdesc.2, fun j hj => ?_, fun B hB j hj => ?_, fun B hB hnone => ?_⟩
  · by_cases hAj : A.cls = some j
    · exact (hlist j hAj).2.2.2
    · rw [hfree j hAj]
      refine hrep.list_kept hok hj fun a ha => hm a ?_ fun k hk => ?_
      · rcases ha with hl | ⟨b, hb, hlt⟩
        · unfold listOf freeList descAt at hl
          omega
        · obtain ⟨B, hB, -, -, hlo, hhi, hpages⟩ := hok.block_in hb
          have hap := hnew B hB
          unfold PagesApart at hap
          omega
      · have hjk : j ≠ k := fun hc => hAj (hc ▸ hk)
        have hk7 := (hlist k hk).1
        refine Decidable.byContradiction fun hc => hjk (hok.inClass_unique hj hk7 ha (Or.inl ?_))
        omega
  · rw [harenas] at hB
    rcases List.mem_cons.mp hB with rfl | hB
    · obtain ⟨h1, h2, h3⟩ := hsmall j hj
      obtain ⟨-, -, hall, -⟩ := hlist j hj
      refine ⟨h1, ?_, h3⟩
      rw [h2, Heap.freeIn, hall, List.countP_eq_length.mpr, blocksOf, List.length_map,
        List.length_range]
      intro b hb
      simpa using block2arena_of_mem hplaced.aligned hb
    · obtain ⟨k0, k4, k8⟩ := header_kept (hheader B hB)
      obtain ⟨h1, h2, h3⟩ := hrep.small B hB j hj
      exact ⟨k0.trans h1, by rw [k4, h2, hcount B hB j hj], k8.trans h3⟩
  · rw [harenas] at hB
    rcases List.mem_cons.mp hB with rfl | hB
    · exact hlarge hnone
    · obtain ⟨k0, k4, k8⟩ := header_kept (hheader B hB)
      obtain ⟨h1, h2, h3⟩ := hrep.large B hB hnone
      exact ⟨k0.trans h1, k4.trans h2, k8.trans h3⟩

/-- The loop puts the blocks on the list, from `idx` on. -/
theorem splitLoop_spec {k page : Nat} (hk : k < 7) (hplaced : Placed o page 1) :
    ∀ cnt idx fuel m, idx + cnt = perArena k → cnt < fuel → m.rd32 page = descAt o.descs k →
    m.rd32 (descAt o.descs k) = blockSize k → m.rd32 (descAt o.descs k + 4) = perArena k →
    IsList m (listOf o k) ((List.range idx).map (blockAt k page)) →
    ∃ m', splitLoop (descAt o.descs k) page fuel idx m = some m' ∧
      IsList m' (listOf o k) (blocksOf k page) ∧
      ∀ a, a < page + arenaSize ∨ page + 4096 ≤ a → a < listOf o k ∨ listOf o k + 16 ≤ a →
        m' a = m a := by
  have hdescs := hplaced.descs
  have hs := blockSize_ge k
  intro cnt
  induction cnt with
  | zero =>
    intro idx fuel m hidx hfuel hdesc hsize hper hlist
    obtain ⟨fuel, rfl⟩ : ∃ n, fuel = n + 1 := ⟨fuel - 1, by omega⟩
    refine ⟨m, ?_, ?_, fun _ _ _ => rfl⟩
    · rw [splitLoop, hper, if_neg (by omega)]
    · rwa [blocksOf, ← hidx, Nat.add_zero]
  | succ cnt ih =>
    intro idx fuel m hidx hfuel hdesc hsize hper hlist
    obtain ⟨fuel, rfl⟩ : ∃ n, fuel = n + 1 := ⟨fuel - 1, by omega⟩
    have hb : arena2block m page idx = blockAt k page idx := by
      rw [arena2block, hdesc, hsize]
      rfl
    have hend : ∀ i, i ≤ idx → blockAt k page i + blockSize k ≤ page + 4096 := fun i hi =>
      blockAt_end _ (by omega)
    have hstart : ∀ i, page + arenaSize ≤ blockAt k page i := fun i => Nat.le_add_right _ _
    have hapart : ∀ x ∈ nodes (listOf o k) ((List.range idx).map (blockAt k page)),
        Apart (blockAt k page idx) x := by
      intro x hx
      have h1 := hend idx (Nat.le_refl _)
      have h2 := hstart idx
      simp only [List.mem_cons, List.mem_append, List.mem_map, List.mem_range, List.not_mem_nil,
        or_false] at hx
      unfold Apart
      rcases hx with rfl | ⟨i, hi, rfl⟩ | rfl
      · unfold listOf freeList descAt
        omega
      · have := blockAt_lt k page hi
        omega
      · unfold listOf freeList descAt
        omega
    have hword : blockAt k page idx < 2 ^ 32 := by
      have := hend idx (Nat.le_refl _)
      have := hplaced.word
      omega
    obtain ⟨hlist', hframe⟩ := hlist.append hword hapart
    have hm1 : ∀ a, a < page + arenaSize ∨ page + 4096 ≤ a →
        a < listOf o k ∨ listOf o k + 16 ≤ a →
        listAppend m (listOf o k) (blockAt k page idx) a = m a := by
      refine fun a h1 h2 => hframe a ?_
      intro hin
      obtain ⟨x, hx, h3, h4⟩ := hin
      simp only [List.mem_cons, List.mem_append, List.mem_map, List.mem_range, List.not_mem_nil,
        or_false] at hx
      rcases hx with rfl | rfl | ⟨i, hi, rfl⟩ | rfl
      · have := hend idx (Nat.le_refl _)
        have := hstart idx
        omega
      · omega
      · have := hend i (by omega)
        have := hstart i
        omega
      · omega
    have hdword : ∀ i, i < 8 → listAppend m (listOf o k) (blockAt k page idx) (descAt o.descs k + i) =
        m (descAt o.descs k + i) := fun i hi =>
      hm1 _ (by unfold descAt arenaSize; omega) (by unfold listOf freeList; omega)
    have hhead : ∀ i, i < 4 → listAppend m (listOf o k) (blockAt k page idx) (page + i) =
        m (page + i) := fun i hi =>
      hm1 _ (by unfold arenaSize; omega) (by unfold listOf freeList descAt; omega)
    have hlist'' : IsList (listAppend m (listOf o k) (blockAt k page idx)) (listOf o k)
        ((List.range (idx + 1)).map (blockAt k page)) := by
      rwa [List.range_succ, List.map_append]
    obtain ⟨m', hrun, hl', hm'⟩ := ih (idx + 1) fuel _ (by omega) (by omega)
      ((rd32_same hhead).trans hdesc) ((rd32_same fun i hi => hdword i (by omega)).trans hsize)
      ((rd32_same fun i hi => by rw [Nat.add_assoc]; exact hdword _ (by omega)).trans hper) hlist''
    refine ⟨m', ?_, hl', fun a h1 h2 => (hm' a h1 h2).trans (hm1 a h1 h2)⟩
    have hfresh : blockAt k page idx ∉ (List.range idx).map (blockAt k page) := by
      intro hc
      obtain ⟨i, hi, he⟩ := List.mem_map.mp hc
      have := blockAt_inj he
      have := List.mem_range.mp hi
      omega
    have hfind : elemFind m (freeList (descAt o.descs k)) (blockAt k page idx) = some false :=
      hlist.elemFind_eq.trans (congrArg some (decide_eq_false hfresh))
    rw [splitLoop, hper, if_pos (by omega), hdesc, hb]
    simp only [hfind, Option.bind_eq_bind, Option.bind_some, ensure_pos]
    exact hrun

/-- **A new arena for small blocks.** -/
theorem newArena_rep (hok : h.Ok o) (hrep : Rep o h m) {k page : Nat} (hk : k < 7)
    (hempty : h.free k = []) (hplaced : Placed o page 1)
    (hnew : ∀ B ∈ h.arenas, PagesApart ⟨page, 1, some k⟩ B) :
    ∃ m', newArena m (descAt o.descs k) page = some m' ∧ Rep o (h.addSmall k page) m' ∧
      ∀ a, ¬(h.addSmall k page).Within o a → m' a = m a := by
  have hdescs := hplaced.descs
  have hper : perArena k < 4096 := Nat.lt_of_le_of_lt (Nat.div_le_self _ _) (by decide)
  have hdw : descAt o.descs k < 2 ^ 32 := by
    have := o.descs_le
    unfold descAt
    omega
  -- the page with its header, before the blocks are cut
  have hread : (((m.fill page 0 4096).wr32 page (descAt o.descs k)).wr32 (page + 8) 0).rd32
      (descAt o.descs k + 4) = perArena k := by
    rw [← hrep.per k hk]
    apply rd32_same
    intro i hi
    rw [wr32_out (by unfold descAt; omega), wr32_out (by unfold descAt; omega)]
    exact Mem.blit_out (by unfold descAt; omega)
  obtain ⟨m4, hm4⟩ : ∃ m4, m4 = (((m.fill page 0 4096).wr32 page (descAt o.descs k)).wr32
      (page + 8) 0).wr32 (page + 4) (perArena k) := ⟨_, rfl⟩
  have hout : ∀ a, a < page ∨ page + 4096 ≤ a → m4 a = m a := by
    intro a ha
    rw [hm4, wr32_out (by omega), wr32_out (by omega), wr32_out (by omega)]
    exact Mem.blit_out ha
  have h0 : m4.rd32 page = descAt o.descs k := by
    rw [hm4, Mem.rd32_wr32_ne (by omega), Mem.rd32_wr32_ne (by omega), Mem.rd32_wr32 hdw]
  have h4 : m4.rd32 (page + 4) = perArena k := by
    rw [hm4, Mem.rd32_wr32 (by omega)]
  have h8 : m4.rd32 (page + 8) = 0 := by
    rw [hm4, Mem.rd32_wr32_ne (by omega), Mem.rd32_wr32 (by decide)]
  have hdword : ∀ i, i < 8 → m4 (descAt o.descs k + i) = m (descAt o.descs k + i) := fun i hi =>
    hout _ (by unfold descAt; omega)
  have hlist4 : IsList m4 (listOf o k) ((List.range 0).map (blockAt k page)) := by
    have hlist := hrep.lists k hk
    rw [hempty] at hlist
    refine hlist.congr fun a ha => hout a ?_
    obtain ⟨x, hx, h1, h2⟩ := ha
    simp only [List.nil_append, List.mem_cons, List.not_mem_nil, or_false] at hx
    rcases hx with rfl | rfl <;> unfold listOf freeList descAt at h1 h2 <;> omega
  obtain ⟨m', hrun, hlist, hm⟩ := splitLoop_spec hk hplaced (perArena k) 0 4096 m4 (Nat.zero_add _)
    hper h0 ((rd32_same fun i hi => hdword i (by omega)).trans (hrep.size k hk))
    ((rd32_same fun i hi => by rw [Nat.add_assoc]; exact hdword _ (by omega)).trans (hrep.per k hk))
    hlist4
  have hhead : ∀ i, i < arenaSize → m' (page + i) = m4 (page + i) := fun i hi => by
    unfold arenaSize at hi
    exact hm _ (by unfold arenaSize; omega) (by unfold listOf freeList descAt; omega)
  obtain ⟨k0, k4, k8⟩ := header_kept hhead
  refine ⟨m', ?_, hrep.grow hok (A := ⟨page, 1, some k⟩) hnew hplaced rfl (fun j hj => if_neg ?_)
    (fun a h1 h2 => ?_) (fun j hj => ?_) (fun j hj => ?_) fun hc => absurd hc (by simp),
    fun a ha => ?_⟩
  · rw [newArena]
    simp only [hread]
    rw [← hm4]
    exact hrun
  · exact fun hc => hj (by rw [hc])
  · have h1' : a < page ∨ page + 4096 ≤ a := by simpa using h1
    rw [hm a (by unfold arenaSize; omega) (h2 k rfl), hout a h1']
  · obtain rfl := Option.some.inj hj
    have hall : (h.addSmall k page).free k = blocksOf k page := if_pos rfl
    refine ⟨hk, hempty, hall, ?_⟩
    rw [hall]
    exact hlist
  · obtain rfl := Option.some.inj hj
    exact ⟨k0.trans h0, k4.trans h4, k8.trans h8⟩
  · have hpg : a < page ∨ page + 4096 ≤ a := by
      refine Decidable.byContradiction fun hc => ha (Or.inr ⟨_, List.mem_cons_self, ?_, ?_⟩)
      · show page ≤ a
        omega
      · show a < page + 4096 * 1
        omega
    have hds : a < o.descs ∨ o.descs + 168 ≤ a :=
      Decidable.byContradiction fun hc => ha (Or.inl ⟨by omega, by omega⟩)
    rw [hm a (by unfold arenaSize; omega) (by unfold listOf freeList descAt; omega), hout a hpg]

/-- **Pages for one request.** -/
theorem newLarge_rep (hok : h.Ok o) (hrep : Rep o h m) {page pages size : Nat}
    (hplaced : Placed o page pages) (hnew : ∀ B ∈ h.arenas, PagesApart ⟨page, pages, none⟩ B) :
    Rep o (h.addLarge page pages size)
      ((((m.fill page 0 (pages * 4096)).wr32 page 0).wr32 (page + 4) pages).wr32 (page + 8) 1) := by
  have hword := hplaced.word
  have hsome := hplaced.some
  refine hrep.grow hok (A := ⟨page, pages, none⟩) hnew hplaced rfl (fun _ _ => rfl)
    (fun a h1 _ => ?_) (fun j hj => absurd hj (by simp)) (fun j hj => absurd hj (by simp)) fun _ => ?_
  · dsimp only at h1
    rw [wr32_out (by omega), wr32_out (by omega), wr32_out (by omega)]
    exact Mem.blit_out (by omega)
  · dsimp only
    refine ⟨?_, ?_, ?_⟩
    · rw [Mem.rd32_wr32_ne (by omega), Mem.rd32_wr32_ne (by omega), Mem.rd32_wr32 (by decide)]
    · rw [Mem.rd32_wr32_ne (by omega), Mem.rd32_wr32 (by omega)]
    · rw [Mem.rd32_wr32 (by decide)]

end OsCore.Kernel
