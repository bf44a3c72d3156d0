import OsCore.Kernel.HeapMemory

/-!
# Runs of a heap

A run is any sequence of `sys_malloc` and `sys_free` calls by one owner, with
`malloc_page` answering each time with fresh pages or with nothing, and with
arbitrary writes in between to all memory that is not the heap's own: into the
blocks in use, and anywhere outside. `Represents` is the invariant: the bytes
are some heap that is `Ok` and `Busy`, and the pages and pointers of the run are
that heap's.

Every call that is allowed comes back (`step_represents`): none of the
`ASSERT`s on the way can fail.
-/

namespace OsCore.Kernel

/-! ## Runs -/

/-- The heap's state, and the pointers handed out with the sizes asked for. -/
structure HeapRun where
  state : HeapState
  live : List (Nat × Nat)

inductive HeapOp
  | malloc (size : Nat) (answer : Option Nat)
  | free (ptr : Nat)
  | write (mem : Mem)

/-- The pages `sys_malloc` asks for, if it does. -/
def pagesAsked (size : Nat) : Nat := if 1024 < size then pageCnt size else 1

/-- A fresh range of pages. -/
structure FreshPages (o : HeapOwner) (held : List (Nat × Nat)) (a n : Nat) : Prop where
  placed : Placed o a n
  apart : ∀ e ∈ held, a + 4096 * n ≤ e.1 ∨ e.1 + 4096 * e.2 ≤ a

/-- The heap's own bytes: descriptors, and what of the pages is in no block that
is in use. -/
def Guarded (o : HeapOwner) (r : HeapRun) (a : Nat) : Prop :=
  (o.descs ≤ a ∧ a < o.descs + 168) ∨
    ((∃ e ∈ r.state.held, e.1 ≤ a ∧ a < e.1 + 4096 * e.2) ∧
      ∀ l ∈ r.live, a < l.1 ∨ l.1 + l.2 ≤ a)

/-- The calls a run may make. -/
def Allowed (o : HeapOwner) (r : HeapRun) : HeapOp → Prop
  | .malloc size answer => ∀ a, answer = some a → FreshPages o r.state.held a (pagesAsked size)
  | .free ptr => ptr ∈ r.live.map (·.1)
  | .write mem => ∀ a, Guarded o r a → mem a = r.state.mem a

def HeapRun.step (o : HeapOwner) (r : HeapRun) : HeapOp → Option HeapRun
  | .malloc size answer => do
    let (p, state) ← sysMalloc o r.state size answer
    return ⟨state, if p = 0 then r.live else (p, size) :: r.live⟩
  | .free ptr => do
    let state ← sysFree o r.state ptr
    return ⟨state, r.live.filter (·.1 ≠ ptr)⟩
  | .write mem => some { r with state := { r.state with mem } }

/-- The states that runs reach from freshly initialised descriptors. -/
inductive Reachable (o : HeapOwner) : HeapRun → Prop
  | init (m : Mem) : Reachable o ⟨⟨blockDescInit m o.descs, []⟩, []⟩
  | step {r r' : HeapRun} {op : HeapOp} : Reachable o r → Allowed o r op →
      r.step o op = some r' → Reachable o r'

/-! ## The invariant -/

/-- The run is at the heap `h`. -/
structure Represents (o : HeapOwner) (r : HeapRun) (h : Heap) : Prop where
  ok : h.Ok o
  busy : h.Busy
  rep : Rep o h r.state.mem
  held : r.state.held = h.arenas.map fun A => (A.page, A.pages)
  live : r.live = h.live

variable {o : HeapOwner} {r : HeapRun} {h : Heap}

theorem Represents.mem_held (hr : Represents o r h) {e : Nat × Nat} :
    e ∈ r.state.held ↔ ∃ A ∈ h.arenas, e = (A.page, A.pages) := by
  rw [hr.held, List.mem_map]
  exact ⟨fun ⟨A, hA, he⟩ => ⟨A, hA, he.symm⟩, fun ⟨A, hA, he⟩ => ⟨A, hA, he.symm⟩⟩

/-- Fresh pages are no arena's. -/
theorem Represents.fresh (hr : Represents o r h) {a n : Nat} {c : Option Nat}
    (hf : FreshPages o r.state.held a n) : ∀ B ∈ h.arenas, PagesApart ⟨a, n, c⟩ B := fun B hB =>
  hf.apart (B.page, B.pages) (hr.mem_held.mpr ⟨B, hB, rfl⟩)

/-! ## Allocation -/

theorem findDesc_eq {m : Mem} (hsize : ∀ k, k < 7 → m.rd32 (descAt o.descs k) = blockSize k)
    (size : Nat) : ∀ n idx, idx + n = 7 →
    findDesc m o.descs size n idx = Heap.findClass size n idx := by
  intro n
  induction n with
  | zero => intro idx _; rfl
  | succ n ih =>
    intro idx hidx
    rw [findDesc, Heap.findClass, hsize idx (by omega), ih (idx + 1) (by omega)]

theorem findClass_spec {size : Nat} (hle : size ≤ 1024) : ∀ n idx, idx + n = 7 → 0 < n →
    Heap.findClass size n idx < 7 ∧ size ≤ blockSize (Heap.findClass size n idx) := by
  intro n
  induction n with
  | zero => intro idx _ h; exact absurd h (by omega)
  | succ n ih =>
    intro idx hidx _
    rw [Heap.findClass]
    split
    next hfit => exact ⟨by omega, hfit⟩
    next hfit =>
      refine ih (idx + 1) (by omega) (Nat.pos_of_ne_zero fun hn => hfit ?_)
      obtain rfl : idx = 6 := by omega
      exact hle

theorem busy_take {k b size : Nat} {rest : List Nat} (hbusy : h.Busy) :
    (h.take k b size rest).Busy := by
  intro A hA j hj
  obtain ⟨p, hp, hpA⟩ := hbusy A hA j hj
  exact ⟨p, List.mem_cons_of_mem _ hp, hpA⟩

theorem blocksOf_cons {k : Nat} (hk : k < 7) (page : Nat) :
    ∃ rest, blocksOf k page = (page + arenaSize) :: rest := by
  have hpos : 0 < perArena k := by
    have hall : ∀ k, k < 7 → 0 < perArena k := by decide
    exact hall k hk
  obtain ⟨n, hn⟩ : ∃ n, perArena k = n + 1 := ⟨perArena k - 1, by omega⟩
  rw [blocksOf, hn, List.range_succ_eq_map, List.map_cons, blockAt, Nat.zero_mul, Nat.add_zero]
  exact ⟨_, rfl⟩

/-- What a `sys_malloc` does: nothing, or one block more in use. It writes to the
heap as it is afterwards, and nowhere else. -/
theorem sysMalloc_represents (hr : Represents o r h) {size : Nat} {answer : Option Nat}
    (hfresh : ∀ a, answer = some a → FreshPages o r.state.held a (pagesAsked size)) :
    ∃ s, sysMalloc o r.state size answer = some ((h.malloc o size answer).1, s) ∧
      Represents o ⟨s, if (h.malloc o size answer).1 = 0 then r.live
        else ((h.malloc o size answer).1, size) :: r.live⟩ (h.malloc o size answer).2 ∧
      (∀ A ∈ h.arenas, A ∈ (h.malloc o size answer).2.arenas) ∧
      ∀ a, ¬(h.malloc o size answer).2.Within o a → s.mem a = r.state.mem a := by
  have hsame : ∀ a, ¬h.Within o a → r.state.mem a = r.state.mem a := fun _ _ => rfl
  obtain ⟨⟨p, h'⟩, hm⟩ : ∃ q, h.malloc o size answer = q := ⟨_, rfl⟩
  rw [hm]
  unfold Heap.malloc at hm
  unfold sysMalloc
  by_cases hsize : 0 < size ∧ size < o.poolSize
  swap
  · rw [if_pos hsize] at hm ⊢
    cases hm
    exact ⟨_, rfl, by rw [if_pos rfl]; exact hr, fun A hA => hA, hsame⟩
  rw [if_neg (not_not.mpr hsize)] at hm ⊢
  by_cases hbig : 1024 < size
  · rw [if_pos hbig] at hm ⊢
    have hasked : pagesAsked size = pageCnt size := if_pos hbig
    cases answer with
    | none =>
      cases hm
      exact ⟨_, rfl, by rw [if_pos rfl]; exact hr, fun A hA => hA, hsame⟩
    | some a =>
      cases hm
      have hf := hfresh a rfl
      rw [hasked] at hf
      have hpc : size + arenaSize ≤ 4096 * pageCnt size := by
        unfold pageCnt arenaSize
        omega
      have hplaced := hf.placed
      have hne : ¬(a + arenaSize = 0) := by
        have := hplaced.pos
        omega
      refine ⟨_, rfl, ?_, fun A hA => List.mem_cons_of_mem _ hA, fun b hb => ?_⟩
      · rw [if_neg hne]
        refine ⟨hr.ok.addLarge hplaced (hr.fresh hf) hpc, fun A hA j hj => ?_,
          newLarge_rep hr.ok hr.rep hplaced (hr.fresh hf), ?_, ?_⟩
        · rcases List.mem_cons.mp hA with rfl | hA
          · exact absurd hj (by simp)
          · obtain ⟨p, hp, hpA⟩ := hr.busy A hA j hj
            exact ⟨p, List.mem_cons_of_mem _ hp, hpA⟩
        · exact congrArg (List.cons (a, pageCnt size)) hr.held
        · exact congrArg (List.cons _) hr.live
      · have hsome := hplaced.some
        have hpg : b < a ∨ a + 4096 * pageCnt size ≤ b := by
          refine Decidable.byContradiction fun hc => hb (Or.inr ⟨_, List.mem_cons_self, ?_, ?_⟩)
          · show a ≤ b
            omega
          · show b < a + 4096 * pageCnt size
            omega
        dsimp only [mallocPage]
        rw [wr32_out (by omega), wr32_out (by omega), wr32_out (by omega)]
        exact Mem.blit_out (by omega)
  · rw [if_neg hbig] at hm ⊢
    have hasked : pagesAsked size = 1 := if_neg hbig
    obtain ⟨hk, hfit⟩ := findClass_spec (by omega : size ≤ 1024) 7 0 rfl (by decide)
    rw [findDesc_eq hr.rep.size size 7 0 rfl]
    generalize Heap.findClass size 7 0 = k at hk hfit hm ⊢
    -- a block off the list, whatever heap it is
    have htake : ∀ {h1 : Heap} {m : Mem} {b rest}, h1.Ok o → Rep o h1 m → h1.free k = b :: rest →
        (takeBlock m (descAt o.descs k)).1 = b ∧ b ≠ 0 ∧ (h1.take k b size rest).Ok o ∧
          Rep o (h1.take k b size rest) (takeBlock m (descAt o.descs k)).2 ∧
          ∀ a, ¬h1.Within o a → (takeBlock m (descAt o.descs k)).2 a = m a := by
      intro h1 m b rest hok hrep hfree
      obtain ⟨h2, h3, h4⟩ := takeBlock_rep hok hrep size hk hfree
      obtain ⟨A, hA, -, -, hlo, -, -⟩ := hok.block_in (hok.free_isBlock hk b (by simp [hfree]))
      have := (hok.placed A hA).pos
      exact ⟨h2, by omega, hok.take hk hfree hfit, h3, h4⟩
    have hempty := (hr.rep.lists k hk).listEmpty_iff
    dsimp only at hm ⊢
    cases hfree : h.free k with
    | nil =>
      rw [if_pos (hempty.mpr hfree)]
      rw [hfree] at hm
      cases answer with
      | none =>
        cases hm
        exact ⟨_, rfl, by rw [if_pos rfl]; exact hr, fun A hA => hA, hsame⟩
      | some a =>
        cases hm
        have hf := hfresh a rfl
        rw [hasked] at hf
        have hplaced := hf.placed
        obtain ⟨m', hrun, hrep, hout⟩ := newArena_rep hr.ok hr.rep hk hfree hplaced (hr.fresh hf)
        have hok := hr.ok.addSmall hk hfree hplaced (hr.fresh hf)
        obtain ⟨rest, hrest⟩ := blocksOf_cons hk a
        have hfree' : (h.addSmall k a).free k = (a + arenaSize) :: rest := (if_pos rfl).trans hrest
        obtain ⟨hb, hne, hok', hrep', hout'⟩ := htake hok hrep hfree'
        refine ⟨⟨(takeBlock m' (descAt o.descs k)).2, (a, 1) :: r.state.held⟩, ?_, ?_,
          fun A hA => List.mem_cons_of_mem _ hA, fun c hc => ?_⟩
        · simp only [mallocPage, hrun, Option.bind_eq_bind, Option.bind_some, Option.pure_def, hb]
        · rw [if_neg hne, hrest, List.tail_cons]
          refine ⟨hok', fun A hA j hj => ?_, hrep', ?_, congrArg (List.cons _) hr.live⟩
          · rcases List.mem_cons.mp hA with rfl | hA
            · exact ⟨_, List.mem_cons_self, Heap.block2arena_header hplaced.aligned⟩
            · obtain ⟨p, hp, hpA⟩ := hr.busy A hA j hj
              exact ⟨p, List.mem_cons_of_mem _ hp, hpA⟩
          · exact congrArg (List.cons (a, 1)) hr.held
        · exact (hout' c hc).trans (hout c hc)
    | cons b rest =>
      rw [hfree] at hm
      cases hm
      rw [if_neg (fun hc => absurd (hempty.mp hc) (by simp [hfree]))]
      obtain ⟨hb, hne, hok', hrep', hout'⟩ := htake hr.ok hr.rep hfree
      refine ⟨⟨(takeBlock r.state.mem (descAt o.descs k)).2, r.state.held⟩, ?_, ?_,
        fun A hA => hA, hout'⟩
      · rw [← hb]
      · rw [if_neg hne]
        exact ⟨hok', busy_take hr.busy, hrep', hr.held, congrArg (List.cons _) hr.live⟩

/-! ## Release -/

/-- Giving back an arena's pages. -/
theorem held_erase (hok : h.Ok o) {A : Arena} (hA : A ∈ h.arenas) :
    (h.arenas.map fun B => (B.page, B.pages)).erase (A.page, A.pages) =
      (h.others A.page).map fun B => (B.page, B.pages) := by
  have hnodup : (h.arenas.map fun B => (B.page, B.pages)).Nodup := by
    rw [List.Nodup, List.pairwise_map]
    refine (List.pairwise_iff_forall_sublist.mpr fun {B C} hsub he => ?_)
    have hap := List.pairwise_iff_forall_sublist.mp hok.apart hsub
    have hsome := (hok.placed B (hsub.subset List.mem_cons_self)).some
    rw [Prod.mk.injEq] at he
    unfold PagesApart at hap
    omega
  rw [hnodup.erase_eq_filter, List.filter_map]
  refine congrArg (List.map _) (List.filter_congr fun B hB => ?_)
  by_cases hpage : B.page = A.page
  · simp [hok.eq_of_page hB hA hpage]
  · simp [hpage]

theorem mfreePage_arena {s : HeapState} (hok : h.Ok o)
    (hheld : s.held = h.arenas.map fun B => (B.page, B.pages)) {A : Arena} (hA : A ∈ h.arenas) :
    mfreePage s A.page A.pages =
      some { s with held := (h.others A.page).map fun B => (B.page, B.pages) } := by
  have hmem : (A.page, A.pages) ∈ s.held := by
    rw [hheld]
    exact List.mem_map.mpr ⟨A, hA, rfl⟩
  rw [mfreePage, ensure_pos hmem, hheld, held_erase hok hA]
  rfl

/-- What a `sys_free` of a block in use does to the pages: they stay, and the
arena still has a user; or the arena is gone, with all its blocks. -/
inductive Freed (h : Heap) (p : Nat) (h' : Heap) : Prop
  | stays : h'.arenas = h.arenas → (∃ q ∈ h'.used, block2arena q = block2arena p) → Freed h p h'
  | gone : h'.arenas = h.others (block2arena p) → (∀ q ∈ h'.used, block2arena q ≠ block2arena p) →
      (∀ k, k < 7 → ∀ b ∈ h'.free k, block2arena b ≠ block2arena p) → Freed h p h'

/-- No pages come with it. -/
theorem Freed.arenas {h' : Heap} {p : Nat} (hf : Freed h p h') {A : Arena} (hA : A ∈ h'.arenas) :
    A ∈ h.arenas := by
  cases hf with
  | stays harenas _ => rwa [harenas] at hA
  | gone harenas _ _ =>
    rw [harenas] at hA
    exact (Heap.mem_others.mp hA).1

theorem busy_give (hbusy : h.Busy) {k p : Nat}
    (hstill : ∃ q ∈ (h.give k p).used, block2arena q = block2arena p) : (h.give k p).Busy := by
  intro B hB j hj
  obtain ⟨q, hq, hqB⟩ := hbusy B hB j hj
  by_cases hqp : q = p
  · obtain ⟨q', hq', hpage⟩ := hstill
    exact ⟨q', hq', by rw [hpage, ← hqp, hqB]⟩
  · exact ⟨q, Heap.mem_used_filter.mpr ⟨hq, hqp⟩, hqB⟩

theorem sysFree_represents (hr : Represents o r h) {p : Nat} (hp : p ∈ r.live.map (·.1)) :
    ∃ s, sysFree o r.state p = some s ∧
      Represents o ⟨s, r.live.filter (·.1 ≠ p)⟩ (h.release p) ∧ Freed h p (h.release p) ∧
      ∀ a, ¬h.Within o a → s.mem a = r.state.mem a := by
  have hok := hr.ok
  rw [hr.live] at hp
  obtain ⟨A, hA, hpage, hkind⟩ := hok.used_arena (h := h) hp
  have hlo : A.page + arenaSize ≤ p := by
    rcases hkind with ⟨k, -, hb⟩ | ⟨-, hb⟩
    · obtain ⟨i, -, rfl⟩ := mem_blocksOf.mp hb
      exact Nat.le_add_right _ _
    · exact Nat.le_of_eq hb.symm
  have hpos := (hok.placed A hA).pos
  have hbase := (hok.placed A hA).base
  unfold sysFree
  rw [Heap.release, hok.find_arena hA hpage]
  dsimp only
  rw [ensure_pos (by omega : p ≠ 0), ensure_pos (by omega : o.base ≤ p), hpage]
  simp only [Option.bind_eq_bind, Option.bind_some]
  rcases hkind with ⟨k, hcls, hb⟩ | ⟨hcls, hb⟩
  · -- a small block
    obtain ⟨hk, hpages⟩ := hok.small A hA k hcls
    obtain ⟨h0, h4, h8⟩ := hr.rep.small A hA k hcls
    obtain ⟨hcnt, hin, hrep, hout⟩ := giveBlock_rep hok hr.rep hk hA hcls hb hp
    have hok' := hok.give hk ⟨A, hA, hcls, hb⟩ hp
    have hdpos : descAt o.descs k ≠ 0 := by
      have := o.descs_pos
      unfold descAt
      omega
    have hrun : ∀ {m2 : Mem}, m2 = (listAppend r.state.mem (listOf o k) p).wr32 (A.page + 4)
        ((h.freeIn k A.page + 1) % 2 ^ 32) →
        m2.rd32 (A.page + 4) = (h.give k p).freeIn k A.page ∧
          m2.rd32 (m2.rd32 A.page + 4) = perArena k := by
      intro m2 heq
      subst heq
      obtain ⟨k0, k4, -⟩ := hrep.small A hA k hcls
      refine ⟨k4, ?_⟩
      rw [k0]
      exact hrep.per k hk
    obtain ⟨m2, hm2⟩ : ∃ m2, m2 = (listAppend r.state.mem (listOf o k) p).wr32 (A.page + 4)
        ((h.freeIn k A.page + 1) % 2 ^ 32) := ⟨_, rfl⟩
    obtain ⟨hc2, hp2⟩ := hrun hm2
    rw [ensure_pos (Or.inl h8), Option.bind_some]
    rw [if_neg (fun hc => hdpos (h0.symm.trans hc.1)), h0, hcnt, ← hm2, hc2, hp2]
    rw [← hm2] at hrep hout
    rw [hcls]
    dsimp only
    by_cases hfull : (h.give k p).freeIn k A.page = perArena k
    · rw [if_pos hfull]
      have hidle := (hok'.freeIn_full_iff hA hcls).mp hfull
      obtain ⟨m3, hm3, hrep3, hout3⟩ := unsplit_rep hok' hrep hk hA hcls hidle
      have hmf := mfreePage_arena (s := { r.state with mem := m3 }) hok' hr.held hA
      rw [hpages] at hmf
      rw [if_pos hidle]
      refine ⟨⟨m3, (h.others A.page).map fun B => (B.page, B.pages)⟩, by rw [hm3]; exact hmf,
        ⟨hok'.dropSmall hA hcls hidle, ?_, hrep3, rfl, ?_⟩, ?_,
        fun a ha => (hout3 a ha).trans (hout a ha)⟩
      · intro B hB j hj
        obtain ⟨hB, hne⟩ := Heap.mem_others.mp hB
        obtain ⟨q, hq, hqB⟩ := hr.busy B hB j hj
        exact ⟨q, Heap.mem_used_filter.mpr ⟨hq, fun hc => hne (by rw [← hqB, hc, hpage])⟩, hqB⟩
      · rw [hr.live]
        rfl
      · refine .gone (by rw [hpage]; rfl) (fun q hq => by rw [hpage]; exact hidle q hq) ?_
        intro j hj b hbj
        rw [hpage]
        obtain ⟨hblock, -⟩ := ((hok'.dropSmall hA hcls hidle).free_iff j hj b).mp hbj
        exact (hok'.isBlock_others.mp hblock).2
    · have hbusy : ¬∀ q ∈ (h.give k p).used, block2arena q ≠ A.page := fun hidle =>
        hfull ((hok'.freeIn_full_iff hA hcls).mpr hidle)
      rw [if_neg hfull, if_neg hbusy]
      have hstill : ∃ q ∈ (h.give k p).used, block2arena q = block2arena p := by
        refine Classical.byContradiction fun hno => hbusy fun q hq hqA => ?_
        exact hno ⟨q, hq, hqA.trans hpage.symm⟩
      exact ⟨_, rfl, ⟨hok', busy_give hr.busy hstill, hrep, hr.held, by rw [hr.live]; rfl⟩,
        .stays rfl hstill, hout⟩
  · -- pages of their own
    obtain ⟨h0, h4, h8⟩ := hr.rep.large A hA hcls
    have hok' := hok.dropLarge hA hcls
    rw [ensure_pos (Or.inr h8), Option.bind_some]
    rw [if_pos ⟨h0, h8⟩, h4, mfreePage_arena hok hr.held hA, hcls]
    have honly : ∀ q ∈ (h.dropLarge A.page).used, block2arena q ≠ A.page := by
      intro q hq hqA
      obtain ⟨B, hB, hqB, -⟩ := hok'.used_arena hq
      exact (Heap.mem_others.mp hB).2 (hqB.symm.trans hqA)
    refine ⟨_, rfl, ⟨hok', ?_, ?_, rfl, ?_⟩, .gone (by rw [hpage]; rfl)
      (fun q hq => by rw [hpage]; exact honly q hq) (fun j hj b hbj => ?_), fun _ _ => rfl⟩
    · intro B hB j hj
      obtain ⟨hB, hne⟩ := Heap.mem_others.mp hB
      obtain ⟨q, hq, hqB⟩ := hr.busy B hB j hj
      refine ⟨q, Heap.mem_used_filter.mpr ⟨hq, fun hc => hne ?_⟩, hqB⟩
      rw [← hqB, hc, Heap.block2arena_header (hok.placed A hA).aligned]
    · exact ⟨hr.rep.size, hr.rep.per, hr.rep.lists,
        fun B hB j hj => hr.rep.small B (Heap.mem_others.mp hB).1 j hj,
        fun B hB hc => hr.rep.large B (Heap.mem_others.mp hB).1 hc⟩
    · rw [hr.live, hb]
      rfl
    · rw [hpage]
      obtain ⟨hblock, -⟩ := (hok'.free_iff j hj b).mp hbj
      exact (hok.isBlock_others.mp hblock).2

/-! ## Writes -/

/-- Where a block in use lies. -/
theorem live_bounds (hok : h.Ok o) {e : Nat × Nat} (he : e ∈ h.live) :
    ∃ A ∈ h.arenas, A.page = block2arena e.1 ∧ A.page + arenaSize ≤ e.1 ∧
      e.1 + e.2 ≤ A.page + 4096 * A.pages := by
  rcases hok.room e he with ⟨k, hb, hle⟩ | ⟨A, hA, hcls, hp, hle⟩
  · obtain ⟨A, hA, -, hpage, hlo, hhi, hpages⟩ := hok.block_in hb
    exact ⟨A, hA, hpage, hlo, by omega⟩
  · refine ⟨A, hA, ?_, by omega, by omega⟩
    rw [hp, Heap.block2arena_header (hok.placed A hA).aligned]

theorem guarded_desc {a : Nat} (h1 : o.descs ≤ a) (h2 : a < o.descs + 168) : Guarded o r a :=
  Or.inl ⟨h1, h2⟩

theorem guarded_header (hok : h.Ok o)
    (hheld : r.state.held = h.arenas.map fun A => (A.page, A.pages)) (hlive : r.live = h.live)
    {A : Arena} (hA : A ∈ h.arenas) {i : Nat} (hi : i < arenaSize) : Guarded o r (A.page + i) := by
  have hsome := (hok.placed A hA).some
  have hmem : (A.page, A.pages) ∈ r.state.held := by
    rw [hheld]
    exact List.mem_map.mpr ⟨A, hA, rfl⟩
  refine Or.inr ⟨⟨_, hmem, by omega, by unfold arenaSize at hi; omega⟩, fun l hl => ?_⟩
  rw [hlive] at hl
  obtain ⟨B, hB, -, hlo, hhi⟩ := live_bounds hok hl
  by_cases hAB : A = B
  · subst hAB
    omega
  · have := hok.pagesApart hA hB hAB
    unfold PagesApart at this
    unfold arenaSize at *
    omega

theorem Represents.guarded_node (hr : Represents o r h) {k a : Nat} (hk : k < 7)
    (ha : InNodes (nodes (listOf o k) (h.free k)) a) : Guarded o r a := by
  obtain ⟨x, hx, h1, h2⟩ := ha
  have hs := blockSize_ge k
  simp only [List.mem_cons, List.mem_append, List.not_mem_nil, or_false] at hx
  rcases hx with rfl | hx | rfl
  · exact guarded_desc (by unfold listOf freeList descAt at h1; omega)
      (by unfold listOf freeList descAt at h2; omega)
  · obtain ⟨hb, hunused⟩ := (hr.ok.free_iff k hk x).mp hx
    obtain ⟨A, hA, hcls, hpage, hlo, hhi, hpages⟩ := hr.ok.block_in hb
    refine Or.inr ⟨⟨_, hr.mem_held.mpr ⟨A, hA, rfl⟩, by omega, by rw [hpages]; omega⟩, fun l hl => ?_⟩
    rw [hr.live] at hl
    have hne : x ≠ l.1 := fun hc => hunused (List.mem_map.mpr ⟨l, hl, hc.symm⟩)
    rcases hr.ok.room l hl with ⟨j, hj, hle⟩ | ⟨B, hB, hBcls, hp, hle⟩
    · have := hr.ok.blocks_apart hb hj hne
      omega
    · have hAB : A ≠ B := by
        intro heq
        subst heq
        rw [hcls] at hBcls
        exact absurd hBcls (by simp)
      have := hr.ok.pagesApart hA hB hAB
      unfold PagesApart at this
      omega
  · exact guarded_desc (by unfold listOf freeList descAt at h1; omega)
      (by unfold listOf freeList descAt at h2; omega)

/-- Writes that leave the heap's own bytes alone. -/
theorem write_represents (hr : Represents o r h) {m : Mem}
    (hm : ∀ a, Guarded o r a → m a = r.state.mem a) :
    Represents o { r with state := { r.state with mem := m } } h := by
  have hdesc := hr.rep.desc_kept m fun j hj i hi =>
    hm _ (guarded_desc (by unfold descAt; omega) (by unfold descAt; omega))
  refine ⟨hr.ok, hr.busy, ⟨hdesc.1, hdesc.2, fun k hk => ?_, fun A hA k hk => ?_, fun A hA hc => ?_⟩,
    hr.held, hr.live⟩
  · exact (hr.rep.lists k hk).congr fun a ha => hm a (hr.guarded_node hk ha)
  · obtain ⟨k0, k4, k8⟩ := header_kept fun i hi => hm _ (guarded_header hr.ok hr.held hr.live hA hi)
    obtain ⟨h1, h2, h3⟩ := hr.rep.small A hA k hk
    exact ⟨k0.trans h1, k4.trans h2, k8.trans h3⟩
  · obtain ⟨k0, k4, k8⟩ := header_kept fun i hi => hm _ (guarded_header hr.ok hr.held hr.live hA hi)
    obtain ⟨h1, h2, h3⟩ := hr.rep.large A hA hc
    exact ⟨k0.trans h1, k4.trans h2, k8.trans h3⟩

/-! ## The start -/

/-- The loop of `block_desc_init` from `idx` on. -/
theorem descInitLoop_spec (o : HeapOwner) : ∀ n idx m, idx + n = 7 →
    (∀ k, idx ≤ k → k < 7 →
      (descInitLoop o.descs n idx (blockSize idx) m).rd32 (descAt o.descs k) = blockSize k ∧
      (descInitLoop o.descs n idx (blockSize idx) m).rd32 (descAt o.descs k + 4) = perArena k ∧
      IsList (descInitLoop o.descs n idx (blockSize idx) m) (listOf o k) []) ∧
    ∀ a, a < descAt o.descs idx ∨ o.descs + 168 ≤ a →
      descInitLoop o.descs n idx (blockSize idx) m a = m a := by
  have hdescs := o.descs_le
  intro n
  induction n with
  | zero =>
    intro idx m hidx
    exact ⟨fun k h1 h2 => absurd h2 (by omega), fun _ _ => rfl⟩
  | succ n ih =>
    intro idx m hidx
    have hnext : blockSize idx * 2 = blockSize (idx + 1) := by
      unfold blockSize
      rw [Nat.pow_succ]
      omega
    rw [descInitLoop, hnext]
    obtain ⟨hlist, hout⟩ := listInit_spec (l := freeList (descAt o.descs idx))
      (m := (m.wr32 (descAt o.descs idx) (blockSize idx)).wr32 (descAt o.descs idx + 4)
        ((4096 - arenaSize) / blockSize idx)) (by unfold freeList descAt; omega)
    obtain ⟨hrest, hkeep⟩ := ih (idx + 1) (listInit ((m.wr32 (descAt o.descs idx)
      (blockSize idx)).wr32 (descAt o.descs idx + 4) ((4096 - arenaSize) / blockSize idx))
        (freeList (descAt o.descs idx))) (by omega)
    have hsmall : blockSize idx < 2 ^ 32 ∧ perArena idx < 2 ^ 32 := by
      have hall : ∀ k, k < 7 → blockSize k < 2 ^ 32 ∧ perArena k < 2 ^ 32 := by decide
      exact hall idx (by omega)
    refine ⟨fun k h1 h2 => ?_, fun a ha => ?_⟩
    · by_cases hk : idx + 1 ≤ k
      · exact hrest k hk h2
      · obtain rfl : k = idx := by omega
        refine ⟨?_, ?_, hlist.congr fun a ha => hkeep a ?_⟩
        · rw [rd32_same fun i hi => hkeep _ (by unfold descAt; omega),
            rd32_same fun i hi => hout _ (by unfold freeList; omega), Mem.rd32_wr32_ne (by omega),
            Mem.rd32_wr32 hsmall.1]
        · rw [rd32_same fun i hi => hkeep _ (by unfold descAt; omega),
            rd32_same fun i hi => hout _ (by unfold freeList; omega)]
          exact Mem.rd32_wr32 hsmall.2
        · obtain ⟨x, hx, h3, h4⟩ := ha
          simp only [List.nil_append, List.mem_cons, List.not_mem_nil, or_false] at hx
          rcases hx with rfl | rfl <;> unfold listOf freeList descAt at * <;> omega
    · have hat : descAt o.descs idx = o.descs + 24 * idx := rfl
      rw [hkeep a (by unfold descAt at *; omega), hout a (by unfold freeList; omega),
        wr32_out (by omega), wr32_out (by omega)]

theorem init_represents (o : HeapOwner) (m : Mem) :
    Represents o ⟨⟨blockDescInit m o.descs, []⟩, []⟩ ⟨[], fun _ => [], []⟩ := by
  have hinit := (descInitLoop_spec o 7 0 m rfl).1
  refine ⟨⟨?_, List.Pairwise.nil, ?_, ?_, fun k _ b => ?_, fun _ _ => List.nodup_nil, ?_,
    List.nodup_nil⟩, ?_, ⟨fun k hk => (hinit k (Nat.zero_le _) hk).1,
      fun k hk => (hinit k (Nat.zero_le _) hk).2.1, fun k hk => (hinit k (Nat.zero_le _) hk).2.2,
      ?_, ?_⟩, rfl, rfl⟩
  · exact fun A hA => absurd hA List.not_mem_nil
  · exact fun A hA => absurd hA List.not_mem_nil
  · exact fun A hA => absurd hA List.not_mem_nil
  · refine ⟨fun hb => absurd hb List.not_mem_nil, fun ⟨⟨A, hA, _⟩, _⟩ => absurd hA List.not_mem_nil⟩
  · exact fun e he => absurd he List.not_mem_nil
  · exact fun A hA => absurd hA List.not_mem_nil
  · exact fun A hA => absurd hA List.not_mem_nil
  · exact fun A hA => absurd hA List.not_mem_nil

/-! ## What holds in every run -/

/-- The bytes `sys_malloc` made available at `p`, as the header of its arena has
it. -/
def blockLen (m : Mem) (p : Nat) : Nat :=
  if m.rd32 (block2arena p) = 0 then 4096 * m.rd32 (block2arena p + 4) - arenaSize
  else m.rd32 (m.rd32 (block2arena p))

/-- Blocks in use do not overlap, have the length asked for, and lie in their
arena behind its header. -/
structure BlocksApart (r : HeapRun) : Prop where
  apart : r.live.Pairwise fun x y =>
    x.1 + blockLen r.state.mem x.1 ≤ y.1 ∨ y.1 + blockLen r.state.mem y.1 ≤ x.1
  long : ∀ e ∈ r.live, e.2 ≤ blockLen r.state.mem e.1
  inside : ∀ e ∈ r.live, ∃ n, (block2arena e.1, n) ∈ r.state.held ∧
    block2arena e.1 + arenaSize ≤ e.1 ∧
    e.1 + blockLen r.state.mem e.1 ≤ block2arena e.1 + 4096 * n

/-- `free k` is the free list of class `k`: no block twice, none that is in use,
and the count of every small arena is the number of its blocks there. -/
structure ListsRight (o : HeapOwner) (r : HeapRun) (free : Nat → List Nat) : Prop where
  lists : ∀ k, k < 7 → IsList r.state.mem (listOf o k) (free k)
  nodup : ∀ k, k < 7 → (free k).Nodup
  notLive : ∀ k, k < 7 → ∀ b ∈ free k, b ∉ r.live.map (·.1)
  cnt : ∀ e ∈ r.state.held, r.state.mem.rd32 (e.1 + 8) = 0 →
    ∃ k, k < 7 ∧ r.state.mem.rd32 e.1 = descAt o.descs k ∧
      r.state.mem.rd32 (e.1 + 4) =
        ((List.range (r.state.mem.rd32 (descAt o.descs k + 4))).filter
          fun i => arena2block r.state.mem e.1 i ∈ free k).length

/-- Pages are given back by a `sys_free` alone, and exactly those of the arena
whose last block it frees; none of its blocks is then on a free list. -/
def GivenBack (o : HeapOwner) (r : HeapRun) (op : HeapOp) (r' : HeapRun) : Prop :=
  match op with
  | .free p =>
    (∀ e ∈ r.state.held, e ∉ r'.state.held ↔
      e.1 = block2arena p ∧ ∀ l ∈ r'.live, block2arena l.1 ≠ e.1) ∧
    (∀ e ∈ r'.state.held, e ∈ r.state.held) ∧
    ∃ free, ListsRight o r' free ∧ ∀ e ∈ r.state.held, e ∉ r'.state.held →
      ∀ k, k < 7 → ∀ b ∈ free k, block2arena b ≠ e.1
  | _ => ∀ e ∈ r.state.held, e ∈ r'.state.held

/-- Where a block lies and how long it is, for a heap whose headers say so. -/
def LenRight (m : Mem) (h : Heap) (e : Nat × Nat) : Prop :=
  (∃ k, IsBlock h.arenas k e.1 ∧ e.2 ≤ blockSize k ∧ blockLen m e.1 = blockSize k) ∨
    ∃ A ∈ h.arenas, A.cls = none ∧ e.1 = A.page + arenaSize ∧ e.2 + arenaSize ≤ 4096 * A.pages ∧
      blockLen m e.1 = 4096 * A.pages - arenaSize

theorem Represents.lenRight (hr : Represents o r h) {e : Nat × Nat} (he : e ∈ h.live) :
    LenRight r.state.mem h e := by
  unfold LenRight blockLen
  rcases hr.ok.room e he with ⟨k, hb, hle⟩ | ⟨A, hA, hcls, hp, hle⟩
  · refine Or.inl ⟨k, hb, hle, ?_⟩
    obtain ⟨A, hA, hcls, hpage, -, -, -⟩ := hr.ok.block_in hb
    have hk := (hr.ok.small A hA k hcls).1
    have hdesc := (hr.rep.small A hA k hcls).1
    have hpos := o.descs_pos
    rw [← hpage, hdesc, if_neg (by unfold descAt; omega), hr.rep.size k hk]
  · refine Or.inr ⟨A, hA, hcls, hp, hle, ?_⟩
    obtain ⟨h0, h4, -⟩ := hr.rep.large A hA hcls
    rw [hp, Heap.block2arena_header (hr.ok.placed A hA).aligned, if_pos h0, h4]

theorem blocksApart_of (hok : h.Ok o)
    (hheld : r.state.held = h.arenas.map fun A => (A.page, A.pages)) (hlive : r.live = h.live)
    (hlen : ∀ e ∈ h.live, LenRight r.state.mem h e) : BlocksApart r := by
  have hused := hok.used_nodup
  have hmem : ∀ A ∈ h.arenas, (A.page, A.pages) ∈ r.state.held := fun A hA => by
    rw [hheld]
    exact List.mem_map.mpr ⟨A, hA, rfl⟩
  refine ⟨?_, fun e he => ?_, fun e he => ?_⟩
  · rw [hlive]
    rw [Heap.used, List.Nodup, List.pairwise_map] at hused
    refine hused.imp_of_mem fun {x y} hx hy hne => ?_
    rcases hlen x hx with ⟨j, hj, -, hlx⟩ | ⟨A, hA, hAc, hxA, hxs, hlx⟩
    · rcases hlen y hy with ⟨k, hk, -, hly⟩ | ⟨B, hB, hBc, hyB, hys, hly⟩
      · rw [hlx, hly]
        exact hok.blocks_apart hj hk hne
      · obtain ⟨A, hA, hAc, -, hlo, hhi, hpages⟩ := hok.block_in hj
        have hAB : A ≠ B := by
          intro heq
          subst heq
          rw [hAc] at hBc
          exact absurd hBc (by simp)
        have := hok.pagesApart hA hB hAB
        unfold PagesApart at this
        omega
    · have hAy : ∃ B ∈ h.arenas, B ≠ A ∧ B.page + arenaSize ≤ y.1 ∧
          y.1 + blockLen r.state.mem y.1 ≤ B.page + 4096 * B.pages := by
        rcases hlen y hy with ⟨k, hk, -, hly⟩ | ⟨B, hB, hBc, hyB, hys, hly⟩
        · obtain ⟨B, hB, hBc, -, hlo, hhi, hpages⟩ := hok.block_in hk
          refine ⟨B, hB, ?_, hlo, by omega⟩
          intro heq
          subst heq
          rw [hBc] at hAc
          exact absurd hAc (by simp)
        · refine ⟨B, hB, ?_, by omega, by omega⟩
          intro heq
          subst heq
          exact hne (hxA.trans hyB.symm)
      obtain ⟨B, hB, hBA, hlo, hhi⟩ := hAy
      have := hok.pagesApart hA hB (Ne.symm hBA)
      unfold PagesApart at this
      omega
  · rw [hlive] at he
    rcases hlen e he with ⟨j, -, hle, hl⟩ | ⟨A, -, -, -, hle, hl⟩
    · omega
    · omega
  · rw [hlive] at he
    rcases hlen e he with ⟨j, hj, hle, hl⟩ | ⟨A, hA, -, hp, hle, hl⟩
    · obtain ⟨A, hA, -, hpage, hlo, hhi, hpages⟩ := hok.block_in hj
      rw [← hpage]
      exact ⟨A.pages, hmem A hA, hlo, by omega⟩
    · have hpage : block2arena e.1 = A.page := by
        rw [hp, Heap.block2arena_header (hok.placed A hA).aligned]
      rw [hpage]
      exact ⟨A.pages, hmem A hA, by omega, by omega⟩

theorem Represents.blocksApart (hr : Represents o r h) : BlocksApart r :=
  blocksApart_of hr.ok hr.held hr.live fun _ he => hr.lenRight he

theorem Represents.listsRight (hr : Represents o r h) : ListsRight o r h.free := by
  refine ⟨hr.rep.lists, hr.ok.free_nodup, fun k hk b hb => ?_, fun e he hsmall => ?_⟩
  · rw [hr.live]
    exact ((hr.ok.free_iff k hk b).mp hb).2
  · obtain ⟨A, hA, rfl⟩ := hr.mem_held.mp he
    cases hcls : A.cls with
    | none =>
      have h8 := (hr.rep.large A hA hcls).2.2
      dsimp only at hsmall
      omega
    | some k =>
      have hk := (hr.ok.small A hA k hcls).1
      obtain ⟨h0, h4, -⟩ := hr.rep.small A hA k hcls
      refine ⟨k, hk, h0, ?_⟩
      rw [h4, hr.ok.freeIn_eq hA hcls, hr.rep.per k hk]
      refine congrArg List.length (List.filter_congr fun i _ => ?_)
      rw [arena2block, h0, hr.rep.size k hk]
      rfl

/-- Every arena has a block in use. -/
theorem Represents.users (hr : Represents o r h) {e : Nat × Nat} (he : e ∈ r.state.held) :
    ∃ l ∈ r.live, block2arena l.1 = e.1 := by
  obtain ⟨A, hA, rfl⟩ := hr.mem_held.mp he
  have hp : ∃ p ∈ h.used, block2arena p = A.page := by
    cases hcls : A.cls with
    | some k => exact hr.busy A hA k hcls
    | none =>
      exact ⟨_, hr.ok.large A hA hcls, Heap.block2arena_header (hr.ok.placed A hA).aligned⟩
  obtain ⟨p, hp, hpA⟩ := hp
  obtain ⟨l, hl, rfl⟩ := List.mem_map.mp hp
  rw [← hr.live] at hl
  exact ⟨l, hl, hpA⟩

/-- **One call.** It comes back, the bytes are a heap again, and pages were given
back as they should be. -/
theorem step_represents (hr : Represents o r h) {op : HeapOp} (hop : Allowed o r op) :
    ∃ r' h', r.step o op = some r' ∧ Represents o r' h' ∧ GivenBack o r op r' := by
  cases op with
  | malloc size answer =>
    obtain ⟨s, hrun, hr', hkeep, -⟩ := sysMalloc_represents hr hop
    refine ⟨_, _, by simp only [HeapRun.step, hrun]; rfl, hr', fun e he => ?_⟩
    obtain ⟨A, hA, rfl⟩ := hr.mem_held.mp he
    exact hr'.mem_held.mpr ⟨A, hkeep A hA, rfl⟩
  | write m => exact ⟨_, h, rfl, write_represents hr hop, fun e he => he⟩
  | free p =>
    obtain ⟨s, hrun, hr', hfreed, -⟩ := sysFree_represents hr hop
    refine ⟨_, _, by simp only [HeapRun.step, hrun]; rfl, hr', ?_⟩
    generalize h.release p = h' at hr' hfreed
    have hlive : ∀ {a}, (∀ l ∈ r.live.filter (·.1 ≠ p), block2arena l.1 ≠ a) ↔
        ∀ q ∈ h'.used, block2arena q ≠ a := by
      intro a
      have hl := hr'.live
      dsimp only at hl
      rw [hl, Heap.used]
      simp only [List.mem_map, forall_exists_index, and_imp, forall_apply_eq_imp_iff₂]
    have hsub : ∀ e ∈ s.held, e ∈ r.state.held := by
      intro e he
      obtain ⟨A, hA, rfl⟩ := hr'.mem_held.mp he
      exact hr.mem_held.mpr ⟨A, hfreed.arenas hA, rfl⟩
    refine ⟨fun e he => ?_, hsub, h'.free, hr'.listsRight, fun e he hgone k hk b hb => ?_⟩
    · obtain ⟨A, hA, rfl⟩ := hr.mem_held.mp he
      rw [hlive]
      cases hfreed with
      | stays harenas hstill =>
        refine iff_of_false (fun hno => hno (hr'.mem_held.mpr ⟨A, by rwa [harenas], rfl⟩)) ?_
        intro hin
        obtain ⟨hpage, hno⟩ := hin
        obtain ⟨q, hq, hqp⟩ := hstill
        exact hno q hq (hqp.trans hpage.symm)
      | gone harenas hidle _ =>
        constructor
        · intro hno
          have hpage : A.page = block2arena p := by
            refine Classical.byContradiction fun hne => hno (hr'.mem_held.mpr ⟨A, ?_, rfl⟩)
            rw [harenas]
            exact Heap.mem_others.mpr ⟨hA, hne⟩
          exact ⟨hpage, fun q hq => by rw [hpage]; exact hidle q hq⟩
        · intro hempty hin
          obtain ⟨hpage, -⟩ := hempty
          obtain ⟨B, hB, heq⟩ := hr'.mem_held.mp hin
          rw [harenas] at hB
          rw [Prod.mk.injEq] at heq
          exact (Heap.mem_others.mp hB).2 (heq.1.symm.trans hpage)
    · obtain ⟨A, hA, rfl⟩ := hr.mem_held.mp he
      cases hfreed with
      | stays harenas _ => exact absurd (hr'.mem_held.mpr ⟨A, by rwa [harenas], rfl⟩) hgone
      | gone harenas _ hfree =>
        have hpage : A.page = block2arena p := by
          refine Classical.byContradiction fun hne => hgone (hr'.mem_held.mpr ⟨A, ?_, rfl⟩)
          rw [harenas]
          exact Heap.mem_others.mpr ⟨hA, hne⟩
        rw [hpage]
        exact hfree k hk b hb

theorem Reachable.represents (h : Reachable o r) : ∃ h, Represents o r h := by
  induction h with
  | init m => exact ⟨_, init_represents o m⟩
  | step _ hop hstep ih =>
    obtain ⟨h, hr⟩ := ih
    obtain ⟨r', h', hstep', hr', -⟩ := step_represents hr hop
    rw [hstep, Option.some.injEq] at hstep'
    exact ⟨h', hstep' ▸ hr'⟩

/-- **The heap.** In every state of every run: blocks in use are apart, long
enough and inside their arenas; the free lists and the counts are right; every
arena has a user; and every further call comes back and gives back pages exactly
when it frees the last block in them. -/
theorem heap_invariant (h : Reachable o r) :
    BlocksApart r ∧ (∃ free, ListsRight o r free) ∧
      (∀ e ∈ r.state.held, ∃ l ∈ r.live, block2arena l.1 = e.1) ∧
      ∀ op, Allowed o r op → ∃ r', r.step o op = some r' ∧ GivenBack o r op r' := by
  obtain ⟨h, hr⟩ := h.represents
  refine ⟨hr.blocksApart, ⟨_, hr.listsRight⟩, fun e he => hr.users he, fun op hop => ?_⟩
  obtain ⟨r', h', hstep, -, hback⟩ := step_represents hr hop
  exact ⟨r', hstep, hback⟩

/-- The kernel's heap, with a pool of 15 MB. -/
def kernelHeap : HeapOwner where
  descs := 0xc0009000
  poolSize := 15 * 2 ^ 20
  base := 0xc0100000
  descs_pos := by decide
  descs_le := by decide
  poolSize_le := by decide

/-- Two blocks of the same arena, of which the first is freed again. -/
def twoBlocks : Option HeapRun := do
  let r ← HeapRun.step kernelHeap ⟨⟨blockDescInit Mem.zero kernelHeap.descs, []⟩, []⟩
    (.malloc 1000 (some 0xc0100000))
  let r ← r.step kernelHeap (.malloc 600 none)
  r.step kernelHeap (.free 0xc010000c)

theorem heap_invariant_two_blocks :
    ∃ r, Reachable kernelHeap r ∧ r.live = [(0xc010040c, 600)] ∧
      BlocksApart r ∧ ∃ r', r.step kernelHeap (.free 0xc010040c) = some r' := by
  have hrun : twoBlocks.map (·.live) = some [(0xc010040c, 600)] := by decide +kernel
  obtain ⟨r3, h3, hlive⟩ := Option.map_eq_some_iff.mp hrun
  simp only [twoBlocks, Option.bind_eq_bind, Option.bind_eq_some_iff] at h3
  obtain ⟨r1, h1, r2, h2, h3⟩ := h3
  have hlive2 : r2.live = [(0xc010040c, 600), (0xc010000c, 1000)] := by
    have hrun2 : ((HeapRun.step kernelHeap ⟨⟨blockDescInit Mem.zero kernelHeap.descs, []⟩, []⟩
        (.malloc 1000 (some 0xc0100000))).bind
          (·.step kernelHeap (.malloc 600 none))).map (·.live) =
        some [(0xc010040c, 600), (0xc010000c, 1000)] := by decide +kernel
    rw [h1, Option.bind_some, h2, Option.map_some, Option.some.injEq] at hrun2
    exact hrun2
  have hfresh : FreshPages kernelHeap [] 0xc0100000 (pagesAsked 1000) :=
    ⟨⟨by decide, by decide, by decide, by decide, by decide, by decide⟩,
      fun e he => absurd he List.not_mem_nil⟩
  have hreach1 : Reachable kernelHeap r1 := by
    refine Reachable.step (.init Mem.zero) ?_ h1
    intro a ha
    rw [← Option.some.inj ha]
    exact hfresh
  have hreach2 : Reachable kernelHeap r2 := by
    refine Reachable.step hreach1 ?_ h2
    exact fun a ha => absurd ha (by simp)
  have hreach3 : Reachable kernelHeap r3 := by
    refine Reachable.step hreach2 ?_ h3
    show _ ∈ r2.live.map _
    rw [hlive2]
    decide
  obtain ⟨hapart, -, -, hcalls⟩ := heap_invariant hreach3
  obtain ⟨r4, h4, -⟩ := hcalls (.free 0xc010040c) (show _ ∈ r3.live.map _ by rw [hlive]; decide)
  exact ⟨r3, hreach3, hlive, hapart, r4, h4⟩

end OsCore.Kernel
