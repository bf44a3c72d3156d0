import OsCore.Kernel.Frames

/-!
# The window on the page tables (`kernel/memory.c`)

`pte_ptr` and `pde_ptr` cut an address into its three parts and put them together
again as an address in the last 4 MB, where the directory maps its tables. Here they
are what they are in the code, masks and shifts of 32-bit words, and memory is words by
physical address, as the processor walks it (`translate`).

Everything follows from what the parts of the two addresses are (`slices_ptePtr`,
`slices_pdePtr`): the first is 1023, so the walk goes to the directory twice, or to the
directory and then to a table. `translate_eq_walk` and the lemmas around it are the way
to `Paging`, where the same is said in frames and quotients.
-/

namespace OsCore.Paging.Word

open OsCore.Lib

/-! ## The code -/

/-- Memory by physical address, one word for four bytes. -/
abbrev PhysWords := UInt32 → UInt32

/-- `PDE_IDX(addr)` -/
def pdeIdx (addr : UInt32) : UInt32 := (addr &&& 0xffc00000) >>> 22

/-- `PTE_IDX(addr)` -/
def pteIdx (addr : UInt32) : UInt32 := (addr &&& 0x003ff000) >>> 12

/-- `pte_ptr` -/
def ptePtr (vaddr : UInt32) : UInt32 :=
  (0xffc00000 : UInt32) + ((vaddr &&& 0xffc00000) >>> 10) + pteIdx vaddr * 4

/-- `pde_ptr` -/
def pdePtr (vaddr : UInt32) : UInt32 := 0xfffff000 + pdeIdx vaddr * 4

/-- The address an entry holds, without its attributes. -/
def frame (w : UInt32) : UInt32 := w &&& 0xfffff000

/-- `PG_P_1` is set. -/
def Present (w : UInt32) : Prop := w &&& 1 ≠ 0

instance (w : UInt32) : Decidable (Present w) := inferInstanceAs (Decidable (_ ≠ _))

section

variable (m : PhysWords) (dir vaddr : UInt32)

/-- Where the directory entry of an address is. -/
def pdeAddr : UInt32 := dir + pdeIdx vaddr * 4

/-- Where its entry in the page table is. -/
def pteAddr : UInt32 := frame (m (pdeAddr dir vaddr)) + pteIdx vaddr * 4

/-- The walk of the processor; `none` is a page fault. -/
def translate : Option UInt32 :=
  if Present (m (pdeAddr dir vaddr)) then
    if Present (m (pteAddr m dir vaddr)) then
      some (frame (m (pteAddr m dir vaddr)) + (vaddr &&& 0xfff))
    else none
  else none

/-- `addr_v2p`, which reads `*pte` by its address like any other word. -/
def addrV2p : Option UInt32 :=
  (translate m dir (ptePtr vaddr)).map fun pte => frame (m pte) + (vaddr &&& 0x00000fff)

/-- The last entry of the directory is there and names it. -/
def SelfMapped : Prop := Present (m (dir + 1023 * 4)) ∧ frame (m (dir + 1023 * 4)) = dir

end

/-! ## Masks as quotients and remainders -/

/-- A mask of high bits rounds down. -/
theorem and_high {n j k : Nat} (hn : n < 2 ^ (k + j)) :
    n &&& (2 ^ j - 1) * 2 ^ k = n / 2 ^ k * 2 ^ k := by
  have hpart : n / 2 ^ k < 2 ^ j := by
    rw [Nat.div_lt_iff_lt_mul (Nat.two_pow_pos k), Nat.mul_comm, ← Nat.pow_add]
    exact hn
  have hlow : n / 2 ^ k &&& (2 ^ j - 1) = n / 2 ^ k := by
    rw [Nat.and_two_pow_sub_one_eq_mod, Nat.mod_eq_of_lt hpart]
  rw [← hlow]
  apply Nat.eq_of_testBit_eq
  intro i
  rw [Nat.testBit_and, Nat.testBit_mul_two_pow, Nat.testBit_mul_two_pow, Nat.testBit_and,
    Nat.testBit_div_two_pow]
  by_cases hi : k ≤ i
  · rw [Nat.sub_add_cancel hi, decide_eq_true hi, Bool.true_and, Bool.true_and]
  · rw [decide_eq_false hi, Bool.false_and, Bool.false_and, Bool.and_false]

variable (x : UInt32)

theorem toNat_frame : (frame x).toNat = x.toNat / 4096 * 4096 := by
  rw [frame, UInt32.toNat_and]
  exact and_high (j := 20) (k := 12) x.toNat_lt

theorem toNat_offset : (x &&& 0xfff).toNat = x.toNat % 4096 := by
  rw [UInt32.toNat_and]
  exact Nat.and_two_pow_sub_one_eq_mod x.toNat 12

/-- `addr & 0xffc00000` -/
theorem toNat_tables : (x &&& 0xffc00000).toNat = x.toNat / 0x400000 * 0x400000 := by
  rw [UInt32.toNat_and]
  exact and_high (j := 10) (k := 22) x.toNat_lt

theorem toNat_pdeIdx : (pdeIdx x).toNat = x.toNat / 0x400000 := by
  rw [pdeIdx, UInt32.toNat_shiftRight, toNat_tables]
  change (x.toNat / 0x400000 * 0x400000) >>> 22 = _
  rw [Nat.shiftRight_eq_div_pow]
  omega

/-- The number of the table, as the offset of a page in the window. -/
theorem toNat_window : ((x &&& 0xffc00000) >>> 10).toNat = x.toNat / 0x400000 * 4096 := by
  rw [UInt32.toNat_shiftRight, toNat_tables]
  change (x.toNat / 0x400000 * 0x400000) >>> 10 = _
  rw [Nat.shiftRight_eq_div_pow]
  omega

theorem toNat_pteIdx : (pteIdx x).toNat = x.toNat / 4096 % 1024 := by
  have hmask : 0x003ff000 >>> 12 = 2 ^ 10 - 1 := by decide
  rw [pteIdx, UInt32.toNat_shiftRight, UInt32.toNat_and]
  change (x.toNat &&& 0x003ff000) >>> 12 = _
  rw [Nat.shiftRight_and_distrib, hmask, Nat.and_two_pow_sub_one_eq_mod,
    Nat.shiftRight_eq_div_pow]

theorem present_iff : Present x ↔ Lib.Present x.toNat := by
  have hbit : (x &&& 1).toNat = x.toNat % 2 := by
    rw [UInt32.toNat_and]
    exact Nat.and_two_pow_sub_one_eq_mod x.toNat 1
  unfold Present Lib.Present
  rw [ne_eq, ← UInt32.toNat_inj, hbit, UInt32.toNat_zero]
  omega

/-! ## The parts of the two addresses -/

/-- `pte_ptr(vaddr)` in arithmetic. -/
theorem toNat_ptePtr : (ptePtr x).toNat = Paging.ptePtr x.toNat := by
  have hx := x.toNat_lt
  have hbase : (0xffc00000 : UInt32).toNat = 0xffc00000 := rfl
  have hfour : (4 : UInt32).toNat = 4 := rfl
  rw [ptePtr, Paging.ptePtr, UInt32.toNat_add, UInt32.toNat_add, UInt32.toNat_mul, toNat_window,
    toNat_pteIdx, hbase, hfour]
  omega

/-- `pde_ptr(vaddr)` in arithmetic. -/
theorem toNat_pdePtr : (pdePtr x).toNat = Paging.pdePtr x.toNat := by
  have hx := x.toNat_lt
  have hbase : (0xfffff000 : UInt32).toNat = 0xfffff000 := rfl
  have hfour : (4 : UInt32).toNat = 4 := rfl
  rw [pdePtr, Paging.pdePtr, UInt32.toNat_add, UInt32.toNat_mul, toNat_pdeIdx, hbase, hfour]
  omega

/-- The last table entry but the index of the table: the page is the table. -/
theorem slices_ptePtr : pdeIdx (ptePtr x) = 1023 ∧ pteIdx (ptePtr x) = pdeIdx x ∧
    ptePtr x &&& 0xfff = pteIdx x * 4 := by
  have hx := x.toNat_lt
  have hlast : (1023 : UInt32).toNat = 1023 := rfl
  have hfour : (4 : UInt32).toNat = 4 := rfl
  refine ⟨?_, ?_, ?_⟩
  · rw [← UInt32.toNat_inj, toNat_pdeIdx, toNat_ptePtr, hlast, Paging.ptePtr]
    omega
  · rw [← UInt32.toNat_inj, toNat_pteIdx, toNat_ptePtr, toNat_pdeIdx, Paging.ptePtr]
    omega
  · rw [← UInt32.toNat_inj, toNat_offset, toNat_ptePtr, UInt32.toNat_mul, toNat_pteIdx, hfour,
      Paging.ptePtr]
    omega

/-- Both indices are the last: the page is the directory. -/
theorem slices_pdePtr : pdeIdx (pdePtr x) = 1023 ∧ pteIdx (pdePtr x) = 1023 ∧
    pdePtr x &&& 0xfff = pdeIdx x * 4 := by
  have hx := x.toNat_lt
  have hlast : (1023 : UInt32).toNat = 1023 := rfl
  have hfour : (4 : UInt32).toNat = 4 := rfl
  refine ⟨?_, ?_, ?_⟩
  · rw [← UInt32.toNat_inj, toNat_pdeIdx, toNat_pdePtr, hlast, Paging.pdePtr]
    omega
  · rw [← UInt32.toNat_inj, toNat_pteIdx, toNat_pdePtr, hlast, Paging.pdePtr]
    omega
  · rw [← UInt32.toNat_inj, toNat_offset, toNat_pdePtr, UInt32.toNat_mul, toNat_pdeIdx, hfour,
      Paging.pdePtr]
    omega

/-! ## The walk -/

variable {m : PhysWords} {dir : UInt32}

/-- A page of the window: the directory is taken for the table. -/
theorem translate_window (h : SelfMapped m dir) {a : UInt32} (ha : pdeIdx a = 1023) :
    translate m dir a =
      if Present (m (dir + pteIdx a * 4)) then
        some (frame (m (dir + pteIdx a * 4)) + (a &&& 0xfff))
      else none := by
  obtain ⟨hpresent, hframe⟩ := h
  have hdir : pdeAddr dir a = dir + 1023 * 4 := by rw [pdeAddr, ha]
  have htable : pteAddr m dir a = dir + pteIdx a * 4 := by rw [pteAddr, hdir, hframe]
  rw [translate, hdir, if_pos hpresent, htable]

/-- Where `pte_ptr` points. -/
theorem translate_ptePtr (h : SelfMapped m dir) {vaddr : UInt32}
    (hpde : Present (m (pdeAddr dir vaddr))) :
    translate m dir (ptePtr vaddr) = some (pteAddr m dir vaddr) := by
  obtain ⟨hlast, htable, hoffset⟩ := slices_ptePtr vaddr
  rw [translate_window h hlast, htable, hoffset]
  exact if_pos hpde

/-- Where `pde_ptr` points. -/
theorem translate_pdePtr (h : SelfMapped m dir) (vaddr : UInt32) :
    translate m dir (pdePtr vaddr) = some (pdeAddr dir vaddr) := by
  obtain ⟨hlast, htable, hoffset⟩ := slices_pdePtr vaddr
  rw [translate_window h hlast, htable, hoffset, if_pos h.1, h.2]
  rfl

/-- **Addresses in the window.** With a directory that names itself, `pte_ptr` and
`pde_ptr` are the addresses of the two entries of `vaddr`, and `addr_v2p` says what the
walk says. -/
theorem self_mapped_addresses (m : PhysWords) (dir vaddr : UInt32) (h : SelfMapped m dir)
    (hpde : Present (m (pdeAddr dir vaddr))) :
    translate m dir (ptePtr vaddr) = some (pteAddr m dir vaddr) ∧
      translate m dir (pdePtr vaddr) = some (pdeAddr dir vaddr) ∧
      (Present (m (pteAddr m dir vaddr)) → addrV2p m dir vaddr = translate m dir vaddr) := by
  refine ⟨translate_ptePtr h hpde, translate_pdePtr h vaddr, fun hpte => ?_⟩
  rw [addrV2p, translate_ptePtr h hpde, translate, if_pos hpde, if_pos hpte]
  rfl

/-- A directory at `0x218000`, one of the loader's tables and one page. -/
def onePage : PhysWords := fun a =>
  if a = 0x218ffc then 0x218007
  else if a = 0x218c00 then 0x101007
  else if a = 0x101400 then 0x219007
  else 0

theorem self_mapped_addresses_one_page :
    translate onePage 0x218000 (ptePtr 0xc0100abc) = some 0x101400 ∧
      translate onePage 0x218000 (pdePtr 0xc0100abc) = some 0x218c00 ∧
      addrV2p onePage 0x218000 0xc0100abc = some 0x219abc := by
  have hself : SelfMapped onePage 0x218000 := ⟨by decide, by decide⟩
  obtain ⟨hpte, hpde, hv2p⟩ :=
    self_mapped_addresses onePage 0x218000 0xc0100abc hself (by decide)
  have htable : pteAddr onePage 0x218000 0xc0100abc = 0x101400 := by decide
  have hdir : pdeAddr 0x218000 0xc0100abc = 0x218c00 := by decide
  have hwalk : translate onePage 0x218000 0xc0100abc = some 0x219abc := by decide
  rw [hpte, hpde, hv2p (by decide), htable, hdir, hwalk]
  exact ⟨rfl, rfl, rfl⟩

/-! ## In frames -/

theorem page_aligned {a : UInt32} (ha : frame a = a) : a.toNat / 4096 * 4096 = a.toNat := by
  rw [← toNat_frame, ha]

/-- The entry that `create_page_dir` makes for the directory itself. -/
theorem frame_entry {phy : UInt32} (h : frame phy = phy) :
    Present (phy ||| 4 ||| 2 ||| 1) ∧ frame (phy ||| 4 ||| 2 ||| 1) = phy := by
  have hpage := page_aligned h
  have hvalue : (phy ||| 4 ||| 2 ||| 1).toNat = entry phy.toNat := by
    rw [UInt32.toNat_or, UInt32.toNat_or, UInt32.toNat_or]
    rfl
  constructor
  · rw [present_iff, hvalue, ← hpage]
    exact present_entry _
  · rw [← UInt32.toNat_inj, toNat_frame, hvalue, ← hpage]
    exact congrArg (· * 4096) (frameOf_entry _)

/-- The same memory in frames of 1024 words. -/
def frames (m : PhysWords) : Phys := fun f i => (m (UInt32.ofNat (4096 * f + 4 * i))).toNat

theorem frames_eq {a : UInt32} (ha : frame a = a) (i : UInt32) :
    frames m (a.toNat / 4096) i.toNat = (m (a + i * 4)).toNat := by
  have hpage := page_aligned ha
  have hlt := a.toNat_lt
  have hfour : (4 : UInt32).toNat = 4 := rfl
  have haddr : UInt32.ofNat (4096 * (a.toNat / 4096) + 4 * i.toNat) = a + i * 4 := by
    rw [← UInt32.toNat_inj, UInt32.toNat_ofNat', UInt32.toNat_add, UInt32.toNat_mul, hfour]
    omega
  rw [frames, haddr]

theorem frame_frame (w : UInt32) : frame (frame w) = frame w := by
  rw [← UInt32.toNat_inj, toNat_frame, toNat_frame]
  omega

/-- The directory names itself in the one memory where it does in the other. -/
theorem selfMapped_iff (hdir : frame dir = dir) :
    SelfMapped m dir ↔ Lib.SelfMapped (frames m) (dir.toNat / 4096) := by
  have hpage := page_aligned hdir
  have hentry : frames m (dir.toNat / 4096) 1023 = (m (dir + 1023 * 4)).toNat :=
    frames_eq hdir 1023
  rw [SelfMapped, Lib.SelfMapped, Maps, frameOf, hentry, present_iff]
  apply and_congr_right
  intro _
  rw [← UInt32.toNat_inj, toNat_frame]
  omega

/-- The walk of the processor is the walk in frames. -/
theorem translate_eq_walk (hdir : frame dir = dir) (vaddr : UInt32) :
    (translate m dir vaddr).map UInt32.toNat =
      (walk (frames m) (dir.toNat / 4096) (vaddr.toNat / 4096)).map
        fun f => f * 4096 + vaddr.toNat % 4096 := by
  have hpde : frames m (dir.toNat / 4096) (vaddr.toNat / 4096 / 1024) =
      (m (pdeAddr dir vaddr)).toNat := by
    have hidx : vaddr.toNat / 4096 / 1024 = (pdeIdx vaddr).toNat := by
      rw [toNat_pdeIdx, Nat.div_div_eq_div_mul]
    rw [hidx, pdeAddr, frames_eq hdir]
  have hpte : frames m (frameOf (m (pdeAddr dir vaddr)).toNat) (vaddr.toNat / 4096 % 1024) =
      (m (pteAddr m dir vaddr)).toNat := by
    have htable : frameOf (m (pdeAddr dir vaddr)).toNat =
        (frame (m (pdeAddr dir vaddr))).toNat / 4096 := by
      rw [toNat_frame, frameOf]
      omega
    rw [htable, ← toNat_pteIdx, pteAddr, frames_eq (frame_frame _)]
  simp only [translate, walk, hpde, hpte, present_iff]
  split
  next =>
    split
    next =>
      rw [Option.map_some, Option.map_some, UInt32.toNat_add, toNat_frame, toNat_offset, frameOf]
      have hw := (m (pteAddr m dir vaddr)).toNat_lt
      congr 1
      omega
    next => rfl
  next => rfl

/-- A word at an address that is one of a word. -/
theorem frames_word {a : UInt32} {f o : Nat} (ha : a.toNat = f * 4096 + o) (ho : o % 4 = 0) :
    frames m f (o / 4) = (m a).toNat := by
  have haddr : UInt32.ofNat (4096 * f + 4 * (o / 4)) = a := by
    have hlt := a.toNat_lt
    rw [← UInt32.toNat_inj, UInt32.toNat_ofNat']
    omega
  rw [frames, haddr]

/-- `addr_v2p` is the same in both. -/
theorem addrV2p_eq {s : Mm} (hmem : s.mem = frames m) (hcr3 : s.cr3 = dir.toNat / 4096)
    (hdir : frame dir = dir) (vaddr : UInt32) :
    (addrV2p m dir vaddr).map UInt32.toNat = Paging.addrV2p s vaddr.toNat := by
  have hwalk := translate_eq_walk (m := m) hdir (ptePtr vaddr)
  rw [toNat_ptePtr] at hwalk
  have hword : Paging.ptePtr vaddr.toNat % 4096 % 4 = 0 := by
    unfold Paging.ptePtr
    omega
  rw [addrV2p, Paging.addrV2p, Mm.load, loadWord, hmem, hcr3]
  cases ht : translate m dir (ptePtr vaddr) with
  | none =>
    rw [ht, Option.map_none, eq_comm, Option.map_eq_none_iff] at hwalk
    rw [hwalk]
    rfl
  | some a =>
    rw [ht, Option.map_some, eq_comm, Option.map_eq_some_iff] at hwalk
    obtain ⟨f, hf, ha⟩ := hwalk
    have hw := (m a).toNat_lt
    rw [hf, Option.map_some, Option.map_some, Option.map_some, Option.map_some,
      frames_word ha.symm hword, UInt32.toNat_add, toNat_frame, toNat_offset, frameOf]
    congr 1
    omega

end OsCore.Paging.Word
