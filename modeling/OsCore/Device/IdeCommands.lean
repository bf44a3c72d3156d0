import OsCore.Device.Ide

/-!
# The commands of a transfer (`device/ide.c`)

`ide_read` and `ide_write` cut a request into commands of at most 256 sectors. What
a command covers is said twice: to the drive in registers of eight bits, where a
count of 256 is written as 0 and the address goes to four of them, and to
`read_from_sector` or `write2sector`, which make bytes of the same eight-bit count.

`Cut` is the request as it should be cut, each command with the sectors after the
one before and with their place in the buffer. The loop issues such commands
(`secsLoop_cut`), so they cover the request (`ide_commands_cover`), and the data
they move is what `Fs.ideRead` and `Fs.ideWrite` say (`transfer_moves`).
-/

namespace OsCore.Device

open Fs (maxLba ideRead ideWrite)

/-! ## The code -/

def bitDevMbs : UInt8 := 0xa0
def bitDevLba : UInt8 := 0x40
def bitDevDev : UInt8 := 0x10

def cmdReadSector : UInt8 := 0x20
def cmdWriteSector : UInt8 := 0x30

/-- The registers of a channel that address sectors. -/
structure SectorRegs where
  sectCnt : UInt8
  lbaL : UInt8
  lbaM : UInt8
  lbaH : UInt8
  dev : UInt8

/-- `select_sector`. It writes all of the registers, that of `select_disk` too. -/
def selectSector (devNo : UInt8) (lba : UInt32) (secCnt : UInt8) : Option SectorRegs := do
  ensure (lba.toNat ≤ maxLba)
  return {
    sectCnt := secCnt
    lbaL := lba.toUInt8
    lbaM := (lba >>> 8).toUInt8
    lbaH := (lba >>> 16).toUInt8
    dev := bitDevMbs ||| bitDevLba ||| (if devNo = 1 then bitDevDev else 0) |||
      (lba >>> 24).toUInt8 }

/-- `size_in_byte` of `read_from_sector` and `write2sector`. -/
def sizeInByte (secCnt : UInt8) : UInt32 :=
  if secCnt = 0 then 256 * 512 else secCnt.toUInt32 * 512

/-- A command as the drive gets it, with the address and the size of the part of
the buffer that is moved for it; none is where the drive did not get ready. -/
structure IdeCommand where
  code : UInt8
  regs : SectorRegs
  moved : Option (UInt32 × UInt32)

/-- The commands of a call, and whether it ended in `PANIC`. -/
structure IdeRun where
  commands : List IdeCommand
  panicked : Bool

/-- The loop of `ide_read` and of `ide_write`, for the drive `devNo` of its channel
and the buffer at `buf`. `ready` has the answers of `busy_wait`, by `secs_done`.
`none` is a failed assertion, or too little fuel. -/
def secsLoop (x : Transfer) (devNo : UInt8) (buf : UInt32) (ready : UInt32 → Bool) :
    Nat → UInt32 → Option IdeRun
  | 0, _ => none
  | fuel + 1, secsDone =>
    if secsDone < x.secCnt then do
      let secsOp := secsOp x secsDone
      let regs ← selectSector devNo (x.lba + secsDone) secsOp.toUInt8
      let code := if x.write then cmdWriteSector else cmdReadSector
      if ready secsDone then
        let moved := (buf + secsDone * 512, sizeInByte secsOp.toUInt8)
        let run ← secsLoop x devNo buf ready fuel (secsDone + secsOp)
        return { run with commands := ⟨code, regs, some moved⟩ :: run.commands }
      else return ⟨[⟨code, regs, none⟩], true⟩
    else some ⟨[], false⟩

/-- `ide_read` or `ide_write`. Every pass moves a sector at least. -/
def ideTransfer (x : Transfer) (devNo : UInt8) (buf : UInt32) (ready : UInt32 → Bool) :
    Option IdeRun := do
  ensure (x.lba.toNat ≤ maxLba)
  ensure (0 < x.secCnt)
  secsLoop x devNo buf ready (x.secCnt.toNat + 1) 0

/-! ## How the drive reads them -/

/-- The sectors a count stands for. -/
def SectorRegs.count (regs : SectorRegs) : Nat :=
  if regs.sectCnt = 0 then 256 else regs.sectCnt.toNat

/-- The address in the four registers; of the last, the low half. -/
def SectorRegs.lba (regs : SectorRegs) : Nat :=
  regs.lbaL.toNat + 2 ^ 8 * regs.lbaM.toNat + 2 ^ 16 * regs.lbaH.toNat +
    2 ^ 24 * (regs.dev &&& 0x0f).toNat

/-- The sectors a command addresses. -/
def IdeCommand.sectors (c : IdeCommand) : List Nat := List.range' c.regs.lba c.regs.count

/-- The sectors moved for a command, in the order of the data port, with the
addresses in the buffer. -/
def IdeCommand.moves (c : IdeCommand) : List (Nat × UInt32) :=
  match c.moved with
  | none => []
  | some (addr, size) =>
    (List.range (size.toNat / 512)).map fun i => (c.regs.lba + i, addr + UInt32.ofNat (512 * i))

/-! ## The request, cut -/

/-- The commands for the sectors of a request from the one with the number `d` on.
The last one may be one the drive was not ready for. -/
inductive Cut (x : Transfer) (buf : UInt32) : Nat → IdeRun → Prop
  | done : Cut x buf x.secCnt.toNat ⟨[], false⟩
  | command {d m c run} : d < x.secCnt.toNat → m = min 256 (x.secCnt.toNat - d) →
      c.regs.lba = x.lba.toNat + d → c.regs.count = m →
      c.moved = some (buf + UInt32.ofNat (512 * d), UInt32.ofNat (512 * m)) →
      Cut x buf (d + m) run → Cut x buf d ⟨c :: run.commands, run.panicked⟩
  | gaveUp {d c} : d < x.secCnt.toNat → c.regs.lba = x.lba.toNat + d →
      c.regs.count = min 256 (x.secCnt.toNat - d) → c.moved = none → Cut x buf d ⟨[c], true⟩

section

variable {x : Transfer} {devNo : UInt8} {buf : UInt32} {ready : UInt32 → Bool}

theorem maxLba_eq : maxLba = 163839 := by decide

/-- Below `2^24` the four registers hold the address. -/
theorem selectSector_spec (devNo : UInt8) {lba : UInt32} (hlba : lba.toNat ≤ maxLba)
    (secCnt : UInt8) :
    ∃ regs, selectSector devNo lba secCnt = some regs ∧ regs.lba = lba.toNat ∧
      regs.sectCnt = secCnt := by
  refine ⟨_, by rw [selectSector, ensure_pos hlba]; rfl, ?_, rfl⟩
  rw [maxLba_eq] at hlba
  have htop : (lba >>> 24).toUInt8 = 0 := by
    apply UInt8.toNat_inj.mp
    rw [UInt32.toNat_toUInt8, UInt32.toNat_shiftRight]
    simp only [UInt32.reduceToNat, Nat.reduceMod, Nat.shiftRight_eq_div_pow]
    rw [Nat.div_eq_of_lt (by omega)]
    rfl
  have hdev : ∀ b : Bool, (bitDevMbs ||| bitDevLba ||| (if b then bitDevDev else 0) ||| 0) &&& 0x0f
      = 0 := by decide
  simp only [SectorRegs.lba, htop]
  rw [show (if devNo = 1 then bitDevDev else 0) =
    if decide (devNo = 1) then bitDevDev else 0 by simp, hdev]
  simp only [UInt32.toNat_toUInt8, UInt32.toNat_shiftRight, UInt32.reduceToNat, Nat.reduceMod,
    Nat.shiftRight_eq_div_pow, UInt8.reduceToNat]
  omega

/-- The count register and the bytes moved stand for the same sectors. -/
theorem count_of_secsOp {n : UInt32} (h0 : 0 < n.toNat) (h : n.toNat ≤ 256) :
    (∀ regs : SectorRegs, regs.sectCnt = n.toUInt8 → regs.count = n.toNat) ∧
      sizeInByte n.toUInt8 = UInt32.ofNat (512 * n.toNat) := by
  have hbyte : n.toUInt8.toNat = n.toNat % 256 := UInt32.toNat_toUInt8 n
  by_cases hfull : n.toNat = 256
  · have hzero : n.toUInt8 = 0 := UInt8.toNat_inj.mp (by rw [hbyte, hfull]; rfl)
    refine ⟨fun regs hregs => ?_, ?_⟩
    · rw [SectorRegs.count, if_pos (hregs.trans hzero), hfull]
    · rw [sizeInByte, if_pos hzero, hfull]
      rfl
  · have hval : n.toUInt8.toNat = n.toNat := by rw [hbyte, Nat.mod_eq_of_lt (by omega)]
    have hne : n.toUInt8 ≠ 0 := by
      intro he
      rw [he] at hval
      exact absurd hval (by simp; omega)
    refine ⟨fun regs hregs => ?_, ?_⟩
    · rw [SectorRegs.count, hregs, if_neg hne, hval]
    · rw [sizeInByte, if_neg hne]
      apply UInt32.toNat_inj.mp
      rw [UInt32.toNat_mul, UInt8.toNat_toUInt32, hval, UInt32.toNat_ofNat']
      simp only [UInt32.reduceToNat]
      omega

/-- `secs_op` is what is left, but at most 256. -/
theorem secsOp_toNat {d : UInt32} (hd : d < x.secCnt) (hcnt : x.secCnt.toNat ≤ maxLba + 1) :
    (secsOp x d).toNat = min 256 (x.secCnt.toNat - d.toNat) := by
  have hlt : d.toNat < x.secCnt.toNat := hd
  rw [maxLba_eq] at hcnt
  have hadd : (d + 256).toNat = d.toNat + 256 := by
    rw [UInt32.toNat_add]
    simp only [UInt32.reduceToNat]
    omega
  rw [secsOp]
  split
  · next hle =>
    have hle : d.toNat + 256 ≤ x.secCnt.toNat := by rw [← hadd]; exact hle
    simp only [UInt32.reduceToNat]
    omega
  · next hgt =>
    have hgt : ¬ d.toNat + 256 ≤ x.secCnt.toNat := by rw [← hadd]; exact hgt
    rw [UInt32.toNat_sub_of_le _ _ (UInt32.le_iff_toNat_le.mpr hlt.le)]
    omega

/-- **The loop cuts the request.** From any sector of it on, enough fuel for the rest
being left. -/
theorem secsLoop_cut (devNo : UInt8) (buf : UInt32) (ready : UInt32 → Bool)
    (hfit : x.lba.toNat + x.secCnt.toNat ≤ maxLba + 1) (fuel : Nat) (d : UInt32)
    (hd : d.toNat ≤ x.secCnt.toNat) (hfuel : x.secCnt.toNat - d.toNat < fuel) :
    ∃ run, secsLoop x devNo buf ready fuel d = some run ∧ Cut x buf d.toNat run ∧
      ((∀ d, ready d = true) → run.panicked = false) := by
  induction fuel generalizing d with
  | zero => omega
  | succ fuel ih =>
    have hmax := maxLba_eq
    rw [secsLoop]
    by_cases hlt : d < x.secCnt
    · have hlt' : d.toNat < x.secCnt.toNat := hlt
      have hop := secsOp_toNat hlt (by omega)
      have haddr : (x.lba + d).toNat = x.lba.toNat + d.toNat := by
        rw [UInt32.toNat_add]
        omega
      have hnext : (d + secsOp x d).toNat = d.toNat + (secsOp x d).toNat := by
        rw [UInt32.toNat_add]
        omega
      have hon : (x.lba + d).toNat ≤ maxLba := by omega
      obtain ⟨regs, hregs, hlba, hsect⟩ := selectSector_spec devNo hon (secsOp x d).toUInt8
      obtain ⟨hcount, hsize⟩ := count_of_secsOp (n := secsOp x d) (by omega) (by omega)
      rw [if_pos hlt]
      dsimp only
      rw [hregs, Option.bind_eq_bind, Option.bind_some]
      by_cases hready : ready d = true
      · obtain ⟨run, hrun, hcut, hpanic⟩ := ih (d + secsOp x d) (by omega) (by omega)
        rw [if_pos hready, hrun]
        rw [hnext, hop] at hcut
        refine ⟨_, rfl, .command hlt' rfl (hlba.trans haddr) ((hcount regs hsect).trans hop) ?_
          hcut, hpanic⟩
        have hoffset : d * 512 = UInt32.ofNat (512 * d.toNat) := by
          rw [UInt32.ofNat_mul, UInt32.ofNat_toNat, UInt32.mul_comm]
          rfl
        rw [hsize, hoffset, hop]
      · rw [if_neg hready]
        exact ⟨_, rfl, .gaveUp hlt' (hlba.trans haddr) ((hcount regs hsect).trans hop) rfl,
          fun h => absurd (h d) hready⟩
    · have hend : d.toNat = x.secCnt.toNat := by
        have hge : ¬ d.toNat < x.secCnt.toNat := hlt
        omega
      rw [if_neg hlt, hend]
      exact ⟨_, rfl, .done, fun _ => rfl⟩

/-! ## What a cut request covers -/

/-- The sectors of the request from the one with the number `d` on. -/
def sectorsFrom (x : Transfer) (d : Nat) : List Nat :=
  List.range' (x.lba.toNat + d) (x.secCnt.toNat - d)

/-- The same with their places in the buffer, 512 bytes for each. -/
def movesFrom (x : Transfer) (buf : UInt32) (d : Nat) : List (Nat × UInt32) :=
  (List.range' d (x.secCnt.toNat - d)).map fun k =>
    (x.lba.toNat + k, buf + UInt32.ofNat (512 * k))

/-- The request in two parts, the first of `m` sectors. -/
theorem range'_cut {d m n : Nat} (a : Nat) (h : d + m ≤ n) :
    List.range' (a + d) (n - d) =
      List.range' (a + d) m ++ List.range' (a + (d + m)) (n - (d + m)) := by
  rw [← Nat.add_assoc, List.range'_append_1]
  congr 1
  omega

theorem moves_command {c : IdeCommand} {d m : Nat} (hlba : c.regs.lba = x.lba.toNat + d)
    (hm : m ≤ 256)
    (hmoved : c.moved = some (buf + UInt32.ofNat (512 * d), UInt32.ofNat (512 * m))) :
    c.moves = (List.range' d m).map fun k => (x.lba.toNat + k, buf + UInt32.ofNat (512 * k)) := by
  have hsize : (UInt32.ofNat (512 * m)).toNat / 512 = m := by
    rw [UInt32.toNat_ofNat']
    omega
  rw [IdeCommand.moves, hmoved]
  dsimp only
  rw [hsize, List.range'_eq_map_range, List.map_map, hlba]
  apply List.map_congr_left
  intro i _
  rw [Function.comp_apply, Nat.mul_add, UInt32.ofNat_add, Nat.add_assoc, UInt32.add_assoc]

/-- **What the commands of a cut come to**, if each takes the front off `whole`, and the
one the drive did not get ready for takes no more. -/
theorem Cut.flatMap_eq {β : Type} {g : IdeCommand → List β} {whole : Nat → List β} {d : Nat}
    {run : IdeRun} (h : Cut x buf d run) (hend : whole x.secCnt.toNat = [])
    (hcommand : ∀ c d m, d + m ≤ x.secCnt.toNat → m ≤ 256 → c.regs.lba = x.lba.toNat + d →
      c.regs.count = m → c.moved = some (buf + UInt32.ofNat (512 * d), UInt32.ofNat (512 * m)) →
      whole d = g c ++ whole (d + m))
    (hgaveUp : ∀ c d, c.regs.lba = x.lba.toNat + d → d + c.regs.count ≤ x.secCnt.toNat →
      c.moved = none → g c <+: whole d) :
    run.commands.flatMap g <+: whole d ∧
      (run.panicked = false → run.commands.flatMap g = whole d) := by
  induction h with
  | done =>
    rw [hend]
    exact ⟨List.nil_prefix, fun _ => rfl⟩
  | @command d m c run hd hm hlba hcount hmoved hrest ih =>
    rw [List.flatMap_cons, hcommand c d m (by omega) (by omega) hlba hcount hmoved]
    refine ⟨(List.prefix_append_right_inj _).mpr ih.1, fun hok => ?_⟩
    rw [ih.2 hok]
  | @gaveUp d c hd hlba hcount hmoved =>
    rw [List.flatMap_cons, List.flatMap_nil, List.append_nil]
    exact ⟨hgaveUp c d hlba (by omega) hmoved, fun h => by cases h⟩

/-- The commands of a cut address the sectors in order, and all of them unless the
drive does not get ready. -/
theorem Cut.sectors {d : Nat} {run : IdeRun} (h : Cut x buf d run) :
    run.commands.flatMap IdeCommand.sectors <+: sectorsFrom x d ∧
      (run.panicked = false → run.commands.flatMap IdeCommand.sectors = sectorsFrom x d) := by
  have hsplit : ∀ (c : IdeCommand) (d : Nat), c.regs.lba = x.lba.toNat + d →
      d + c.regs.count ≤ x.secCnt.toNat →
      sectorsFrom x d = c.sectors ++ sectorsFrom x (d + c.regs.count) := by
    intro c d hlba hle
    rw [IdeCommand.sectors, hlba]
    exact range'_cut x.lba.toNat hle
  refine h.flatMap_eq (by simp [sectorsFrom]) (fun c d m hle _ hlba hcount _ => ?_)
    fun c d hlba hle _ => ?_
  · rw [← hcount] at hle ⊢
    exact hsplit c d hlba hle
  · rw [hsplit c d hlba hle]
    exact List.prefix_append _ _

/-- Each of the sectors is moved to or from its place. -/
theorem Cut.moves {d : Nat} {run : IdeRun} (h : Cut x buf d run) :
    run.commands.flatMap IdeCommand.moves <+: movesFrom x buf d ∧
      (run.panicked = false → run.commands.flatMap IdeCommand.moves = movesFrom x buf d) := by
  refine h.flatMap_eq (by simp [movesFrom]) (fun c d m hle hm hlba _ hmoved => ?_)
    fun c d _ _ hmoved => ?_
  · have hrange := range'_cut 0 hle
    rw [Nat.zero_add, Nat.zero_add] at hrange
    rw [moves_command hlba hm hmoved, movesFrom, hrange, List.map_append, movesFrom]
  · rw [IdeCommand.moves, hmoved]
    exact List.nil_prefix

end

/-- **The commands of a transfer cover the request**: they address its sectors in
order and once each, and the sector with the number `k` is moved to or from the
offset `512 * k` of the buffer. A call that ends in `PANIC` has come so far. -/
theorem ide_commands_cover (x : Transfer) (devNo : UInt8) (buf : UInt32) (ready : UInt32 → Bool)
    (hcnt : 1 ≤ x.secCnt.toNat) (hfit : x.lba.toNat + x.secCnt.toNat ≤ maxLba + 1) :
    ∃ run, ideTransfer x devNo buf ready = some run ∧
      run.commands.flatMap IdeCommand.sectors <+: sectorsFrom x 0 ∧
      run.commands.flatMap IdeCommand.moves <+: movesFrom x buf 0 ∧
      (run.panicked = false →
        run.commands.flatMap IdeCommand.sectors =
            (List.range x.secCnt.toNat).map (fun k => x.lba.toNat + k) ∧
          run.commands.flatMap IdeCommand.moves =
            (List.range x.secCnt.toNat).map
              (fun k => (x.lba.toNat + k, buf + UInt32.ofNat (512 * k)))) ∧
      ((∀ d, ready d = true) → run.panicked = false) := by
  obtain ⟨run, hrun, hcut, hpanic⟩ :=
    secsLoop_cut devNo buf ready hfit (x.secCnt.toNat + 1) 0 (Nat.zero_le _) (by simp)
  have hlba : x.lba.toNat ≤ maxLba := by omega
  have hpos : 0 < x.secCnt := UInt32.lt_iff_toNat_lt.mpr hcnt
  have hsectors := hcut.sectors
  have hmoves := hcut.moves
  refine ⟨run, ?_, hsectors.1, hmoves.1, fun hok => ⟨?_, ?_⟩, hpanic⟩
  · rw [ideTransfer, ensure_pos hlba, ensure_pos hpos]
    exact hrun
  · rw [hsectors.2 hok, sectorsFrom, List.range'_eq_map_range]
    rfl
  · rw [hmoves.2 hok, movesFrom, List.range_eq_range']
    rfl

/-- A request of 600 sectors: commands of 256, 256 and 88. -/
theorem ide_commands_cover_six_hundred :
    ∃ run, ideTransfer ⟨false, 5, 600⟩ 0 0x1000 (fun _ => true) = some run ∧
      run.panicked = false ∧
      run.commands.flatMap IdeCommand.sectors = (List.range 600).map (fun k => 5 + k) := by
  obtain ⟨run, hrun, -, -, hall, hpanic⟩ := ide_commands_cover ⟨false, 5, 600⟩ 0 0x1000
    (fun _ => true) (by decide) (by decide)
  exact ⟨run, hrun, hpanic fun _ => rfl, (hall (hpanic fun _ => rfl)).1⟩

/-! ## The data -/

/-- What a command moves from the disk, into the buffer that starts at `buf`. -/
def IdeCommand.fetch (buf : UInt32) (disk b : Mem) (c : IdeCommand) : Mem :=
  match c.moved with
  | none => b
  | some (addr, size) => b.blit (addr - buf).toNat (disk.shift (512 * c.regs.lba)) size.toNat

/-- What it moves to the disk. -/
def IdeCommand.store (buf : UInt32) (b disk : Mem) (c : IdeCommand) : Mem :=
  match c.moved with
  | none => disk
  | some (addr, size) => disk.blit (512 * c.regs.lba) (b.shift (addr - buf).toNat) size.toNat

section

variable {x : Transfer} {buf : UInt32} {d : Nat} {run : IdeRun}

theorem moved_place {n : Nat} (h : n ≤ maxLba + 1) :
    (buf + UInt32.ofNat (512 * n) - buf).toNat = 512 * n := by
  rw [maxLba_eq] at h
  rw [UInt32.add_comm, UInt32.add_sub_cancel, UInt32.toNat_ofNat']
  omega

theorem moved_size {m : Nat} (hm : m ≤ 256) : (UInt32.ofNat (512 * m)).toNat = 512 * m := by
  rw [UInt32.toNat_ofNat']
  omega

/-- Where each command copies its sectors, with the same distance for all of them, the
commands together copy the whole. -/
theorem Cut.foldl_blit (h : Cut x buf d run) (hok : run.panicked = false) (src : Mem) (a b : Nat)
    {f : Mem → IdeCommand → Mem}
    (hf : ∀ (dst : Mem) (c : IdeCommand) (d m : Nat), d + m ≤ x.secCnt.toNat → m ≤ 256 →
      c.regs.lba = x.lba.toNat + d →
      c.moved = some (buf + UInt32.ofNat (512 * d), UInt32.ofNat (512 * m)) →
      f dst c = dst.blit (a + 512 * d) (src.shift (b + 512 * d)) (512 * m)) (dst : Mem) :
    run.commands.foldl f dst =
      dst.blit (a + 512 * d) (src.shift (b + 512 * d)) (512 * (x.secCnt.toNat - d)) := by
  induction h generalizing dst with
  | done =>
    funext i
    rw [Nat.sub_self, Nat.mul_zero, Mem.blit_out (by omega)]
    rfl
  | @command d m c run hd hm hlba hcount hmoved hrest ih =>
    have hsum : 512 * (x.secCnt.toNat - d) = 512 * m + 512 * (x.secCnt.toNat - (d + m)) := by omega
    rw [List.foldl_cons, ih hok, hf dst c d m (by omega) (by omega) hlba hmoved, hsum,
      ← Mem.blit_append, Mem.shift_shift, Nat.mul_add, Nat.add_assoc, Nat.add_assoc]
  | gaveUp => cases hok

theorem Cut.fetch_eq (h : Cut x buf 0 run) (hfit : x.lba.toNat + x.secCnt.toNat ≤ maxLba + 1)
    (hok : run.panicked = false) (disk b : Mem) :
    run.commands.foldl (IdeCommand.fetch buf disk) b =
      b.blit 0 (disk.shift (512 * x.lba.toNat)) (512 * x.secCnt.toNat) := by
  refine h.foldl_blit hok disk 0 (512 * x.lba.toNat) (fun dst c d m hd hm hlba hmoved => ?_) b
  rw [IdeCommand.fetch, hmoved]
  dsimp only
  rw [moved_place (by omega), moved_size hm, hlba, Nat.mul_add, Nat.zero_add]

theorem Cut.store_eq (h : Cut x buf 0 run) (hfit : x.lba.toNat + x.secCnt.toNat ≤ maxLba + 1)
    (hok : run.panicked = false) (b disk : Mem) :
    run.commands.foldl (IdeCommand.store buf b) disk =
      disk.blit (512 * x.lba.toNat) b (512 * x.secCnt.toNat) := by
  have hstores := h.foldl_blit (f := IdeCommand.store buf b) hok b (512 * x.lba.toNat) 0
    (fun dst c d m hd hm hlba hmoved => ?_) disk
  · have hfront : b.shift (0 + 512 * 0) = b := Mem.shift_zero b
    rw [hstores, hfront]
    rfl
  · rw [IdeCommand.store, hmoved]
    dsimp only
    rw [moved_place (by omega), moved_size hm, hlba, Nat.mul_add, Nat.zero_add]

/-- Both calls do with all sectors at once what their commands do. -/
theorem transfer_moves {devNo : UInt8} {ready : UInt32 → Bool} (hcnt : 0 < x.secCnt.toNat)
    (hfit : x.lba.toNat + x.secCnt.toNat ≤ maxLba + 1) (hready : ∀ d, ready d = true)
    (disk b : Mem) : ∃ run, ideTransfer x devNo buf ready = some run ∧
      ideRead disk x.lba.toNat b x.secCnt.toNat =
        some (run.commands.foldl (IdeCommand.fetch buf disk) b) ∧
      ideWrite disk x.lba.toNat b x.secCnt.toNat =
        some (run.commands.foldl (IdeCommand.store buf b) disk) := by
  obtain ⟨run, hrun, hcut, hpanic⟩ :=
    secsLoop_cut devNo buf ready hfit (x.secCnt.toNat + 1) 0 (Nat.zero_le _) (by simp)
  have hlba : x.lba.toNat ≤ maxLba := by omega
  have hpos : 0 < x.secCnt := UInt32.lt_iff_toNat_lt.mpr hcnt
  refine ⟨run, ?_, ?_, ?_⟩
  · rw [ideTransfer, ensure_pos hlba, ensure_pos hpos]
    exact hrun
  · rw [hcut.fetch_eq hfit (hpanic hready)]
    exact Fs.ideRead_eq_some.mpr ⟨hlba, hcnt, rfl⟩
  · rw [hcut.store_eq hfit (hpanic hready)]
    exact Fs.ideWrite_eq_some.mpr ⟨hlba, hcnt, rfl⟩

end

end OsCore.Device
