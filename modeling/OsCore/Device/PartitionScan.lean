import OsCore.Fs.Volume

/-!
# Reading partition tables (`partition_scan` of `device/ide.c`)

The first sector of a disk has a table of four entries. An entry of type 5 is an
extended partition: the sector it names has a table of its own, with a logical
partition and perhaps a further entry of type 5, and so on. The code reads a table
entry by entry and calls itself where it meets a type 5, in the middle of the loop.

What an entry's `start_lba` is relative to depends on where it stands. For partitions it
is the sector of the table. For type 5 it is the start of the extended partition, which
is the global `ext_lba_base`, set by the first entry of type 5 that is met while it is
0. The globals `p_no` and `l_no` count the partitions found; at eight logical ones the
call returns, and the calls around it go on.

`none` is a scan that does not come back, because an `ASSERT` fails, or with a store
outside `prim_parts` or `logic_parts`, or for want of fuel, of which a scan that comes
back needs only enough. The heap is taken to grant the buffers, and the kernel's stack to
hold the calls.

`Scan` is the scan without fuel, one rule for each kind of entry, and `scan_iff` says
that it is what the code does; all that follows is by induction on it.
-/

namespace OsCore.Device

open Fs (maxLba ideRead)

/-! ## Tables -/

/-- `struct partition_table_entry`, as far as it is read. -/
@[ext] structure PartitionTableEntry where
  fsType : UInt8
  startLba : UInt32
  secCnt : UInt32
  deriving DecidableEq

/-- The entry found at byte `a`. -/
def PartitionTableEntry.ofMem (m : Mem) (a : Nat) : PartitionTableEntry where
  fsType := m (a + 4)
  startLba := UInt32.ofNat (m.rd32 (a + 8))
  secCnt := UInt32.ofNat (m.rd32 (a + 12))

/-- `partition_table` of a `struct boot_sector`. -/
def partitionTable (bs : Mem) : List PartitionTableEntry :=
  (List.range 4).map fun i => .ofMem bs (446 + 16 * i)

/-- The table in sector `lba`. -/
def tableAt (disk : Mem) (lba : UInt32) : List PartitionTableEntry :=
  partitionTable (disk.shift (512 * lba.toNat))

/-! ## What is found -/

/-- Where a `struct partition` is in its `struct disk`. -/
inductive PartSlot
  | prim (i : Nat)
  | logic (i : Nat)
  deriving DecidableEq

/-- The address of a `struct partition`. Disks are numbered by channel and device. -/
structure PartTag where
  hd : Nat
  slot : PartSlot
  deriving DecidableEq

/-- The fields of a `struct partition` that are set here. -/
structure PartFields where
  startLba : UInt32
  secCnt : UInt32
  myDisk : Nat
  name : List UInt8
  deriving DecidableEq

/-- `hd->name`: `sprintf(hd->name, "sd%c", 'a'+channel_no*2+dev_no)`. -/
def diskName (hd : Nat) : List UInt8 := [115, 100, UInt8.ofNat (97 + hd)]

/-- `%d`. -/
def decimal (n : Nat) : List UInt8 := (Nat.toDigits 10 n).map fun c => UInt8.ofNat c.toNat

/-- The globals, the `struct partition`s of all disks, and `partition_list`. -/
structure ScanState where
  extLbaBase : UInt32
  pNo : Nat
  lNo : Nat
  part : PartTag → PartFields
  partitionList : List PartTag

/-- A primary partition: the `i`-th of its disk. -/
def primFields (hd i : Nat) (p : PartitionTableEntry) : PartFields :=
  ⟨0 + p.startLba, p.secCnt, hd, diskName hd ++ decimal (i + 1)⟩

/-- A logical partition, found in the table of sector `x.1`. -/
def logicFields (hd i : Nat) (x : UInt32 × PartitionTableEntry) : PartFields :=
  ⟨x.1 + x.2.startLba, x.2.secCnt, hd, diskName hd ++ decimal (i + 5)⟩

namespace ScanState

/-- Before anything is scanned. -/
def init : ScanState := ⟨0, 0, 0, fun _ => ⟨0, 0, 0, []⟩, []⟩

variable (s : ScanState) (hd : Nat)

/-- Fill in a `struct partition` and put it on the list. -/
def record (slot : PartSlot) (fields : PartFields) : ScanState :=
  { s with
    part := Function.update s.part ⟨hd, slot⟩ fields
    partitionList := s.partitionList ++ [⟨hd, slot⟩] }

/-- Record a primary partition. -/
def addPrim (p : PartitionTableEntry) : ScanState :=
  { s.record hd (.prim s.pNo) (primFields hd s.pNo p) with pNo := (s.pNo + 1) % 256 }

/-- Record a logical partition, found in sector `extLba`. -/
def addLogic (extLba : UInt32) (p : PartitionTableEntry) : ScanState :=
  { s.record hd (.logic s.lNo) (logicFields hd s.lNo (extLba, p)) with lNo := (s.lNo + 1) % 256 }

/-- `ext_lba_base = b`. -/
def setBase (b : UInt32) : ScanState := { s with extLbaBase := b }

end ScanState

/-! ## The code -/

/-- The entries of the table in sector `extLba` that are still to come; `scan` is the
recursive call. -/
def scanTable (scan : UInt32 → ScanState → Option ScanState) (hd : Nat) (extLba : UInt32) :
    List PartitionTableEntry → ScanState → Option ScanState
  | [], s => some s
  | p :: rest, s =>
    if p.fsType = 5 then
      if s.extLbaBase ≠ 0 then do
        let s ← scan (p.startLba + s.extLbaBase) s
        scanTable scan hd extLba rest s
      else do
        let s ← scan p.startLba (s.setBase p.startLba)
        scanTable scan hd extLba rest s
    else if p.fsType ≠ 0 then
      if extLba = 0 then do
        ensure (s.pNo < 4)
        let s := s.addPrim hd p
        ensure (s.pNo < 4)
        scanTable scan hd extLba rest s
      else do
        ensure (s.lNo < 8)
        let s := s.addLogic hd extLba p
        -- the calls around this one go on
        if s.lNo ≥ 8 then return s
        scanTable scan hd extLba rest s
    else scanTable scan hd extLba rest s

/-- `partition_scan(hd, ext_lba)`. -/
def partitionScan (disk : Mem) (hd : Nat) : Nat → UInt32 → ScanState → Option ScanState
  | 0, _, _ => none
  | fuel + 1, extLba, s => do
    let bs ← ideRead disk extLba.toNat Mem.zero 1
    scanTable (partitionScan disk hd fuel) hd extLba (partitionTable bs) s

/-! ## The scan without fuel -/

/-- An entry of a partition. -/
def PartitionTableEntry.Valid (p : PartitionTableEntry) : Prop := p.fsType ≠ 0 ∧ p.fsType ≠ 5

instance (p : PartitionTableEntry) : Decidable p.Valid := inferInstanceAs (Decidable (_ ∧ _))

/-- From the entries `es` of the table in sector `lba` on, state `s` becomes `s'`. -/
inductive Scan (disk : Mem) (hd : Nat) :
    UInt32 → List PartitionTableEntry → ScanState → ScanState → Prop
  | done {lba s} : Scan disk hd lba [] s s
  | empty {lba p es s s'} : p.fsType = 0 → Scan disk hd lba es s s' →
      Scan disk hd lba (p :: es) s s'
  | first {lba p es s s1 s'} : p.fsType = 5 → s.extLbaBase = 0 → p.startLba.toNat ≤ maxLba →
      Scan disk hd p.startLba (tableAt disk p.startLba) (s.setBase p.startLba) s1 →
      Scan disk hd lba es s1 s' → Scan disk hd lba (p :: es) s s'
  | further {lba p es s s1 s'} : p.fsType = 5 → s.extLbaBase ≠ 0 →
      (p.startLba + s.extLbaBase).toNat ≤ maxLba →
      Scan disk hd (p.startLba + s.extLbaBase) (tableAt disk (p.startLba + s.extLbaBase)) s s1 →
      Scan disk hd lba es s1 s' → Scan disk hd lba (p :: es) s s'
  | prim {p es s s'} : p.Valid → s.pNo < 3 → Scan disk hd 0 es (s.addPrim hd p) s' →
      Scan disk hd 0 (p :: es) s s'
  | logic {lba p es s s'} : p.Valid → lba ≠ 0 → s.lNo < 7 →
      Scan disk hd lba es (s.addLogic hd lba p) s' → Scan disk hd lba (p :: es) s s'
  | eighth {lba p es s} : p.Valid → lba ≠ 0 → s.lNo = 7 →
      Scan disk hd lba (p :: es) s (s.addLogic hd lba p)

section

variable {disk : Mem} {hd : Nat} {lba : UInt32} {es : List PartitionTableEntry} {s s' : ScanState}

/-- The buffer has the table of its sector. -/
theorem ideRead_table {bs : Mem} (h : ideRead disk lba.toNat Mem.zero 1 = some bs) :
    lba.toNat ≤ maxLba ∧ partitionTable bs = tableAt disk lba := by
  obtain ⟨hmax, -, rfl⟩ := Fs.ideRead_eq_some.mp h
  refine ⟨hmax, ?_⟩
  have hbyte : ∀ i, i < 512 → (Mem.zero.blit 0 (disk.shift (512 * lba.toNat)) (512 * 1)) i =
      disk.shift (512 * lba.toNat) i := fun i hi => Mem.blit_in (Nat.zero_le i) (by omega)
  unfold tableAt partitionTable
  apply List.map_congr_left
  intro i hi
  have hi := List.mem_range.mp hi
  have hword : ∀ a, a + 4 ≤ 512 →
      (Mem.zero.blit 0 (disk.shift (512 * lba.toNat)) (512 * 1)).rd32 a =
        (disk.shift (512 * lba.toNat)).rd32 a := fun a ha =>
    Mem.rd32_congr fun j hj => hbyte (a + j) (by omega)
  rw [PartitionTableEntry.ofMem, PartitionTableEntry.ofMem, hbyte _ (by omega),
    hword _ (by omega), hword _ (by omega)]

theorem ideRead_on_disk (disk : Mem) (h : lba.toNat ≤ maxLba) :
    ∃ bs, ideRead disk lba.toNat Mem.zero 1 = some bs :=
  ⟨_, Fs.ideRead_eq_some.mpr ⟨h, Nat.one_pos, rfl⟩⟩

/-- What comes back with one recursive call comes back with one that does more. -/
theorem scanTable_mono {scan scan' : UInt32 → ScanState → Option ScanState}
    (h : ∀ lba s s', scan lba s = some s' → scan' lba s = some s')
    (hrun : scanTable scan hd lba es s = some s') : scanTable scan' hd lba es s = some s' := by
  induction es generalizing s with
  | nil => exact hrun
  | cons p es ih =>
    unfold scanTable at hrun ⊢
    split at hrun
    next h5 =>
      rw [if_pos h5]
      split at hrun
      next hb =>
        rw [if_pos hb]
        obtain ⟨s1, h1, h2⟩ := Option.bind_eq_some_iff.mp hrun
        exact Option.bind_eq_some_iff.mpr ⟨s1, h _ _ _ h1, ih h2⟩
      next hb =>
        rw [if_neg hb]
        obtain ⟨s1, h1, h2⟩ := Option.bind_eq_some_iff.mp hrun
        exact Option.bind_eq_some_iff.mpr ⟨s1, h _ _ _ h1, ih h2⟩
    next h5 =>
      rw [if_neg h5]
      split at hrun
      next h0 =>
        rw [if_pos h0]
        split at hrun
        next hlba =>
          rw [if_pos hlba]
          obtain ⟨u, h1, hrun⟩ := Option.bind_eq_some_iff.mp hrun
          obtain ⟨u', h2, hrun⟩ := Option.bind_eq_some_iff.mp hrun
          exact Option.bind_eq_some_iff.mpr ⟨u, h1, Option.bind_eq_some_iff.mpr ⟨u', h2, ih hrun⟩⟩
        next hlba =>
          rw [if_neg hlba]
          obtain ⟨u, h1, hrun⟩ := Option.bind_eq_some_iff.mp hrun
          refine Option.bind_eq_some_iff.mpr ⟨u, h1, ?_⟩
          dsimp only at hrun ⊢
          split at hrun
          next h8 => rw [if_pos h8]; exact hrun
          next h8 => rw [if_neg h8]; exact ih hrun
      next h0 =>
        rw [if_neg h0]
        exact ih hrun

theorem partitionScan_succ {fuel : Nat} : ∀ {lba : UInt32} {s s' : ScanState},
    partitionScan disk hd fuel lba s = some s' →
    partitionScan disk hd (fuel + 1) lba s = some s' := by
  induction fuel with
  | zero =>
    intro lba s s' h
    cases h
  | succ fuel ih =>
    intro lba s s' h
    obtain ⟨bs, hread, h⟩ := Option.bind_eq_some_iff.mp h
    refine Option.bind_eq_some_iff.mpr ⟨bs, hread, scanTable_mono ?_ h⟩
    intro lba s s'
    exact ih

theorem partitionScan_mono {fuel fuel' : Nat} (hle : fuel ≤ fuel')
    (h : partitionScan disk hd fuel lba s = some s') :
    partitionScan disk hd fuel' lba s = some s' := by
  induction hle with
  | refl => exact h
  | step _ ih => exact partitionScan_succ ih

theorem scanTable_mono_fuel {fuel fuel' : Nat} (hle : fuel ≤ fuel')
    (h : scanTable (partitionScan disk hd fuel) hd lba es s = some s') :
    scanTable (partitionScan disk hd fuel') hd lba es s = some s' :=
  scanTable_mono (fun _ _ _ => partitionScan_mono hle) h

theorem addPrim_pNo_lt (hp : s.pNo < 4) (p : PartitionTableEntry) :
    (s.addPrim hd p).pNo < 4 ↔ s.pNo < 3 := by
  show (s.pNo + 1) % 256 < 4 ↔ s.pNo < 3
  omega

theorem addLogic_lNo_ge (hl : s.lNo < 8) (p : PartitionTableEntry) :
    (s.addLogic hd lba p).lNo ≥ 8 ↔ s.lNo = 7 := by
  show (s.lNo + 1) % 256 ≥ 8 ↔ s.lNo = 7
  omega

/-- A run of the loop, with recursive calls that are scans, is a scan. -/
theorem scan_of_scanTable {scan : UInt32 → ScanState → Option ScanState}
    (hscan : ∀ lba s s', scan lba s = some s' →
      lba.toNat ≤ maxLba ∧ Scan disk hd lba (tableAt disk lba) s s')
    (h : scanTable scan hd lba es s = some s') : Scan disk hd lba es s s' := by
  induction es generalizing s with
  | nil =>
    obtain rfl := Option.some.inj h
    exact .done
  | cons p es ih =>
    unfold scanTable at h
    split at h
    next h5 =>
      split at h
      next hb =>
        obtain ⟨s1, h1, h2⟩ := Option.bind_eq_some_iff.mp h
        obtain ⟨hmax, h1⟩ := hscan _ _ _ h1
        exact .further h5 hb hmax h1 (ih h2)
      next hb =>
        obtain ⟨s1, h1, h2⟩ := Option.bind_eq_some_iff.mp h
        obtain ⟨hmax, h1⟩ := hscan _ _ _ h1
        exact .first h5 (not_not.mp hb) hmax h1 (ih h2)
    next h5 =>
      split at h
      next h0 =>
        split at h
        next hlba =>
          obtain ⟨_, h1, h⟩ := Option.bind_eq_some_iff.mp h
          obtain ⟨_, h2, h⟩ := Option.bind_eq_some_iff.mp h
          subst hlba
          exact .prim ⟨h0, h5⟩ ((addPrim_pNo_lt (ensure_eq_some.mp h1) p).mp (ensure_eq_some.mp h2))
            (ih h)
        next hlba =>
          obtain ⟨_, h1, h⟩ := Option.bind_eq_some_iff.mp h
          have h1 := ensure_eq_some.mp h1
          dsimp only at h
          split at h
          next h8 =>
            obtain rfl := Option.some.inj h
            exact .eighth ⟨h0, h5⟩ hlba ((addLogic_lNo_ge h1 p).mp h8)
          next h8 =>
            rw [addLogic_lNo_ge h1 p] at h8
            exact .logic ⟨h0, h5⟩ hlba (by omega) (ih h)
      next h0 => exact .empty (not_not.mp h0) (ih h)

theorem scan_of_partitionScan {fuel : Nat} : ∀ {lba : UInt32} {s s' : ScanState},
    partitionScan disk hd fuel lba s = some s' →
    lba.toNat ≤ maxLba ∧ Scan disk hd lba (tableAt disk lba) s s' := by
  induction fuel with
  | zero =>
    intro lba s s' h
    cases h
  | succ fuel ih =>
    intro lba s s' h
    obtain ⟨bs, hread, h⟩ := Option.bind_eq_some_iff.mp h
    obtain ⟨hmax, htable⟩ := ideRead_table hread
    rw [htable] at h
    exact ⟨hmax, scan_of_scanTable (fun _ _ _ => ih) h⟩

/-- A scan is a run of the loop, with fuel enough. -/
theorem Scan.run (h : Scan disk hd lba es s s') :
    ∃ fuel, scanTable (partitionScan disk hd fuel) hd lba es s = some s' := by
  induction h with
  | done => exact ⟨0, rfl⟩
  | empty h0 _ ih =>
    obtain ⟨fuel, hrun⟩ := ih
    refine ⟨fuel, ?_⟩
    rw [scanTable, if_neg (by rw [h0]; decide), if_neg (not_not.mpr h0)]
    exact hrun
  | first h5 hb hmax _ _ ih1 ih2 =>
    obtain ⟨f1, h1⟩ := ih1
    obtain ⟨f2, h2⟩ := ih2
    obtain ⟨bs, hread⟩ := ideRead_on_disk disk hmax
    refine ⟨max (f1 + 1) f2, ?_⟩
    rw [scanTable, if_pos h5, if_neg (not_not.mpr hb)]
    refine Option.bind_eq_some_iff.mpr ⟨_, partitionScan_mono (Nat.le_max_left _ _) ?_,
      scanTable_mono_fuel (Nat.le_max_right _ _) h2⟩
    rw [partitionScan, hread, Option.bind_eq_bind, Option.bind_some, (ideRead_table hread).2]
    exact h1
  | further h5 hb hmax _ _ ih1 ih2 =>
    obtain ⟨f1, h1⟩ := ih1
    obtain ⟨f2, h2⟩ := ih2
    obtain ⟨bs, hread⟩ := ideRead_on_disk disk hmax
    refine ⟨max (f1 + 1) f2, ?_⟩
    rw [scanTable, if_pos h5, if_pos hb]
    refine Option.bind_eq_some_iff.mpr ⟨_, partitionScan_mono (Nat.le_max_left _ _) ?_,
      scanTable_mono_fuel (Nat.le_max_right _ _) h2⟩
    rw [partitionScan, hread, Option.bind_eq_bind, Option.bind_some, (ideRead_table hread).2]
    exact h1
  | prim hv hp _ ih =>
    obtain ⟨fuel, hrun⟩ := ih
    refine ⟨fuel, ?_⟩
    rw [scanTable, if_neg hv.2, if_pos hv.1, if_pos rfl, ensure_pos (by omega), Option.bind_eq_bind,
      Option.bind_some]
    dsimp only
    rw [ensure_pos ((addPrim_pNo_lt (by omega) _).mpr hp)]
    exact hrun
  | logic hv hlba hl _ ih =>
    obtain ⟨fuel, hrun⟩ := ih
    refine ⟨fuel, ?_⟩
    rw [scanTable, if_neg hv.2, if_pos hv.1, if_neg hlba, ensure_pos (by omega),
      Option.bind_eq_bind, Option.bind_some]
    dsimp only
    rw [if_neg (by rw [addLogic_lNo_ge (by omega)]; omega)]
    exact hrun
  | eighth hv hlba hl =>
    refine ⟨0, ?_⟩
    rw [scanTable, if_neg hv.2, if_pos hv.1, if_neg hlba, ensure_pos (by omega),
      Option.bind_eq_bind, Option.bind_some]
    dsimp only
    rw [if_pos ((addLogic_lNo_ge (by omega) _).mpr hl)]
    rfl

/-- **The scan without fuel is what the code does.** -/
theorem scan_iff : (∃ fuel, partitionScan disk hd fuel lba s = some s') ↔
    lba.toNat ≤ maxLba ∧ Scan disk hd lba (tableAt disk lba) s s' := by
  constructor
  · intro hin
    obtain ⟨fuel, h⟩ := hin
    exact scan_of_partitionScan h
  · intro hin
    obtain ⟨hmax, h⟩ := hin
    obtain ⟨fuel, hrun⟩ := h.run
    obtain ⟨bs, hread⟩ := ideRead_on_disk disk hmax
    refine ⟨fuel + 1, ?_⟩
    rw [partitionScan, hread, Option.bind_eq_bind, Option.bind_some, (ideRead_table hread).2]
    exact hrun

/-- A scan has one outcome. -/
theorem Scan.unique {s'' : ScanState} (h : Scan disk hd lba es s s') (h' : Scan disk hd lba es s s'') :
    s' = s'' := by
  obtain ⟨f, hf⟩ := h.run
  obtain ⟨f', hf'⟩ := h'.run
  have h1 := scanTable_mono_fuel (Nat.le_max_left f f') hf
  rw [scanTable_mono_fuel (Nat.le_max_right f f') hf'] at h1
  exact (Option.some.inj h1).symm

end

end OsCore.Device
