import OsCore.Device.PartitionWalk

/-!
# Scanning the disks one after the other (`ide_init` of `device/ide.c`)

A channel has two disks, of which the second is scanned. Between disks `p_no` and `l_no`
are reset, `ext_lba_base` is not: what the scan of one disk leaves there is what entries
of type 5 of the next disk are relative to, those of its first table included.

So the first disk that is scanned decides two things for the second, whether it is scanned
at all and the base. `disks_independent_iff` says that it decides nothing else and that
both matter: for two contents of the first disk to make no difference, whatever the second
disk has, both scans must come back or neither, and the extended partitions must start at
the same sector, if there are any. A base that differs shows on a second disk with an
extended partition of its own (`finds_linkDisk`).

Identifying a disk is taken to succeed; ports, locks and interrupts are left out.
-/

namespace OsCore.Device

open Fs (maxLba)

/-! ## The code -/

/-- `p_no = 0, l_no = 0`. -/
def ScanState.resetNos (s : ScanState) : ScanState := { s with pNo := 0, lNo := 0 }

/-- What `ide_init` does for one disk. -/
def initDisk (disks : Nat → Mem) (fuel channelNo : Nat) (s : ScanState) (devNo : Nat) :
    Option ScanState := do
  let hd := channelNo * 2 + devNo
  let s ← if devNo ≠ 0 then partitionScan (disks hd) hd fuel 0 s else some s
  return s.resetNos

/-- `ide_init`, with `hdCnt` disks. -/
def ideInit (disks : Nat → Mem) (fuel hdCnt : Nat) : Option ScanState := do
  ensure (hdCnt > 0)
  let channelCnt := Fs.divRoundUp hdCnt 2
  -- `channels[2]`
  ensure (channelCnt ≤ 2)
  (List.range channelCnt).foldlM
    (fun s channelNo => (List.range 2).foldlM (initDisk disks fuel channelNo) s) ScanState.init

/-- The partitions of a disk on `partition_list`, with what is known of them. -/
def registered (hd : Nat) (s : ScanState) : List (PartSlot × PartFields) :=
  (s.partitionList.filter fun t => t.hd = hd).map fun t => (t.slot, s.part t)

/-- `ide_init` comes back, with `r` for the partitions of disk 3, the second that is
scanned. -/
def Registers (disks : Nat → Mem) (hdCnt : Nat) (r : List (PartSlot × PartFields)) : Prop :=
  ∃ fuel s, ideInit disks fuel hdCnt = some s ∧ registered 3 s = r

/-- A scan with base `b` finds `r` on disk 3. -/
def Finds (disk : Mem) (b : UInt32) (r : List (PartSlot × PartFields)) : Prop :=
  ∃ xs, Walk disk b 0 (tableAt disk 0) 0 xs ∧ Room 0 0 xs ∧
    (fillings 3 0 0 xs).map (fun x => (x.1.slot, x.2)) = r

/-- Where the extended partition starts, 0 if there is none. -/
def extStart (disk : Mem) : UInt32 := baseOver 0 (tableAt disk 0)

/-! ## What is registered -/

section

variable {disks disks' : Nat → Mem} {hdCnt : Nat} {r : List (PartSlot × PartFields)}

/-- Two disks are scanned. -/
theorem ideInit_eq (hcnt : Fs.divRoundUp hdCnt 2 = 2) {fuel : Nat} {s : ScanState} :
    ideInit disks fuel hdCnt = some s ↔
      ∃ s1 s2, partitionScan (disks 1) 1 fuel 0 .init = some s1 ∧
        partitionScan (disks 3) 3 fuel 0 s1.resetNos = some s2 ∧ s2.resetNos = s := by
  have hpos : hdCnt > 0 := by
    rw [Fs.divRoundUp] at hcnt
    omega
  have hrange : List.range 2 = [0, 1] := rfl
  have hinit : ScanState.init.resetNos = ScanState.init := rfl
  have htwice : ∀ s : ScanState, s.resetNos.resetNos = s.resetNos := fun _ => rfl
  unfold ideInit
  rw [hcnt, ensure_pos hpos]
  dsimp only
  rw [ensure_pos (Nat.le_refl 2), hrange]
  simp [initDisk, hinit, htwice, Option.bind_eq_some_iff]

/-- What is registered for a disk of which nothing is on the list. -/
theorem registered_addAll {hd : Nat} {s : ScanState} {xs : List Found} {b : UInt32}
    (hold : ∀ t ∈ s.partitionList, t.hd ≠ hd) (hp : s.pNo = 0) (hl : s.lNo = 0)
    (hroom : Room 0 0 xs) :
    registered hd ((s.addAll hd xs).setBase b).resetNos =
      (fillings hd 0 0 xs).map fun x => (x.1.slot, x.2) := by
  have hrec : Recorded hd s xs _ := addAll_recorded hd (by rwa [hp, hl])
  have hlist := hrec.list
  have hfilled := hrec.filled
  rw [hp, hl] at hlist hfilled
  have hown : ∀ x ∈ fillings hd 0 0 xs, x.1.hd = hd := by
    intro x hx
    exact (fillings_inBounds hroom (List.mem_map_of_mem hx)).1
  show ((s.addAll hd xs).partitionList.filter fun t => t.hd = hd).map _ = _
  rw [hlist, List.filter_append, List.filter_eq_nil_iff.mpr (by simpa using hold),
    List.nil_append, List.filter_eq_self.mpr (by
      intro t ht
      obtain ⟨x, hx, rfl⟩ := List.mem_map.mp ht
      simpa using hown x hx), List.map_map]
  apply List.map_congr_left
  intro x hx
  exact congrArg (Prod.mk _) (hfilled x hx)

/-- **What is registered for the second disk** depends on the first one by whether it can
be scanned, and by the start of its extended partition. -/
theorem registers_iff (hcnt : Fs.divRoundUp hdCnt 2 = 2) :
    Registers disks hdCnt r ↔ Fits (disks 1) 0 ∧ Finds (disks 3) (extStart (disks 1)) r := by
  -- the first scan leaves its own partitions on the list, and its base
  have hfirst : ∀ xs, Room 0 0 xs →
      ∀ t ∈ (((ScanState.init.addAll 1 xs).setBase (extStart (disks 1))).resetNos).partitionList,
        t.hd ≠ 3 := by
    intro xs hroom t ht
    have ht : t ∈ (ScanState.init.addAll 1 xs).partitionList := ht
    rw [(addAll_recorded 1 (s := .init) hroom).list] at ht
    have ht := (List.mem_append.mp ht).resolve_left (List.not_mem_nil)
    rw [(fillings_inBounds hroom ht).1]
    decide
  constructor
  · intro h
    obtain ⟨fuel, s, hinit, rfl⟩ := h
    obtain ⟨s1, s2, h1, h2, rfl⟩ := (ideInit_eq hcnt).mp hinit
    obtain ⟨xs, hwalk1, hroom1, rfl⟩ := (partitionScan_iff 1 rfl rfl).mp ⟨fuel, h1⟩
    obtain ⟨ys, hwalk2, hroom2, rfl⟩ := (partitionScan_iff 3 rfl rfl).mp ⟨fuel, h2⟩
    exact ⟨⟨xs, hwalk1, hroom1⟩, ys, hwalk2, hroom2,
      (registered_addAll (hfirst xs hroom1) rfl rfl hroom2).symm⟩
  · intro h
    obtain ⟨⟨xs, hwalk1, hroom1⟩, ys, hwalk2, hroom2, rfl⟩ := h
    obtain ⟨f1, h1⟩ := (partitionScan_iff 1 (s := .init) rfl rfl).mpr
      ⟨xs, hwalk1, hroom1, rfl⟩
    obtain ⟨f2, h2⟩ := (partitionScan_iff 3
      (s := ((ScanState.init.addAll 1 xs).setBase (extStart (disks 1))).resetNos) rfl rfl).mpr
      ⟨ys, hwalk2, hroom2, rfl⟩
    exact ⟨max f1 f2, _, (ideInit_eq hcnt).mpr ⟨_, _, partitionScan_mono (Nat.le_max_left _ _) h1,
      partitionScan_mono (Nat.le_max_right _ _) h2, rfl⟩,
      registered_addAll (hfirst xs hroom1) rfl rfl hroom2⟩

end

/-! ## Second disks that show the base -/

/-- Nothing is met where nothing is used. -/
theorem Walk.of_unused {disk : Mem} {b lba : UInt32} {es : List PartitionTableEntry} {n : Nat}
    {xs : List Found} (h : Walk disk b lba es n xs) (hes : ∀ p ∈ es, p.fsType = 0) : xs = [] := by
  induction h with
  | done => rfl
  | empty _ _ ih => exact ih fun p hp => hes p (List.mem_cons_of_mem _ hp)
  | sub h5 => exact absurd h5 (ne_five (hes _ List.mem_cons_self))
  | prim hv => exact absurd (hes _ List.mem_cons_self) hv.1
  | logic hv => exact absurd (hes _ List.mem_cons_self) hv.1
  | full hv => exact absurd (hes _ List.mem_cons_self) hv.1

theorem walk_unused {disk : Mem} {b lba : UInt32} {n k : Nat} :
    Walk disk b lba (List.replicate k .unused) n [] := by
  induction k with
  | zero => exact .done
  | succ k ih => exact .empty rfl ih

/-- A disk without partitions. -/
def emptyDisk : Mem := layTables fun _ => []

theorem emptyDisk_table (lba : UInt32) :
    tableAt emptyDisk lba = List.replicate 4 .unused := tableAt_layTables _ lba

theorem finds_emptyDisk (b : UInt32) : Finds emptyDisk b [] :=
  ⟨[], by rw [emptyDisk_table]; exact walk_unused, ⟨by decide, by decide⟩, rfl⟩

/-- A disk whose first table has a link to sector 1 of the extended partition. One that is
taken to start at `b` has a logical partition there. -/
def linkDisk (b : UInt32) : Mem := layTables fun l =>
  if l = 0 then [⟨5, 1, 1⟩]
  else if l = 1 + b.toNat then [⟨0x83, 1, 1⟩]
  else []

theorem linkDisk_first (b : UInt32) :
    tableAt (linkDisk b) 0 = ⟨5, 1, 1⟩ :: List.replicate 3 .unused := tableAt_layTables _ 0

theorem linkDisk_behind {b lba : UInt32} (h : lba.toNat = 1 + b.toNat) :
    tableAt (linkDisk b) lba = ⟨0x83, 1, 1⟩ :: List.replicate 3 .unused := by
  refine (tableAt_layTables _ lba).trans ?_
  rw [if_neg (by omega), if_pos h]
  rfl

theorem linkDisk_other {b lba : UInt32} (h0 : lba.toNat ≠ 0) (h : lba.toNat ≠ 1 + b.toNat) :
    tableAt (linkDisk b) lba = List.replicate 4 .unused := by
  refine (tableAt_layTables _ lba).trans ?_
  rw [if_neg h0, if_neg h]
  rfl

/-- The sector that the link of a `linkDisk` leads to. -/
theorem one_add_toNat {b : UInt32} (h : b.toNat ≤ maxLba) :
    ((1 : UInt32) + b).toNat = 1 + b.toNat := by
  have hone : (1 : UInt32).toNat = 1 := rfl
  have hmax : maxLba = 163839 := by decide
  rw [UInt32.toNat_add, hone]
  exact Nat.mod_eq_of_lt (by omega)

/-- With base `b` the logical partition is found. -/
theorem finds_linkDisk {b : UInt32} (h : b.toNat < maxLba) :
    Finds (linkDisk b) b [(.logic 0, logicFields 3 0 (1 + b, ⟨0x83, 1, 1⟩))] := by
  have hsec := one_add_toNat h.le
  have hne : (1 : UInt32) + b ≠ 0 := by
    intro h0
    have : ((1 : UInt32) + b).toNat = 0 := by rw [h0]; rfl
    omega
  have hafter : baseAfter b ⟨5, 1, 1⟩ ≠ 0 := by
    rw [baseAfter]
    split
    next => exact (by decide : (1 : UInt32) ≠ 0)
    next hb => exact hb
  have hroom : Room 0 0 [.logic (1 + b) ⟨0x83, 1, 1⟩] :=
    ⟨show 0 + 0 ≤ 3 by omega, show 0 + 1 ≤ 8 by omega⟩
  refine ⟨[.logic (1 + b) ⟨0x83, 1, 1⟩], ?_, hroom, rfl⟩
  rw [linkDisk_first]
  have hin : Walk (linkDisk b) (baseAfter b ⟨5, 1, 1⟩) (1 + b) (tableAt (linkDisk b) (1 + b)) 0
      [.logic (1 + b) ⟨0x83, 1, 1⟩] := by
    rw [linkDisk_behind hsec]
    exact .logic ⟨by simp, by simp⟩ hne (by omega) walk_unused
  exact Walk.sub (p := ⟨5, 1, 1⟩) rfl hafter (hsec.trans_le (by omega)) hin walk_unused

/-- With any other base nothing is found. -/
theorem finds_linkDisk_other {b b' : UInt32} {r : List (PartSlot × PartFields)} (hne : b' ≠ b)
    (hmax : b'.toNat ≤ maxLba) (h : Finds (linkDisk b) b' r) : r = [] := by
  have hsec := one_add_toNat hmax
  have hdiff : b'.toNat ≠ b.toNat := fun h => hne (UInt32.toNat_inj.mp h)
  obtain ⟨zs, hwalk, -, rfl⟩ := h
  rw [linkDisk_first] at hwalk
  have hunused : ∀ k, ∀ p ∈ List.replicate k PartitionTableEntry.unused, p.fsType = 0 :=
    fun k p hp => by rw [List.eq_of_mem_replicate hp]; rfl
  cases hwalk with
  | empty h0 => exact absurd h0 (by decide)
  | sub _ _ _ hin hrest =>
    have hin : Walk (linkDisk b) _ (1 + b') (tableAt (linkDisk b) (1 + b')) _ _ := hin
    rw [linkDisk_other (by omega) (by omega)] at hin
    rw [hin.of_unused (hunused 4), hrest.of_unused (hunused 3)]
    rfl
  | prim hv => exact absurd rfl hv.2
  | logic hv => exact absurd rfl hv.2
  | full hv => exact absurd rfl hv.2

/-- Of two bases, one has a second disk on which the other does not find the same. -/
theorem base_eq_of_finds {b b' : UInt32} (hb : b.toNat ≤ maxLba) (hb' : b'.toNat ≤ maxLba)
    (h : ∀ d r, Finds d b r ↔ Finds d b' r) : b = b' := by
  by_contra hne
  rcases Nat.lt_or_ge b.toNat b'.toNat with hlt | hge
  · have hfound := (h _ _).mp (finds_linkDisk (b := b) (by omega))
    cases finds_linkDisk_other (fun h => hne h.symm) hb' hfound
  · have hlt : b'.toNat < b.toNat := by
      have : b.toNat ≠ b'.toNat := fun h => hne (UInt32.toNat_inj.mp h)
      omega
    have hfound := (h _ _).mpr (finds_linkDisk (b := b') (by omega))
    cases finds_linkDisk_other hne hb hfound

/-- The extended partition of a disk that can be scanned starts on the disk. -/
theorem Walk.base_on_disk {disk : Mem} {b lba : UInt32} {es : List PartitionTableEntry} {n : Nat}
    {xs : List Found} (h : Walk disk b lba es n xs) (hb : b = 0) (hlba : lba = 0) :
    (baseOver b es).toNat ≤ maxLba := by
  induction h with
  | done => rw [baseOver_nil, hb]; decide
  | empty h0 _ ih => rw [baseOver_cons_ne (ne_five h0)]; exact ih hb hlba
  | sub h5 _ hmax =>
    rw [baseOver_cons h5, baseAfter, if_pos hb]
    rwa [hb, UInt32.add_zero] at hmax
  | prim hv _ ih => rw [baseOver_cons_ne hv.2]; exact ih hb hlba
  | logic _ hne => exact absurd hlba hne
  | full _ hne => exact absurd hlba hne

/-! ## Independence -/

/-- **When the first disk makes no difference.** For two contents of the disk that is
scanned first, the same is registered for every content of the second one exactly if both
can be scanned or neither, and their extended partitions start at the same sector. -/
theorem disks_independent_iff {hdCnt : Nat} (hcnt : Fs.divRoundUp hdCnt 2 = 2)
    (disks disks' : Nat → Mem) :
    (∀ d r, Registers (Function.update disks 3 d) hdCnt r ↔
        Registers (Function.update disks' 3 d) hdCnt r) ↔
      (Fits (disks 1) 0 ↔ Fits (disks' 1) 0) ∧
        (Fits (disks 1) 0 → extStart (disks 1) = extStart (disks' 1)) := by
  have hregs : ∀ (disks : Nat → Mem) d r, Registers (Function.update disks 3 d) hdCnt r ↔
      Fits (disks 1) 0 ∧ Finds d (extStart (disks 1)) r := by
    intro disks d r
    rw [registers_iff hcnt, Function.update_self, Function.update_of_ne (by decide)]
  have hstart : ∀ disk, Fits disk 0 → (extStart disk).toNat ≤ maxLba := by
    intro disk hfits
    obtain ⟨xs, hwalk, -⟩ := hfits
    exact hwalk.base_on_disk rfl rfl
  constructor
  · intro h
    have h : ∀ d r, (Fits (disks 1) 0 ∧ Finds d (extStart (disks 1)) r) ↔
        (Fits (disks' 1) 0 ∧ Finds d (extStart (disks' 1)) r) := by
      intro d r
      rw [← hregs, ← hregs]
      exact h d r
    have hfits : Fits (disks 1) 0 ↔ Fits (disks' 1) 0 := by
      constructor
      · intro hf
        exact ((h _ _).mp ⟨hf, finds_emptyDisk _⟩).1
      · intro hf
        exact ((h _ _).mpr ⟨hf, finds_emptyDisk _⟩).1
    refine ⟨hfits, fun hf => base_eq_of_finds (hstart _ hf) (hstart _ (hfits.mp hf)) ?_⟩
    intro d r
    constructor
    · intro hfind
      exact ((h d r).mp ⟨hf, hfind⟩).2
    · intro hfind
      exact ((h d r).mpr ⟨hfits.mp hf, hfind⟩).2
  · intro h d r
    obtain ⟨hfits, hbase⟩ := h
    rw [hregs, hregs]
    constructor
    · intro hreg
      rw [← hbase hreg.1]
      exact ⟨hfits.mp hreg.1, hreg.2⟩
    · intro hreg
      have hf := hfits.mpr hreg.1
      rw [hbase hf]
      exact ⟨hf, hreg.2⟩

/-- A disk with one primary partition. -/
def primDisk : Mem := layTables fun l => if l = 0 then [⟨0x83, 1, 1⟩] else []

theorem primDisk_table :
    tableAt primDisk 0 = ⟨0x83, 1, 1⟩ :: List.replicate 3 .unused := tableAt_layTables _ 0

theorem primDisk_fits : Fits primDisk 0 := by
  refine ⟨[.prim ⟨0x83, 1, 1⟩], ?_, ⟨by decide, by decide⟩⟩
  rw [primDisk_table]
  exact .prim ⟨by simp, by simp⟩ walk_unused

theorem emptyDisk_fits : Fits emptyDisk 0 :=
  ⟨[], by rw [emptyDisk_table]; exact walk_unused, ⟨by decide, by decide⟩⟩

theorem extStart_emptyDisk : extStart emptyDisk = 0 := by
  rw [extStart, emptyDisk_table]
  rfl

/-- A primary partition on the first disk does not matter for a second one with an
extended partition. -/
theorem disks_independent_prim :
    Registers (Function.update (fun _ => emptyDisk) 3 (linkDisk 0)) 4
        [(.logic 0, logicFields 3 0 (1, ⟨0x83, 1, 1⟩))] ↔
      Registers (Function.update (fun _ => primDisk) 3 (linkDisk 0)) 4
        [(.logic 0, logicFields 3 0 (1, ⟨0x83, 1, 1⟩))] := by
  refine (disks_independent_iff rfl _ _).mpr ⟨?_, fun _ => extStart_emptyDisk.trans ?_⟩ _ _
  · exact iff_of_true emptyDisk_fits primDisk_fits
  · rw [extStart, primDisk_table]
    rfl

/-- Of two disks with one logical partition each the second's is lost; it is found if the
first disk is empty. -/
theorem stale_ext_lba_base :
    ¬∀ r, Registers (fun i => if i = 1 then emptyDisk else linkDisk 0) 4 r ↔
      Registers (fun _ => linkDisk 0) 4 r := by
  intro h
  have hfirst : Registers (fun i => if i = 1 then emptyDisk else linkDisk 0) 4
      [(.logic 0, logicFields 3 0 (1 + 0, ⟨0x83, 1, 1⟩))] := by
    refine (registers_iff rfl).mpr ⟨emptyDisk_fits, ?_⟩
    show Finds (linkDisk 0) (extStart emptyDisk) _
    rw [extStart_emptyDisk]
    exact finds_linkDisk (by decide)
  have hsecond := ((registers_iff rfl).mp ((h _).mp hfirst)).2
  have hlink : extStart (linkDisk 0) = 1 := by
    rw [extStart, linkDisk_first]
    rfl
  rw [hlink] at hsecond
  cases finds_linkDisk_other (by decide) (by decide) hsecond

end OsCore.Device
