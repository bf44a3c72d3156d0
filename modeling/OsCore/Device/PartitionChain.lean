import OsCore.Device.PartitionWalk

/-!
# Disks that are laid out as usual

The first table has up to three primary partitions and perhaps one extended one, in any
order. The extended partition begins with a table of its own, an EBR, and each EBR has one
logical partition and perhaps a link to the next. `Chain` is that chain of EBRs, from the
sector of the first on: a link is relative to the start of the extended partition. A chain
is finite and does not come back to the first table.

Such a disk has a walk, that of the chain (`Chain.walk`) in the middle of that of the first
table (`walk_around`), and `partition_scan_decodes` reads off what the scan records.
-/

namespace OsCore.Device

open Fs (maxLba)

/-! ## Layouts -/

/-- The entries that are used. -/
def used (es : List PartitionTableEntry) : List PartitionTableEntry :=
  es.filter fun p => p.fsType ≠ 0

/-- The EBRs from sector `lba` on, each with its logical partition; `b` is the start of
the extended partition. -/
inductive Chain (disk : Mem) (b : UInt32) :
    UInt32 → List (UInt32 × PartitionTableEntry) → Prop
  | last {lba l} : lba ≠ 0 → lba.toNat ≤ maxLba → used (tableAt disk lba) = [l] →
      l.fsType ≠ 5 → Chain disk b lba [(lba, l)]
  | link {lba l x ebrs} : lba ≠ 0 → lba.toNat ≤ maxLba → used (tableAt disk lba) = [l, x] →
      l.fsType ≠ 5 → x.fsType = 5 → Chain disk b (x.startLba + b) ebrs →
      Chain disk b lba ((lba, l) :: ebrs)

/-- No extended partition, or one with the EBRs `ebrs`. -/
inductive Extended (disk : Mem) : List (UInt32 × PartitionTableEntry) → Prop
  | none : ((tableAt disk 0).filter fun p => p.fsType = 5) = [] → Extended disk []
  | one {x ebrs} : ((tableAt disk 0).filter fun p => p.fsType = 5) = [x] → x.startLba ≠ 0 →
      Chain disk x.startLba x.startLba ebrs → Extended disk ebrs

/-- The disk has the primary partitions `prims` and the EBRs `ebrs`. -/
structure Layout (disk : Mem) (prims : List PartitionTableEntry)
    (ebrs : List (UInt32 × PartitionTableEntry)) : Prop where
  prims_eq : ((tableAt disk 0).filter fun p => p.Valid) = prims
  prims_le : prims.length ≤ 3
  extended : Extended disk ebrs
  ebrs_le : ebrs.length ≤ 8

/-- The scan has found `prims` and `ebrs`: the `struct partition`s are filled in order, and
those, and no others, have been put on `partition_list`, each once. -/
structure Decoded (hd : Nat) (s : ScanState) (prims : List PartitionTableEntry)
    (ebrs : List (UInt32 × PartitionTableEntry)) (s' : ScanState) : Prop where
  pNo : s'.pNo = prims.length
  lNo : s'.lNo = ebrs.length
  prim : ∀ i e, prims[i]? = some e → s'.part ⟨hd, .prim i⟩ = primFields hd i e
  logic : ∀ i x, ebrs[i]? = some x → s'.part ⟨hd, .logic i⟩ = logicFields hd i x
  list : ∃ ts, s'.partitionList = s.partitionList ++ ts ∧ ts.Nodup ∧
    ∀ t, t ∈ ts ↔ (∃ i < prims.length, t = ⟨hd, .prim i⟩) ∨ ∃ i < ebrs.length, t = ⟨hd, .logic i⟩
  other : ∀ t, (∀ i < prims.length, t ≠ ⟨hd, .prim i⟩) →
    (∀ i < ebrs.length, t ≠ ⟨hd, .logic i⟩) → s'.part t = s.part t

/-! ## Their walks -/

section

variable {disk : Mem} {b lba : UInt32} {es : List PartitionTableEntry} {n : Nat}
  {xs ys : List Found} {ebrs : List (UInt32 × PartitionTableEntry)}

/-- Entries that are not used make no difference. -/
theorem walk_used (h : Walk disk b lba (used es) n xs) : Walk disk b lba es n xs := by
  induction es generalizing b n xs with
  | nil => exact h
  | cons p es ih =>
    by_cases h0 : p.fsType = 0
    · rw [used, List.filter_cons_of_neg (by simpa using h0)] at h
      exact .empty h0 (ih h)
    · rw [used, List.filter_cons_of_pos (by simpa using h0)] at h
      cases h with
      | empty h0' => exact absurd h0' h0
      | sub h5 hne hmax h1 h2 => exact .sub h5 hne hmax h1 (ih h2)
      | prim hv h => exact .prim hv (ih h)
      | logic hv hlba hn h => exact .logic hv hlba hn (ih h)
      | full hv hlba hn => exact .full hv hlba hn

theorem used_ne_zero {p : PartitionTableEntry} (h : p ∈ used es) : p.fsType ≠ 0 := by
  simpa using (List.mem_filter.mp h).2

theorem Chain.on_disk (h : Chain disk b lba ebrs) : lba.toNat ≤ maxLba := by
  cases h with
  | last _ hmax => exact hmax
  | link _ hmax => exact hmax

theorem Chain.pos (h : Chain disk b lba ebrs) : 0 < ebrs.length := by
  cases h with
  | last => exact Nat.one_pos
  | link => exact Nat.succ_pos _

/-- A chain that there is room for is walked to its end. -/
theorem Chain.walk (h : Chain disk b lba ebrs) (hb : b ≠ 0) (hroom : n + ebrs.length ≤ 8) :
    Walk disk b lba (tableAt disk lba) n (ebrs.map fun x => .logic x.1 x.2) := by
  induction h generalizing n with
  | @last lba l hlba _ hused h5 =>
    have hv : l.Valid := ⟨used_ne_zero (by rw [hused]; exact List.mem_singleton_self l), h5⟩
    have hroom : n + 1 ≤ 8 := hroom
    apply walk_used
    rw [hused]
    by_cases hn : n < 7
    · exact .logic hv hlba hn .done
    · exact .full hv hlba (by omega)
  | @link lba l x ebrs hlba _ hused h5 hx hnext ih =>
    have hv : l.Valid := ⟨used_ne_zero (by rw [hused]; exact List.mem_cons_self), h5⟩
    have hafter : baseAfter b x = b := if_neg hb
    have hpos := hnext.pos
    rw [List.length_cons] at hroom
    apply walk_used
    rw [hused]
    have hinner := ih (n := n + 1) (by omega)
    have hsub : Walk disk b lba [x] (n + 1) ((ebrs.map fun x => .logic x.1 x.2) ++ []) :=
      .sub hx (by rwa [hafter]) hnext.on_disk (by rwa [hafter]) .done
    rw [List.append_nil] at hsub
    exact .logic hv hlba (by omega) hsub

/-- A first table without an entry of type 5. -/
theorem walk_prims (hext : (es.filter fun p => p.fsType = 5) = []) :
    Walk disk b 0 es n ((es.filter fun p => p.Valid).map .prim) := by
  induction es with
  | nil => exact .done
  | cons p es ih =>
    have h5 : p.fsType ≠ 5 := by
      have := List.filter_eq_nil_iff.mp hext p List.mem_cons_self
      simpa using this
    rw [List.filter_cons_of_neg (by simpa using h5)] at hext
    by_cases h0 : p.fsType = 0
    · rw [List.filter_cons_of_neg (by simp [PartitionTableEntry.Valid, h0])]
      exact .empty h0 (ih hext)
    · have hv : p.Valid := ⟨h0, h5⟩
      rw [List.filter_cons_of_pos (by simpa using hv), List.map_cons]
      exact .prim hv (ih hext)

theorem primsOf_map_prim (es : List PartitionTableEntry) : primsOf (es.map .prim) = es := by
  induction es with
  | nil => rfl
  | cons p es ih => exact congrArg (p :: ·) ih

theorem logicsOf_map_prim (es : List PartitionTableEntry) : logicsOf (es.map .prim) = [] := by
  induction es with
  | nil => rfl
  | cons p es ih => exact ih

theorem primsOf_map_logic (ebrs : List (UInt32 × PartitionTableEntry)) :
    primsOf (ebrs.map fun x => .logic x.1 x.2) = [] := by
  induction ebrs with
  | nil => rfl
  | cons x ebrs ih => exact ih

theorem logicsOf_map_logic (ebrs : List (UInt32 × PartitionTableEntry)) :
    logicsOf (ebrs.map fun x => .logic x.1 x.2) = ebrs := by
  induction ebrs with
  | nil => rfl
  | cons x ebrs ih => exact congrArg (x :: ·) ih

/-- A first table with one entry of type 5: the walk behind it, with the primary
partitions around. -/
theorem walk_around {x : PartitionTableEntry} (hext : (es.filter fun p => p.fsType = 5) = [x])
    (hne : baseAfter b x ≠ 0) (hmax : (x.startLba + b).toNat ≤ maxLba)
    (hinner : Walk disk (baseAfter b x) (x.startLba + b) (tableAt disk (x.startLba + b)) n ys)
    (hys : primsOf ys = []) :
    ∃ xs, Walk disk b 0 es n xs ∧ primsOf xs = (es.filter fun p => p.Valid) ∧
      logicsOf xs = logicsOf ys := by
  induction es with
  | nil => cases hext
  | cons p es ih =>
    by_cases h5 : p.fsType = 5
    · rw [List.filter_cons_of_pos (by simpa using h5)] at hext
      obtain ⟨rfl, hrest⟩ := List.cons.inj hext
      refine ⟨ys ++ (es.filter fun p => p.Valid).map .prim, .sub h5 hne hmax hinner
        (walk_prims hrest), ?_, ?_⟩
      · rw [primsOf_append, hys, List.nil_append, primsOf_map_prim,
          List.filter_cons_of_neg (by simp [PartitionTableEntry.Valid, h5])]
      · rw [logicsOf_append, logicsOf_map_prim, List.append_nil]
    · rw [List.filter_cons_of_neg (by simpa using h5)] at hext
      obtain ⟨xs, hwalk, hprims, hlogics⟩ := ih hext
      by_cases h0 : p.fsType = 0
      · rw [List.filter_cons_of_neg (by simp [PartitionTableEntry.Valid, h0])]
        exact ⟨xs, .empty h0 hwalk, hprims, hlogics⟩
      · have hv : p.Valid := ⟨h0, h5⟩
        rw [List.filter_cons_of_pos (by simpa using hv)]
        exact ⟨.prim p :: xs, .prim hv hwalk, congrArg (p :: ·) hprims, hlogics⟩

/-- The walk of a disk that is laid out as usual. -/
theorem Layout.walk {prims : List PartitionTableEntry} (h : Layout disk prims ebrs) :
    ∃ xs, Walk disk 0 0 (tableAt disk 0) 0 xs ∧ primsOf xs = prims ∧ logicsOf xs = ebrs := by
  obtain ⟨rfl, -, hext, hlen⟩ := h
  cases hext with
  | none hnone =>
    exact ⟨_, walk_prims hnone, primsOf_map_prim _, logicsOf_map_prim _⟩
  | @one x _ hone hx hchain =>
    have hafter : baseAfter 0 x = x.startLba := if_pos rfl
    have htarget : x.startLba + 0 = x.startLba := UInt32.add_zero _
    have hinner := hchain.walk (n := 0) hx (by omega)
    obtain ⟨xs, hwalk, hprims, hlogics⟩ := walk_around hone (by rwa [hafter])
      (by rw [htarget]; exact hchain.on_disk) (by rw [hafter, htarget]; exact hinner)
      (primsOf_map_logic ebrs)
    exact ⟨xs, hwalk, hprims, hlogics.trans (logicsOf_map_logic ebrs)⟩

end

/-! ## Decoding -/

/-- **Partition tables are decoded correctly.** On a disk that is laid out as usual the
scan comes back and has found the partitions in the order of the tables, each with its
place on the disk. -/
theorem partition_scan_decodes {disk : Mem} {hd : Nat} {s : ScanState}
    {prims : List PartitionTableEntry} {ebrs : List (UInt32 × PartitionTableEntry)}
    (h : Layout disk prims ebrs) (hb : s.extLbaBase = 0) (hp : s.pNo = 0) (hl : s.lNo = 0) :
    ∃ s', (∃ fuel, partitionScan disk hd fuel 0 s = some s') ∧ Decoded hd s prims ebrs s' := by
  obtain ⟨xs, hwalk, hprims, hlogics⟩ := h.walk
  have hroom : Room 0 0 xs :=
    ⟨by rw [hprims, Nat.zero_add]; exact h.prims_le,
      by rw [hlogics, Nat.zero_add]; exact h.ebrs_le⟩
  refine ⟨_, (partitionScan_iff hd hp hl).mpr ⟨xs, by rwa [hb], hroom, rfl⟩, ?_⟩
  have hrec : Recorded hd s xs _ := addAll_recorded hd (by rwa [hp, hl])
  obtain ⟨h1, h2, hlist, hfilled, hother⟩ := hrec
  rw [hp, hl] at hlist hfilled hother
  have hmem : ∀ t, t ∈ (fillings hd 0 0 xs).map Prod.fst ↔
      (∃ i < prims.length, t = ⟨hd, .prim i⟩) ∨ ∃ i < ebrs.length, t = ⟨hd, .logic i⟩ := by
    intro t
    rw [List.mem_map]
    constructor
    · intro ht
      obtain ⟨x, hx, rfl⟩ := ht
      rcases mem_fillings.mp hx with ⟨i, e, hi, rfl⟩ | ⟨i, e, hi, rfl⟩
      · rw [hprims] at hi
        exact .inl ⟨i, (List.getElem?_eq_some_iff.mp hi).1, by rw [Nat.zero_add]⟩
      · rw [hlogics] at hi
        exact .inr ⟨i, (List.getElem?_eq_some_iff.mp hi).1, by rw [Nat.zero_add]⟩
    · intro ht
      rcases ht with ⟨i, hi, rfl⟩ | ⟨i, hi, rfl⟩
      · refine ⟨_, mem_fillings.mpr (.inl ⟨i, prims[i], ?_, rfl⟩), by rw [Nat.zero_add]⟩
        rw [hprims]
        exact List.getElem?_eq_getElem hi
      · refine ⟨_, mem_fillings.mpr (.inr ⟨i, ebrs[i], ?_, rfl⟩), by rw [Nat.zero_add]⟩
        rw [hlogics]
        exact List.getElem?_eq_getElem hi
  constructor
  · rw [← hprims]
    exact h1.trans (by rw [hp, Nat.zero_add])
  · rw [← hlogics]
    exact h2.trans (by rw [hl, Nat.zero_add])
  · intro i e hi
    have := hfilled _ (mem_fillings.mpr (.inl ⟨i, e, by rw [hprims]; exact hi, rfl⟩))
    rwa [Nat.zero_add] at this
  · intro i x hi
    have := hfilled _ (mem_fillings.mpr (.inr ⟨i, x, by rw [hlogics]; exact hi, rfl⟩))
    rwa [Nat.zero_add] at this
  · exact ⟨_, hlist, fillings_nodup, hmem⟩
  · intro t htp htl
    apply hother t
    intro ht
    rcases (hmem t).mp ht with ⟨i, hi, rfl⟩ | ⟨i, hi, rfl⟩
    · exact htp i hi rfl
    · exact htl i hi rfl

theorem smallDisk_layout : Layout smallDisk [⟨0x83, 2048, 1000⟩, ⟨0x83, 8000, 500⟩]
    [(4096, ⟨0x83, 63, 900⟩), (5096, ⟨0x83, 63, 700⟩)] := by
  obtain ⟨h0, h1, h2⟩ := smallDisk_tables
  have hsecond : Chain smallDisk 4096 5096 [(5096, ⟨0x83, 63, 700⟩)] :=
    .last (by decide) (by decide) (by rw [h2]; rfl) (by decide)
  refine ⟨by rw [h0]; rfl, by decide, ?_, by decide⟩
  refine .one (x := ⟨5, 4096, 2000⟩) (by rw [h0]; rfl) (by decide) ?_
  exact .link (x := ⟨5, 1000, 800⟩) (by decide) (by decide) (by rw [h1]; rfl) (by decide) rfl
    hsecond

theorem partition_scan_decodes_small : ∃ s',
    (∃ fuel, partitionScan smallDisk 1 fuel 0 .init = some s') ∧
      Decoded 1 .init [⟨0x83, 2048, 1000⟩, ⟨0x83, 8000, 500⟩]
        [(4096, ⟨0x83, 63, 900⟩), (5096, ⟨0x83, 63, 700⟩)] s' :=
  partition_scan_decodes smallDisk_layout rfl rfl rfl

end OsCore.Device
