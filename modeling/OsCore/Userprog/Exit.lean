import OsCore.Userprog.Directories
import OsCore.Userprog.Processes

/-!
# Giving an address space back (`userprog/wait_exit.c`, `thread/thread.c`)

A process that exits walks through its own page tables: `release_prog_resource` clears
the bit of each frame it finds in a table, and then that of the table. No entry is
taken out, so until the directory is given back by `thread_exit` the tables still say
what they said, and they are read while the directory is in use.

So the walk is about bits only. From the moment the process counts as dead, the frames
it had are in hand (`Good.die`), and each round gives one of them back; at the end
there are none left (`Good.release`), and a frame is free exactly if it was free or the
process had it (`Good.release_bits`).
-/

namespace OsCore.Paging

open OsCore.Lib OsCore.Userprog

variable {L : Layout} {s s' : Mm} {S : Spaces} {held : Nat → Prop} {p dir : Nat}

/-! ## A process counts as dead -/

/-- Process `p` has exited, and its directory is still there. -/
def died (S : Spaces) (p dir : Nat) : Spaces := Function.update S p (some ⟨dir, false⟩)

@[simp] theorem died_same (S : Spaces) (p dir : Nat) : died S p dir p = some ⟨dir, false⟩ :=
  Function.update_self ..

theorem died_ne {q : Nat} (h : q ≠ p) (dir : Nat) : died S p dir q = S q := Function.update_of_ne h ..

theorem died_some {q : Nat} {sq : Space} (h : died S p dir q = some sq) :
    q = p ∧ sq = ⟨dir, false⟩ ∨ q ≠ p ∧ S q = some sq := by
  by_cases hq : q = p
  · rw [hq, died_same] at h
    exact Or.inl ⟨hq, (Option.some.inj h).symm⟩
  · rw [died_ne hq] at h
    exact Or.inr ⟨hq, h⟩

theorem died_slots (m : Phys) (x : Slot) :
    slotFrame m (died S p dir) x = if x.of p = true then none else slotFrame m S x := by
  have htab : ∀ q d, tableFrame m (died S p dir) q d = if q = p then none else tableFrame m S q d := by
    intro q d
    by_cases hq : q = p
    · rw [if_pos hq, hq, tableFrame, died_same, Option.bind_some, if_neg (by simp)]
    · rw [if_neg hq, tableFrame, tableFrame, died_ne hq]
  cases x with
  | heap k => rfl
  | table q d =>
    simp only [slotFrame, htab, Slot.of, beq_iff_eq]
  | page q v =>
    simp only [slotFrame, htab, Slot.of, beq_iff_eq]
    by_cases hq : q = p
    · rw [if_pos hq, if_pos hq, Option.bind_none]
    · rw [if_neg hq, if_neg hq]

/-- Frame `f` is named in one of the places in `P`. -/
def NamedIn (m : Phys) (S : Spaces) (P : Slot → Prop) (f : Nat) : Prop :=
  ∃ x, P x ∧ slotFrame m S x = some f

/-- The frames of a process that exits are in hand. -/
theorem Good.die (hg : Good L s S noFrame) (hp : S p = some ⟨dir, true⟩) :
    Good L s (died S p dir) (NamedIn s.mem S fun x => x.of p = true) := by
  have hslots : ∀ x, slotFrame s.mem (died S p dir) x =
      if x.of p = true then none else slotFrame s.mem S x := died_slots s.mem
  have hothers : ∀ x f, slotFrame s.mem (died S p dir) x = some f →
      x.of p = false ∧ slotFrame s.mem S x = some f := by
    intro x f hx
    rw [hslots] at hx
    split at hx
    next => cases hx
    next hof => exact ⟨by simpa using hof, hx⟩
  have hspace : ∀ q sq, died S p dir q = some sq → ∃ sq', S q = some sq' ∧ sq'.dir = sq.dir := by
    intro q sq hq
    rcases died_some hq with ⟨rfl, rfl⟩ | ⟨-, hq⟩
    · exact ⟨⟨dir, true⟩, hp, rfl⟩
    · exact ⟨sq, hq, rfl⟩
  constructor
  case kernelLen => exact hg.kernelLen
  case userLen => exact hg.userLen
  case inj => exact fun x y f hx hy => hg.inj x y f (hothers x f hx).2 (hothers y f hy).2
  case heldOut =>
    intro x f hx hin
    obtain ⟨y, hy, hyf⟩ := hin
    obtain ⟨hxof, hxf⟩ := hothers x f hx
    rw [hg.inj x y f hxf hyf, hy] at hxof
    cases hxof
  case inPool => exact fun x f hx => hg.inPool x f (hothers x f hx).2
  case heldPool =>
    intro f hin
    obtain ⟨y, -, hyf⟩ := hin
    have := hg.inPool y f hyf
    cases y with
    | heap => exact Or.inl this
    | table => exact Or.inl this
    | page => exact Or.inr this
  case bit =>
    intro f hf
    rw [hg.bit f hf]
    constructor
    · intro hor
      rcases hor with ⟨x, hx⟩ | hno
      · by_cases hof : x.of p = true
        · exact Or.inr ⟨x, hof, hx⟩
        · exact Or.inl ⟨x, by rw [hslots, if_neg hof]; exact hx⟩
      · exact hno.elim
    · intro hor
      rcases hor with ⟨x, hx⟩ | ⟨x, -, hx⟩
      · exact Or.inl ⟨x, (hothers x f hx).2⟩
      · exact Or.inl ⟨x, hx⟩
  case low => exact hg.low
  case kernelDir => exact hg.kernelDir
  case dir =>
    intro q sq hq
    obtain ⟨sq', hq', hdir⟩ := hspace q sq hq
    obtain ⟨h1, k, hk⟩ := hg.dir q sq' hq'
    rw [hdir] at h1 hk
    exact ⟨h1, k, by rw [hslots]; exact hk⟩
  case dirInj =>
    intro q r a b hq hr hab
    obtain ⟨a', ha, hda⟩ := hspace q a hq
    obtain ⟨b', hb, hdb⟩ := hspace r b hr
    exact hg.dirInj q r a' b' ha hb (by rw [hda, hdb, hab])
  case cur =>
    rcases hg.cur with hc | ⟨q, sq, hq, hc⟩
    · exact Or.inl hc
    · by_cases hqp : q = p
      · rw [hqp, hp] at hq
        obtain rfl := Option.some.inj hq
        exact Or.inr ⟨p, ⟨dir, false⟩, died_same S p dir, hc⟩
      · exact Or.inr ⟨q, sq, (died_ne hqp dir).trans hq, hc⟩

/-! ## The walk -/

/-- One of the frames goes back. -/
theorem Good.giveSlot {m : Phys} {S' : Spaces} {P : Slot → Prop} {z : Slot} {f : Nat}
    (hg : Good L s S' (NamedIn m S P))
    (hinj : ∀ x y g, slotFrame m S x = some g → slotFrame m S y = some g → x = y) (hz : P z)
    (hf : slotFrame m S z = some f) :
    Good L (setFrameBit L s f false) S' (NamedIn m S fun x => P x ∧ x ≠ z) := by
  refine (hg.give (f := f) ⟨z, hz, hf⟩).held_congr fun g => ?_
  constructor
  · intro hin
    obtain ⟨x, ⟨hx, hxz⟩, hxg⟩ := hin
    refine ⟨⟨x, hx, hxg⟩, ?_⟩
    intro heq
    subst heq
    exact hxz (hinj x z g hxg hf)
  · intro hin
    obtain ⟨⟨x, hx, hxg⟩, hgf⟩ := hin
    refine ⟨x, ⟨hx, ?_⟩, hxg⟩
    intro heq
    subst heq
    rw [hf] at hxg
    exact hgf (Option.some.inj hxg).symm

/-- The places that are left when table `d` is being read and entry `i` is next. -/
def Left (p d i : Nat) : Slot → Prop
  | .heap _ => False
  | .table q e => q = p ∧ d ≤ e
  | .page q v => q = p ∧ d * 1024 + i ≤ v

/-- Bits change, and nothing else. -/
structure BitsOnly (s s' : Mm) : Prop where
  mem : s'.mem = s.mem
  rest : SameRest s s'

theorem BitsOnly.refl (s : Mm) : BitsOnly s s := ⟨rfl, .refl s⟩

theorem BitsOnly.trans {s t u : Mm} (h1 : BitsOnly s t) (h2 : BitsOnly t u) : BitsOnly s u :=
  ⟨h2.mem.trans h1.mem, h1.rest.trans h2.rest⟩

theorem bitsOnly_setFrameBit (L : Layout) (s : Mm) (f : Nat) (v : Bool) :
    BitsOnly s (setFrameBit L s f v) := ⟨setFrameBit_mem L s f v, sameRest_setFrameBit L s f v⟩

/-- Table and entry of page `v`. -/
theorem pageAddr_div (v : Nat) : v * 4096 / 0x400000 = v / 1024 ∧ v * 4096 / 4096 % 1024 = v % 1024 := by
  omega

/-- Entry `i` of table `d` is the entry of page `d * 1024 + i`. -/
theorem ptePtr_entry {d i : Nat} (hi : i < 1024) :
    ptePtr (d * 0x400000) + i * 4 = ptePtr ((d * 1024 + i) * 4096) := by
  have h3 : (d * 1024 + i) / 1024 = d := by omega
  have h4 : (d * 1024 + i) % 1024 = i := by omega
  have h1 : d * 0x400000 / 0x400000 = d := Nat.mul_div_cancel d (by decide)
  have h2 : d * 0x400000 / 4096 % 1024 = 0 := by
    clear h1 h3 h4
    omega
  unfold ptePtr
  rw [h1, h2, (pageAddr_div _).1, (pageAddr_div _).2, h3, h4, Nat.zero_mul, Nat.add_zero]

section

variable {m : Phys} {S' : Spaces} (hp : S p = some ⟨dir, true⟩)
  (hinj : ∀ x y g, slotFrame m S x = some g → slotFrame m S y = some g → x = y)

include hp hinj

/-- The entries of one table. -/
theorem Good.releasePtes {d t : Nat} (hd : d < 768) (ht : entryFrame (m dir d) = some t) :
    ∀ {n i : Nat} {s : Mm}, i + n = 1024 → s.mem = m → s.cr3 = dir →
    Good L s S' (NamedIn m S (Left p d i)) →
    ∃ s', releasePtes L (ptePtr (d * 0x400000)) n i s = some s' ∧ BitsOnly s s' ∧
      Good L s' S' (NamedIn m S (Left p d 1024)) := by
  intro n
  induction n with
  | zero =>
    intro i s hi _ _ hg
    obtain rfl : i = 1024 := hi
    exact ⟨s, rfl, .refl s, hg⟩
  | succ n ih =>
    intro i s hi hmem hcr3 hg
    have hlt : i < 1024 := by omega
    have hv : (d * 1024 + i) * 4096 < 2 ^ 32 := by omega
    have h5 : (d * 1024 + i) / 1024 = d := by omega
    have h6 : (d * 1024 + i) % 1024 = i := by omega
    obtain ⟨h3, h4⟩ := pageAddr_div (d * 1024 + i)
    rw [h5] at h3
    rw [h6] at h4
    have hload : s.load (ptePtr (d * 0x400000) + i * 4) = some (m t i) := by
      rw [ptePtr_entry hlt, load_pte hg.self.self hv (t := t) (by rw [h3, hmem, hcr3]; exact ht), h4,
        hmem]
    have hslot : slotFrame m S (.page p (d * 1024 + i)) = entryFrame (m t i) := by
      rw [slotFrame, h5, h6, tableFrame_eq hp rfl hd, ht, Option.bind_some]
    simp only [Userprog.releasePtes, Option.bind_eq_bind]
    rw [hload, Option.bind_some]
    split
    next hpres =>
      have hf : slotFrame m S (.page p (d * 1024 + i)) = some (frameOf (m t i)) := by
        rw [hslot, entryFrame, if_pos hpres]
      have hgive := hg.giveSlot hinj (z := .page p (d * 1024 + i)) ⟨rfl, Nat.le_refl _⟩ hf
      have hnext : Good L (setFrameBit L s (frameOf (m t i)) false) S'
          (NamedIn m S (Left p d (i + 1))) := by
        refine hgive.held_congr fun g => exists_congr fun x => and_congr_left fun _ => ?_
        cases x with
        | heap k => simp [Left]
        | table q e => simp [Left]
        | page q v =>
          simp only [Left, Slot.page.injEq, ne_eq]
          omega
      rw [pfree_eq]
      obtain ⟨s', hs', hbits, hgood⟩ :=
        ih (by omega) (by rw [setFrameBit_mem, hmem]) (by rw [setFrameBit_cr3, hcr3]) hnext
      exact ⟨s', hs', (bitsOnly_setFrameBit L s _ false).trans hbits, hgood⟩
    next hpres =>
      have hnone : slotFrame m S (.page p (d * 1024 + i)) = none := by
        rw [hslot, entryFrame, if_neg hpres]
      refine ih (by omega) hmem hcr3 (hg.held_congr fun g => exists_congr fun x =>
        and_congr_left fun hx => ?_)
      cases x with
      | heap k => rfl
      | table q e => rfl
      | page q v =>
        have hne : ¬(q = p ∧ v = d * 1024 + i) := by
          intro hin
          obtain ⟨rfl, rfl⟩ := hin
          rw [hnone] at hx
          cases hx
        simp only [Left]
        omega

/-- The entries of the directory. -/
theorem Good.releasePdes {k : Nat} : ∀ {n d : Nat} {s : Mm}, d + n = 768 → s.mem = m → s.cr3 = dir →
    slotFrame m S' (.heap k) = some dir → Good L s S' (NamedIn m S (Left p d 0)) →
    ∃ s', releasePdes L (kHeapStart + k * 4096) n d s = some s' ∧ BitsOnly s s' ∧
      Good L s' S' (NamedIn m S (Left p 768 0)) := by
  intro n
  induction n with
  | zero =>
    intro d s hd _ _ _ hg
    obtain rfl : d = 768 := hd
    exact ⟨s, rfl, .refl s, hg⟩
  | succ n ih =>
    intro d s hd hmem hcr3 hk hg
    have hlt : d < 768 := by omega
    have hkmax := heap_mapped hk
    have hload : s.load (kHeapStart + k * 4096 + d * 4) = some (m dir d) := by
      obtain ⟨hpage, hidx⟩ := heapAddr_word k (show d < 1024 by omega)
      rw [Mm.load, loadWord, hpage, walk_heap (S := S') hg.self hkmax, hmem, hk, hidx]
      rfl
    have hslot : slotFrame m S (.table p d) = entryFrame (m dir d) := tableFrame_eq hp rfl hlt
    simp only [Userprog.releasePdes, Option.bind_eq_bind]
    rw [hload, Option.bind_some]
    split
    next hpres =>
      have ht : entryFrame (m dir d) = some (frameOf (m dir d)) := if_pos hpres
      obtain ⟨s1, hs1, hbits1, hg1⟩ :=
        Good.releasePtes hp hinj hlt ht (Nat.zero_add 1024) hmem hcr3 hg
      have hgive := hg1.giveSlot hinj (z := .table p d) ⟨rfl, Nat.le_refl d⟩ (hslot.trans ht)
      have hnext : Good L (setFrameBit L s1 (frameOf (m dir d)) false) S'
          (NamedIn m S (Left p (d + 1) 0)) := by
        refine hgive.held_congr fun g => exists_congr fun x => and_congr_left fun _ => ?_
        cases x with
        | heap k => simp [Left]
        | table q e =>
          simp only [Left, Slot.table.injEq, ne_eq]
          omega
        | page q v =>
          simp only [Left, ne_eq, reduceCtorEq, not_false_eq_true, and_true]
          omega
      rw [hs1, Option.bind_some, pfree_eq]
      obtain ⟨s', hs', hbits, hgood⟩ := ih (by omega) (by rw [setFrameBit_mem, hbits1.mem, hmem])
        (by rw [setFrameBit_cr3, hbits1.rest.cr3, hcr3]) hk hnext
      exact ⟨s', hs', (hbits1.trans (bitsOnly_setFrameBit L s1 _ false)).trans hbits, hgood⟩
    next hpres =>
      have hnone : tableFrame m S p d = none := by
        rw [tableFrame_eq hp rfl hlt, entryFrame, if_neg hpres]
      refine ih (by omega) hmem hcr3 hk (hg.held_congr fun g => exists_congr fun x =>
        and_congr_left fun hx => ?_)
      cases x with
      | heap k => rfl
      | table q e =>
        have hne : ¬(q = p ∧ e = d) := by
          intro hin
          obtain ⟨rfl, rfl⟩ := hin
          rw [slotFrame, hnone] at hx
          cases hx
        simp only [Left]
        omega
      | page q v =>
        have hne : ¬(q = p ∧ v / 1024 = d) := by
          intro hin
          obtain ⟨rfl, rfl⟩ := hin
          rw [slotFrame, hnone] at hx
          cases hx
        simp only [Left]
        omega

end

/-- **The walk of `release_prog_resource`** through the tables of the process that
runs: it comes to its end, and the process has nothing any more. -/
theorem Good.release (hg : Good L s S noFrame) (hp : S p = some ⟨dir, true⟩) (hcur : s.cr3 = dir)
    {k : Nat} (hk : slotFrame s.mem S (.heap k) = some dir) :
    ∃ s', Userprog.releasePdes L (kHeapStart + k * 4096) 768 0 s = some s' ∧ BitsOnly s s' ∧
      Good L s' (died S p dir) noFrame := by
  have hstart : Good L s (died S p dir) (NamedIn s.mem S (Left p 0 0)) := by
    refine (hg.die hp).held_congr fun f => exists_congr fun x => and_congr_left fun _ => ?_
    cases x with
    | heap k => simp [Left, Slot.of]
    | table q e => simp [Left, Slot.of]
    | page q v => simp [Left, Slot.of]
  have hk' : slotFrame s.mem (died S p dir) (.heap k) = some dir := by
    rw [died_slots]
    exact hk
  obtain ⟨s', hs', hbits, hgood⟩ :=
    Good.releasePdes hp hg.inj (Nat.zero_add 768) rfl hcur hk' hstart
  refine ⟨s', hs', hbits, hgood.held_congr fun f => iff_of_false (fun h => h) ?_⟩
  intro hin
  obtain ⟨x, hx, hxf⟩ := hin
  cases x with
  | heap k => exact hx
  | table q e =>
    obtain ⟨-, -, -, he, -⟩ := tableFrame_some.mp hxf
    exact absurd hx.2 (by omega)
  | page q v =>
    obtain ⟨-, -, -, hv⟩ := page_mapped hxf
    exact absurd hx.2 (by omega)

/-- A bit is set afterwards if it was and the process did not have the frame. -/
theorem Good.release_bits (hg : Good L s S noFrame) (hg' : Good L s' (died S p dir) noFrame)
    (hmem : s'.mem = s.mem) {f : Nat} (hf : L.IsFrame f) : frameBit L s' f = true ↔
      frameBit L s f = true ∧ ¬∃ x, x.of p = true ∧ slotFrame s.mem S x = some f := by
  rw [hg'.bit f hf, hg.bit f hf, hmem]
  simp only [died_slots, noFrame, or_false]
  constructor
  · intro hin
    obtain ⟨x, hx⟩ := hin
    split at hx
    next => cases hx
    next hof =>
      refine ⟨⟨x, hx⟩, fun hex => hof ?_⟩
      obtain ⟨y, hy, hyf⟩ := hex
      rw [hg.inj x y f hx hyf]
      exact hy
  · intro hin
    obtain ⟨⟨x, hx⟩, hno⟩ := hin
    exact ⟨x, by rw [if_neg fun hof => hno ⟨x, hof, hx⟩]; exact hx⟩

end OsCore.Paging
