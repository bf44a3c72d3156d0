import OsCore.Bitmap

/-!
# The runs `bitmap_scan` finds (`lib/kernel/bitmap.c`)

`bitmap_scan(btmp, cnt)` skips the full bytes, then the set bits of the first byte
that has a clear one, and from there counts clear bits until `cnt` are in a row. The
count is 1 at the first clear bit, and a bit is looked at while `bit_left-- > 0`,
where `bit_left` is what remains from that first clear bit on. So the last bit looked
at is number `8 * bytesLen`, the one behind the map.

`Counted` is what the third loop knows at each bit: how long the clear run is that
ends here, and that no run of `cnt` has ended so far. From it `bitmapScan_run` says
what every scan answers: the least run, among those that end at `scanEnd` or before.
For `cnt = 1` the second loop answers and `scanEnd` is the end of the map, otherwise
it is one bit further.

So a run that lies in the map is found and no earlier one is missed
(`bitmapScan_first_fit`). And the answer is a run of the map unless the map has none
and the bits at its end, with the one behind it, make one (`bitmapScan_owned_iff`).
-/

namespace OsCore.Bitmap

variable {b : Bitmap} {cnt : Nat}

/-! ## Clear runs -/

/-- The `cnt` bits from `i` on are clear. -/
def Clear (b : Bitmap) (i cnt : Nat) : Prop := ∀ j, j < cnt → b.bit (i + j) = false

instance (b : Bitmap) (i cnt : Nat) : Decidable (b.Clear i cnt) := Nat.decidableBallLT _ _

/-- A run of `cnt` clear bits that ends at bit `e` or before. -/
def HasRun (b : Bitmap) (cnt e : Nat) : Prop := ∃ i, i + cnt ≤ e ∧ b.Clear i cnt

theorem Clear.mono {i i' n : Nat} (h : b.Clear i cnt) (h1 : i ≤ i') (h2 : i' + n ≤ i + cnt) :
    b.Clear i' n := by
  intro j hj
  have := h (i' - i + j) (by omega)
  rwa [show i + (i' - i + j) = i' + j by omega] at this

theorem Clear.bit {i k : Nat} (h : b.Clear i cnt) (h1 : i ≤ k) (h2 : k < i + cnt) :
    b.bit k = false := by
  have := h (k - i) (by omega)
  rwa [show i + (k - i) = k by omega] at this

theorem Clear.snoc {i n : Nat} (h : b.Clear i n) (hz : b.bit (i + n) = false) :
    b.Clear i (n + 1) := by
  intro j hj
  rcases Nat.lt_succ_iff_lt_or_eq.mp hj with hlt | rfl
  · exact h j hlt
  · exact hz

theorem HasRun.mono {e e' : Nat} (h : b.HasRun cnt e) (he : e ≤ e') : b.HasRun cnt e' := by
  obtain ⟨i, hi, hclear⟩ := h
  exact ⟨i, by omega, hclear⟩

/-! ## The third loop -/

/-- What is known in front of bit `next`: the clear run that ends there has `count`
bits, and no run of `cnt` has ended yet. -/
structure Counted (b : Bitmap) (cnt next count : Nat) : Prop where
  short : count < cnt
  le : count ≤ next
  run : b.Clear (next - count) count
  longest : ∀ i, i ≤ next → b.Clear i (next - i) → next - i ≤ count
  none : ¬b.HasRun cnt next

/-- A set bit ends the run. -/
theorem Counted.set {next count : Nat} (h : b.Counted cnt next count) (hb : b.bit next = true) :
    b.Counted cnt (next + 1) 0 := by
  have hends : ∀ i, i ≤ next → ¬b.Clear i (next + 1 - i) := by
    intro i hi hclear
    have := hclear.bit hi (by omega)
    rw [hb] at this
    cases this
  have hshort := h.short
  refine ⟨by omega, Nat.zero_le _, fun j hj => absurd hj (Nat.not_lt_zero j), ?_, ?_⟩
  · intro i hi hclear
    rcases Nat.lt_or_ge next i with hlt | hge
    · omega
    · exact absurd hclear (hends i hge)
  · intro hin
    obtain ⟨i, hi, hclear⟩ := hin
    rcases Nat.lt_or_ge (i + cnt) (next + 1) with hlt | hge
    · exact h.none ⟨i, by omega, hclear⟩
    · apply hends i (by omega)
      rwa [show next + 1 - i = cnt by omega]

/-- A clear bit makes it longer. -/
theorem Counted.clear {next count : Nat} (h : b.Counted cnt next count)
    (hb : b.bit next = false) (hne : count + 1 ≠ cnt) : b.Counted cnt (next + 1) (count + 1) := by
  have hshort := h.short
  have hle := h.le
  have hlongest : ∀ i, i ≤ next → b.Clear i (next + 1 - i) → next - i ≤ count := fun i hi hclear =>
    h.longest i hi (hclear.mono (Nat.le_refl i) (by omega))
  refine ⟨by omega, by omega, ?_, ?_, ?_⟩
  · rw [show next + 1 - (count + 1) = next - count by omega]
    apply h.run.snoc
    rwa [Nat.sub_add_cancel hle]
  · intro i hi hclear
    rcases Nat.lt_or_ge next i with hlt | hge
    · omega
    · have := hlongest i hge hclear
      omega
  · intro hin
    obtain ⟨i, hi, hclear⟩ := hin
    rcases Nat.lt_or_ge (i + cnt) (next + 1) with hlt | hge
    · exact h.none ⟨i, by omega, hclear⟩
    · have := hlongest i (by omega) (by rwa [show next + 1 - i = cnt by omega])
      omega

/-- A clear bit that makes `cnt` in a row ends the first such run. -/
theorem Counted.found {next count : Nat} (h : b.Counted cnt next count)
    (hb : b.bit next = false) (heq : count + 1 = cnt) :
    b.Clear (next + 1 - cnt) cnt ∧ ∀ i, i < next + 1 - cnt → ¬b.Clear i cnt := by
  have hle := h.le
  constructor
  · have hrun := h.run.snoc (by rwa [Nat.sub_add_cancel hle])
    rwa [heq, show next - count = next + 1 - cnt by omega] at hrun
  · intro i hi hclear
    exact h.none ⟨i, by omega, hclear⟩

/-- What a scan answers when it looks for runs that end at `e` or before. -/
structure Answers (b : Bitmap) (cnt e : Nat) (r : Int) : Prop where
  found : ∀ i : Nat, r = i → i + cnt ≤ e ∧ b.Clear i cnt ∧ ∀ i', i' < i → ¬b.Clear i' cnt
  either : r = -1 ∧ ¬b.HasRun cnt e ∨ ∃ i : Nat, r = i

theorem Answers.of_found {e i : Nat} (he : i + cnt ≤ e) (hclear : b.Clear i cnt)
    (hleast : ∀ i', i' < i → ¬b.Clear i' cnt) : b.Answers cnt e i := by
  refine ⟨fun i' hi' => ?_, Or.inr ⟨i, rfl⟩⟩
  obtain rfl : i = i' := by omega
  exact ⟨he, hclear, hleast⟩

theorem Answers.of_none {e : Nat} (h : ¬b.HasRun cnt e) : b.Answers cnt e (-1) :=
  ⟨fun i hi => by omega, Or.inl ⟨rfl, h⟩⟩

theorem scanRun_answers : ∀ {left next count : Nat}, b.Counted cnt next count →
    b.Answers cnt (next + left) (b.scanRun cnt left next count) := by
  intro left
  induction left with
  | zero =>
    intro next count h
    exact .of_none h.none
  | succ left ih =>
    intro next count h
    rw [scanRun, bitmapScanTest_eq, show next + (left + 1) = next + 1 + left by omega]
    have hshort := h.short
    cases hb : b.bit next with
    | true =>
      simp only [Bool.not_true, Bool.false_eq_true, if_false]
      rw [if_neg (by omega)]
      exact ih (h.set hb)
    | false =>
      simp only [Bool.not_false, if_true]
      by_cases heq : count + 1 = cnt
      · rw [if_pos heq]
        obtain ⟨hclear, hleast⟩ := h.found hb heq
        have hle := h.le
        rw [show (next : Int) - cnt + 1 = ((next + 1 - cnt : Nat) : Int) by omega]
        exact .of_found (by omega) hclear hleast
      · rw [if_neg heq]
        exact ih (h.clear hb heq)

/-! ## The scan -/

/-- The bit that a run of `cnt` must not go beyond to be found. -/
def scanEnd (b : Bitmap) (cnt : Nat) : Nat :=
  if cnt = 1 then 8 * b.bytesLen else 8 * b.bytesLen + 1

/-- Without a clear bit the first loop runs to the end of the map, and the
`ASSERT` behind it fails. -/
theorem bitmapScan_full (h : ∀ i, i < 8 * b.bytesLen → b.bit i = true) (cnt : Nat) :
    b.bitmapScan cnt = none := by
  have hge : ¬b.skipFull b.bytesLen 0 < b.bytesLen := by
    intro hlt
    obtain ⟨hi, hz, -⟩ := firstClear_spec hlt
    rw [h _ hi] at hz
    cases hz
  rw [bitmapScan, ensure_neg hge]
  rfl

theorem skipFull_lt {i : Nat} (hi : i < 8 * b.bytesLen) (hz : b.bit i = false) :
    b.skipFull b.bytesLen 0 < b.bytesLen := by
  have h := bitmapScan_one_isSome hi hz
  by_contra hge
  rw [bitmapScan, ensure_neg hge] at h
  cases h

/-- **What a scan answers**, in a map with a clear bit. -/
theorem bitmapScan_run {k : Nat} (hcnt : 1 ≤ cnt) (hk : k < 8 * b.bytesLen)
    (hz : b.bit k = false) :
    ∃ r, b.bitmapScan cnt = some r ∧ b.Answers cnt (b.scanEnd cnt) r := by
  have hlt := skipFull_lt hk hz
  obtain ⟨hs, hclear, hset⟩ := firstClear_spec hlt
  have hne : b.skipFull b.bytesLen 0 ≠ b.bytesLen := Nat.ne_of_lt hlt
  rw [bitmapScan, ensure_pos hlt, Option.bind_eq_bind, Option.bind_some]
  dsimp only
  rw [if_neg hne]
  generalize b.skipFull b.bytesLen 0 * 8
    + skipSet (b.bits (b.skipFull b.bytesLen 0)) 8 0 = s at *
  -- before the first clear bit no run can start
  have hbefore : ∀ i n, i < s → 1 ≤ n → ¬b.Clear i n := by
    intro i n hi hn hrun
    have := hrun 0 hn
    rw [Nat.add_zero, hset i hi] at this
    cases this
  by_cases h1 : cnt = 1
  · subst h1
    rw [if_pos rfl, scanEnd, if_pos rfl]
    refine ⟨s, rfl, .of_found hs ?_ fun i hi => hbefore i 1 hi (Nat.le_refl 1)⟩
    intro j hj
    obtain rfl : j = 0 := by omega
    exact hclear
  · rw [if_neg h1, scanEnd, if_neg h1]
    refine ⟨_, rfl, ?_⟩
    rw [show 8 * b.bytesLen + 1 = s + 1 + (b.bytesLen * 8 - s) by omega]
    refine scanRun_answers ⟨by omega, by omega, ?_, ?_, ?_⟩
    · intro j hj
      rw [show s + 1 - 1 + j = s by omega]
      exact hclear
    · intro i hi hrun
      rcases Nat.lt_or_ge i s with his | his
      · exact absurd hrun (hbefore i _ his (by omega))
      · omega
    · intro hin
      obtain ⟨i, hi, hrun⟩ := hin
      exact hbefore i cnt (by omega) hcnt hrun

/-! ## Runs of the map -/

/-- **`bitmap_scan` finds the first fit.** Where some run of `cnt` clear bits lies in
the map, the scan answers the least one, whatever lies behind the map. (The code's
indices are exact for maps of fewer than `2 ^ 31` bits.) -/
theorem bitmapScan_first_fit {b : Bitmap} {cnt : Nat} (hcnt : 1 ≤ cnt)
    (hrun : b.HasRun cnt (8 * b.bytesLen)) :
    ∃ i : Nat, b.bitmapScan cnt = some (i : Int) ∧
      IsLeast {i | i + cnt ≤ 8 * b.bytesLen ∧ b.Clear i cnt} i := by
  obtain ⟨i₀, hi₀, hclear₀⟩ := hrun
  obtain ⟨r, hr, hans⟩ := bitmapScan_run hcnt (show i₀ < 8 * b.bytesLen by omega) (hclear₀ 0 hcnt)
  have hend : 8 * b.bytesLen ≤ b.scanEnd cnt := by
    unfold scanEnd
    split <;> omega
  rcases hans.either with ⟨-, hno⟩ | ⟨i, rfl⟩
  · exact absurd ⟨i₀, by omega, hclear₀⟩ hno
  · obtain ⟨-, hclear, hleast⟩ := hans.found i rfl
    have hlower : ∀ i', b.Clear i' cnt → i ≤ i' := fun i' hclear' =>
      Nat.le_of_not_lt fun hlt => hleast i' hlt hclear'
    refine ⟨i, hr, ⟨?_, hclear⟩, fun i' hi' => hlower i' hi'.2⟩
    have := hlower i₀ hclear₀
    omega

/-- Two bytes `0x5b 0xf0`: bit 2 and bit 5 are alone, the run of three is at 7. -/
def gaps : Bitmap := ⟨2, fun i => [0x5b, 0xf0].getD i 0⟩

theorem bitmapScan_first_fit_gaps : ∃ i : Nat, gaps.bitmapScan 3 = some (i : Int) ∧
    IsLeast {i | i + 3 ≤ 8 * gaps.bytesLen ∧ gaps.Clear i 3} i :=
  bitmapScan_first_fit (by decide) ⟨7, by decide, by decide⟩

/-- What a caller relies on: an answer that is not -1 is a clear run in the map, and
where the map has none the answer is -1. -/
structure OwnedAnswer (b : Bitmap) (cnt : Nat) (r : Int) : Prop where
  owned : ∀ i : Nat, r = i → i + cnt ≤ 8 * b.bytesLen ∧ b.Clear i cnt
  reported : ¬b.HasRun cnt (8 * b.bytesLen) → r = -1

/-- The last `cnt - 1` bits of the map are clear, and the one behind it. -/
def RunsOver (b : Bitmap) (cnt : Nat) : Prop :=
  2 ≤ cnt ∧ cnt ≤ 8 * b.bytesLen + 1 ∧ b.Clear (8 * b.bytesLen + 1 - cnt) cnt

instance (b : Bitmap) (cnt : Nat) : Decidable (b.RunsOver cnt) :=
  inferInstanceAs (Decidable (_ ∧ _ ∧ _))

/-- A run the scan may find lies in the map, or runs over its end. -/
theorem hasRun_scanEnd (hcnt : 1 ≤ cnt) :
    b.HasRun cnt (b.scanEnd cnt) ↔ b.HasRun cnt (8 * b.bytesLen) ∨ b.RunsOver cnt := by
  unfold scanEnd
  constructor
  · intro hin
    obtain ⟨i, hi, hclear⟩ := hin
    by_cases hin : i + cnt ≤ 8 * b.bytesLen
    · exact Or.inl ⟨i, hin, hclear⟩
    · split at hi
      next h1 => omega
      next h1 =>
        obtain rfl : i = 8 * b.bytesLen + 1 - cnt := by omega
        exact Or.inr ⟨by omega, by omega, hclear⟩
  · intro hor
    rcases hor with h | ⟨h2, hle, hclear⟩
    · apply h.mono
      split <;> omega
    · rw [if_neg (by omega)]
      exact ⟨_, by omega, hclear⟩

/-- **When the answer is the map's own.** A map with a clear bit answers with bits it
owns, or with -1 if it has no such run, except where it has none and one runs over
its end. -/
theorem bitmapScan_owned_iff {b : Bitmap} {cnt : Nat} (hcnt : 1 ≤ cnt)
    (hz : ∃ k, k < 8 * b.bytesLen ∧ b.bit k = false) :
    (∃ r, b.bitmapScan cnt = some r ∧ b.OwnedAnswer cnt r) ↔
      b.HasRun cnt (8 * b.bytesLen) ∨ ¬b.RunsOver cnt := by
  obtain ⟨k, hk, hz⟩ := hz
  obtain ⟨r, hr, hans⟩ := bitmapScan_run hcnt hk hz
  have hends := hasRun_scanEnd (b := b) hcnt
  constructor
  · intro hin
    obtain ⟨r', hr', howned⟩ := hin
    obtain rfl : r = r' := Option.some.inj (hr.symm.trans hr')
    by_contra hno
    rw [not_or, not_not] at hno
    obtain ⟨hnone, hover⟩ := hno
    have hminus := howned.reported hnone
    rcases hans.either with ⟨-, hnot⟩ | ⟨i, hi⟩
    · exact hnot (hends.mpr (Or.inr hover))
    · omega
  · intro hcond
    refine ⟨r, hr, ?_, ?_⟩
    · intro i hi
      obtain ⟨hle, hclear, hleast⟩ := hans.found i hi
      refine ⟨?_, hclear⟩
      by_contra hout
      -- the answer ends one bit too far, so no run of the map was there to be found
      have hover : b.RunsOver cnt := by
        unfold scanEnd at hle
        split at hle
        next h1 => omega
        next h1 =>
          obtain rfl : i = 8 * b.bytesLen + 1 - cnt := by omega
          exact ⟨by omega, by omega, hclear⟩
      rcases hcond with ⟨i', hi', hclear'⟩ | hnot
      · exact hleast i' (by omega) hclear'
      · exact hnot hover
    · intro hnone
      rcases hans.either with ⟨hminus, -⟩ | ⟨i, hi⟩
      · exact hminus
      · obtain ⟨hle, hclear, -⟩ := hans.found i hi
        have hrun := hends.mp ⟨i, hle, hclear⟩
        rcases hcond with h | h
        · exact absurd h hnone
        · exact absurd (hrun.resolve_left hnone) h

theorem bitmapScan_owned_iff_gaps :
    (∃ r, gaps.bitmapScan 4 = some r ∧ gaps.OwnedAnswer 4 r) ↔
      gaps.HasRun 4 (8 * gaps.bytesLen) ∨ ¬gaps.RunsOver 4 :=
  bitmapScan_owned_iff (by decide) ⟨2, by decide, by decide⟩

/-- A map of one byte whose last bit is clear, in front of a byte that is 0. -/
def lastFree : Bitmap := ⟨1, fun i => if i = 0 then 0x7f else 0⟩

/-- **Two bits are asked for, and one of them is behind the map.** -/
theorem bitmapScan_runs_over : ¬∀ (b : Bitmap) (cnt : Nat), 1 ≤ cnt →
    (∃ k, k < 8 * b.bytesLen ∧ b.bit k = false) →
    ∃ r, b.bitmapScan cnt = some r ∧ b.OwnedAnswer cnt r := by
  intro h
  obtain ⟨r, hr, howned⟩ := h lastFree 2 (by decide) ⟨7, by decide, by decide⟩
  have hscan : lastFree.bitmapScan 2 = some 7 := by decide
  obtain rfl : r = 7 := Option.some.inj (hr.symm.trans hscan)
  have := (howned.owned 7 rfl).1
  exact absurd this (by decide)

end OsCore.Bitmap
