import OsCore.Shell.Readline

/-!
# The buffer of `readline` (`shell/shell.c`)

The loop of `readline` has `read` store the next key before it looks at the bound. So
a line of `count` characters is read into the buffer, and one more key behind it; the
call returns then, and there is no zero in the buffer unless one was typed.

`Confined` is what a call should do, `Fits` says of the keys that no such line comes
about before the end of a line, and `readline_confined_iff` that the one is the other.
A key stores at the cursor and below (`editStep_stores`), so the bound is kept by every
store as long as the test is passed.
-/

namespace OsCore.Shell

/-! ## Stores -/

theorem clearLine_stores (n : Nat) : ∀ e, e.pos = n → ∀ i ∈ (clearLine n e).stores,
    i ∈ e.stores ∨ i ≤ n := by
  induction n with
  | zero =>
    intro e _ i hi
    exact Or.inl hi
  | succ n ih =>
    intro e he i hi
    rcases ih _ rfl i hi with hmem | hle
    · rcases List.mem_cons.mp hmem with rfl | hmem
      · exact Or.inr (le_of_eq he)
      · exact Or.inl hmem
    · exact Or.inr (Nat.le_succ_of_le hle)

/-- **A key stores at the cursor and below.** -/
theorem editStep_stores {key : UInt8} {e e' : Editing} (h : editStep key e = some e') :
    ∀ i ∈ e'.stores, i ∈ e.stores ∨ i ≤ e.pos := by
  rw [editStep] at h
  split at h
  next =>
    split at h
    next =>
      obtain ⟨e1, hback, h⟩ := Option.bind_eq_some_iff.mp h
      obtain ⟨-, -, hback⟩ := Option.bind_eq_some_iff.mp hback
      rw [← Option.some.inj h, ← Option.some.inj hback]
      exact fun i hi => Or.inl hi
    next =>
      rw [← Option.some.inj h]
      exact fun i hi => Or.inl hi
  next =>
    split at h
    next =>
      rw [← Option.some.inj h]
      intro i hi
      rcases List.mem_cons.mp hi with rfl | hi
      · exact Or.inr (Nat.le_refl _)
      · exact Or.inl hi
    next =>
      split at h
      next =>
        rw [← Option.some.inj h]
        exact clearLine_stores _ _ rfl
      next =>
        rw [← Option.some.inj h]
        exact fun i hi => Or.inl hi

/-! ## Staying in the buffer -/

/-- The call stores in the buffer only, and when it returns a string is there. -/
def Confined (count : Nat) (r : Option (ReadlineEnd × Editing)) : Prop :=
  ∃ how e, r = some (how, e) ∧ (∀ i ∈ e.stores, i < count) ∧
    (how ≠ .waiting → ∃ n, n < count ∧ e.mem.IsString n)

/-- Up to the end of a line, no key comes when there are `count` characters, with
`line` to begin with. -/
def FitsFrom (count : Nat) (line keys : List UInt8) : Prop :=
  ∀ front key, front ++ [key] <+: keys →
    (∀ k ∈ front, k ≠ newline ∧ k ≠ carriageReturn) → (front.foldl editKey line).length < count

/-- The same for an empty line. -/
def Fits (count : Nat) (keys : List UInt8) : Prop := FitsFrom count [] keys

theorem fitsFrom_nil (count : Nat) (line : List UInt8) : FitsFrom count line [] := by
  intro front key hpre
  have hlen := hpre.length_le
  rw [List.length_append] at hlen
  exact absurd hlen (by simp)

/-- A key that does not end the line. -/
theorem fitsFrom_cons {count : Nat} {line keys : List UInt8} {key : UInt8}
    (hkey : ¬(key = newline ∨ key = carriageReturn)) : FitsFrom count line (key :: keys) ↔
      line.length < count ∧ FitsFrom count (editKey line key) keys := by
  constructor
  · intro h
    refine ⟨h [] key (by simp) (by simp), fun front k hpre hfront => ?_⟩
    refine h (key :: front) k (List.cons_prefix_cons.mpr ⟨rfl, hpre⟩) ?_
    rw [List.forall_mem_cons]
    exact ⟨not_or.mp hkey, hfront⟩
  · intro h front k hpre hfront
    cases front with
    | nil => exact h.1
    | cons f front =>
      obtain ⟨rfl, hrest⟩ := List.cons_prefix_cons.mp hpre
      exact h.2 front k hrest (List.forall_mem_cons.mp hfront).2

/-- One that does. -/
theorem fitsFrom_end {count : Nat} {line keys : List UInt8} {key : UInt8}
    (hkey : key = newline ∨ key = carriageReturn) :
    FitsFrom count line (key :: keys) ↔ line.length < count := by
  constructor
  · intro h
    exact h [] key (by simp) (by simp)
  · intro h front k hpre hfront
    cases front with
    | nil => exact h
    | cons f front =>
      obtain ⟨rfl, -⟩ := List.cons_prefix_cons.mp hpre
      have hends := (List.forall_mem_cons.mp hfront).1
      exact absurd hkey (not_or.mpr hends)

/-- **The loop**: by induction on the keys, with the line so far in front of the
cursor. -/
theorem readKeys_confined_iff {count : Nat} (keys : List UInt8) : ∀ {e : Editing}
    {line : List UInt8}, InFront e line → (∀ i ∈ e.stores, i < count) →
    (Confined count (readKeys count keys e) ↔ FitsFrom count line keys) := by
  induction keys with
  | nil =>
    intro e line _ hstores
    refine iff_of_true ⟨.waiting, e, rfl, hstores, fun h => absurd rfl h⟩ (fitsFrom_nil _ _)
  | cons key keys ih =>
    intro e line h hstores
    have hpos := h.pos_eq
    rw [readKeys]
    by_cases hlt : e.pos < count
    · have hput : (e.put key).pos < count := hlt
      have hkept : ∀ i ∈ (e.put key).stores, i < count := fun i hi => by
        rcases List.mem_cons.mp hi with rfl | hi
        · exact hlt
        · exact hstores i hi
      rw [if_neg (not_not_intro hput)]
      by_cases hend : key = newline ∨ key = carriageReturn
      · rw [if_pos hend, fitsFrom_end hend, ← hpos]
        refine iff_of_true ⟨.enter, _, rfl, fun i hi => ?_, fun _ => ?_⟩ hlt
        · rcases List.mem_cons.mp hi with rfl | hi
          · exact hlt
          · exact hkept i hi
        · have hzero : ((e.put key).put 0).mem e.pos = 0 := Function.update_self _ _ _
          obtain ⟨n, hn, hstring⟩ := Mem.exists_isString hzero
          exact ⟨n, Nat.lt_of_le_of_lt hn hlt, hstring⟩
      · obtain ⟨e', hstep, hline⟩ := readKey_inFront h key
        rw [if_neg hend, hstep, Option.bind_eq_bind, Option.bind_some, fitsFrom_cons hend, ← hpos,
          and_iff_right hlt]
        apply ih hline
        intro i hi
        rcases editStep_stores hstep i hi with hi | hi
        · exact hkept i hi
        · exact Nat.lt_of_le_of_lt hi hlt
    · -- the key is behind the buffer
      have hput : ¬(e.put key).pos < count := hlt
      rw [if_pos hput]
      refine iff_of_false (fun hc => ?_) fun hc => ?_
      · obtain ⟨how, e', hrun, hin, -⟩ := hc
        obtain ⟨-, rfl⟩ := Prod.mk.inj (Option.some.inj hrun)
        exact hlt (hin _ List.mem_cons_self)
      · exact hlt (hpos ▸ hc [] key (by simp) (by simp))

/-- **Where `readline` stays in its buffer**, and leaves a string there: exactly when no
key comes on a full line. -/
theorem readline_confined_iff (mem : Mem) (count : Nat) (keys : List UInt8) (hcount : 0 < count) :
    Confined count (readline mem count keys) ↔ Fits count keys := by
  rw [readline, ensure_pos hcount]
  exact readKeys_confined_iff (e := ⟨mem, 0, [], []⟩) keys
    ⟨rfl, fun c hc => absurd hc List.not_mem_nil⟩ fun i hi => absurd hi List.not_mem_nil

/-- `a`, `b`, `\b`, `c` and enter fit into three bytes. -/
theorem readline_confined_iff_abc :
    Confined 3 (readline (fun _ => 255) 3 [97, 98, 8, 99, 13]) := by
  have hfit : ∀ front ∈ ([97, 98, 8, 99, 13] : List UInt8).inits,
      (∀ k ∈ front, k ≠ newline ∧ k ≠ carriageReturn) → (front.foldl editKey []).length < 3 := by
    decide +kernel
  refine (readline_confined_iff (fun _ => 255) 3 [97, 98, 8, 99, 13] (by decide)).mpr
    fun front key hpre hfront => hfit front ?_ hfront
  exact (List.mem_inits _ _).mpr ((List.prefix_append front [key]).trans hpre)

/-- The third key for two bytes is stored behind them. -/
theorem full_line_overruns : ¬∀ (mem : Mem) (count : Nat) (keys : List UInt8), 0 < count →
    Confined count (readline mem count keys) := by
  intro h
  obtain ⟨how, e, hrun, hin, -⟩ := h (fun _ => 255) 2 [97, 97, 97] (by decide)
  have hstores : (readline (fun _ => 255) 2 [97, 97, 97]).map (fun r => r.2.stores) =
      some [2, 1, 0] := by decide
  rw [hrun, Option.map_some, Option.some.injEq] at hstores
  exact absurd (hin 2 (hstores ▸ List.mem_cons_self)) (by decide)

end OsCore.Shell
