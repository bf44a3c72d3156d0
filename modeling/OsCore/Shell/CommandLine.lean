import OsCore.Bitmap
import OsCore.Lib.CString
import OsCore.Lib.Words

/-!
# Splitting a command line (`cmd_parse` in `shell/shell.c`)

`cmd_parse` walks over a line once: over the separators, then over a word, and so on.
It notes where each word starts in `argv` and puts a zero in place of the separator
behind it, so that the words become strings where they stand.

`parseLoop_spec` follows it word by word. It stores the starts of the words in turn
and counts them; the test that `argc` has grown too large comes behind the store and
is for more than `MAX_ARG_NR`, so that it stops at the eighteenth word, when
eighteen have been stored. `argv` has room for sixteen.
-/

namespace OsCore.Shell

open Lib

/-! ## The code -/

def maxArgNr : Nat := 16

/-- `while (p(*next)) next++;`, from the place `next` on. A string ends within the
`size` bytes it is looked for in. -/
def scan (p : UInt8 → Bool) (mem : Mem) : Nat → Nat → Option Nat
  | 0, _ => none
  | size + 1, next => if p (mem next) then scan p mem size (next + 1) else some next

/-- The line, `argv` with the memory behind it, and the indices that were stored to.
Pointers into the line are places in it, and `NULL` is `none`. -/
structure Parsing where
  mem : Mem
  argv : Nat → Option Nat
  stored : List Nat

/-- `argv[idx] = ptr;` -/
def Parsing.store (st : Parsing) (idx : Nat) (ptr : Option Nat) : Parsing :=
  { st with argv := Function.update st.argv idx ptr, stored := idx :: st.stored }

/-- `while (arg_idx < MAX_ARG_NR)`, with `arg_idx` and what is left to do. -/
def clearArgv : Nat → Nat → Parsing → Parsing
  | _, 0, st => st
  | argIdx, n + 1, st => clearArgv (argIdx + 1) n (st.store argIdx none)

/-- `while (*next)`. -/
def parseLoop (size : Nat) (token : UInt8) : Nat → Parsing → Nat → Nat → Option (Int × Parsing)
  | 0, _, _, _ => none
  | fuel + 1, st, next, argc =>
    if st.mem next = 0 then some (argc, st)
    else do
      let next ← scan (· == token) st.mem size next
      if st.mem next = 0 then return (argc, st)
      let st := st.store argc (some next)
      let next ← scan (fun c => c != 0 && c != token) st.mem size next
      let (st, next) := if st.mem next ≠ 0
        then ({ st with mem := Function.update st.mem next 0 }, next + 1) else (st, next)
      if argc > maxArgNr then return (-1, st)
      parseLoop size token fuel st next (argc + 1)

/-- `cmd_parse(cmd_str, argv, token)`, where `size` bytes are behind `cmd_str`. -/
def cmdParse (size : Nat) (mem : Mem) (argv : Nat → Option Nat) (cmdStr : Nat) (token : UInt8) :
    Option (Int × Parsing) :=
  parseLoop size token size (clearArgv 0 maxArgNr ⟨mem, argv, []⟩) cmdStr 0

/-! ## The scans -/

theorem scan_eq {p : UInt8 → Bool} {mem : Mem} (n : Nat) : ∀ {size next : Nat},
    (∀ i, i < n → p (mem (next + i)) = true) → p (mem (next + n)) = false → n < size →
    scan p mem size next = some (next + n) := by
  induction n with
  | zero =>
    intro size next _ hstop hsize
    obtain ⟨size, rfl⟩ := Nat.exists_eq_add_of_lt hsize
    rw [Nat.zero_add, scan, if_neg (by rw [← Nat.add_zero next, hstop]; exact Bool.false_ne_true)]
    rfl
  | succ n ih =>
    intro size next hrun hstop hsize
    obtain ⟨size, rfl⟩ := Nat.exists_eq_add_of_lt (Nat.zero_lt_of_lt hsize)
    have hfirst : p (mem next) = true := hrun 0 (Nat.succ_pos n)
    have hshift : ∀ i, next + 1 + i = next + (i + 1) := fun i => by omega
    have hrun' : ∀ i, i < n → p (mem (next + 1 + i)) = true := fun i hi => by
      rw [hshift]
      exact hrun (i + 1) (by omega)
    have hstop' : p (mem (next + 1 + n)) = false := by rw [hshift, hstop]
    rw [Nat.zero_add, scan, if_pos hfirst, ih hrun' hstop' (by omega), hshift]

section

variable {mem : Mem} {token : UInt8} {next size : Nat} {blank word rest : List UInt8}

/-- Over the separators in front of a text that starts with none. -/
theorem scan_blank (hmem : (mem.shift next).Holds (blank ++ rest)) (htoken : token ≠ 0)
    (hblank : ∀ c ∈ blank, c = token) (hrest : rest.head? ≠ some token)
    (hsize : blank.length < size) :
    scan (· == token) mem size next = some (next + blank.length) := by
  refine scan_eq blank.length (fun i hi => ?_) ?_ hsize
  · have hread : mem (next + i) = (blank ++ rest).getD i 0 :=
      hmem.read (by rw [List.length_append]; omega)
    rw [hread, List.getD_append _ _ _ _ hi, List.getD_eq_getElem _ _ hi, beq_iff_eq]
    exact hblank _ (List.getElem_mem hi)
  · have hread : mem (next + blank.length) = rest.getD 0 0 := hmem.drop.read (Nat.zero_le _)
    rw [hread, beq_eq_false_iff_ne]
    cases rest with
    | nil => exact Ne.symm htoken
    | cons c rest => exact fun he => hrest (congrArg some he)

/-- Over a word. -/
theorem scan_word (hmem : (mem.shift next).Holds (word ++ rest)) (hword : token ∉ word)
    (hrest : rest.head?.getD token = token) (hsize : word.length < size) :
    scan (fun c => c != 0 && c != token) mem size next = some (next + word.length) := by
  refine scan_eq word.length (fun i hi => ?_) ?_ hsize
  · have hread : mem (next + i) = (word ++ rest).getD i 0 :=
      hmem.read (by rw [List.length_append]; omega)
    have hin : word[i] ∈ word := List.getElem_mem hi
    have hzero : word[i] ≠ 0 := fun he =>
      hmem.zero_not_mem (List.mem_append_left _ (he ▸ hin))
    have hsep : word[i] ≠ token := fun he => hword (he ▸ hin)
    rw [hread, List.getD_append _ _ _ _ hi, List.getD_eq_getElem _ _ hi]
    simp [hzero, hsep]
  · have hread : mem (next + word.length) = rest.getD 0 0 := hmem.drop.read (Nat.zero_le _)
    rw [hread]
    cases rest with
    | nil => rfl
    | cons c rest =>
      have hc : c = token := hrest
      simp [hc]

end

/-! ## The words of a line -/

/-- Stores to `argv` one after the other. -/
def Parsing.storeAll (st : Parsing) (idx : Nat) : List (Option Nat) → Parsing
  | [] => st
  | ptr :: ptrs => (st.store idx ptr).storeAll (idx + 1) ptrs

/-- What the loop makes of a text at `next` when `argc` words have been found. -/
structure Splits (token : UInt8) (text : List UInt8) (st : Parsing) (next argc : Nat)
    (ret : Int) (st' : Parsing) : Prop where
  ret_eq : ret = if argc + (words token text).length ≤ maxArgNr + 1
    then ((argc + (words token text).length : Nat) : Int) else -1
  stores : ∃ mem, st' = { st.storeAll argc
    (((starts token text).take (maxArgNr + 2 - argc)).map fun a => some (next + a)) with mem }
  /-- only the text changes, -/
  frame : ∀ i, i < next ∨ next + text.length ≤ i → st'.mem i = st.mem i
  /-- into one string for each word that is stored -/
  strings : ∀ i a w, i < maxArgNr + 2 - argc → (starts token text)[i]? = some a →
    (words token text)[i]? = some w → (st'.mem.shift (next + a)).Holds w

section

variable {token : UInt8} {st : Parsing} {next argc size : Nat}

@[simp] theorem Parsing.store_mem (idx : Nat) (ptr : Option Nat) :
    (st.store idx ptr).mem = st.mem := rfl

/-- The stores have nothing to do with the text. -/
theorem Parsing.storeAll_with (mem : Mem) (ptrs : List (Option Nat)) :
    ({ st with mem } : Parsing).storeAll argc ptrs = { st.storeAll argc ptrs with mem } := by
  induction ptrs generalizing st argc with
  | nil => rfl
  | cons ptr ptrs ih => exact @ih (st.store argc ptr) (argc + 1)

theorem Parsing.storeAll_mem (ptrs : List (Option Nat)) : (st.storeAll argc ptrs).mem = st.mem := by
  induction ptrs generalizing st argc with
  | nil => rfl
  | cons ptr ptrs ih => exact @ih (st.store argc ptr) (argc + 1)

theorem Parsing.storeAll_stored (ptrs : List (Option Nat)) (i : Nat) :
    i ∈ (st.storeAll argc ptrs).stored ↔
      i ∈ st.stored ∨ argc ≤ i ∧ i < argc + ptrs.length := by
  induction ptrs generalizing st argc with
  | nil =>
    have hnone : ¬ (argc ≤ i ∧ i < argc + 0) := by omega
    exact (or_iff_left hnone).symm
  | cons ptr ptrs ih =>
    rw [Parsing.storeAll, ih, Parsing.store, List.mem_cons, List.length_cons]
    by_cases hold : i ∈ st.stored
    · simp [hold]
    · simp only [hold, or_false, false_or]
      omega

theorem Parsing.storeAll_argv_out (ptrs : List (Option Nat)) {i : Nat}
    (h : i < argc ∨ argc + ptrs.length ≤ i) : (st.storeAll argc ptrs).argv i = st.argv i := by
  induction ptrs generalizing st argc with
  | nil => rfl
  | cons ptr ptrs ih =>
    rw [List.length_cons] at h
    rw [Parsing.storeAll, ih (by omega)]
    exact Function.update_of_ne (by omega) _ _

theorem Parsing.storeAll_argv_in {ptrs : List (Option Nat)} {i : Nat} {ptr : Option Nat}
    (h : ptrs[i]? = some ptr) : (st.storeAll argc ptrs).argv (argc + i) = ptr := by
  induction ptrs generalizing st argc i with
  | nil => cases h
  | cons p ptrs ih =>
    cases i with
    | zero =>
      cases h
      rw [Parsing.storeAll, Parsing.storeAll_argv_out ptrs (by omega)]
      exact Function.update_self _ _ _
    | succ i =>
      rw [Parsing.storeAll, Nat.add_comm i, ← Nat.add_assoc]
      exact ih h

theorem clearArgv_eq (n : Nat) :
    clearArgv argc n st = st.storeAll argc (List.replicate n none) := by
  induction n generalizing st argc with
  | zero => rfl
  | succ n ih => rw [clearArgv, ih, List.replicate_succ, Parsing.storeAll]

/-- The line behind a word: at its end it stays, and a separator becomes a zero. -/
def endWord (st : Parsing) (stop : Nat) (tail : List UInt8) : Parsing × Nat :=
  if tail = [] then (st, stop) else ({ st with mem := Function.update st.mem stop 0 }, stop + 1)

/-- One round of the loop, over the first word. -/
theorem parseLoop_round {blank word tail : List UInt8} (argc : Nat) (htoken : token ≠ 0)
    (h : FirstWord token blank word) (hmem : (st.mem.shift next).Holds (blank ++ (word ++ tail)))
    (htail : tail.head?.getD token = token) (hsize : (blank ++ (word ++ tail)).length < size)
    (fuel : Nat) :
    parseLoop size token (fuel + 1) st next argc =
      let ptr := next + blank.length
      let r := endWord (st.store argc (some ptr)) (ptr + word.length) tail
      if argc > maxArgNr then some (-1, r.1) else parseLoop size token fuel r.1 r.2 (argc + 1) := by
  simp only [List.length_append] at hsize
  have hword : (st.mem.shift (next + blank.length)).Holds (word ++ tail) := by
    have := hmem.drop
    rwa [Mem.shift_shift] at this
  obtain ⟨c, word', hcons⟩ := List.exists_cons_of_ne_nil h.ne_nil
  have hhead : (word ++ tail).head? ≠ some token := by
    rw [hcons]
    intro he
    exact h.noSep (hcons ▸ Option.some.inj he ▸ List.mem_cons_self)
  have hfirst : st.mem next ≠ 0 := by
    intro he
    have hread : st.mem next = (blank ++ (word ++ tail)).getD 0 0 := hmem.read (Nat.zero_le _)
    have hpos : 0 < (blank ++ (word ++ tail)).length := by simp [hcons]
    rw [List.getD_eq_getElem _ _ hpos] at hread
    exact hmem.zero_not_mem ((hread.symm.trans he) ▸ List.getElem_mem hpos)
  have hptr : st.mem (next + blank.length) ≠ 0 := by
    intro he
    have hread : st.mem (next + blank.length) = (word ++ tail).getD 0 0 :=
      hword.read (Nat.zero_le _)
    rw [hcons] at hread hword
    exact hword.zero_not_mem ((hread.symm.trans he) ▸ List.mem_cons_self)
  have hstop : st.mem (next + blank.length + word.length) ≠ 0 ↔ tail ≠ [] := by
    have hread : st.mem (next + blank.length + word.length) = tail.getD 0 0 := by
      have hdrop := hword.drop
      rw [Mem.shift_shift] at hdrop
      exact hdrop.read (Nat.zero_le _)
    rw [hread]
    cases tail with
    | nil => simp
    | cons c tail =>
      have hc : c = token := htail
      simpa [hc] using htoken
  rw [parseLoop, if_neg hfirst, scan_blank hmem htoken h.blanks hhead (by omega)]
  dsimp only [Option.bind_eq_bind, Option.bind_some]
  rw [if_neg hptr, Parsing.store_mem, scan_word hword h.noSep htail (by omega)]
  dsimp only [Option.bind_some]
  by_cases hend : tail = []
  · rw [if_neg (mt hstop.mp (not_not_intro hend)), endWord, if_pos hend]
    rfl
  · rw [if_pos (hstop.mpr hend), endWord, if_neg hend]
    rfl

theorem update_out {mem : Mem} {i stop : Nat} (h : i ≠ stop) :
    (Function.update mem stop 0 : Mem) i = mem i := Function.update_of_ne h _ _

/-- The word that was just stored, with the zero behind it, is a string in a memory
that has not changed up to there. -/
theorem word_holds {mem mem' : Mem} {word rest : List UInt8} {ptr : Nat}
    (hmem : (mem.shift ptr).Holds (word ++ token :: rest))
    (hsame : ∀ i, i < ptr + word.length → mem' i = mem i) (hzero : mem' (ptr + word.length) = 0) :
    (mem'.shift ptr).Holds word :=
  hmem.take (fun i hi => hsame _ (by omega)) hzero

/-- No word is left. -/
theorem Splits.of_blank {blank : List UInt8} (hblank : ∀ c ∈ blank, c = token)
    (hargc : argc ≤ maxArgNr + 1) : Splits token blank st next argc argc st := by
  refine ⟨?_, ⟨st.mem, ?_⟩, fun _ _ => rfl, fun i a w _ ha => ?_⟩
  · rw [words_of_blank hblank, List.length_nil, Nat.add_zero, if_pos hargc]
  · rw [starts_of_blank hblank, List.take_nil]
    rfl
  · rw [starts_of_blank hblank] at ha
    cases ha

/-- The last word ends where the text does. -/
theorem Splits.of_last {blank word : List UInt8} (h : FirstWord token blank word)
    (hmem : (st.mem.shift next).Holds (blank ++ word)) (hargc : argc ≤ maxArgNr + 1) :
    Splits token (blank ++ word) st next argc (if argc > maxArgNr then -1 else (argc + 1 : Nat))
      (st.store argc (some (next + blank.length))) := by
  have htake : [blank.length].take (maxArgNr + 2 - argc) = [blank.length] :=
    List.take_of_length_le (by simp; omega)
  refine ⟨?_, ⟨st.mem, ?_⟩, fun _ _ => rfl, fun i a w' _ ha hw' => ?_⟩
  · rw [h.words_last, List.length_singleton]
    split <;> split <;> omega
  · rw [h.starts_last, htake]
    rfl
  · rw [h.starts_last] at ha
    rw [h.words_last] at hw'
    cases i with
    | zero =>
      cases ha
      cases hw'
      have := hmem.drop
      rwa [Mem.shift_shift] at this
    | succ i => cases ha

section

variable {blank word rest : List UInt8} (h : FirstWord token blank word)
  (hptr : (st.mem.shift (next + blank.length)).Holds (word ++ token :: rest))

include h hptr

/-- A word too many is stored, and the loop ends. -/
theorem Splits.of_full (hargc : argc = maxArgNr + 1) :
    Splits token (blank ++ (word ++ token :: rest)) st next argc (-1)
      { st.store argc (some (next + blank.length)) with
        mem := Function.update st.mem (next + blank.length + word.length) 0 } := by
  have hone : maxArgNr + 2 - argc = 1 := by omega
  refine ⟨?_, ⟨Function.update st.mem (next + blank.length + word.length) 0, ?_⟩, fun i hi => ?_,
    fun i a w' hi ha hw' => ?_⟩
  · rw [h.words_cons, List.length_cons, if_neg (by omega)]
  · rw [h.starts_cons, hone]
    rfl
  · simp only [List.length_append, List.length_cons] at hi
    exact update_out (by omega)
  · rw [h.starts_cons] at ha
    rw [h.words_cons] at hw'
    have hi0 : i = 0 := by omega
    subst hi0
    cases ha
    cases hw'
    exact word_holds hptr (fun i hi => update_out (by omega)) (Function.update_self _ _ _)

/-- A word is stored, and the loop goes on behind it. -/
theorem Splits.of_cons {ret : Int} {st' : Parsing} (hargc : argc ≤ maxArgNr)
    (hrest : Splits token rest { st.store argc (some (next + blank.length)) with
        mem := Function.update st.mem (next + blank.length + word.length) 0 }
      (next + blank.length + word.length + 1) (argc + 1) ret st') :
    Splits token (blank ++ (word ++ token :: rest)) st next argc ret st' := by
  obtain ⟨hret, ⟨mem, hst'⟩, hframe, hstrings⟩ := hrest
  refine ⟨?_, ⟨mem, ?_⟩, fun i hi => ?_, fun i a w' hi ha hw' => ?_⟩
  · rw [hret, h.words_cons, List.length_cons, Nat.add_assoc, Nat.add_comm 1]
  · have hroom : maxArgNr + 2 - argc = maxArgNr + 2 - (argc + 1) + 1 := by omega
    have hptrs : (List.map (blank.length + word.length + 1 + ·) ((starts token rest).take
        (maxArgNr + 2 - (argc + 1)))).map (fun a => some (next + a)) =
          ((starts token rest).take (maxArgNr + 2 - (argc + 1))).map
            fun a => some (next + blank.length + word.length + 1 + a) := by
      rw [List.map_map]
      apply List.map_congr_left
      intro a _
      rw [Function.comp_apply, Option.some.injEq]
      omega
    rw [hst', Parsing.storeAll_with, h.starts_cons, hroom, List.take_succ_cons, List.map_cons,
      Parsing.storeAll, ← List.map_take, hptrs]
  · simp only [List.length_append, List.length_cons] at hi
    rw [hframe i (by omega)]
    exact update_out (by omega)
  · rw [h.starts_cons] at ha
    rw [h.words_cons] at hw'
    cases i with
    | zero =>
      cases ha
      cases hw'
      refine word_holds hptr (fun i hi => ?_) ?_
      · rw [hframe i (by omega)]
        exact update_out (by omega)
      · rw [hframe _ (by omega)]
        exact Function.update_self _ _ _
    | succ i =>
      rw [List.getElem?_cons_succ, List.getElem?_map] at ha
      obtain ⟨a', ha', rfl⟩ := Option.map_eq_some_iff.mp ha
      have hplace : next + (blank.length + word.length + 1 + a') =
          next + blank.length + word.length + 1 + a' := by omega
      rw [hplace]
      exact hstrings i a' w' (by omega) ha' hw'

end

/-- **The loop**, word by word. -/
theorem parseLoop_spec (htoken : token ≠ 0) (text : List UInt8) :
    ∀ {fuel : Nat} {st : Parsing} {next argc : Nat}, (st.mem.shift next).Holds text →
      text.length < fuel → text.length < size → argc ≤ maxArgNr + 1 →
      ∃ ret st', parseLoop size token fuel st next argc = some (ret, st') ∧
        Splits token text st next argc ret st' := by
  induction text using word_induction token with
  | blank b hb =>
    intro fuel st next argc hmem hfuel hsize hargc
    obtain ⟨fuel, rfl⟩ := Nat.exists_eq_add_of_lt (Nat.zero_lt_of_lt hfuel)
    refine ⟨argc, st, ?_, Splits.of_blank hb hargc⟩
    have hend : st.mem (next + b.length) = 0 := hmem.2.1
    rw [Nat.zero_add, parseLoop]
    split
    · rfl
    · have hmem' : (st.mem.shift next).Holds (b ++ []) := by rwa [List.append_nil]
      rw [scan_blank hmem' htoken hb (by simp) hsize]
      dsimp only [Option.bind_eq_bind, Option.bind_some]
      rw [if_pos hend]
      rfl
  | last b w h =>
    intro fuel st next argc hmem hfuel hsize hargc
    have hpos : 0 < w.length := List.length_pos_of_ne_nil h.ne_nil
    rw [List.length_append] at hfuel
    obtain ⟨fuel, rfl⟩ := Nat.exists_eq_add_of_lt (show 1 < fuel by omega)
    refine ⟨_, _, ?_, Splits.of_last h hmem hargc⟩
    have hmem' : (st.mem.shift next).Holds (b ++ (w ++ [])) := by rwa [List.append_nil]
    have hsize' : (b ++ (w ++ [])).length < size := by rwa [List.append_nil]
    have hround := parseLoop_round argc htoken h hmem' rfl hsize' (1 + fuel)
    have hend : st.mem (next + b.length + w.length) = 0 := by
      have := hmem.2.1
      rwa [List.length_append, Mem.shift, ← Nat.add_assoc] at this
    rw [hround]
    dsimp only
    rw [endWord, if_pos rfl]
    split
    · rfl
    · rw [Nat.add_comm 1, parseLoop, Parsing.store_mem, if_pos hend]
  | cons b w rest h ih =>
    intro fuel st next argc hmem hfuel hsize hargc
    have hptr : (st.mem.shift (next + b.length)).Holds (w ++ token :: rest) := by
      have := hmem.drop
      rwa [Mem.shift_shift] at this
    have hround := parseLoop_round argc htoken h hmem rfl hsize
    simp only [List.length_append, List.length_cons] at hfuel hsize
    obtain ⟨fuel, rfl⟩ := Nat.exists_eq_add_of_lt (Nat.zero_lt_of_lt hfuel)
    rw [Nat.zero_add, hround]
    dsimp only
    rw [endWord, if_neg (List.cons_ne_nil _ _)]
    by_cases hfull : argc > maxArgNr
    · rw [if_pos hfull]
      exact ⟨_, _, rfl, Splits.of_full h hptr (by omega)⟩
    · rw [if_neg hfull]
      have hrest : (Mem.shift (Function.update st.mem (next + b.length + w.length) 0)
          (next + b.length + w.length + 1)).Holds rest := by
        have hdrop : ((st.mem.shift (next + b.length)).shift (w ++ [token]).length).Holds rest :=
          Mem.Holds.drop (by rwa [List.append_assoc])
        rw [Mem.shift_shift, List.length_append, List.length_singleton, ← Nat.add_assoc] at hdrop
        exact hdrop.congr fun i _ =>
          update_out (i := next + b.length + w.length + 1 + i) (by omega)
      obtain ⟨ret, st', hrun, hsplits⟩ := @ih fuel
        { st.store argc (some (next + b.length)) with
          mem := Function.update st.mem (next + b.length + w.length) 0 }
        (next + b.length + w.length + 1) (argc + 1) hrest (by omega) (by omega) (by omega)
      exact ⟨ret, st', hrun, Splits.of_cons h hptr (by omega) hsplits⟩

end

/-! ## The call -/

section

variable {mem : Mem} {argv : Nat → Option Nat} {cmdStr size : Nat} {token : UInt8}
  {line : List UInt8}

/-- `cmd_parse` comes back from every line. -/
theorem cmdParse_spec (argv : Nat → Option Nat) (htoken : token ≠ 0)
    (hline : (mem.shift cmdStr).Holds line) (hsize : line.length < size) :
    ∃ ret st, cmdParse size mem argv cmdStr token = some (ret, st) ∧
      Splits token line (clearArgv 0 maxArgNr ⟨mem, argv, []⟩) cmdStr 0 ret st := by
  have hmem : (clearArgv 0 maxArgNr ⟨mem, argv, []⟩).mem = mem := by
    rw [clearArgv_eq, Parsing.storeAll_mem]
  exact parseLoop_spec htoken line (by rw [hmem]; exact hline) hsize hsize (Nat.zero_le _)

theorem clearArgv_argv (st : Parsing) {i : Nat} (hi : i < maxArgNr) :
    (clearArgv 0 maxArgNr st).argv i = none := by
  have h : (List.replicate maxArgNr (none : Option Nat))[i]? = some none := by
    rw [List.getElem?_replicate, if_pos hi]
  rw [clearArgv_eq, ← Nat.zero_add i]
  exact Parsing.storeAll_argv_in h

theorem clearArgv_stored (i : Nat) :
    i ∈ (clearArgv 0 maxArgNr ⟨mem, argv, []⟩).stored ↔ i < maxArgNr := by
  rw [clearArgv_eq, Parsing.storeAll_stored, List.length_replicate]
  simp

variable {ret : Int} {st : Parsing}

/-- The indices stored to: all of `argv`, and one for each of the first eighteen words. -/
theorem Splits.stored (h : Splits token line (clearArgv 0 maxArgNr ⟨mem, argv, []⟩) cmdStr 0 ret st)
    (i : Nat) : i ∈ st.stored ↔
      i < maxArgNr ∨ i < min (maxArgNr + 2) (words token line).length := by
  obtain ⟨mem', rfl⟩ := h.stores
  rw [Parsing.storeAll_stored, clearArgv_stored, List.length_map, List.length_take, length_starts]
  omega

theorem Splits.argv_word
    (h : Splits token line (clearArgv 0 maxArgNr ⟨mem, argv, []⟩) cmdStr 0 ret st) {i a : Nat}
    (hi : i < maxArgNr + 2) (ha : (starts token line)[i]? = some a) :
    st.argv i = some (cmdStr + a) := by
  obtain ⟨mem', rfl⟩ := h.stores
  have hget : (((starts token line).take (maxArgNr + 2 - 0)).map fun a => some (cmdStr + a))[i]? =
      some (some (cmdStr + a)) := by
    rw [Nat.sub_zero, List.getElem?_map, List.getElem?_take_of_lt hi, ha]
    rfl
  rw [← Nat.zero_add i]
  exact Parsing.storeAll_argv_in hget

theorem Splits.argv_null
    (h : Splits token line (clearArgv 0 maxArgNr ⟨mem, argv, []⟩) cmdStr 0 ret st) {i : Nat}
    (hle : (words token line).length ≤ i) (hi : i < maxArgNr) : st.argv i = none := by
  obtain ⟨mem', rfl⟩ := h.stores
  rw [Parsing.storeAll_argv_out, clearArgv_argv _ hi]
  rw [List.length_map, List.length_take, length_starts]
  omega

end

/-- **A line of at most sixteen words is split**: `cmd_parse` returns their number,
points `argv` to them in order, each a string where it stands, and leaves the rest of
`argv` `NULL`. It stores inside `argv` and inside the line. -/
theorem cmd_parse_splits (size : Nat) (mem : Mem) (argv : Nat → Option Nat) (cmdStr : Nat)
    (token : UInt8) (line : List UInt8) (htoken : token ≠ 0)
    (hline : (mem.shift cmdStr).Holds line) (hsize : line.length < size)
    (hcount : (words token line).length ≤ 16) :
    ∃ st, cmdParse size mem argv cmdStr token = some (((words token line).length : Int), st) ∧
      (∀ i, i < (words token line).length → ∃ a w, (starts token line)[i]? = some a ∧
        (words token line)[i]? = some w ∧ st.argv i = some (cmdStr + a) ∧
          (st.mem.shift (cmdStr + a)).Holds w) ∧
      (∀ i, (words token line).length ≤ i → i < 16 → st.argv i = none) ∧
      (∀ i ∈ st.stored, i < 16) ∧
      ∀ i, i < cmdStr ∨ cmdStr + line.length ≤ i → st.mem i = mem i := by
  have hmax : maxArgNr = 16 := rfl
  obtain ⟨ret, st, hrun, h⟩ := cmdParse_spec argv htoken hline hsize
  have hret : ret = (words token line).length := by
    rw [h.ret_eq, Nat.zero_add, if_pos (by omega)]
  refine ⟨st, hret ▸ hrun, fun i hi => ?_, fun i hle hi => h.argv_null hle hi, fun i hi => ?_,
    fun i hi => ?_⟩
  · have hstart : i < (starts token line).length := by rwa [length_starts]
    refine ⟨_, _, List.getElem?_eq_getElem hstart, List.getElem?_eq_getElem hi,
      h.argv_word (by omega) (List.getElem?_eq_getElem hstart), ?_⟩
    exact h.strings i _ _ (by omega) (List.getElem?_eq_getElem hstart) (List.getElem?_eq_getElem hi)
  · rw [h.stored] at hi
    omega
  · have hmem : (clearArgv 0 maxArgNr ⟨mem, argv, []⟩).mem = mem := by
      rw [clearArgv_eq, Parsing.storeAll_mem]
    rw [h.frame i hi, hmem]

/-- `" ls  -l "` -/
def lsLine : List UInt8 := [32, 108, 115, 32, 32, 45, 108, 32]

theorem cmd_parse_splits_ls : ∃ st,
    cmdParse 512 (fun i => lsLine.getD i 0) (fun _ => some 7) 0 32 = some (2, st) ∧
      st.argv 0 = some 1 ∧ st.argv 1 = some 5 ∧ st.argv 2 = none := by
  have hholds : (Mem.shift (fun i => lsLine.getD i 0) 0).Holds lsLine := by
    rw [Mem.shift_zero, Mem.holds_iff]
    exact ⟨fun _ _ => rfl, by decide⟩
  have hwords : (words 32 lsLine).length = 2 := by decide
  have hstarts : starts 32 lsLine = [1, 5] := by decide
  obtain ⟨st, hrun, hargv, hnull, -⟩ := cmd_parse_splits 512 (fun i => lsLine.getD i 0)
    (fun _ => some 7) 0 32 lsLine (by decide) hholds (by decide) (by decide)
  rw [hwords] at hrun hargv hnull
  rw [hstarts] at hargv
  obtain ⟨a, w, ha, -, h0, -⟩ := hargv 0 (by decide)
  obtain ⟨a', w', ha', -, h1, -⟩ := hargv 1 (by decide)
  cases ha
  cases ha'
  exact ⟨st, hrun, h0, h1, hnull 2 (by decide) (by decide)⟩

end OsCore.Shell
