import OsCore.Bitmap
import OsCore.Lib.CString
import OsCore.Lib.Numerals

/-!
# Formatted output (`lib/stdio.c`)

`vsprintf` reads the format with one character in hand: an ordinary one is stored, and
behind a `%` there is the name of a directive. A `%s` is copied with its terminator; a
character and a number are stored without one, over what the piece before has left
behind the cursor (`Cursor.close_emit`).

A format and its arguments come as pieces (`Item`), and `Item.run` is what one piece does
to the buffer. So the whole output is the expansions in a row (`run_items`), with a zero
behind them when the last piece is a string; when it is not, the zero has to be there
already, as in a buffer that was cleared (`vsprintf_expands`).

The digits of `itoa` are those of the numeral (`itoa_eq`).
-/

namespace OsCore.Stdio

open Lib

/-! ## The code -/

/-- The buffer, and `buf_ptr - str`. -/
structure Cursor where
  mem : Mem
  pos : Nat

/-- `*(buf_ptr++) = c` -/
def Cursor.put (o : Cursor) (c : UInt8) : Cursor :=
  ⟨Function.update o.mem o.pos c, o.pos + 1⟩

/-- `strcpy(m + a, s)`, where `s` is the bytes in front of the terminator. -/
def strcpy (m : Mem) (a : Nat) : List UInt8 → Mem
  | [] => Function.update m a 0
  | c :: s => strcpy (Function.update m a c) (a + 1) s

/-- The digit `m` of `itoa`. -/
def digitChar (m : UInt32) : UInt8 :=
  if m < 10 then m.toUInt8 + 48 else m.toUInt8 - 10 + 65

/-- Recursion of `itoa`. -/
def itoaLoop (base : UInt8) : Nat → UInt32 → Cursor → Option Cursor
  | 0, _, _ => none
  | fuel + 1, value, o => do
    let m := value % base.toUInt32
    let i := value / base.toUInt32
    let o ← if i ≠ 0 then itoaLoop base fuel i o else some o
    return o.put (digitChar m)

/-- `itoa`, which is called with base 10 and 16. A word has 32 digits at most. -/
def itoa (value : UInt32) (o : Cursor) (base : UInt8) : Option Cursor := itoaLoop base 32 value o

/-- What `va_arg` finds: the string at a pointer, or a word. -/
inductive VaArg
  | str (s : List UInt8)
  | word (w : UInt32)

/-- `va_arg(ap, char*)` -/
def vaArgStr : List VaArg → Option (List UInt8 × List VaArg)
  | .str s :: ap => some (s, ap)
  | _ => none

/-- `va_arg(ap, int)` -/
def vaArgInt : List VaArg → Option (UInt32 × List VaArg)
  | .word w :: ap => some (w, ap)
  | _ => none

/-- `va_arg(ap, char)`: the lowest byte of the word. -/
def vaArgChar (ap : List VaArg) : Option (UInt8 × List VaArg) :=
  (vaArgInt ap).map fun (w, ap) => (w.toUInt8, ap)

/-- `'%'` -/
def percent : UInt8 := 37

/-- Loop of `vsprintf`: the format from `index_ptr` on, the arguments behind `ap`. What
is no directive is looked at again as an ordinary character. -/
def vsprintfLoop : List UInt8 → List VaArg → Cursor → Option Cursor
  | [], _, o => some o
  | indexChar :: format, ap, o =>
    if indexChar ≠ percent then vsprintfLoop format ap (o.put indexChar)
    else match format with
      | [] => some o
      | directive :: rest =>
        if directive = 115 then do -- 's'
          let (argStr, ap) ← vaArgStr ap
          vsprintfLoop rest ap ⟨strcpy o.mem o.pos argStr, o.pos + argStr.length⟩
        else if directive = 99 then do -- 'c'
          let (c, ap) ← vaArgChar ap
          vsprintfLoop rest ap (o.put c)
        else if directive = 100 then do -- 'd'
          let (w, ap) ← vaArgInt ap
          let argInt := w.toInt32
          let o ← if argInt < 0 then itoa (0 - argInt).toUInt32 (o.put 45) 10
            else itoa argInt.toUInt32 o 10
          vsprintfLoop rest ap o
        else if directive = 120 then do -- 'x'
          let (w, ap) ← vaArgInt ap
          let o ← itoa w o 16
          vsprintfLoop rest ap o
        else vsprintfLoop (directive :: rest) ap o
termination_by format => format.length

/-- `vsprintf(str, format, ap)`, with `size` bytes at `str`: what it returns, and the
buffer. -/
def vsprintf (size : Nat) (str : Mem) (format : List UInt8) (ap : List VaArg) :
    Option (Nat × Mem) := do
  let o ← vsprintfLoop format ap ⟨str, 0⟩
  let n ← o.mem.strlen size
  return (n, o.mem)

/-- `sprintf(buf, format, ...)` -/
def sprintf (size : Nat) (buf : Mem) (format : List UInt8) (args : List VaArg) :
    Option (Nat × Mem) := vsprintf size buf format args

/-! ## Formats and what they stand for -/

/-- Digits as characters. -/
def digitText (d : Nat) : UInt8 := if d < 10 then UInt8.ofNat (d + 48) else UInt8.ofNat (d + 55)

/-- A number in base `b`. -/
def text (b n : Nat) : List UInt8 := (numeral b n).map digitText

/-- A piece of a format, with its argument. -/
inductive Item
  | lit (c : UInt8)
  | str (argStr : List UInt8)
  | chr (w : UInt32)
  | dec (argInt : Int32)
  | hex (w : UInt32)

namespace Item

/-- An ordinary character is neither the end of the format nor a `%`; a string has no
zero in it. -/
def Ok : Item → Prop
  | .lit c => c ≠ 0 ∧ c ≠ percent
  | .str argStr => 0 ∉ argStr
  | _ => True

def format : Item → List UInt8
  | .lit c => [c]
  | .str _ => [percent, 115]
  | .chr _ => [percent, 99]
  | .dec _ => [percent, 100]
  | .hex _ => [percent, 120]

def args : Item → List VaArg
  | .lit _ => []
  | .str argStr => [.str argStr]
  | .chr w => [.word w]
  | .dec argInt => [.word argInt.toUInt32]
  | .hex w => [.word w]

/-- What the piece stands for. -/
def expand : Item → List UInt8
  | .lit c => [c]
  | .str argStr => argStr
  | .chr w => [w.toUInt8]
  | .dec argInt => (if argInt < 0 then [45] else []) ++ text 10 argInt.toInt.natAbs
  | .hex w => text 16 w.toNat

end Item

/-- The whole format, all arguments, and the whole output. -/
def formatOf (items : List Item) : List UInt8 := items.flatMap Item.format
def argsOf (items : List Item) : List VaArg := items.flatMap Item.args
def expansion (items : List Item) : List UInt8 := items.flatMap Item.expand

/-! ## Storing in a row -/

namespace Cursor

variable (o : Cursor)

/-- Bytes stored one behind the other. -/
def emit (bs : List UInt8) : Cursor := bs.foldl put o

/-- A zero at the cursor. -/
def close : Cursor := ⟨Function.update o.mem o.pos 0, o.pos⟩

theorem emit_append (bs bs' : List UInt8) : o.emit (bs ++ bs') = (o.emit bs).emit bs' :=
  List.foldl_append

theorem emit_pos (bs : List UInt8) : (o.emit bs).pos = o.pos + bs.length := by
  induction bs generalizing o with
  | nil => rfl
  | cons c bs ih =>
    have hpos : (o.put c).pos = o.pos + 1 := rfl
    rw [emit, List.foldl_cons, ← emit, ih, hpos, List.length_cons]
    omega

theorem emit_mem (bs : List UInt8) :
    (o.emit bs).mem = o.mem.blit o.pos (fun i => bs.getD i 0) bs.length := by
  induction bs generalizing o with
  | nil =>
    funext i
    rw [Mem.blit_out (by simp only [List.length_nil]; omega)]
    rfl
  | cons c bs ih =>
    have hpos : (o.put c).pos = o.pos + 1 := rfl
    rw [emit, List.foldl_cons, ← emit, ih, hpos]
    funext i
    by_cases hi : i = o.pos
    · rw [Mem.blit_out (by omega), Mem.blit_in (by omega) (by rw [List.length_cons]; omega), hi,
        Nat.sub_self]
      exact Function.update_self _ _ _
    · have hput : (o.put c).mem i = o.mem i := Function.update_of_ne hi _ _
      by_cases hin : o.pos + 1 ≤ i ∧ i < o.pos + 1 + bs.length
      · have hidx : i - o.pos = i - (o.pos + 1) + 1 := by omega
        rw [Mem.blit_in hin.1 hin.2, Mem.blit_in (by omega) (by rw [List.length_cons]; omega), hidx,
          List.getD_cons_succ]
      · rw [Mem.blit_out (by omega), Mem.blit_out (by rw [List.length_cons]; omega), hput]

/-- The terminator of a piece is overwritten by the next one. -/
theorem close_emit {bs : List UInt8} (h : bs ≠ []) : o.close.emit bs = o.emit bs := by
  obtain ⟨c, bs, rfl⟩ := List.exists_cons_of_ne_nil h
  have hput : o.close.put c = o.put c := congrArg (Cursor.mk · _) (Function.update_idem _ _ _)
  rw [emit, emit, List.foldl_cons, List.foldl_cons, hput]

theorem close_close : o.close.close = o.close := congrArg (Cursor.mk · _) (Function.update_idem _ _ _)

/-- `strcpy` stores the bytes and closes. -/
theorem strcpy_eq (s : List UInt8) : strcpy o.mem o.pos s = (o.emit s).close.mem := by
  induction s generalizing o with
  | nil => rfl
  | cons c s ih => exact ih (o.put c)

end Cursor

/-! ## Digits -/

theorem digitChar_eq (m : UInt32) : digitChar m = digitText m.toNat := by
  have hlt : m < 10 ↔ m.toNat < 10 := UInt32.lt_iff_toNat_lt
  unfold digitChar digitText
  simp only [hlt]
  split
  next =>
    rw [← UInt8.toNat_inj, UInt8.toNat_add, UInt32.toNat_toUInt8, UInt8.toNat_ofNat']
    change (m.toNat % 2 ^ 8 + 48) % 2 ^ 8 = _
    omega
  next =>
    rw [← UInt8.toNat_inj, UInt8.toNat_add, UInt8.toNat_sub, UInt32.toNat_toUInt8,
      UInt8.toNat_ofNat']
    change ((2 ^ 8 - 10 + m.toNat % 2 ^ 8) % 2 ^ 8 + 65) % 2 ^ 8 = _
    omega

section

variable {base : UInt8} {value : UInt32}

theorem toNat_mod_base : (value % base.toUInt32).toNat = value.toNat % base.toNat := by
  rw [UInt32.toNat_mod, UInt8.toNat_toUInt32]

theorem toNat_div_base : (value / base.toUInt32).toNat = value.toNat / base.toNat := by
  rw [UInt32.toNat_div, UInt8.toNat_toUInt32]

theorem div_base_eq_zero : value / base.toUInt32 = 0 ↔ value.toNat / base.toNat = 0 := by
  rw [← UInt32.toNat_inj, toNat_div_base]
  rfl

/-- One digit. -/
theorem itoaLoop_small (h : value.toNat < base.toNat) (fuel : Nat) (o : Cursor) :
    itoaLoop base (fuel + 1) value o = some (o.emit (text base.toNat value.toNat)) := by
  have hzero : value / base.toUInt32 = 0 := div_base_eq_zero.mpr (Nat.div_eq_of_lt h)
  rw [itoaLoop, if_neg (not_not_intro hzero), text, numeral_small h, digitChar_eq, toNat_mod_base,
    Nat.mod_eq_of_lt h]
  rfl

/-- **The digits come in the order of the numeral**: by induction on the depth of the
recursion. -/
theorem itoaLoop_eq (hbase : 1 < base.toNat) : ∀ {fuel : Nat} {value : UInt32},
    value.toNat < base.toNat ^ (fuel + 1) → ∀ o : Cursor,
    itoaLoop base (fuel + 1) value o = some (o.emit (text base.toNat value.toNat)) := by
  intro fuel
  induction fuel with
  | zero =>
    intro value h o
    rw [Nat.zero_add, Nat.pow_one] at h
    exact itoaLoop_small h 0 o
  | succ fuel ih =>
    intro value h o
    by_cases hlt : value.toNat < base.toNat
    · exact itoaLoop_small hlt (fuel + 1) o
    · have hne : value.toNat / base.toNat ≠ 0 := by
        rw [ne_eq, Nat.div_eq_zero_iff]
        omega
      have hquot : (value / base.toUInt32).toNat < base.toNat ^ (fuel + 1) := by
        rw [toNat_div_base]
        exact Nat.div_lt_of_lt_mul (by rwa [Nat.pow_succ, Nat.mul_comm] at h)
      rw [itoaLoop, if_pos (mt div_base_eq_zero.mp hne), ih hquot, toNat_div_base, text, text,
        numeral_step hbase hne, List.map_append, Cursor.emit_append, digitChar_eq, toNat_mod_base]
      rfl

end

/-- A word in base 10 or 16. -/
theorem itoa_eq {base : UInt8} (hbase : 1 < base.toNat) (value : UInt32) (o : Cursor) :
    itoa value o base = some (o.emit (text base.toNat value.toNat)) := by
  refine itoaLoop_eq hbase ?_ o
  calc value.toNat < 2 ^ 32 := value.toNat_lt
    _ ≤ base.toNat ^ 32 := Nat.pow_le_pow_left hbase 32

/-- The text of a number has the only digits that denote it without leading zeros. -/
theorem text_iff {b n : Nat} (hb : 1 < b) {t : List UInt8} :
    t = text b n ↔ ∃ ds, (Canonical b ds ∧ Lib.value b ds = n) ∧ t = ds.map digitText := by
  constructor
  · intro heq
    exact ⟨numeral b n, (eq_numeral_iff hb).mp rfl, heq⟩
  · intro hin
    obtain ⟨ds, h, heq⟩ := hin
    rw [heq, (eq_numeral_iff hb).mpr h, text]

theorem text_ne_nil (b n : Nat) : text b n ≠ [] := by
  rw [text, ne_eq, List.map_eq_nil_iff]
  exact numeral_ne_nil b n

/-- A digit is no zero byte. -/
theorem zero_not_mem_text {b : Nat} (hb : 1 < b) (hle : b ≤ 16) (n : Nat) : 0 ∉ text b n := by
  intro hmem
  obtain ⟨d, hd, hzero⟩ := List.mem_map.mp hmem
  have hlt := numeral_lt hb d hd
  have hall : ∀ d < 16, digitText d ≠ 0 := by decide
  exact hall d (by omega) hzero

/-! ## Signs -/

theorem toInt_word (i : Int32) :
    i.toInt = if 2 * i.toUInt32.toNat < 2 ^ 32 then (i.toUInt32.toNat : Int)
      else (i.toUInt32.toNat : Int) - 2 ^ 32 := BitVec.toInt_eq_toNat_cond i.toBitVec

/-- `0 - arg_int` is the absolute value as a word, also of the least number, which it
leaves as it is. -/
theorem toNat_of_neg {i : Int32} (h : i < 0) : (0 - i).toUInt32.toNat = i.toInt.natAbs := by
  have hneg : i.toInt < 0 := Int32.lt_iff_toInt_lt.mp h
  have hzero : (0 : Int32).toUInt32.toNat = 0 := rfl
  have hlt := i.toUInt32.toNat_lt
  have hword := toInt_word i
  rw [Int32.toUInt32_sub, UInt32.toNat_sub, hzero]
  split at hword <;> omega

theorem toNat_of_nonneg {i : Int32} (h : ¬i < 0) : i.toUInt32.toNat = i.toInt.natAbs := by
  have hnonneg : ¬i.toInt < 0 := fun hc => h (Int32.lt_iff_toInt_lt.mpr hc)
  have hlt := i.toUInt32.toNat_lt
  have hword := toInt_word i
  split at hword <;> omega

/-! ## One piece after the other -/

/-- What a piece does to the buffer. -/
def Item.run (o : Cursor) : Item → Cursor
  | .str argStr => (o.emit argStr).close
  | item => o.emit item.expand

theorem expand_ne_nil {item : Item} (h : ∀ argStr, item ≠ .str argStr) : item.expand ≠ [] := by
  cases item with
  | lit c => exact List.cons_ne_nil _ _
  | str argStr => exact absurd rfl (h argStr)
  | chr w => exact List.cons_ne_nil _ _
  | dec i => exact List.append_ne_nil_of_right_ne_nil _ (text_ne_nil _ _)
  | hex w => exact text_ne_nil _ _

/-- **A piece of the format.** The loop goes on behind it with the next argument. -/
theorem vsprintfLoop_item {item : Item} (h : item.Ok) (format : List UInt8) (ap : List VaArg)
    (o : Cursor) :
    vsprintfLoop (item.format ++ format) (item.args ++ ap) o =
      vsprintfLoop format ap (item.run o) := by
  cases item with
  | lit c =>
    change vsprintfLoop (c :: format) ap o = _
    rw [vsprintfLoop.eq_def]
    exact if_pos h.2
  | str argStr =>
    change vsprintfLoop (percent :: 115 :: format) (.str argStr :: ap) o = _
    have hpos : o.pos + argStr.length = (o.emit argStr).close.pos := (o.emit_pos argStr).symm
    rw [vsprintfLoop, if_neg (not_not_intro rfl), if_pos rfl]
    simp only [vaArgStr, Option.bind_eq_bind, Option.bind_some, Cursor.strcpy_eq, hpos]
    rfl
  | chr w =>
    change vsprintfLoop (percent :: 99 :: format) (.word w :: ap) o = _
    rw [vsprintfLoop, if_neg (not_not_intro rfl), if_neg (by decide), if_pos rfl]
    rfl
  | dec i =>
    change vsprintfLoop (percent :: 100 :: format) (.word i.toUInt32 :: ap) o = _
    rw [vsprintfLoop, if_neg (not_not_intro rfl), if_neg (by decide), if_neg (by decide),
      if_pos rfl]
    simp only [vaArgInt, Option.bind_eq_bind, Option.bind_some, Int32.toInt32_toUInt32]
    by_cases hneg : i < 0
    · have hexpand : (Item.dec i).expand = 45 :: text 10 i.toInt.natAbs := by
        rw [Item.expand, if_pos hneg]
        rfl
      rw [if_pos hneg, itoa_eq (by decide), toNat_of_neg hneg, Option.bind_some]
      exact congrArg (vsprintfLoop format ap) (congrArg o.emit hexpand).symm
    · have hexpand : (Item.dec i).expand = text 10 i.toInt.natAbs := by
        rw [Item.expand, if_neg hneg, List.nil_append]
      rw [if_neg hneg, itoa_eq (by decide), toNat_of_nonneg hneg, Option.bind_some]
      exact congrArg (vsprintfLoop format ap) (congrArg o.emit hexpand).symm
  | hex w =>
    change vsprintfLoop (percent :: 120 :: format) (.word w :: ap) o = _
    rw [vsprintfLoop, if_neg (not_not_intro rfl), if_neg (by decide), if_neg (by decide),
      if_neg (by decide), if_pos rfl]
    have hbase : 1 < (16 : UInt8).toNat := by decide
    simp only [vaArgInt, Option.bind_eq_bind, Option.bind_some, itoa_eq hbase]
    rfl

/-- All pieces. -/
theorem vsprintfLoop_items (ap : List VaArg) : ∀ {items : List Item}, (∀ item ∈ items, item.Ok) →
    ∀ o : Cursor, vsprintfLoop (formatOf items) (argsOf items ++ ap) o =
      some (items.foldl Item.run o) := by
  intro items
  induction items with
  | nil =>
    intro _ o
    exact vsprintfLoop.eq_1 _ _
  | cons item items ih =>
    intro hok o
    obtain ⟨hitem, hrest⟩ := List.forall_mem_cons.mp hok
    rw [formatOf, argsOf, List.flatMap_cons, List.flatMap_cons, List.append_assoc,
      vsprintfLoop_item hitem]
    exact ih hrest _

/-- The last piece is a string. -/
def EndsInString (items : List Item) : Prop := ∃ front argStr, items = front ++ [.str argStr]

/-- **The whole output**: by induction on the pieces, the last one being looked at. -/
theorem run_items (items : List Item) (o : Cursor) :
    (EndsInString items → items.foldl Item.run o = (o.emit (expansion items)).close) ∧
      (¬EndsInString items → items.foldl Item.run o = o.emit (expansion items)) := by
  induction items using List.reverseRecOn with
  | nil =>
    refine ⟨fun h => ?_, fun _ => rfl⟩
    obtain ⟨front, argStr, hnil⟩ := h
    exact absurd hnil.symm (List.append_ne_nil_of_right_ne_nil _ (List.cons_ne_nil _ _))
  | append_singleton items item ih =>
    have hall : expansion (items ++ [item]) = expansion items ++ item.expand := by
      rw [expansion, List.flatMap_append, List.flatMap_singleton]
      rfl
    rw [List.foldl_append, hall, Cursor.emit_append]
    change (_ → item.run (items.foldl Item.run o) = _) ∧ (_ → item.run (items.foldl Item.run o) = _)
    by_cases hstr : ∃ argStr, item = .str argStr
    · obtain ⟨argStr, rfl⟩ := hstr
      refine ⟨fun _ => ?_, fun h => absurd ⟨items, argStr, rfl⟩ h⟩
      by_cases hend : EndsInString items
      · rw [ih.1 hend, Item.run, Item.expand]
        by_cases hnil : argStr = []
        · rw [hnil]
          exact Cursor.close_close _
        · rw [Cursor.close_emit _ hnil]
      · rw [ih.2 hend]
        rfl
    · have hother : ∀ argStr, item ≠ .str argStr := fun argStr hc => hstr ⟨argStr, hc⟩
      have hrun : ∀ o, item.run o = o.emit item.expand := fun o => by
        cases item with
        | str argStr => exact absurd rfl (hother argStr)
        | _ => rfl
      refine ⟨fun h => ?_, fun _ => ?_⟩
      · obtain ⟨front, argStr, heq⟩ := h
        have hlast := (List.append_inj' heq rfl).2
        exact absurd (List.singleton_inj.mp hlast) (hother argStr)
      · rw [hrun]
        by_cases hend : EndsInString items
        · rw [ih.1 hend, Cursor.close_emit _ (expand_ne_nil hother)]
        · rw [ih.2 hend]

/-- **`vsprintf`** comes to `strlen` with the pieces stored. -/
theorem vsprintf_items {items : List Item} (hok : ∀ item ∈ items, item.Ok) (ap : List VaArg)
    (size : Nat) (str : Mem) : vsprintf size str (formatOf items) (argsOf items ++ ap) =
      ((items.foldl Item.run ⟨str, 0⟩).mem.strlen size).map fun n =>
        (n, (items.foldl Item.run ⟨str, 0⟩).mem) := by
  rw [vsprintf, vsprintfLoop_items ap hok, Option.bind_eq_bind, Option.bind_some]
  cases (items.foldl Item.run ⟨str, 0⟩).mem.strlen size with
  | none => rfl
  | some n => rfl

/-! ## The output in the buffer -/

section

variable {items : List Item} {str : Mem}

theorem start_emit_pos (str : Mem) (bs : List UInt8) :
    ((⟨str, 0⟩ : Cursor).emit bs).pos = bs.length := (Cursor.emit_pos _ _).trans (Nat.zero_add _)

theorem start_emit_mem (str : Mem) (bs : List UInt8) :
    ((⟨str, 0⟩ : Cursor).emit bs).mem = str.blit 0 (fun i => bs.getD i 0) bs.length :=
  Cursor.emit_mem _ _

/-- Away from the end, the memory is the same with and without a terminator. -/
theorem run_mem (items : List Item) (str : Mem) {i : Nat} (hi : i ≠ (expansion items).length) :
    (items.foldl Item.run ⟨str, 0⟩).mem i =
      str.blit 0 (fun i => (expansion items).getD i 0) (expansion items).length i := by
  rw [← start_emit_mem]
  by_cases hend : EndsInString items
  · rw [(run_items items _).1 hend]
    exact Function.update_of_ne (by rwa [start_emit_pos]) _ _
  · rw [(run_items items _).2 hend]

/-- The expansions are at the start of the buffer. -/
theorem run_bytes (items : List Item) (str : Mem) {i : Nat} (hi : i < (expansion items).length) :
    (items.foldl Item.run ⟨str, 0⟩).mem i = (expansion items).getD i 0 := by
  rw [run_mem items str hi.ne, Mem.blit_in (Nat.zero_le _) (by omega), Nat.sub_zero]

/-- Nothing is stored further on. -/
theorem run_out (items : List Item) (str : Mem) {i : Nat} (hi : (expansion items).length < i) :
    (items.foldl Item.run ⟨str, 0⟩).mem i = str i := by
  rw [run_mem items str hi.ne', Mem.blit_out (by omega)]

/-- Behind the expansions there is a zero if the last piece is a string. -/
theorem run_end (h : EndsInString items) (str : Mem) :
    (items.foldl Item.run ⟨str, 0⟩).mem (expansion items).length = 0 := by
  have hpos := start_emit_pos str (expansion items)
  rw [(run_items items _).1 h, ← hpos]
  exact Function.update_self _ _ _

/-- If not, there is what was there. -/
theorem run_end_old (h : ¬EndsInString items) (str : Mem) :
    (items.foldl Item.run ⟨str, 0⟩).mem (expansion items).length =
      str (expansion items).length := by
  rw [(run_items items _).2 h, start_emit_mem, Mem.blit_out (by omega)]

/-- Only a character can be a zero. -/
theorem zero_mem_expansion (hok : ∀ item ∈ items, item.Ok) :
    0 ∈ expansion items ↔ ∃ w, Item.chr w ∈ items ∧ w.toUInt8 = 0 := by
  rw [expansion, List.mem_flatMap]
  constructor
  · intro h
    obtain ⟨item, hmem, hzero⟩ := h
    have hitem := hok item hmem
    cases item with
    | lit c => exact absurd (List.mem_singleton.mp hzero).symm hitem.1
    | str argStr => exact absurd hzero hitem
    | chr w => exact ⟨w, hmem, (List.mem_singleton.mp hzero).symm⟩
    | dec i =>
      rcases List.mem_append.mp hzero with hsign | hdigit
      · split at hsign
        · exact absurd hsign (by decide)
        · exact absurd hsign List.not_mem_nil
      · exact absurd hdigit (zero_not_mem_text (by decide) (by decide) _)
    | hex w => exact absurd hzero (zero_not_mem_text (by decide) (by decide) _)
  · intro h
    obtain ⟨w, hmem, hzero⟩ := h
    exact ⟨.chr w, hmem, List.mem_singleton.mpr hzero.symm⟩

end

/-- **Formatted output.** In a buffer of zeros that is long enough, `vsprintf` leaves the
expansions of the pieces, one behind the other, as a string, and returns its length. -/
theorem vsprintf_expands (items : List Item) (ap : List VaArg) (size : Nat) (str : Mem)
    (hok : ∀ item ∈ items, item.Ok) (hchr : ∀ w, Item.chr w ∈ items → w.toUInt8 ≠ 0)
    (hfit : (expansion items).length < size) (hzero : ∀ i, i < size → str i = 0) :
    ∃ m, vsprintf size str (formatOf items) (argsOf items ++ ap) =
        some ((expansion items).length, m) ∧
      m.Holds (expansion items) ∧ ∀ i, (expansion items).length < i → m i = str i := by
  have hnonzero : 0 ∉ expansion items := by
    rw [zero_mem_expansion hok]
    intro h
    obtain ⟨w, hmem, hw⟩ := h
    exact hchr w hmem hw
  have hend : (items.foldl Item.run ⟨str, 0⟩).mem (expansion items).length = 0 := by
    by_cases hstr : EndsInString items
    · exact run_end hstr str
    · rw [run_end_old hstr str]
      exact hzero _ hfit
  have hholds : (items.foldl Item.run ⟨str, 0⟩).mem.Holds (expansion items) := by
    refine Mem.holds_iff.mpr ⟨fun i hi => ?_, hnonzero⟩
    rcases Nat.lt_or_eq_of_le hi with hlt | rfl
    · exact run_bytes items str hlt
    · rw [hend, List.getD_eq_default _ _ (Nat.le_refl _)]
  refine ⟨_, ?_, hholds, fun i hi => run_out items str hi⟩
  rw [vsprintf_items hok, Mem.strlen_eq_some.mpr ⟨hfit, hholds.2⟩]
  rfl

/-- `"a%d%s%c%x"` with the least number, `"x"`, `'B'` and `0xfa0`. -/
theorem vsprintf_expands_all :
    ∃ m, vsprintf 64 Mem.zero [97, 37, 100, 37, 115, 37, 99, 37, 120]
        [.word 0x80000000, .str [120], .word 66, .word 0xfa0] = some (17, m) ∧
      m.Holds [97, 45, 50, 49, 52, 55, 52, 56, 51, 54, 52, 56, 120, 66, 70, 65, 48] := by
  have hall : expansion [.lit 97, .dec (-2147483648), .str [120], .chr 66, .hex 0xfa0] =
      [97, 45, 50, 49, 52, 55, 52, 56, 51, 54, 52, 56, 120, 66, 70, 65, 48] := by decide
  obtain ⟨m, hrun, hholds, -⟩ := vsprintf_expands
    [.lit 97, .dec (-2147483648), .str [120], .chr 66, .hex 0xfa0] [] 64 Mem.zero
    (by simp [Item.Ok, percent]) (by simp) (by rw [hall]; decide) fun _ _ => rfl
  rw [hall] at hrun hholds
  exact ⟨m, hrun, hholds⟩

end OsCore.Stdio
