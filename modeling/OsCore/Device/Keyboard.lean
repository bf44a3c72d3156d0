import Mathlib.Logic.Function.Basic
import OsCore.Device.Ioqueue

/-!
# The keyboard's interrupt handler (`device/keyboard.c`)

The controller raises one interrupt for each byte of a scan code. Pressing a key
sends its make code, releasing it the same byte with bit 7 set, and the keys added
to the original keyboard send `0xe0` in front of either, which the handler keeps
in `ext_scancode` until the next interrupt. The other flags record whether a
shift, a ctrl and an alt key are down.

There are two keys of each kind and one flag for both. A press of either sets the
flag and a release of either clears it (`deliver_status`), so the flag is that of
the last code of the pair (`status_after`). It says whether one of the two is down
except where the last code of the pair was a release while the other was down
(`EarlyRelease`): `modifiers_follow_keys_iff`.
-/

namespace OsCore.Device

/-! ## The code -/

def ctrlLMake : UInt16 := 0x1d
def ctrlRMake : UInt16 := 0xe01d
def shiftLMake : UInt16 := 0x2a
def shiftRMake : UInt16 := 0x36
def altLMake : UInt16 := 0x38
def altRMake : UInt16 := 0xe038
def capsLockMake : UInt16 := 0x3a

/-- The characters of the keys, by make code, without and with shift. -/
def keymap : List (Char × Char) := [
  ('\x00', '\x00'), ('\x1b', '\x1b'), ('1', '!'), ('2', '@'), ('3', '#'), ('4', '$'),
  ('5', '%'), ('6', '^'), ('7', '&'), ('8', '*'), ('9', '('), ('0', ')'), ('-', '_'),
  ('=', '+'), ('\x08', '\x08'), ('\t', '\t'), ('q', 'Q'), ('w', 'W'), ('e', 'E'),
  ('r', 'R'), ('t', 'T'), ('y', 'Y'), ('u', 'U'), ('i', 'I'), ('o', 'O'), ('p', 'P'),
  ('[', '\x7b'), (']', '\x7d'), ('\r', '\r'), ('\x00', '\x00'), ('a', 'A'), ('s', 'S'),
  ('d', 'D'), ('f', 'F'), ('g', 'G'), ('h', 'H'), ('j', 'J'), ('k', 'K'), ('l', 'L'),
  (';', ':'), ('\x27', '\x22'), ('\x60', '~'), ('\x00', '\x00'), ('\x5c', '|'), ('z', 'Z'),
  ('x', 'X'), ('c', 'C'), ('v', 'V'), ('b', 'B'), ('n', 'N'), ('m', 'M'), (',', '<'),
  ('.', '>'), ('/', '?'), ('\x00', '\x00'), ('*', '*'), ('\x00', '\x00'), (' ', ' '),
  ('\x00', '\x00')]

/-- The static variables of the file. -/
structure Keyboard where
  ctrlStatus : Bool
  shiftStatus : Bool
  altStatus : Bool
  capsLockStatus : Bool
  extScancode : Bool
  kbdBuf : Ioqueue

/-- What an interrupt leaves: the variables, the reader of `kbd_buf` it wakes up,
and what it prints. -/
structure Handled where
  kbd : Keyboard
  wakes : Option Nat
  prints : String

/-- The branch of a break code. -/
def keyReleased (makeCode : UInt16) (kbd : Keyboard) : Keyboard :=
  if makeCode = ctrlLMake ∨ makeCode = ctrlRMake then
    { kbd with ctrlStatus := false }
  else if makeCode = shiftLMake ∨ makeCode = shiftRMake then
    { kbd with shiftStatus := false }
  else if makeCode = altLMake ∨ makeCode = altRMake then
    { kbd with altStatus := false }
  else kbd

/-- The row of `keymap` a key with two characters of its own is read from, and a
letter, which caps lock turns too. -/
def withShift (scancode : UInt16) (kbd : Keyboard) : Bool :=
  if scancode < 0x0e ∨ scancode = 0x29 ∨ scancode = 0x1a ∨ scancode = 0x1b ∨
      scancode = 0x2b ∨ scancode = 0x27 ∨ scancode = 0x28 ∨ scancode = 0x33 ∨
      scancode = 0x34 ∨ scancode = 0x35 then
    kbd.shiftStatus
  else if kbd.shiftStatus ∧ kbd.capsLockStatus then false
  else kbd.shiftStatus || kbd.capsLockStatus

/-- The end of the branch of a make code: one of the keys that have no character. -/
def keyHeld (scancode : UInt16) (kbd : Keyboard) : Keyboard :=
  if scancode = ctrlLMake ∨ scancode = ctrlRMake then
    { kbd with ctrlStatus := true }
  else if scancode = shiftLMake ∨ scancode = shiftRMake then
    { kbd with shiftStatus := true }
  else if scancode = altLMake ∨ scancode = altRMake then
    { kbd with altStatus := true }
  else if scancode = capsLockMake then
    { kbd with capsLockStatus := !kbd.capsLockStatus }
  else kbd

/-- `keymap[index][shift]` -/
def charAt (index : Nat) (shift : Bool) : Char :=
  let chars := keymap.getD index ('\x00', '\x00')
  if shift then chars.2 else chars.1

/-- A character goes to the buffer, `ctrl+l` and `ctrl+u` as control bytes. -/
def keyTyped (curChar : Char) (kbd : Keyboard) : Handled :=
  let byte := if kbd.ctrlStatus ∧ (curChar = 'l' ∨ curChar = 'u')
    then curChar.toUInt8 - 'a'.toUInt8 else curChar.toUInt8
  if ioqFull kbd.kbdBuf then ⟨kbd, none, ""⟩
  else
    let (kbdBuf, woken) := storeByte kbd.kbdBuf byte
    ⟨{ kbd with kbdBuf }, woken, ""⟩

/-- The branch of a make code. -/
def keyPressed (scancode : UInt16) (kbd : Keyboard) : Handled :=
  let shift := withShift scancode kbd
  let scancode := scancode &&& 0x00ff
  let curChar := charAt scancode.toNat shift
  if curChar ≠ '\x00' then keyTyped curChar kbd else ⟨keyHeld scancode kbd, none, ""⟩

/-- `intr_keyboard_handler`, with the byte it reads from the controller. -/
def intrKeyboardHandler (kbd : Keyboard) (byte : UInt8) : Handled :=
  let scancode := byte.toUInt16
  if scancode = 0xe0 then ⟨{ kbd with extScancode := true }, none, ""⟩
  else
    let scancode := if kbd.extScancode then 0xe000 ||| scancode else scancode
    let kbd := { kbd with extScancode := false }
    if scancode &&& 0x0080 ≠ 0 then
      ⟨keyReleased (scancode &&& 0xff7f) kbd, none, ""⟩
    else if (scancode > 0x00 ∧ scancode < 0x3b) ∨ scancode = altRMake ∨ scancode = ctrlRMake then
      keyPressed scancode kbd
    else ⟨kbd, none, "unknown key\n"⟩

/-- `keyboard_init`, over variables that the loader has cleared. -/
def keyboardInit (kbdBuf : Ioqueue) : Keyboard :=
  ⟨false, false, false, false, false, ioqueueInit kbdBuf⟩

/-! ## Keys and their codes -/

/-- The three kinds of keys of which there are two. -/
inductive Modifier
  | shift
  | ctrl
  | alt
  deriving DecidableEq

/-- The code of a key that is no modifier: a make code, alone or behind `0xe0`; the
handler leaves out longer codes. A key with the make code `0x60` could not be
released, its break code being `0xe0`. -/
structure PlainCode where
  extended : Bool
  make : UInt8
  isMake : make < 0x80 ∧ make ≠ 0x60
  notModifier : make ≠ 0x1d ∧ make ≠ 0x38 ∧ (extended = false → make ≠ 0x2a ∧ make ≠ 0x36)
  deriving DecidableEq

inductive Key
  /-- one of the two keys of a kind -/
  | modifier (m : Modifier) (right : Bool)
  | plain (code : PlainCode)
  deriving DecidableEq

def Key.extended : Key → Bool
  | .modifier .shift _ => false
  | .modifier _ right => right
  | .plain code => code.extended

def Key.make : Key → UInt8
  | .modifier .shift false => 0x2a
  | .modifier .shift true => 0x36
  | .modifier .ctrl _ => 0x1d
  | .modifier .alt _ => 0x38
  | .plain code => code.make

def Key.kind : Key → Option Modifier
  | .modifier m _ => some m
  | .plain _ => none

/-- A key goes down, or up. A key held down long enough goes down again and again. -/
structure KeyEvent where
  key : Key
  down : Bool
  deriving DecidableEq

/-- The bytes the controller sends for an event. -/
def KeyEvent.codes (e : KeyEvent) : List UInt8 :=
  (if e.key.extended then [0xe0] else []) ++
    [if e.down then e.key.make else e.key.make ||| 0x80]

/-- The interrupts of an event. -/
def deliver (kbd : Keyboard) (e : KeyEvent) : Keyboard :=
  e.codes.foldl (fun kbd byte => (intrKeyboardHandler kbd byte).kbd) kbd

/-- The keyboard after a stream of events since `keyboard_init`. -/
def keyboardAfter (kbdBuf : Ioqueue) (es : List KeyEvent) : Keyboard :=
  es.foldl deliver (keyboardInit kbdBuf)

/-- The keys that are down after a stream of events, none being so before it. -/
def heldAfter (es : List KeyEvent) : Key → Bool :=
  es.foldl (fun held e => Function.update held e.key e.down) (fun _ => false)

def Keyboard.status (kbd : Keyboard) : Modifier → Bool
  | .shift => kbd.shiftStatus
  | .ctrl => kbd.ctrlStatus
  | .alt => kbd.altStatus

/-! ## What one event does to the flags -/

/-- The flags alone: what the handler does to them does not depend on the rest. -/
def Keyboard.SameFlags (kbd kbd' : Keyboard) : Prop :=
  kbd'.extScancode = kbd.extScancode ∧ ∀ m, kbd'.status m = kbd.status m

/-- A flag that is neither set nor cleared: the code is none of the six. -/
def NotModifier (scancode : UInt16) : Prop :=
  scancode ≠ ctrlLMake ∧ scancode ≠ ctrlRMake ∧ scancode ≠ shiftLMake ∧ scancode ≠ shiftRMake ∧
    scancode ≠ altLMake ∧ scancode ≠ altRMake

instance (scancode : UInt16) : Decidable (NotModifier scancode) :=
  inferInstanceAs (Decidable (_ ∧ _))

section

variable {kbd : Keyboard} {scancode : UInt16}

theorem keyReleased_of_not (h : NotModifier scancode) : keyReleased scancode kbd = kbd := by
  obtain ⟨h1, h2, h3, h4, h5, h6⟩ := h
  rw [keyReleased, if_neg (by simp [h1, h2]), if_neg (by simp [h3, h4]), if_neg (by simp [h5, h6])]

theorem keyHeld_of_not (h : NotModifier scancode) : kbd.SameFlags (keyHeld scancode kbd) := by
  obtain ⟨h1, h2, h3, h4, h5, h6⟩ := h
  rw [keyHeld, if_neg (by simp [h1, h2]), if_neg (by simp [h3, h4]), if_neg (by simp [h5, h6])]
  split
  · exact ⟨rfl, fun m => by cases m <;> rfl⟩
  · exact ⟨rfl, fun _ => rfl⟩

theorem keyTyped_sameFlags (curChar : Char) : kbd.SameFlags (keyTyped curChar kbd).kbd := by
  rw [keyTyped]
  split
  · exact ⟨rfl, fun _ => rfl⟩
  · exact ⟨rfl, fun m => by cases m <;> rfl⟩

theorem keyPressed_of_not (h : NotModifier (scancode &&& 0x00ff)) :
    kbd.SameFlags (keyPressed scancode kbd).kbd := by
  rw [keyPressed]
  split
  · exact keyTyped_sameFlags _
  · exact keyHeld_of_not h

/-- A key without characters goes to the chain behind. -/
theorem keyPressed_of_silent (h : ∀ shift, charAt (scancode &&& 0x00ff).toNat shift = '\x00') :
    (keyPressed scancode kbd).kbd = keyHeld (scancode &&& 0x00ff) kbd := by
  rw [keyPressed, if_neg (not_not_intro (h _))]

end

/-- The two bytes of an extended key as the handler puts them together. -/
def scanCode (extended : Bool) (byte : UInt8) : UInt16 :=
  if extended then 0xe000 ||| byte.toUInt16 else byte.toUInt16

/-- The code is for a key that the branch of make codes looks at. -/
def InTable (scancode : UInt16) : Prop :=
  (scancode > 0x00 ∧ scancode < 0x3b) ∨ scancode = altRMake ∨ scancode = ctrlRMake

instance (scancode : UInt16) : Decidable (InTable scancode) :=
  inferInstanceAs (Decidable (_ ∨ _))

theorem forall_byte {p : UInt8 → Prop} (h : ∀ n : Fin 256, p (UInt8.ofFin n)) (c : UInt8) : p c :=
  h c.toFin

/-- What the masks of the handler do to the codes of a key. -/
theorem scanCode_masks : ∀ (extended : Bool) (c : UInt8), c < 0x80 → c ≠ 0x60 →
    (c.toUInt16 ≠ 0xe0 ∧ scanCode extended c &&& 0x0080 = 0) ∧
    ((c ||| 0x80).toUInt16 ≠ 0xe0 ∧ scanCode extended (c ||| 0x80) &&& 0x0080 ≠ 0) ∧
      scanCode extended (c ||| 0x80) &&& 0xff7f = scanCode extended c := by
  intro extended
  cases extended <;> exact forall_byte (by decide +kernel)

/-- The make code of a plain key is none of the six, and if it is looked up in the
table, it has no byte in front. -/
theorem scanCode_plain : ∀ (extended : Bool) (c : UInt8), c < 0x80 →
    (c ≠ 0x1d ∧ c ≠ 0x38 ∧ (extended = false → c ≠ 0x2a ∧ c ≠ 0x36)) →
      NotModifier (scanCode extended c) ∧
        (InTable (scanCode extended c) → NotModifier (scanCode extended c &&& 0x00ff)) := by
  intro extended
  cases extended <;> exact forall_byte (by decide +kernel)

theorem Key.make_isMake (k : Key) : k.make < 0x80 ∧ k.make ≠ 0x60 := by
  cases k with
  | modifier m right => cases m <;> cases right <;> decide
  | plain code => exact code.isMake

def Key.scanCode (k : Key) : UInt16 := Device.scanCode k.extended k.make

theorem handler_prefix (kbd : Keyboard) :
    (intrKeyboardHandler kbd 0xe0).kbd = { kbd with extScancode := true } := rfl

theorem handler_eq (kbd : Keyboard) {byte : UInt8} (hne : byte.toUInt16 ≠ 0xe0) :
    (intrKeyboardHandler kbd byte).kbd =
      if scanCode kbd.extScancode byte &&& 0x0080 ≠ 0 then
        keyReleased (scanCode kbd.extScancode byte &&& 0xff7f) { kbd with extScancode := false }
      else if InTable (scanCode kbd.extScancode byte) then
        (keyPressed (scanCode kbd.extScancode byte) { kbd with extScancode := false }).kbd
      else { kbd with extScancode := false } := by
  rw [intrKeyboardHandler, if_neg hne, apply_ite Handled.kbd, apply_ite Handled.kbd]
  rfl

/-- The interrupt of the last byte of an event. -/
theorem deliver_eq {kbd : Keyboard} (h : kbd.extScancode = false) (e : KeyEvent) :
    deliver kbd e = (intrKeyboardHandler { kbd with extScancode := e.key.extended }
      (if e.down then e.key.make else e.key.make ||| 0x80)).kbd := by
  rw [deliver, KeyEvent.codes]
  cases hext : e.key.extended with
  | true => simp only [if_pos, List.cons_append, List.nil_append, List.foldl_cons, List.foldl_nil,
      handler_prefix]
  | false =>
    have hkbd : { kbd with extScancode := false } = kbd := by rw [← h]
    rw [hkbd]
    simp

theorem deliver_up {kbd : Keyboard} (h : kbd.extScancode = false) (k : Key) :
    deliver kbd ⟨k, false⟩ = keyReleased k.scanCode kbd := by
  obtain ⟨-, ⟨hne, hbit⟩, hmake⟩ := scanCode_masks k.extended k.make k.make_isMake.1 k.make_isMake.2
  have hkbd : { kbd with extScancode := false } = kbd := by rw [← h]
  rw [deliver_eq h]
  refine (handler_eq _ hne).trans ?_
  rw [if_pos hbit, hmake]
  exact congrArg (keyReleased k.scanCode) hkbd

theorem deliver_down {kbd : Keyboard} (h : kbd.extScancode = false) (k : Key) :
    deliver kbd ⟨k, true⟩ =
      if InTable k.scanCode then (keyPressed k.scanCode kbd).kbd else kbd := by
  obtain ⟨⟨hne, hbit⟩, -, -⟩ := scanCode_masks k.extended k.make k.make_isMake.1 k.make_isMake.2
  have hkbd : { kbd with extScancode := false } = kbd := by rw [← h]
  rw [deliver_eq h]
  refine (handler_eq _ hne).trans ?_
  rw [if_neg (not_not_intro hbit)]
  dsimp only
  rw [hkbd]
  rfl

/-- Both keys of a kind set and clear its flag, and no other. -/
theorem deliver_modifier {kbd : Keyboard} (h : kbd.extScancode = false) (m : Modifier)
    (right down : Bool) :
    (deliver kbd ⟨.modifier m right, down⟩).extScancode = false ∧
      ∀ m', (deliver kbd ⟨.modifier m right, down⟩).status m' =
        if m = m' then down else kbd.status m' := by
  cases down with
  | false =>
    rw [deliver_up h]
    cases m <;> cases right <;> exact ⟨h, fun m' => by cases m' <;> rfl⟩
  | true =>
    have hin : InTable (Key.modifier m right).scanCode := by
      cases m <;> cases right <;> decide
    have hsilent : ∀ shift,
        charAt ((Key.modifier m right).scanCode &&& 0x00ff).toNat shift = '\x00' := by
      cases m <;> cases right <;> decide
    rw [deliver_down h, if_pos hin, keyPressed_of_silent hsilent]
    cases m <;> cases right <;> exact ⟨h, fun m' => by cases m' <;> rfl⟩

/-- No other key touches a flag. -/
theorem deliver_plain {kbd : Keyboard} (h : kbd.extScancode = false) (code : PlainCode)
    (down : Bool) : kbd.SameFlags (deliver kbd ⟨.plain code, down⟩) := by
  have hcode := scanCode_plain code.extended code.make code.isMake.1 code.notModifier
  obtain ⟨hnot, hmasked⟩ : NotModifier (Key.plain code).scanCode ∧
    (InTable (Key.plain code).scanCode →
      NotModifier ((Key.plain code).scanCode &&& 0x00ff)) := hcode
  cases down with
  | false =>
    rw [deliver_up h, keyReleased_of_not hnot]
    exact ⟨rfl, fun _ => rfl⟩
  | true =>
    rw [deliver_down h]
    split
    · next hin => exact keyPressed_of_not (hmasked hin)
    · exact ⟨rfl, fun _ => rfl⟩

/-- **One event**: the flag of the key's kind says whether it went down, and the
others stay. -/
theorem deliver_status {kbd : Keyboard} (h : kbd.extScancode = false) (e : KeyEvent) :
    (deliver kbd e).extScancode = false ∧
      ∀ m, (deliver kbd e).status m = if e.key.kind = some m then e.down else kbd.status m := by
  obtain ⟨key, down⟩ := e
  cases key with
  | modifier m right =>
    obtain ⟨hext, hstatus⟩ := deliver_modifier h m right down
    refine ⟨hext, fun m' => ?_⟩
    rw [hstatus m']
    simp [Key.kind]
  | plain code =>
    obtain ⟨hext, hstatus⟩ := deliver_plain h code down
    exact ⟨hext.trans h, hstatus⟩

/-! ## Streams of events -/

theorem keyboardAfter_snoc (kbdBuf : Ioqueue) (es : List KeyEvent) (e : KeyEvent) :
    keyboardAfter kbdBuf (es ++ [e]) = deliver (keyboardAfter kbdBuf es) e := by
  rw [keyboardAfter, List.foldl_append, List.foldl_cons, List.foldl_nil, keyboardAfter]

theorem heldAfter_snoc (es : List KeyEvent) (e : KeyEvent) :
    heldAfter (es ++ [e]) = Function.update (heldAfter es) e.key e.down := by
  rw [heldAfter, List.foldl_append, List.foldl_cons, List.foldl_nil, heldAfter]

theorem keyboardAfter_ext (kbdBuf : Ioqueue) (es : List KeyEvent) :
    (keyboardAfter kbdBuf es).extScancode = false := by
  induction es using List.reverseRecOn with
  | nil => rfl
  | append_singleton es e ih =>
    rw [keyboardAfter_snoc]
    exact (deliver_status ih e).1

/-- The flag of a kind after one event more. -/
theorem status_snoc (kbdBuf : Ioqueue) (es : List KeyEvent) (e : KeyEvent) (m : Modifier) :
    (keyboardAfter kbdBuf (es ++ [e])).status m =
      if e.key.kind = some m then e.down else (keyboardAfter kbdBuf es).status m := by
  rw [keyboardAfter_snoc]
  exact (deliver_status (keyboardAfter_ext kbdBuf es) e).2 m

/-- The other key of a kind. -/
def Key.partner : Key → Key
  | .modifier m right => .modifier m !right
  | .plain code => .plain code

/-- The last event of the two keys of a kind let one go while the other was down. -/
def EarlyRelease (m : Modifier) (es : List KeyEvent) : Prop :=
  ∃ before key after, es = before ++ ⟨key, false⟩ :: after ∧ key.kind = some m ∧
    heldAfter before key.partner = true ∧ ∀ e ∈ after, e.key.kind ≠ some m

/-- The flag of a kind says whether one of its two keys is down. -/
def FlagFollows (m : Modifier) (es : List KeyEvent) (kbd : Keyboard) : Prop :=
  kbd.status m = true ↔ ∃ key : Key, key.kind = some m ∧ heldAfter es key = true

theorem earlyRelease_snoc_other {m : Modifier} {es : List KeyEvent} {e : KeyEvent}
    (hother : e.key.kind ≠ some m) : EarlyRelease m (es ++ [e]) ↔ EarlyRelease m es := by
  constructor
  · intro hearly
    obtain ⟨before, key, after, heq, hkind, hheld, hafter⟩ := hearly
    rcases List.eq_nil_or_concat' after with rfl | ⟨after, e', rfl⟩
    · obtain ⟨-, hlast⟩ := List.append_inj' heq rfl
      cases hlast
      exact absurd hkind hother
    · rw [← List.cons_append, ← List.append_assoc] at heq
      obtain ⟨hes, -⟩ := List.append_inj' heq rfl
      exact ⟨before, key, after, hes, hkind, hheld,
        fun e he => hafter e (List.mem_append_left _ he)⟩
  · intro hearly
    obtain ⟨before, key, after, rfl, hkind, hheld, hafter⟩ := hearly
    refine ⟨before, key, after ++ [e], by simp, hkind, hheld, fun e' he' => ?_⟩
    rcases List.mem_append.mp he' with he' | he'
    · exact hafter e' he'
    · rw [List.mem_singleton.mp he']
      exact hother

theorem earlyRelease_snoc_same {m : Modifier} {es : List KeyEvent} {e : KeyEvent}
    (hsame : e.key.kind = some m) :
    EarlyRelease m (es ++ [e]) ↔ e.down = false ∧ heldAfter es e.key.partner = true := by
  constructor
  · intro hearly
    obtain ⟨before, key, after, heq, hkind, hheld, hafter⟩ := hearly
    rcases List.eq_nil_or_concat' after with rfl | ⟨after, e', rfl⟩
    · obtain ⟨hes, hlast⟩ := List.append_inj' heq rfl
      cases hlast
      rw [hes]
      exact ⟨rfl, hheld⟩
    · rw [← List.cons_append, ← List.append_assoc] at heq
      obtain ⟨-, hlast⟩ := List.append_inj' heq rfl
      cases hlast
      exact absurd hsame (hafter e (by simp))
  · intro hlast
    obtain ⟨hup, hheld⟩ := hlast
    obtain ⟨key, down⟩ := e
    cases hup
    exact ⟨es, key, [], rfl, hsame, hheld, fun _ he => absurd he List.not_mem_nil⟩

/-- Of one kind are a key and its partner. -/
theorem Key.eq_or_partner {key key' : Key} {m : Modifier} (h : key.kind = some m)
    (h' : key'.kind = some m) : key' = key ∨ key' = key.partner ∧ key.partner ≠ key := by
  cases key with
  | plain code => cases h
  | modifier m₁ right =>
    cases key' with
    | plain code => cases h'
    | modifier m₂ right' =>
      cases h
      cases h'
      cases right <;> cases right' <;> simp [Key.partner]

theorem Key.partner_kind {key : Key} {m : Modifier} (h : key.kind = some m) :
    key.partner.kind = some m ∧ key.partner ≠ key := by
  cases key with
  | plain code => cases h
  | modifier m right =>
    refine ⟨h, ?_⟩
    cases right <;> simp [Key.partner]

/-- **A flag is right but for early releases.** -/
theorem flagFollows_iff (kbdBuf : Ioqueue) (es : List KeyEvent) (m : Modifier) :
    FlagFollows m es (keyboardAfter kbdBuf es) ↔ ¬ EarlyRelease m es := by
  induction es using List.reverseRecOn with
  | nil =>
    have hnone : ¬ EarlyRelease m [] := by
      intro hearly
      obtain ⟨before, key, after, heq, -⟩ := hearly
      simp at heq
    simp only [hnone, not_false_eq_true, iff_true, FlagFollows]
    constructor
    · intro h
      cases m <;> cases h
    · intro hkey
      obtain ⟨key, -, h⟩ := hkey
      cases h
  | append_singleton es e ih =>
    rw [FlagFollows, status_snoc, heldAfter_snoc]
    by_cases hkind : e.key.kind = some m
    · rw [if_pos hkind, earlyRelease_snoc_same hkind]
      cases hdown : e.down with
      | true =>
        refine iff_of_true (iff_of_true rfl ⟨e.key, hkind, ?_⟩) (fun h => by cases h.1)
        rw [Function.update_self]
      | false =>
        -- the key let go is up, so that the other one decides
        have hpair := Key.partner_kind hkind
        have hother : (∃ key : Key, key.kind = some m ∧
            Function.update (heldAfter es) e.key false key = true) ↔
              heldAfter es e.key.partner = true := by
          constructor
          · intro hkey
            obtain ⟨key, hk, hheld⟩ := hkey
            obtain rfl | ⟨rfl, hne⟩ := Key.eq_or_partner hkind hk
            · rw [Function.update_self] at hheld
              cases hheld
            · rwa [Function.update_of_ne hne] at hheld
          · intro hheld
            refine ⟨e.key.partner, hpair.1, ?_⟩
            rwa [Function.update_of_ne hpair.2]
        rw [hother]
        simp
    · have hsame : (∃ key : Key, key.kind = some m ∧
          Function.update (heldAfter es) e.key e.down key = true) ↔
            ∃ key : Key, key.kind = some m ∧ heldAfter es key = true := by
        refine exists_congr fun key => and_congr_right fun hk => ?_
        have hne : key ≠ e.key := by
          intro he
          exact hkind (he ▸ hk)
        rw [Function.update_of_ne hne]
      rw [if_neg hkind, hsame, earlyRelease_snoc_other hkind]
      exact ih

/-- **The modifier flags follow the keys** after exactly those streams of make and
break codes in which no kind's last code releases one of its keys while the other
is down. -/
theorem modifiers_follow_keys_iff (kbdBuf : Ioqueue) (es : List KeyEvent) :
    (∀ m, FlagFollows m es (keyboardAfter kbdBuf es)) ↔ ∀ m, ¬ EarlyRelease m es :=
  forall_congr' fun m => flagFollows_iff kbdBuf es m

/-- Both shift keys go down and the left one up again: `0x2a`, `0x36`, `0xaa`. -/
def leftShiftFirst : List KeyEvent :=
  [⟨.modifier .shift false, true⟩, ⟨.modifier .shift true, true⟩, ⟨.modifier .shift false, false⟩]

example : leftShiftFirst.flatMap KeyEvent.codes = [0x2a, 0x36, 0xaa] := by decide

/-- The right shift is still down, and `shift_status` is false. -/
theorem shift_lost : ¬ ∀ (kbdBuf : Ioqueue) (es : List KeyEvent) (m : Modifier),
    FlagFollows m es (keyboardAfter kbdBuf es) := by
  intro h
  have hright : ∃ key : Key, key.kind = some .shift ∧ heldAfter leftShiftFirst key = true :=
    ⟨.modifier .shift true, rfl, by decide⟩
  have hflag : (keyboardAfter rawQueue leftShiftFirst).status .shift = true :=
    (h rawQueue leftShiftFirst .shift).mpr hright
  have hclear : (keyboardAfter rawQueue leftShiftFirst).status .shift = false := rfl
  rw [hclear] at hflag
  cases hflag

end OsCore.Device
