import OsCore.Lib.Sheet
import OsCore.Stdio

/-!
# The screen (`lib/kernel/print.S`)

`put_char` keeps nothing but what the hardware has: the cells in the video memory and
the cursor in two registers of the CRT controller. The segment of `gs` ends with that
memory (`VIDEO_DESC` in the loader), and an access behind it is a general protection
fault, whose handler does not return: `none` here.

What the screen is for is in `Lib/Sheet`: a window of 25 lines over everything that was
ever printed. `Shown` ties the two together, and `putChar_shown` is about one character:
it goes wrong in one case only, a backspace at the upper left corner, where the cursor
wraps around to `0xffff`.
-/

namespace OsCore.Print

open Lib

/-! ## The code -/

/-- The video memory at `0xc00b8000`, and the CRT controller: the register that
`0x3d4` selects is behind `0x3d5`. -/
structure Vga where
  mem : Mem
  index : UInt8
  crtc : UInt8 → UInt8

/-- `out dx, al` -/
def Vga.out (v : Vga) (dx : UInt16) (al : UInt8) : Vga :=
  if dx = 0x3d4 then { v with index := al }
  else if dx = 0x3d5 then { v with crtc := Function.update v.crtc v.index al }
  else v

/-- `in al, 0x3d5` -/
def Vga.inData (v : Vga) : UInt8 := v.crtc v.index

/-- `mov byte [gs:ebx], al`: the limit of the segment is `0x7fff`. -/
def Vga.store (v : Vga) (ebx : Nat) (al : UInt8) : Option Vga :=
  if ebx ≤ 0x7fff then some { v with mem := Function.update v.mem ebx al } else none

/-- The cursor, as `put_char` reads it. -/
def getCursor (v : Vga) : UInt16 × Vga :=
  let v := v.out 0x3d4 0x0e
  let ah := v.inData
  let v := v.out 0x3d4 0x0f
  let al := v.inData
  (ah.toUInt16 <<< 8 ||| al.toUInt16, v)

/-- `.set_cursor`, and `set_cursor`. -/
def setCursor (v : Vga) (bx : UInt16) : Vga :=
  let v := v.out 0x3d4 0x0e
  let v := v.out 0x3d5 (bx >>> 8).toUInt8
  let v := v.out 0x3d4 0x0f
  v.out 0x3d5 bx.toUInt8

/-- A character and its attribute at the place `bx`; `bx` is doubled and halved again. -/
def putCell (v : Vga) (bx : UInt16) (cl : UInt8) : Option (UInt16 × Vga) := do
  let bx := bx <<< 1
  let v ← v.store bx.toNat cl
  let bx := bx + 1
  let v ← v.store bx.toNat 0x07
  return (bx >>> 1, v)

/-- `rep movsd` inside the video memory. -/
def repMovsd : Nat → Nat → Nat → Mem → Mem
  | 0, _, _, m => m
  | ecx + 1, esi, edi, m => repMovsd ecx (esi + 4) (edi + 4) (m.blit edi (m.shift esi) 4)

/-- `.cls`: `ecx` words `0x0720` from `ebx` on. -/
def clsLoop : Nat → Nat → Vga → Option Vga
  | 0, _, v => some v
  | ecx + 1, ebx, v => do
    let v ← v.store ebx 0x20
    let v ← v.store (ebx + 1) 0x07
    clsLoop ecx (ebx + 2) v

/-- `.roll_screen` -/
def rollScreen (v : Vga) : Option (UInt16 × Vga) := do
  let v := { v with mem := repMovsd 960 160 0 v.mem }
  let v ← clsLoop 80 3840 v
  return (1920, v)

/-- `.is_line_feed`; the comparison is a signed one. -/
def lineFeed (bx : UInt16) (v : Vga) : Option (UInt16 × Vga) :=
  let dx := bx % 80
  let bx := bx - dx
  let bx := bx + 80
  if bx.toInt16 < 2000 then some (bx, v) else rollScreen v

/-- `put_char` between reading the cursor and setting it. -/
def putAt (bx : UInt16) (v : Vga) (cl : UInt8) : Option (UInt16 × Vga) :=
  if cl = 0x0d then lineFeed bx v
  else if cl = 0x0a then lineFeed bx v
  else if cl = 0x08 then putCell v (bx - 1) 0x20
  else (putCell v bx cl).bind fun (bx, v) =>
    let bx := bx + 1
    if bx.toInt16 < 2000 then some (bx, v) else lineFeed bx v

def putChar (v : Vga) (cl : UInt8) : Option Vga := do
  let (bx, v) := getCursor v
  let (bx, v) ← putAt bx v cl
  return setCursor v bx

/-- `put_str` of a string that has these bytes in front of its terminator. -/
def putStr (v : Vga) (message : List UInt8) : Option Vga := message.foldlM putChar v

def clsScreen (v : Vga) : Option Vga := do
  let v ← clsLoop 2000 0 v
  return setCursor v 0

/-- A digit of `put_int`. -/
def digit (edx : UInt32) : UInt8 :=
  if edx ≤ 9 then (edx + 48).toUInt8 else (edx - 10 + 65).toUInt8

/-- `.16based_4bits`: the digits of `eax` in front of what is in `put_int_buffer`. -/
def digitsLoop : Nat → UInt32 → List UInt8 → List UInt8
  | 0, _, putIntBuffer => putIntBuffer
  | ecx + 1, eax, putIntBuffer =>
    digitsLoop ecx (eax >>> 4) (digit (eax &&& 0x0000000f) :: putIntBuffer)

/-- `.skip_prefix_0`: what is printed of the buffer. -/
def skipPrefix0 : List UInt8 → List UInt8
  | [] => [48]
  | cl :: putIntBuffer => if cl = 48 then skipPrefix0 putIntBuffer else cl :: putIntBuffer

def putInt (v : Vga) (num : UInt32) : Option Vga :=
  (skipPrefix0 (digitsLoop 8 num [])).foldlM putChar v

/-! ## The sheet behind the screen -/

/-- A character and its attribute. -/
abbrev Cell := UInt8 × UInt8

/-- `0x0720` -/
def blank : Cell := (0x20, 0x07)

/-- The place `i` of the screen. -/
def cell (m : Mem) (i : Nat) : Cell := (m (2 * i), m (2 * i + 1))

/-- The cursor in its two registers. -/
def Vga.cursor (v : Vga) : UInt16 := (v.crtc 0x0e).toUInt16 <<< 8 ||| (v.crtc 0x0f).toUInt16

/-- What a character stands for. -/
def tok (c : UInt8) : Tok Cell :=
  if c = 0x0d ∨ c = 0x0a then .newline
  else if c = 0x08 then .back
  else .write (c, 0x07)

/-- The screen shows the lines of the sheet from `t.top` on. -/
structure Shows (m : Mem) (t : Sheet Cell) : Prop where
  cells : ∀ i, i < 2000 → cell m i = t.cells (80 * t.top + i)
  below : ∀ i, 80 * (t.top + 25) ≤ i → t.cells i = blank

/-- The screen shows the window of the sheet, with the cursor in it. -/
structure Shown (v : Vga) (t : Sheet Cell) : Prop extends Shows v.mem t where
  cursor : 80 * t.top + v.cursor.toNat = t.pos
  lt : v.cursor.toNat < 2000

theorem Shown.window {v : Vga} {t : Sheet Cell} (h : Shown v t) : t.Window 80 25 blank := by
  have hcursor := h.cursor
  have hlt := h.lt
  exact ⟨by omega, by omega, h.below⟩

/-! ## Cursor and cells -/

theorem cursor_bytes (bx : UInt16) :
    (bx >>> 8).toUInt8.toUInt16 <<< 8 ||| bx.toUInt8.toUInt16 = bx := by
  have hlt := bx.toNat_lt
  have hlow : bx.toNat % 256 < 2 ^ 8 := Nat.mod_lt _ (by decide)
  rw [← UInt16.toNat_inj]
  simp only [UInt16.toNat_or, UInt16.toNat_shiftLeft, UInt8.toNat_toUInt16, UInt16.toNat_toUInt8,
    UInt16.toNat_shiftRight]
  change (((bx.toNat >>> 8 % 2 ^ 8) <<< 8) % 2 ^ 16) ||| (bx.toNat % 2 ^ 8) = bx.toNat
  rw [Nat.shiftRight_eq_div_pow, Nat.mod_eq_of_lt (by omega), Nat.shiftLeft_eq,
    Nat.mod_eq_of_lt (by omega), Nat.mul_comm, ← Nat.two_pow_add_eq_or_of_lt hlow]
  omega

theorem getCursor_eq (v : Vga) : getCursor v = (v.cursor, { v with index := 0x0f }) := rfl

@[simp] theorem setCursor_mem (v : Vga) (bx : UInt16) : (setCursor v bx).mem = v.mem := rfl

@[simp] theorem setCursor_cursor (v : Vga) (bx : UInt16) : (setCursor v bx).cursor = bx :=
  cursor_bytes bx

/-- A comparison of words that are no negative numbers. -/
theorem signed_lt (bx : UInt16) (h : bx.toNat < 2 ^ 15) : bx.toInt16 < 2000 ↔ bx.toNat < 2000 := by
  rw [Int16.lt_iff_toInt_lt]
  have hint : bx.toInt16.toInt = bx.toNat := BitVec.toInt_eq_toNat_of_lt (by
    change 2 * bx.toNat < 2 ^ 16
    omega)
  rw [hint]
  change (bx.toNat : Int) < 2000 ↔ _
  omega

theorem store_eq {v : Vga} {ebx : Nat} (h : ebx ≤ 0x7fff) (al : UInt8) :
    v.store ebx al = some { v with mem := Function.update v.mem ebx al } := if_pos h

/-- The memory with a character and its attribute at the place `i`. -/
def setCell (m : Mem) (i : Nat) (c : Cell) : Mem :=
  Function.update (Function.update m (2 * i) c.1) (2 * i + 1) c.2

theorem cell_setCell (m : Mem) (i : Nat) (c : Cell) :
    cell (setCell m i c) = Function.update (cell m) i c := by
  funext j
  unfold cell setCell
  by_cases hj : j = i
  · rw [hj, Function.update_self, Function.update_self, Function.update_of_ne (by omega),
      Function.update_self]
  · rw [Function.update_of_ne hj, Function.update_of_ne (by omega), Function.update_of_ne (by omega),
      Function.update_of_ne (by omega), Function.update_of_ne (by omega)]

theorem putCell_eq {bx : UInt16} (h : bx.toNat < 2000) (v : Vga) (cl : UInt8) :
    putCell v bx cl = some (bx, { v with mem := setCell v.mem bx.toNat (cl, 0x07) }) := by
  have hdouble : (bx <<< 1).toNat = 2 * bx.toNat := by
    rw [UInt16.toNat_shiftLeft]
    change bx.toNat <<< 1 % 2 ^ 16 = _
    rw [Nat.shiftLeft_eq]
    omega
  have hinc : (bx <<< 1 + 1).toNat = 2 * bx.toNat + 1 := by
    rw [UInt16.toNat_add, hdouble]
    change (2 * bx.toNat + 1) % 2 ^ 16 = _
    omega
  have hhalf : (bx <<< 1 + 1) >>> 1 = bx := by
    rw [← UInt16.toNat_inj, UInt16.toNat_shiftRight, hinc]
    change (2 * bx.toNat + 1) >>> 1 = _
    rw [Nat.shiftRight_eq_div_pow]
    omega
  change (v.store (bx <<< 1).toNat cl).bind (fun v =>
    (v.store (bx <<< 1 + 1).toNat 0x07).bind fun v => some ((bx <<< 1 + 1) >>> 1, v)) = _
  rw [hdouble, hinc, hhalf, store_eq (by omega), Option.bind_some, store_eq (by omega)]
  rfl

/-! ## Rolling the screen -/

/-- Copying down word by word is copying at once. -/
theorem repMovsd_eq (ecx : Nat) {esi edi : Nat} (hle : edi ≤ esi) (m : Mem) :
    repMovsd ecx esi edi m = m.blit edi (m.shift esi) (4 * ecx) := by
  induction ecx generalizing esi edi m with
  | zero =>
    funext i
    rw [repMovsd, Mem.blit_out (by omega)]
  | succ ecx ih =>
    have hsrc : (m.blit edi (m.shift esi) 4).shift (esi + 4) = (m.shift esi).shift 4 := by
      funext i
      rw [Mem.shift, Mem.blit_out (by omega), Mem.shift, Mem.shift, Nat.add_assoc]
    rw [repMovsd, ih (by omega), hsrc, Mem.blit_append]
    congr 1
    omega

/-- The words `0x0720` in a row. -/
def blanks : Mem := fun i => if i % 2 = 0 then 0x20 else 0x07

theorem clsLoop_eq (ecx : Nat) {ebx : Nat} (h : ebx + 2 * ecx ≤ 0x8000) (v : Vga) :
    clsLoop ecx ebx v = some { v with mem := v.mem.blit ebx blanks (2 * ecx) } := by
  induction ecx generalizing ebx v with
  | zero =>
    have hnone : v.mem.blit ebx blanks (2 * 0) = v.mem := by
      funext i
      rw [Mem.blit_out (by omega)]
    rw [clsLoop, hnone]
  | succ ecx ih =>
    have hword : Function.update (Function.update v.mem ebx 0x20) (ebx + 1) 0x07 =
        v.mem.blit ebx blanks 2 := by
      funext i
      by_cases h0 : i = ebx
      · rw [h0, Function.update_of_ne (by omega), Function.update_self,
          Mem.blit_in (by omega) (by omega), Nat.sub_self]
        rfl
      · by_cases h1 : i = ebx + 1
        · rw [h1, Function.update_self, Mem.blit_in (by omega) (by omega), Nat.add_sub_cancel_left]
          rfl
        · rw [Function.update_of_ne h1, Function.update_of_ne h0, Mem.blit_out (by omega)]
    have hshift : blanks.shift 2 = blanks := by
      funext i
      rw [Mem.shift, blanks, blanks, Nat.add_mod_left]
    have hstep : clsLoop (ecx + 1) ebx v =
        clsLoop ecx (ebx + 2) { v with mem := v.mem.blit ebx blanks 2 } := by
      change (v.store ebx 0x20).bind (fun v =>
        (v.store (ebx + 1) 0x07).bind (clsLoop ecx (ebx + 2))) = _
      rw [store_eq (by omega), Option.bind_some, store_eq (by omega), Option.bind_some, hword]
    have happend := Mem.blit_append v.mem blanks ebx 2 (2 * ecx)
    rw [hshift] at happend
    rw [hstep, ih (by omega), happend, Nat.mul_succ, Nat.add_comm]

/-- The memory after `.roll_screen`. -/
def rolled (m : Mem) : Mem := (m.blit 0 (m.shift 160) 3840).blit 3840 blanks 160

theorem rollScreen_eq (v : Vga) : rollScreen v = some (1920, { v with mem := rolled v.mem }) := by
  rw [rollScreen, repMovsd_eq 960 (by omega), clsLoop_eq 80 (by omega)]
  rfl

theorem cell_rolled_up {i : Nat} (h : i < 1920) (m : Mem) : cell (rolled m) i = cell m (i + 80) := by
  have hbyte : ∀ k, k < 3840 → rolled m k = m (160 + k) := by
    intro k hk
    rw [rolled, Mem.blit_out (by omega), Mem.blit_in (by omega) (by omega), Nat.sub_zero, Mem.shift]
  have h0 : 160 + 2 * i = 2 * (i + 80) := by omega
  have h1 : 160 + (2 * i + 1) = 2 * (i + 80) + 1 := by omega
  rw [cell, hbyte _ (by omega), hbyte _ (by omega), h0, h1, cell]

theorem cell_rolled_last {i : Nat} (h : 1920 ≤ i) (hlt : i < 2000) (m : Mem) :
    cell (rolled m) i = blank := by
  have h0 : (2 * i - 3840) % 2 = 0 := by omega
  have h1 : (2 * i + 1 - 3840) % 2 ≠ 0 := by omega
  rw [cell, rolled, Mem.blit_in (by omega) (by omega), Mem.blit_in (by omega) (by omega), blanks,
    if_pos h0, blanks, if_neg h1, blank]

theorem rolled_beyond {a : Nat} (h : 4000 ≤ a) (m : Mem) : rolled m a = m a := by
  rw [rolled, Mem.blit_out (by omega), Mem.blit_out (by omega)]

/-- The window moves down by a line. -/
theorem Shows.roll {m : Mem} {t : Sheet Cell} (h : Shows m t) :
    Shows (rolled m) (t.moveTo 80 25 (80 * (t.top + 25))) := by
  rw [Sheet.moveTo_next (by omega)]
  refine ⟨fun i hi => ?_, fun i hi => h.below i ?_⟩
  · change cell (rolled m) i = t.cells (80 * (t.top + 1) + i)
    have hplace : 80 * (t.top + 1) + i = 80 * t.top + (i + 80) := by omega
    rw [hplace]
    rcases Nat.lt_or_ge i 1920 with hup | hlast
    · rw [cell_rolled_up hup, h.cells _ (by omega)]
    · rw [cell_rolled_last hlast hi, h.below _ (by omega)]
  · have hi' : 80 * (t.top + 1 + 25) ≤ i := hi
    omega

/-! ## One character -/

/-- The cursor and the memory that go with a sheet, and nothing behind the screen has
changed. -/
def Yields (v : Vga) (t : Sheet Cell) (r : Option (UInt16 × Vga)) : Prop :=
  ∃ bx m, r = some (bx, { v with mem := m }) ∧ Shows m t ∧ bx.toNat < 2000 ∧
    80 * t.top + bx.toNat = t.pos ∧ ∀ a, 4000 ≤ a → m a = v.mem a

section

variable {v : Vga} {t : Sheet Cell} {bx : UInt16}

theorem rollScreen_yields (h : Shows v.mem t) :
    Yields v (t.moveTo 80 25 (80 * (t.top + 25))) (rollScreen v) := by
  refine ⟨1920, rolled v.mem, rollScreen_eq v, h.roll, by decide, ?_, fun a ha =>
    rolled_beyond ha _⟩
  rw [Sheet.moveTo_next (by omega)]
  change 80 * (t.top + 1) + 1920 = 80 * (t.top + 25)
  omega

theorem toNat_next_line (hle : bx.toNat ≤ 2000) :
    (bx - bx % 80 + 80).toNat = bx.toNat - bx.toNat % 80 + 80 := by
  have hmod : (bx % 80).toNat = bx.toNat % 80 := UInt16.toNat_mod _ _
  have hsub : (bx - bx % 80).toNat = bx.toNat - bx.toNat % 80 := by
    rw [UInt16.toNat_sub_of_le _ _ (UInt16.le_iff_toNat_le.mpr (hmod ▸ Nat.mod_le _ _)), hmod]
  rw [UInt16.toNat_add, hsub]
  change (bx.toNat - bx.toNat % 80 + 80) % 2 ^ 16 = _
  omega

theorem lineFeed_roll (h : 1920 ≤ bx.toNat) (hle : bx.toNat ≤ 2000) (v : Vga) :
    lineFeed bx v = rollScreen v := by
  have hnext := toNat_next_line hle
  unfold lineFeed
  simp only [signed_lt (bx - bx % 80 + 80) (by omega)]
  rw [if_neg (by omega)]

theorem lineFeed_yields (h : Shows v.mem t) (hlt : bx.toNat < 2000) {pos : Nat}
    (hpos : 80 * t.top + bx.toNat = pos) :
    Yields v (t.moveTo 80 25 (pos - pos % 80 + 80)) (lineFeed bx v) := by
  have hnext := toNat_next_line (Nat.le_of_lt hlt)
  rcases Nat.lt_or_ge bx.toNat 1920 with hup | hlast
  · have hin : pos - pos % 80 + 80 < 80 * (t.top + 25) := by omega
    rw [Sheet.moveTo_inside hin]
    refine ⟨bx - bx % 80 + 80, v.mem, ?_, ⟨h.cells, h.below⟩, by omega, ?_, fun _ _ => rfl⟩
    · unfold lineFeed
      simp only [signed_lt (bx - bx % 80 + 80) (by omega)]
      rw [if_pos (by omega)]
    · change 80 * t.top + (bx - bx % 80 + 80).toNat = pos - pos % 80 + 80
      omega
  · have hout : pos - pos % 80 + 80 = 80 * (t.top + 25) := by omega
    rw [lineFeed_roll hlast (Nat.le_of_lt hlt), hout]
    exact rollScreen_yields h

/-- A character written inside the window. -/
theorem Shows.setCell (h : Shows v.mem t) {i : Nat} (hi : i < 2000) (c : Cell) (pos : Nat) :
    Shows (setCell v.mem i c) ⟨Function.update t.cells (80 * t.top + i) c, pos, t.top⟩ := by
  refine ⟨fun j hj => ?_, fun j hj => ?_⟩
  · rw [cell_setCell]
    by_cases heq : j = i
    · rw [heq, Function.update_self]
      exact (Function.update_self (80 * t.top + i) c t.cells).symm
    · have hne : 80 * t.top + j ≠ 80 * t.top + i := by omega
      rw [Function.update_of_ne heq, h.cells j hj]
      exact (Function.update_of_ne hne c t.cells).symm
  · have hj' : 80 * (t.top + 25) ≤ j := hj
    have hne : j ≠ 80 * t.top + i := by omega
    exact (Function.update_of_ne hne c t.cells).trans (h.below j hj')

theorem setCell_beyond {a i : Nat} (ha : 4000 ≤ a) (hi : i < 2000) (m : Mem) (c : Cell) :
    setCell m i c a = m a := by
  rw [Print.setCell, Function.update_of_ne (by omega), Function.update_of_ne (by omega)]

/-- The byte behind the cursor is out of the segment. -/
theorem putCell_wraps (h : bx = 0) (v : Vga) (cl : UInt8) : putCell v (bx - 1) cl = none := by
  rw [h]
  rfl

/-- **One character on the sheet and on the screen.** -/
theorem putAt_yields (h : Shows v.mem t) (hlt : bx.toNat < 2000)
    (hpos : 80 * t.top + bx.toNat = t.pos) {cl : UInt8}
    (hstay : tok cl = .back → 80 * t.top < t.pos) :
    Yields v (t.put 80 25 blank (tok cl)) (putAt bx v cl) := by
  unfold putAt tok
  by_cases hcr : cl = 0x0d
  · rw [if_pos hcr, if_pos (Or.inl hcr)]
    exact lineFeed_yields h hlt hpos
  by_cases hlf : cl = 0x0a
  · rw [if_neg hcr, if_pos hlf, if_pos (Or.inr hlf)]
    exact lineFeed_yields h hlt hpos
  have hno : ¬(cl = 0x0d ∨ cl = 0x0a) := fun hc => hc.elim hcr hlf
  rw [if_neg hcr, if_neg hlf, if_neg hno]
  by_cases hbs : cl = 0x08
  · have htok : tok cl = .back := by rw [tok, if_neg hno, if_pos hbs]
    have hpre : (bx - 1).toNat = bx.toNat - 1 :=
      UInt16.toNat_sub_of_le _ _ (UInt16.le_iff_toNat_le.mpr (by have := hstay htok; change 1 ≤ _; omega))
    have hplace : t.pos - 1 = 80 * t.top + (bx.toNat - 1) := by
      have hback := hstay htok
      omega
    rw [if_pos hbs, if_pos hbs, putCell_eq (by omega), hpre]
    refine ⟨bx - 1, _, rfl, ?_, by omega, ?_, fun a ha => setCell_beyond ha (by omega) _ _⟩
    · rw [Sheet.put, hplace]
      exact h.setCell (i := bx.toNat - 1) (by omega) blank _
    · change 80 * t.top + (bx - 1).toNat = t.pos - 1
      omega
  · have hinc : (bx + 1).toNat = bx.toNat + 1 := by
      rw [UInt16.toNat_add]
      change (bx.toNat + 1) % 2 ^ 16 = _
      omega
    have hcell := h.setCell hlt (cl, 0x07)
    rw [hpos] at hcell
    rw [if_neg hbs, if_neg hbs, putCell_eq hlt, Option.bind_some, Sheet.put]
    simp only [signed_lt (bx + 1) (by omega), hinc]
    split
    next hin =>
      rw [Sheet.moveTo_inside (by change t.pos + 1 < 80 * (t.top + 25); omega)]
      refine ⟨bx + 1, _, rfl, hcell _, by omega, ?_, fun a ha => setCell_beyond ha hlt _ _⟩
      change 80 * t.top + (bx + 1).toNat = t.pos + 1
      omega
    next hout =>
      have hnext : t.pos + 1 = 80 * (t.top + 25) := by omega
      rw [lineFeed_roll (by omega) (by omega), hnext]
      obtain ⟨bx', m, hr, hshows, hlt', hpos', hbeyond⟩ := rollScreen_yields
        (v := { v with mem := Print.setCell v.mem bx.toNat (cl, 0x07) }) (hcell t.pos)
      exact ⟨bx', m, hr, hshows, hlt', hpos', fun a ha =>
        (hbeyond a ha).trans (setCell_beyond ha hlt _ _)⟩

/-- The cell of the cursor is behind the segment. -/
theorem putAt_fault {cl : UInt8} (h : tok cl = .back) (v : Vga) : putAt 0 v cl = none := by
  unfold tok at h
  unfold putAt
  split at h
  · cases h
  next hno =>
    split at h
    next hbs =>
      rw [if_neg fun hc => hno (Or.inl hc), if_neg fun hc => hno (Or.inr hc), if_pos hbs]
      rfl
    · cases h

end

/-- **`put_char` prints on the sheet, or faults** on the one step it cannot take. -/
theorem putChar_shown {v : Vga} {t : Sheet Cell} (h : Shown v t) (cl : UInt8)
    (hstay : tok cl = .back → 80 * t.top < t.pos) :
    ∃ v', putChar v cl = some v' ∧ Shown v' (t.put 80 25 blank (tok cl)) ∧
      ∀ a, 4000 ≤ a → v'.mem a = v.mem a := by
  obtain ⟨bx, m, hr, hshows, hlt, hpos, hbeyond⟩ :=
    putAt_yields (v := { v with index := 0x0f }) h.toShows h.lt h.cursor hstay
  refine ⟨setCursor { v with index := 0x0f, mem := m } bx, ?_, ⟨hshows, ?_, ?_⟩, hbeyond⟩
  · rw [putChar, getCursor_eq]
    exact congrArg (Option.bind · _) hr
  · rw [setCursor_cursor]
    exact hpos
  · rw [setCursor_cursor]
    exact hlt

theorem putChar_fault {v : Vga} {t : Sheet Cell} (h : Shown v t) {cl : UInt8}
    (hback : tok cl = .back) (hpos : ¬80 * t.top < t.pos) : putChar v cl = none := by
  have hcursor := h.cursor
  have hzero : v.cursor = 0 := by
    rw [← UInt16.toNat_inj]
    change v.cursor.toNat = 0
    omega
  rw [putChar, getCursor_eq, hzero]
  exact congrArg (Option.bind · _) (putAt_fault hback _)

/-! ## A cleared screen -/

/-- The screen after `cls_screen`. -/
def cleared (v : Vga) : Vga := setCursor { v with mem := v.mem.blit 0 blanks 4000 } 0

theorem clsScreen_eq (v : Vga) : clsScreen v = some (cleared v) := by
  rw [clsScreen, clsLoop_eq 2000 (by omega)]
  rfl

theorem cleared_shown (v : Vga) : Shown (cleared v) (Sheet.clear blank) := by
  have hcursor : (cleared v).cursor = 0 := setCursor_cursor _ 0
  refine ⟨⟨fun i hi => ?_, fun _ _ => rfl⟩, ?_, ?_⟩
  · have h0 : (2 * i - 0) % 2 = 0 := by omega
    have h1 : (2 * i + 1 - 0) % 2 ≠ 0 := by omega
    change (v.mem.blit 0 blanks 4000 (2 * i), v.mem.blit 0 blanks 4000 (2 * i + 1)) = blank
    rw [Mem.blit_in (by omega) (by omega), Mem.blit_in (by omega) (by omega), blanks, if_pos h0,
      blanks, if_neg h1, blank]
  · rw [hcursor]
    rfl
  · rw [hcursor]
    decide

/-! ## Strings -/

theorem putStr_cons (v : Vga) (cl : UInt8) (message : List UInt8) :
    putStr v (cl :: message) = (putChar v cl).bind fun v => putStr v message := rfl

theorem putStr_shown {v : Vga} {t : Sheet Cell} (h : Shown v t) {message : List UInt8}
    (hstays : t.Stays 80 25 blank (message.map tok)) :
    ∃ v', putStr v message = some v' ∧ Shown v' (t.print 80 25 blank (message.map tok)) ∧
      ∀ a, 4000 ≤ a → v'.mem a = v.mem a := by
  induction message generalizing v t with
  | nil => exact ⟨v, rfl, h, fun _ _ => rfl⟩
  | cons cl message ih =>
    obtain ⟨v1, hv1, hshown, hbeyond⟩ := putChar_shown h cl hstays.1
    obtain ⟨v', hv', hshown', hbeyond'⟩ := ih hshown hstays.2
    refine ⟨v', ?_, hshown', fun a ha => (hbeyond' a ha).trans (hbeyond a ha)⟩
    rw [putStr_cons, hv1, Option.bind_some, hv']

theorem putStr_fault {v : Vga} {t : Sheet Cell} (h : Shown v t) {message : List UInt8}
    (hstays : ¬t.Stays 80 25 blank (message.map tok)) : putStr v message = none := by
  induction message generalizing v t with
  | nil => exact absurd trivial hstays
  | cons cl message ih =>
    rw [putStr_cons]
    by_cases hstay : tok cl = .back → 80 * t.top < t.pos
    · obtain ⟨v1, hv1, hshown, -⟩ := putChar_shown h cl hstay
      rw [hv1, Option.bind_some]
      exact ih hshown fun hrest => hstays ⟨hstay, hrest⟩
    · obtain ⟨hback, hpos⟩ := Classical.not_imp.mp hstay
      rw [putChar_fault h hback hpos, Option.bind_none]

/-- **The screen shows what was printed.** Printing goes through exactly when no
backspace comes at the upper left corner; the screen is then the window of the sheet, with
the cursor where the sheet has it, and the memory behind the screen is left alone. -/
theorem put_str_shows (v : Vga) (t : Sheet Cell) (h : Shown v t) (message : List UInt8) :
    ((putStr v message).isSome ↔ t.Stays 80 25 blank (message.map tok)) ∧
    ∀ v', putStr v message = some v' → Shown v' (t.print 80 25 blank (message.map tok)) ∧
      ∀ a, 4000 ≤ a → v'.mem a = v.mem a := by
  by_cases hstays : t.Stays 80 25 blank (message.map tok)
  · obtain ⟨v1, hv1, hshown⟩ := putStr_shown h hstays
    rw [hv1]
    refine ⟨⟨fun _ => hstays, fun _ => rfl⟩, fun v' hv' => ?_⟩
    cases hv'
    exact hshown
  · rw [putStr_fault h hstays]
    exact ⟨⟨fun hs => (by cases hs), fun hs => absurd hs hstays⟩, fun _ hv' => by cases hv'⟩

/-- Backspaces at the upper left corner, and in the line below it. -/
theorem put_str_shows_cleared :
    ((putStr (cleared ⟨Mem.zero, 0, fun _ => 0⟩) [0x41, 0x0a, 0x08, 0x08]).isSome ↔
      (Sheet.clear blank).Stays 80 25 blank ([0x41, 0x0a, 0x08, 0x08].map tok)) ∧
    ∀ v', putStr (cleared ⟨Mem.zero, 0, fun _ => 0⟩) [0x41, 0x0a, 0x08, 0x08] = some v' →
      Shown v' ((Sheet.clear blank).print 80 25 blank ([0x41, 0x0a, 0x08, 0x08].map tok)) ∧
      ∀ a, 4000 ≤ a → v'.mem a = (cleared ⟨Mem.zero, 0, fun _ => 0⟩).mem a :=
  put_str_shows _ _ (cleared_shown _) [0x41, 0x0a, 0x08, 0x08]

/-! ## Messages -/

/-- A character of a text without backspaces. -/
def piece (c : UInt8) : Option Cell := if c = 0x0d ∨ c = 0x0a then none else some (c, 0x07)

theorem tok_piece {c : UInt8} (h : c ≠ 0x08) : tok c = Page.tok (piece c) := by
  unfold tok piece
  split
  · rfl
  · rfl

/-- The message broken into lines. -/
def page (message : List UInt8) : Page Cell 80 := Page.ofText (by decide) (message.map piece)

/-- The last 25 lines are on the screen, blank behind their ends, and the cursor is at the
end of the last one. -/
structure Seen (v : Vga) (p : Page Cell 80) : Prop where
  lines : ∀ r c, r < 25 → c < 80 → cell v.mem (80 * r + c) =
    (((p.lines.drop (p.lines.length - 25))[r]?).bind fun row => row[c]?).getD blank
  cursor : v.cursor.toNat =
    80 * ((p.lines.drop (p.lines.length - 25)).length - 1) + p.last.length

/-- **A message on a cleared screen is seen up to its end.** -/
theorem message_seen (v : Vga) (message : List UInt8) (hno : 0x08 ∉ message) :
    ∃ v0 v', clsScreen v = some v0 ∧ putStr v0 message = some v' ∧ Seen v' (page message) := by
  have htoks : message.map tok = (message.map piece).map Page.tok := by
    rw [List.map_map]
    exact List.map_congr_left fun c hc => tok_piece fun heq => hno (heq ▸ hc)
  have hnoback : .back ∉ message.map tok := by
    intro hmem
    rw [htoks, List.mem_map] at hmem
    obtain ⟨x, -, hx⟩ := hmem
    cases x <;> cases hx
  have hlen : (page message).lines.length = (page message).full.length + 1 := by
    rw [Page.lines, List.length_append, List.length_singleton]
  obtain ⟨v', hv', hshown, -⟩ :=
    putStr_shown (cleared_shown v) (Sheet.stays_of_no_back hnoback (Sheet.clear blank))
  rw [htoks, Page.print_page (by decide) (by decide)] at hshown
  refine ⟨cleared v, v', clsScreen_eq v, hv', ⟨fun r c hr hc => ?_, ?_⟩⟩
  · rw [hshown.cells _ (by omega)]
    exact Page.toSheet_window _ r hc
  · have hcursor := hshown.cursor
    change 80 * ((page message).full.length + 1 - 25) + v'.cursor.toNat =
      80 * (page message).full.length + (page message).last.length at hcursor
    rw [List.length_drop, hlen]
    omega

/-- Two lines. -/
theorem message_seen_two_lines : ∃ v0 v', clsScreen ⟨Mem.zero, 0, fun _ => 0⟩ = some v0 ∧
    putStr v0 [0x6f, 0x6b, 0x0a, 0x24] = some v' ∧ Seen v' (page [0x6f, 0x6b, 0x0a, 0x24]) :=
  message_seen ⟨Mem.zero, 0, fun _ => 0⟩ [0x6f, 0x6b, 0x0a, 0x24] (by decide)

/-! ## Numbers -/

theorem digit_eq {n : UInt32} (h : n.toNat < 16) : digit n = Stdio.digitText n.toNat := by
  have hall : ∀ k < 16, digit (UInt32.ofNat k) = Stdio.digitText k := by decide
  have hn := hall n.toNat h
  rwa [UInt32.ofNat_toNat] at hn

/-- Zeros are skipped up to the numeral: by induction on the digits, the last one split
off. -/
theorem skipPrefix0_digitsLoop (ecx : Nat) {eax : UInt32} (h : eax.toNat < 16 ^ ecx)
    (buffer : List UInt8) : skipPrefix0 (digitsLoop ecx eax buffer) =
      if eax.toNat = 0 then skipPrefix0 buffer else Stdio.text 16 eax.toNat ++ buffer := by
  induction ecx generalizing eax buffer with
  | zero =>
    rw [digitsLoop, if_pos (by omega)]
  | succ ecx ih =>
    have hquot : (eax >>> 4).toNat = eax.toNat / 16 := by
      rw [UInt32.toNat_shiftRight]
      exact Nat.shiftRight_eq_div_pow _ 4
    have hrem : (eax &&& 0x0000000f).toNat = eax.toNat % 16 := by
      rw [UInt32.toNat_and]
      exact Nat.and_two_pow_sub_one_eq_mod _ 4
    have hlt : (eax &&& 0x0000000f).toNat < 16 := by
      rw [hrem]
      exact Nat.mod_lt _ (by decide)
    have hpow : eax.toNat / 16 < 16 ^ ecx := Nat.div_lt_of_lt_mul (by rwa [Nat.mul_comm, ← Nat.pow_succ])
    rw [digitsLoop, ih (by rwa [hquot]), hquot, digit_eq hlt, hrem]
    by_cases hzero : eax.toNat / 16 = 0
    · have hsmall : eax.toNat < 16 := by omega
      rw [if_pos hzero, Nat.mod_eq_of_lt hsmall, skipPrefix0]
      by_cases heax : eax.toNat = 0
      · rw [if_pos heax, heax]
        rfl
      · have hnot : ∀ k < 16, k ≠ 0 → Stdio.digitText k ≠ 48 := by decide
        rw [if_neg heax, if_neg (hnot _ hsmall heax), Stdio.text, numeral_small hsmall]
        rfl
    · rw [if_neg hzero, if_neg (by omega), Stdio.text, Stdio.text,
        numeral_step (by decide) hzero, List.map_append, List.append_assoc]
      rfl

/-- **`put_int` prints the numeral**: what `%x` stands for in a format. -/
theorem put_int_prints (v : Vga) (num : UInt32) :
    putInt v num = putStr v (Stdio.Item.hex num).expand := by
  have hlt : num.toNat < 16 ^ 8 := num.toNat_lt
  rw [putInt, skipPrefix0_digitsLoop 8 hlt]
  split
  next hzero =>
    rw [Stdio.Item.expand, hzero]
    rfl
  next => rw [List.append_nil]; rfl

end OsCore.Print
