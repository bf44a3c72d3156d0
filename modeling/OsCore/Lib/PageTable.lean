import Mathlib

/-!
# Page tables of two levels

Physical memory is frames of 1024 words. A directory is a frame whose words are
entries: the low bit says whether the entry is there, the upper twenty bits are
the frame it names. A page is looked up in two steps (`walk`), and every access
by address goes through that.

A directory that names itself in its last entry can be edited through its own
address space: the last page is then the directory, and the 1024 pages at the
end are the tables it names (`walk_dir`, `walk_table`).
-/

namespace OsCore.Lib

/-- Frames of 1024 words. -/
abbrev Phys := Nat → Nat → Nat

namespace Phys

/-- Write one word. -/
def set (m : Phys) (f i w : Nat) : Phys := fun g j => if g = f ∧ j = i then w else m g j

/-- Zero a frame. -/
def clear (m : Phys) (f : Nat) : Phys := fun g j => if g = f then 0 else m g j

/-- Copy a frame. -/
def copy (m : Phys) (dst src : Nat) : Phys := fun g j => if g = dst then m src j else m g j

@[simp] theorem set_same (m : Phys) (f i w : Nat) : m.set f i w f i = w := if_pos ⟨rfl, rfl⟩

theorem set_ne {m : Phys} {f i w g j : Nat} (h : g ≠ f ∨ j ≠ i) : m.set f i w g j = m g j :=
  if_neg fun hc => h.elim (fun hg => hg hc.1) fun hj => hj hc.2

@[simp] theorem clear_same (m : Phys) (f j : Nat) : m.clear f f j = 0 := if_pos rfl

theorem clear_ne {m : Phys} {f g j : Nat} (h : g ≠ f) : m.clear f g j = m g j := if_neg h

@[simp] theorem copy_same (m : Phys) (dst src j : Nat) : m.copy dst src dst j = m src j := if_pos rfl

theorem copy_ne {m : Phys} {dst src g j : Nat} (h : g ≠ dst) : m.copy dst src g j = m g j := if_neg h

end Phys

/-- The entry `w` is there. -/
def Present (w : Nat) : Prop := w % 2 = 1

instance (w : Nat) : Decidable (Present w) := inferInstanceAs (Decidable (_ = _))

/-- The frame an entry names. -/
def frameOf (w : Nat) : Nat := w / 4096

/-- The entry `w` maps frame `f`. -/
def Maps (w f : Nat) : Prop := Present w ∧ frameOf w = f

/-- The frame of a page, in the address space of the directory `dir`. -/
def walk (m : Phys) (dir page : Nat) : Option Nat :=
  let pde := m dir (page / 1024)
  if Present pde then
    let pte := m (frameOf pde) (page % 1024)
    if Present pte then some (frameOf pte) else none
  else none

/-- The word at an address. -/
def loadWord (m : Phys) (dir addr : Nat) : Option Nat :=
  (walk m dir (addr / 4096)).map fun f => m f (addr % 4096 / 4)

/-- Write a word at an address. -/
def storeWord (m : Phys) (dir addr w : Nat) : Option Phys :=
  (walk m dir (addr / 4096)).map fun f => m.set f (addr % 4096 / 4) w

/-! ## Directories that name themselves -/

/-- The last entry of the directory names it. -/
def SelfMapped (m : Phys) (dir : Nat) : Prop := Maps (m dir 1023) dir

variable {m : Phys} {dir : Nat}

/-- The last page is the directory. -/
theorem walk_dir (h : SelfMapped m dir) : walk m dir (1023 * 1024 + 1023) = some dir := by
  obtain ⟨h1, h2⟩ := h
  have hd : (1023 * 1024 + 1023) / 1024 = 1023 := by decide
  have hi : (1023 * 1024 + 1023) % 1024 = 1023 := by decide
  simp only [walk, hd, hi, if_pos h1, h2]

/-- The pages before it are the tables. -/
theorem walk_table (h : SelfMapped m dir) {d : Nat} (hd : d < 1024) :
    walk m dir (1023 * 1024 + d) = if Present (m dir d) then some (frameOf (m dir d)) else none := by
  obtain ⟨h1, h2⟩ := h
  have hq : (1023 * 1024 + d) / 1024 = 1023 := by omega
  have hr : (1023 * 1024 + d) % 1024 = d := by omega
  simp only [walk, hq, hr, if_pos h1, h2]

end OsCore.Lib
