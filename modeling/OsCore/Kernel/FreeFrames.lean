import OsCore.Kernel.AddressSpaces
import OsCore.Kernel.Tables

/-!
# Requests that are granted

`palloc` comes back whenever a bit of its pool is clear, and so do
`page_table_add` and `get_a_page` with it: a page of a process takes one frame of the
user pool, and one of the kernel's pool when it is the first page in its table.

The clear bits of a pool are the frames that are named nowhere (`Good.mem_free_user`,
`Good.mem_free_kernel`), so how many more requests a pool grants can be read off the
page tables.
-/

namespace OsCore

/-- The bits that are clear. -/
def Bitmap.free (b : Bitmap) : Finset Nat :=
  (Finset.range (8 * b.bytesLen)).filter fun i => b.bit i = false

theorem Bitmap.mem_free {b : Bitmap} {i : Nat} :
    i ∈ b.free ↔ i < 8 * b.bytesLen ∧ b.bit i = false := by
  rw [Bitmap.free, Finset.mem_filter, Finset.mem_range]

/-- A bit that is set is no longer one of them. -/
theorem Bitmap.free_bitmapSet (b : Bitmap) (i : Nat) :
    (b.bitmapSet i true).free = b.free.erase i := by
  ext j
  rw [Finset.mem_erase, mem_free, mem_free, bytesLen_bitmapSet, bit_bitmapSet]
  by_cases hj : j = i
  · simp [hj]
  · simp [hj]

/-- The bits that are set. -/
def Bitmap.taken (b : Bitmap) : Finset Nat :=
  (Finset.range (8 * b.bytesLen)).filter fun i => b.bit i = true

theorem Bitmap.card_taken (b : Bitmap) : b.taken.card + b.free.card = 8 * b.bytesLen := by
  have hall := Finset.card_filter_add_card_filter_not (s := Finset.range (8 * b.bytesLen))
    fun i => b.bit i = true
  simp only [Bool.not_eq_true, Finset.card_range] at hall
  exact hall

end OsCore

namespace OsCore.Paging

open OsCore.Lib

variable {L : Layout} {s s' : Mm} {S : Spaces} {held : Nat → Prop}

/-! ## One request -/

/-- The bitmap of the pool of `pf`. -/
def Mm.pool (s : Mm) : PoolFlags → Bitmap
  | .kernel => s.kernelPool
  | .user => s.userPool

@[simp] theorem Mm.pool_kernel (s : Mm) : s.pool .kernel = s.kernelPool := rfl
@[simp] theorem Mm.pool_user (s : Mm) : s.pool .user = s.userPool := rfl

/-- A frame is found as long as there is one. -/
theorem pallocFrom_returns (L : Layout) (pf : PoolFlags) (h : (s.pool pf).free.Nonempty) :
    ∃ r s1, pallocFrom L pf s = some (r, s1) := by
  obtain ⟨i, hi⟩ := h
  obtain ⟨hlt, hclear⟩ := Bitmap.mem_free.mp hi
  obtain ⟨x, hscan⟩ := Option.isSome_iff_exists.mp (Bitmap.bitmapScan_one_isSome hlt hclear)
  have hpalloc : ∀ start, ∃ r b, palloc start (s.pool pf) = some (r, b) := by
    intro start
    rw [palloc, hscan, Option.bind_eq_bind, Option.bind_some]
    split
    next => exact ⟨none, _, rfl⟩
    next => exact ⟨some _, _, rfl⟩
  cases pf with
  | kernel =>
    obtain ⟨r, b, hr⟩ := hpalloc L.kernelStart
    exact ⟨r, { s with kernelPool := b }, congrArg (Option.map _) hr⟩
  | user =>
    obtain ⟨r, b, hr⟩ := hpalloc L.userStart
    exact ⟨r, { s with userPool := b }, congrArg (Option.map _) hr⟩

/-- And there is one less. -/
theorem pallocFrom_free {pf : PoolFlags} {r : Option Nat} (h : pallocFrom L pf s = some (r, s')) :
    (s'.pool pf).free.card + 1 = (s.pool pf).free.card := by
  cases pf with
  | kernel =>
    obtain ⟨i, -, hi, hclear, -, rfl⟩ := pallocFrom_kernel h
    rw [Mm.pool_kernel, Bitmap.free_bitmapSet]
    exact Finset.card_erase_add_one (Bitmap.mem_free.mpr ⟨hi, hclear⟩)
  | user =>
    obtain ⟨i, -, hi, hclear, -, rfl⟩ := pallocFrom_user h
    rw [Mm.pool_user, Bitmap.free_bitmapSet]
    exact Finset.card_erase_add_one (Bitmap.mem_free.mpr ⟨hi, hclear⟩)

section

variable {p v : Nat} {sp : Space} (hp : S p = some sp) (ha : sp.alive = true)
  (hcur : s.cr3 = sp.dir) (hv : v < 768 * 1024)

include hp ha hcur hv

/-- `page_table_add` of a page that is not there comes back, with a frame for the table
if it needs one. -/
theorem Good.pageTableAdd_returns (hg : Good L s S held)
    (hnone : slotFrame s.mem S (.page p v) = none)
    (hroom : tableFrame s.mem S p (v / 1024) = none → s.kernelPool.free.Nonempty) (f : Nat) :
    ∃ s', pageTableAdd (pallocFrom L) s (v * 4096) (f * 4096) = some s' := by
  have h := hg.tables hp ha hcur
  have hwalk : walk s.mem s.cr3 v = none := by
    rw [hcur, walk_page hp ha hv]
    exact hnone
  cases ht : tableAt s (v / 1024) with
  | some t =>
    obtain ⟨m, hadd, -⟩ := h.pageTableAdd_there hv ht hwalk f
    exact ⟨_, hadd⟩
  | none =>
    have htab : tableFrame s.mem S p (v / 1024) = none := by
      rw [tableFrame_eq hp ha (by omega), ← hcur]
      exact ht
    obtain ⟨r, s1, hpal⟩ := pallocFrom_returns L .kernel (hroom htab)
    obtain ⟨m, hadd, -⟩ := h.pageTableAdd_new hv ht hpal f
    exact ⟨_, hadd⟩

/-- `get_a_page_without_opvaddrbitmap` of a page that is not there comes back, with a
frame for the page and one for the table if it needs one. -/
theorem Good.getAPageWithoutOp_returns (hg : Good L s S held)
    (hnone : slotFrame s.mem S (.page p v) = none) (huser : s.userPool.free.Nonempty)
    (hroom : tableFrame s.mem S p (v / 1024) = none → s.kernelPool.free.Nonempty) :
    ∃ r s', getAPageWithoutOpvaddrbitmap (pallocFrom L) s (v * 4096) = some (r, s') := by
  obtain ⟨r, s1, hpal⟩ := pallocFrom_returns L .user huser
  obtain ⟨f, rfl, hfu, hfree, -, hs1, hg1⟩ := hg.take hpal
  have hmem : s1.mem = s.mem := by rw [hs1, setFrameBit_mem]
  have hcr3 : s1.cr3 = s.cr3 := by rw [hs1, setFrameBit_cr3]
  have hpool : s1.kernelPool = s.kernelPool := by
    obtain ⟨i, -, -, -, -, hs⟩ := pallocFrom_user hpal
    rw [hs]
  rw [← hmem] at hnone hroom
  rw [← hpool] at hroom
  obtain ⟨s2, hadd⟩ := hg1.pageTableAdd_returns hp ha (hcr3.trans hcur) hv hnone hroom f
  refine ⟨some (v * 4096), s2, ?_⟩
  simp only [getAPageWithoutOpvaddrbitmap, Option.bind_eq_bind]
  rw [hpal, Option.bind_some]
  simp only [hadd, Option.bind_some, Option.pure_def]

end

/-! ## The clear bits are the free frames -/

theorem Good.mem_free_user (hg : Good L s S noFrame) {i : Nat} :
    i ∈ s.userPool.free ↔
      i < 8 * L.ubmLength ∧ ∀ x, slotFrame s.mem S x ≠ some (L.userFrame + i) := by
  rw [Bitmap.mem_free, hg.userLen]
  apply and_congr_right
  intro hi
  have hbit := hg.bit (L.userFrame + i) (Or.inr ⟨by omega, by omega⟩)
  rw [frameBit, if_pos (Nat.le_add_right _ _), Nat.add_sub_cancel_left] at hbit
  rw [← Bool.not_eq_true, hbit, not_or, not_exists]
  exact and_iff_left (fun h => h)

theorem Good.mem_free_kernel (hg : Good L s S noFrame) {i : Nat} :
    i ∈ s.kernelPool.free ↔
      i < 8 * L.kbmLength ∧ ∀ x, slotFrame s.mem S x ≠ some (0x200 + i) := by
  rw [Bitmap.mem_free, hg.kernelLen]
  apply and_congr_right
  intro hi
  have hker : L.IsKernel (0x200 + i) := ⟨by omega, by omega⟩
  have hlt := Layout.kernel_lt_user hker
  have hbit := hg.bit (0x200 + i) (Or.inl hker)
  rw [frameBit, if_neg (by omega), Nat.add_sub_cancel_left] at hbit
  rw [← Bool.not_eq_true, hbit, not_or, not_exists]
  exact and_iff_left (fun h => h)

section

variable {p v f : Nat} {sp : Space}

/-- The places of memory after a page has been entered. -/
theorem AddedPage.names (h : AddedPage S p sp v f s s') (g : Nat) :
    (∀ x, slotFrame s'.mem S x ≠ some g) ↔
      (∀ x, slotFrame s.mem S x ≠ some g) ∧ g ≠ f ∧
        slotFrame s'.mem S (.table p (v / 1024)) ≠ some g := by
  obtain ⟨t, htab, hor⟩ := h.table
  constructor
  · intro hnone
    refine ⟨fun x hx => ?_, fun hgf => hnone (.page p v) (hgf ▸ h.slot), hnone _⟩
    by_cases hpage : x = .page p v
    · rw [hpage, h.was] at hx
      cases hx
    · by_cases htable : x = .table p (v / 1024)
      · subst htable
        rcases hor with hor | ⟨hor, -⟩
        · rw [hor, ← htab] at hx
          exact hnone _ hx
        · rw [hor] at hx
          cases hx
      · rw [← h.other x hpage htable] at hx
        exact hnone x hx
  · intro hin x hx
    obtain ⟨hnone, hgf, hgt⟩ := hin
    by_cases hpage : x = .page p v
    · rw [hpage, h.slot] at hx
      exact hgf (Option.some.inj hx).symm
    · by_cases htable : x = .table p (v / 1024)
      · rw [htable] at hx
        exact hgt hx
      · rw [h.other x hpage htable] at hx
        exact hnone x hx

/-- A page takes one frame of the user pool. -/
theorem AddedPage.free_user (h : AddedPage S p sp v f s s') (hg : Good L s S noFrame)
    (hg' : Good L s' S noFrame) :
    ∃ i, i ∈ s.userPool.free ∧ s'.userPool.free = s.userPool.free.erase i := by
  have huser : L.IsUser f := hg'.inPool _ f h.slot
  obtain ⟨t, htab, -⟩ := h.table
  have hker : L.IsKernel t := hg'.inPool _ t htab
  have hlt := Layout.kernel_lt_user hker
  have hnames := h.names
  have h1 := huser.1
  have h2 := huser.2
  refine ⟨f - L.userFrame, ?_, ?_⟩
  · rw [hg.mem_free_user]
    have hf : L.userFrame + (f - L.userFrame) = f := by omega
    refine ⟨by omega, fun x hx => ?_⟩
    rw [hf] at hx
    by_cases hpage : x = .page p v
    · rw [hpage, h.was] at hx
      cases hx
    · by_cases htable : x = .table p (v / 1024)
      · rw [htable] at hx
        have := (hg.inPool _ f hx : L.IsKernel f)
        have := Layout.kernel_lt_user this
        omega
      · rw [← h.other x hpage htable] at hx
        exact hpage (hg'.inj _ _ f hx h.slot)
  · ext i
    rw [Finset.mem_erase, hg'.mem_free_user, hg.mem_free_user, hnames]
    have hne : slotFrame s'.mem S (.table p (v / 1024)) ≠ some (L.userFrame + i) := by
      rw [htab]
      intro hc
      have := Option.some.inj hc
      omega
    constructor
    · intro hin
      obtain ⟨hi, hfree, hif, -⟩ := hin
      exact ⟨by omega, hi, hfree⟩
    · intro hin
      obtain ⟨hif, hi, hfree⟩ := hin
      exact ⟨hi, hfree, by omega, hne⟩

/-- And a frame of the kernel's pool with the first page of a table. -/
theorem AddedPage.free_kernel (h : AddedPage S p sp v f s s') (hg : Good L s S noFrame)
    (hg' : Good L s' S noFrame) :
    (tableFrame s.mem S p (v / 1024) ≠ none → s'.kernelPool.free = s.kernelPool.free) ∧
    (tableFrame s.mem S p (v / 1024) = none →
      ∃ i, i ∈ s.kernelPool.free ∧ s'.kernelPool.free = s.kernelPool.free.erase i) := by
  have huser : L.IsUser f := hg'.inPool _ f h.slot
  have hnames := h.names
  have hf : ∀ i, i < 8 * L.kbmLength → 0x200 + i ≠ f := by
    intro i hi heq
    subst heq
    have hlt := Layout.kernel_lt_user (L := L) (f := 0x200 + i) ⟨by omega, by omega⟩
    have := huser.1
    omega
  obtain ⟨t, htab, hor⟩ := h.table
  have hker : L.IsKernel t := hg'.inPool _ t htab
  have h1 := hker.1
  have h2 := hker.2
  constructor
  · intro hthere
    have hold : slotFrame s.mem S (.table p (v / 1024)) = some t :=
      hor.resolve_right fun hc => hthere hc.1
    ext i
    rw [hg'.mem_free_kernel, hg.mem_free_kernel, hnames]
    refine and_congr_right fun hi => ⟨fun hc => hc.1, fun hfree => ⟨hfree, hf i hi, ?_⟩⟩
    rw [htab, ← hold]
    exact hfree _
  · intro hnone
    have hfree : ∀ x, slotFrame s.mem S x ≠ some t := by
      rcases hor with hold | ⟨-, hfree⟩
      · rw [slotFrame, hnone] at hold
        cases hold
      · exact hfree
    refine ⟨t - 0x200, ?_, ?_⟩
    · rw [hg.mem_free_kernel]
      have ht : 0x200 + (t - 0x200) = t := by omega
      rw [ht]
      exact ⟨by omega, hfree⟩
    · ext i
      rw [Finset.mem_erase, hg'.mem_free_kernel, hg.mem_free_kernel, hnames, htab]
      constructor
      · intro hin
        obtain ⟨hi, hfree, -, hit⟩ := hin
        exact ⟨fun hc => hit (congrArg some (by omega)), hi, hfree⟩
      · intro hin
        obtain ⟨hit, hi, hfree⟩ := hin
        refine ⟨hi, hfree, hf i hi, fun hc => hit ?_⟩
        have := Option.some.inj hc
        omega

end

end OsCore.Paging
