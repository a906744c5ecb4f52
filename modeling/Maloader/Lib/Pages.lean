import Mathlib.Tactic

/-!
# Intervals in whole pages

What is reserved for a family of intervals: it begins where the first of them begins, and it has the
least number of whole pages that reaches the end of the last.

* `roundUp`, `isLeast_roundUp`: a length rounded up to pages.
* `TightHull`: base and size of what is reserved; `TightHull.unique`: there is one only.
* `TightHull.inside`, `TightHull.exists_outside`: the intervals lie inside, and with fewer
  pages one does not.
-/

namespace PageLib

/-- `n` rounded up to a multiple of `page`. -/
def roundUp (page n : ℕ) : ℕ := (n + (page - 1)) / page * page

/-- **The least multiple** that is not below `n`. -/
theorem isLeast_roundUp {page : ℕ} (hpage : 0 < page) (n : ℕ) :
    IsLeast {k | page ∣ k ∧ n ≤ k} (roundUp page n) := by
  rw [roundUp, Nat.mul_comm]
  constructor
  · have hlt := Nat.lt_mul_div_succ (n + (page - 1)) hpage
    rw [Nat.mul_add] at hlt
    exact ⟨Nat.dvd_mul_right _ _, by omega⟩
  · rintro k ⟨⟨q, rfl⟩, hle⟩
    exact Nat.mul_le_mul_left _ ((Nat.div_le_iff_le_mul_add_pred hpage).mpr (by omega))

variable {ι : Type*} {page : ℕ} {s : Set ι} {low high : ι → ℕ} {base size : ℕ}

/-- The intervals from `low i` to `high i`, for `i` in `s`, are reserved from the least `low i` on, in
as many pages as lead to the greatest `high i`. -/
structure TightHull (page : ℕ) (s : Set ι) (low high : ι → ℕ) (base size : ℕ) : Prop where
  base_isLeast : IsLeast (low '' s) base
  size_isLeast : ∃ top, IsGreatest (high '' s) top ∧ IsLeast {k | page ∣ k ∧ top - base ≤ k} size

namespace TightHull

theorem unique {base' size' : ℕ} (h : TightHull page s low high base size)
    (h' : TightHull page s low high base' size') : base = base' ∧ size = size' := by
  obtain ⟨top, htop, hsize⟩ := h.size_isLeast
  obtain ⟨top', htop', hsize'⟩ := h'.size_isLeast
  obtain rfl := h.base_isLeast.unique h'.base_isLeast
  obtain rfl := htop.unique htop'
  exact ⟨rfl, hsize.unique hsize'⟩

theorem inside (h : TightHull page s low high base size) {i : ι} (hi : i ∈ s) :
    base ≤ low i ∧ high i ≤ base + size := by
  obtain ⟨top, htop, hsize⟩ := h.size_isLeast
  have hle : high i ≤ top := htop.2 (Set.mem_image_of_mem high hi)
  exact ⟨h.base_isLeast.2 (Set.mem_image_of_mem low hi), hle.trans (tsub_le_iff_left.mp hsize.1.2)⟩

theorem exists_outside (h : TightHull page s low high base size) {n : ℕ} (hn : page * n < size) :
    ∃ i ∈ s, base + page * n < high i := by
  obtain ⟨top, ⟨⟨i, hi, rfl⟩, -⟩, hsize⟩ := h.size_isLeast
  refine ⟨i, hi, Nat.lt_of_not_le fun hle => ?_⟩
  exact absurd (hsize.2 ⟨Nat.dvd_mul_right page n, tsub_le_iff_left.mpr hle⟩) (not_le.mpr hn)

end TightHull

end PageLib
