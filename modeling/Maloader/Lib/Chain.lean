import Mathlib.Tactic

/-!
# Chains of equal slots

A chain starts at an offset and goes on by the distance read there, until that distance is `0`. Its
slots are `w` bytes wide, at least `w` bytes apart and lie in `[lo, hi)`.

* `Chain`, `Chain.congr`: a chain depends on the distances at its own slots only.
* `Chain.bounds`, `Chain.pairwise`: where the slots lie.
* **`Chain.length_mul_le`**: the packing bound `length * w ≤ hi - lo`;
  `chain_of_adjacent` attains it.
-/

namespace ByteLib

/-- The slots visited from `o` on, by the distances `nxt`. -/
inductive Chain (nxt : ℕ → ℕ) (w lo hi : ℕ) : ℕ → List ℕ → Prop
  | last {o : ℕ} : lo ≤ o → o + w ≤ hi → nxt o = 0 → Chain nxt w lo hi o [o]
  | step {o : ℕ} {os : List ℕ} : lo ≤ o → o + w ≤ hi → nxt o ≠ 0 → w ≤ nxt o →
      Chain nxt w lo hi (o + nxt o) os → Chain nxt w lo hi o (o :: os)

variable {nxt nxt' : ℕ → ℕ} {w lo hi o : ℕ} {os : List ℕ}

theorem Chain.cons {d : ℕ} (hlo : lo ≤ o) (hhi : o + w ≤ hi) (hd : nxt o = d) (hw : 0 < w) (hle : w ≤ d)
    (h : Chain nxt w lo hi (o + d) os) : Chain nxt w lo hi o (o :: os) :=
  .step hlo hhi (by omega) (by omega) (hd ▸ h)

theorem Chain.congr (h : Chain nxt w lo hi o os) (heq : ∀ x ∈ os, nxt x = nxt' x) :
    Chain nxt' w lo hi o os := by
  induction h with
  | @last o h1 h2 h3 => exact .last h1 h2 (by rw [← heq o (by simp), h3])
  | @step o os h1 h2 h3 h4 _ ih =>
    have ho := heq o (by simp)
    rw [ho] at h3 h4 ih
    exact .step h1 h2 h3 h4 (ih fun x hx => heq x (List.mem_cons_of_mem _ hx))

theorem Chain.bounds (h : Chain nxt w lo hi o os) : ∀ x ∈ os, lo ≤ x ∧ x + w ≤ hi := by
  induction h with
  | last h1 h2 _ =>
    intro x hx
    rw [List.mem_singleton] at hx
    exact hx ▸ ⟨h1, h2⟩
  | step h1 h2 _ _ _ ih =>
    intro x hx
    rcases List.mem_cons.mp hx with rfl | hx
    · exact ⟨h1, h2⟩
    · exact ih x hx

theorem Chain.head_le (h : Chain nxt w lo hi o os) : ∀ x ∈ os, o ≤ x := by
  induction h with
  | last => simp
  | step _ _ _ _ _ ih =>
    intro x hx
    rcases List.mem_cons.mp hx with rfl | hx
    · exact le_rfl
    · exact (Nat.le_add_right _ _).trans (ih x hx)

theorem Chain.pairwise (h : Chain nxt w lo hi o os) : os.Pairwise fun x y => x + w ≤ y := by
  induction h with
  | last => simp
  | step _ _ _ h4 h5 ih =>
    refine List.pairwise_cons.mpr ⟨fun y hy => ?_, ih⟩
    have := h5.head_le y hy
    omega

/-- **Packing**: the slots of a chain fit side by side. -/
theorem Chain.length_mul_le (h : Chain nxt w lo hi o os) : o + os.length * w ≤ hi := by
  induction h with
  | last _ h2 _ => simpa using h2
  | step _ _ _ h4 _ ih =>
    rw [List.length_cons, Nat.succ_mul]
    omega

theorem chain_of_adjacent {n : ℕ} (hw : 0 < w) (hlo : lo ≤ o) (hhi : o + w * (n + 1) ≤ hi)
    (hnext : ∀ k < n, nxt (o + w * k) = w) (hlast : nxt (o + w * n) = 0) :
    Chain nxt w lo hi o ((List.range (n + 1)).map fun k => o + w * k) := by
  induction n generalizing o with
  | zero => exact .last hlo (by omega) (by simpa using hlast)
  | succ n ih =>
    have hshift : ∀ k, o + w + w * k = o + w * (k + 1) := fun k => by ring
    have ho : nxt o = w := by simpa using hnext 0 n.succ_pos
    have htail := ih (o := o + w) (by omega) (by rw [hshift]; exact hhi)
      (fun k hk => by rw [hshift]; exact hnext (k + 1) (by omega)) (by rw [hshift]; exact hlast)
    rw [List.range_succ_eq_map, List.map_cons, List.map_map]
    simp only [hshift] at htail
    refine .step hlo ?_ (by omega) (by omega) (by rw [ho]; exact htail)
    have := Nat.mul_le_mul_left w (show 1 ≤ n + 1 + 1 by omega)
    omega

end ByteLib
