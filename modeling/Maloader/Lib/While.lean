import Maloader.Lib.Walk

/-!
# While loops

A `while` loop as its turns: the states in which the loop body is entered, with a bound on how many
there may be.

* `whileTurns`, `whileEnd`: the turns of a loop and the state it ends in; `whileTurns_eq_iterate`,
  `whileEnd_eq_iterate`: both are an iteration of the body.
* `whileEnd_not`: a loop whose measure falls is left because its condition fails;
  `length_whileTurns_le`: after no more turns than the measure.
* `whileEnd_invariant`, `whileTurns_invariant`: what every turn keeps; `whileEnd_append`: what every
  turn appends; `exists_split_whileTurns`: the turns in front of a turn.
* `whileEnd_congr`: two loops whose bodies agree at every turn.
-/

namespace WhileLib

variable {α β : Type} (cond : α → Prop) [DecidablePred cond] (step : α → α)

/-- The states in which the body is entered, from `a` on, at most `n` of them. -/
def whileTurns : ℕ → α → List α
  | 0, _ => []
  | n + 1, a => if cond a then a :: whileTurns n (step a) else []

/-- The state after these turns. -/
def whileEnd : ℕ → α → α
  | 0, a => a
  | n + 1, a => if cond a then whileEnd n (step a) else a

variable {cond step}

theorem whileTurns_of_not {a : α} (h : ¬ cond a) (n : ℕ) : whileTurns cond step n a = [] := by
  cases n with
  | zero => rfl
  | succ n => exact if_neg h

theorem whileEnd_of_not {a : α} (h : ¬ cond a) (n : ℕ) : whileEnd cond step n a = a := by
  cases n with
  | zero => rfl
  | succ n => exact if_neg h

theorem whileTurns_of_cond {a : α} (h : cond a) (n : ℕ) :
    whileTurns cond step (n + 1) a = a :: whileTurns cond step n (step a) := if_pos h

theorem whileEnd_of_cond {a : α} (h : cond a) (n : ℕ) :
    whileEnd cond step (n + 1) a = whileEnd cond step n (step a) := if_pos h

theorem whileTurns_eq_iterate (n : ℕ) (a : α) :
    whileTurns cond step n a = List.iterate step a (whileTurns cond step n a).length := by
  induction n generalizing a with
  | zero => rfl
  | succ n ih =>
    by_cases h : cond a
    · rw [whileTurns_of_cond h, List.length_cons, List.iterate, ← ih]
    · rw [whileTurns_of_not h]
      rfl

theorem whileEnd_eq_iterate (n : ℕ) (a : α) :
    whileEnd cond step n a = step^[(whileTurns cond step n a).length] a := by
  induction n generalizing a with
  | zero => rfl
  | succ n ih =>
    by_cases h : cond a
    · rw [whileTurns_of_cond h, whileEnd_of_cond h, ih, List.length_cons,
        Function.iterate_succ_apply]
    · rw [whileTurns_of_not h, whileEnd_of_not h]
      rfl

theorem cond_of_mem_whileTurns {n : ℕ} {a b : α} (hb : b ∈ whileTurns cond step n a) : cond b := by
  induction n generalizing a with
  | zero => simp [whileTurns] at hb
  | succ n ih =>
    by_cases h : cond a
    · rw [whileTurns_of_cond h] at hb
      rcases List.mem_cons.mp hb with rfl | hb
      · exact h
      · exact ih hb
    · simp [whileTurns_of_not h] at hb

theorem cond_iterate_of_lt {n k : ℕ} {a : α} (hk : k < (whileTurns cond step n a).length) :
    cond (step^[k] a) := by
  have hmem : step^[k] a ∈ whileTurns cond step n a := by
    rw [whileTurns_eq_iterate]
    exact List.mem_iterate.mpr ⟨k, hk, rfl⟩
  exact cond_of_mem_whileTurns hmem

/-! ## Leaving the loop -/

section Measure

variable {μ : α → ℕ} (hμ : ∀ a, cond a → μ (step a) < μ a)
include hμ

theorem length_whileTurns_le (n : ℕ) (a : α) : (whileTurns cond step n a).length ≤ μ a := by
  induction n generalizing a with
  | zero => exact Nat.zero_le _
  | succ n ih =>
    by_cases h : cond a
    · rw [whileTurns_of_cond h, List.length_cons]
      exact (ih (step a)).trans_lt (hμ a h)
    · rw [whileTurns_of_not h]
      exact Nat.zero_le _

/-- **A loop whose measure falls ends with its condition false.** -/
theorem whileEnd_not {n : ℕ} {a : α} (hn : μ a ≤ n) : ¬ cond (whileEnd cond step n a) := by
  induction n generalizing a with
  | zero => exact fun h => absurd (hμ a h) (by omega)
  | succ n ih =>
    by_cases h : cond a
    · have := hμ a h
      rw [whileEnd_of_cond h]
      exact ih (by omega)
    · rwa [whileEnd_of_not h]

end Measure

/-! ## Invariants -/

/-- **What every turn keeps holds at the end.** -/
theorem whileEnd_invariant {P : α → Prop} {n : ℕ} {a : α}
    (hstep : ∀ b ∈ whileTurns cond step n a, P b → P (step b)) (ha : P a) :
    P (whileEnd cond step n a) := by
  rw [whileTurns_eq_iterate] at hstep
  rw [whileEnd_eq_iterate]
  exact WalkLib.iterate_end_invariant hstep ha

theorem whileTurns_invariant {P : α → Prop} (hstep : ∀ a, cond a → P a → P (step a)) {n : ℕ} {a : α}
    (ha : P a) {b : α} (hb : b ∈ whileTurns cond step n a) : P b := by
  induction n generalizing a with
  | zero => simp [whileTurns] at hb
  | succ n ih =>
    by_cases h : cond a
    · rw [whileTurns_of_cond h] at hb
      rcases List.mem_cons.mp hb with rfl | hb
      · exact ha
      · exact ih (hstep a h ha) hb
    · simp [whileTurns_of_not h] at hb

theorem whileEnd_append {g new : α → List β} (hstep : ∀ a, g (step a) = g a ++ new a) (n : ℕ) (a : α) :
    g (whileEnd cond step n a) = g a ++ (whileTurns cond step n a).flatMap new := by
  rw [whileEnd_eq_iterate, WalkLib.iterate_append hstep, ← whileTurns_eq_iterate]

/-- **The turns in front of a turn** are a run that ends there. -/
theorem exists_split_whileTurns {n : ℕ} {a b : α} (hb : b ∈ whileTurns cond step n a) :
    ∃ before after, whileTurns cond step n a = before ++ b :: after ∧
      before = List.iterate step a before.length ∧ b = step^[before.length] a := by
  obtain ⟨before, after, hsplit⟩ := List.append_of_mem hb
  refine ⟨before, after, hsplit, ?_⟩
  rw [whileTurns_eq_iterate] at hsplit
  exact (WalkLib.iterate_split hsplit).2

theorem whileEnd_congr {step' : α → α} {n : ℕ} {a : α}
    (h : ∀ b ∈ whileTurns cond step n a, step' b = step b) :
    whileEnd cond step' n a = whileEnd cond step n a := by
  induction n generalizing a with
  | zero => rfl
  | succ n ih =>
    by_cases hc : cond a
    · rw [whileTurns_of_cond hc] at h
      have hstep := h a List.mem_cons_self
      rw [whileEnd_of_cond hc, whileEnd_of_cond hc, hstep,
        ih fun b hb => h b (List.mem_cons_of_mem _ hb)]
    · rw [whileEnd_of_not hc, whileEnd_of_not hc]

end WhileLib
