import Mathlib.Data.List.Basic
import Mathlib.Tactic

/-!
# Logs that explain a state

A log of events, each with an effect on the state and a condition on the state it meets.

* `Explains`: the log leads from one state to another; `Explains.eq_foldl`, `Explains.fits`: what it
  says about them.
* **`foldl_apply`**: where events write values at places, the last one written counts.
-/

namespace LogLib

variable {σ ε α β : Type}

/-- Every event of the log fits the state it meets, and `t` is the state at its end. -/
inductive Explains (apply : σ → ε → σ) (Fits : σ → ε → Prop) (s : σ) : List ε → σ → Prop
  | nil : Explains apply Fits s [] s
  | snoc {log : List ε} {t : σ} {e : ε} (h : Explains apply Fits s log t) (he : Fits t e) :
      Explains apply Fits s (log ++ [e]) (apply t e)

variable {apply : σ → ε → σ} {Fits : σ → ε → Prop} {s t : σ} {log : List ε}

theorem Explains.eq_foldl (h : Explains apply Fits s log t) : t = log.foldl apply s := by
  induction h with
  | nil => rfl
  | snoc h he ih =>
    rw [List.foldl_append, ← ih]
    rfl

theorem Explains.fits (h : Explains apply Fits s log t) {front back : List ε} {e : ε}
    (hlog : log = front ++ e :: back) : Fits (front.foldl apply s) e := by
  induction h generalizing back with
  | nil => simp at hlog
  | @snoc log t e' h he ih =>
    rcases List.eq_nil_or_concat back with rfl | ⟨back, b, rfl⟩
    · obtain ⟨rfl, rfl⟩ := List.append_singleton_inj.mp hlog
      rwa [← h.eq_foldl]
    · rw [List.concat_eq_append, ← List.cons_append, ← List.append_assoc] at hlog
      exact ih (List.append_singleton_inj.mp hlog).1

/-- **The last value written counts.** -/
theorem foldl_apply {apply : (α → β) → ε → α → β} (value : ε → α → Option β)
    (h : ∀ m e x, apply m e x = (value e x).getD (m x)) (log : List ε) (m : α → β) (x : α) :
    log.foldl apply m x = ((log.filterMap (value · x)).getLast?).getD (m x) := by
  induction log using List.reverseRecOn with
  | nil => rfl
  | append_singleton log e ih =>
    rw [List.foldl_append, List.foldl_cons, List.foldl_nil, h, ih, List.filterMap_append]
    cases hv : value e x with
    | none => simp [hv]
    | some v => simp [hv]

end LogLib
