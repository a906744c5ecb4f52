import Maloader.Lib.Walk

/-!
# Loops that may fail

Loops over a list and loops along a walk whose body may fail: the first failure ends the loop.

* `runFor`: a body run a number of times.
* `foldlM_hom`: two loops that a map of states connects.
* `foldlM_append_of_step`: what every pass appends; `foldlM_eq_none_iff`: which loops fail.
* **`runFor_eq_foldlM`**: a loop that acts at its place and goes on from there is a loop over the
  places of a walk.
-/

namespace FallibleLib

variable {σ τ ε ι β : Type}

/-- `n` passes of the body. -/
def runFor (step : σ → Option σ) : ℕ → σ → Option σ
  | 0, s => some s
  | n + 1, s => (step s).bind (runFor step n)

theorem foldlM_hom {φ : σ → τ} {step : σ → ε → Option σ} {step' : τ → ε → Option τ}
    (h : ∀ s e, step' (φ s) e = (step s e).map φ) (es : List ε) (s : σ) :
    es.foldlM step' (φ s) = (es.foldlM step s).map φ := by
  induction es generalizing s with
  | nil => rfl
  | cons e es ih =>
    rw [List.foldlM_cons, List.foldlM_cons, h]
    cases step s e with
    | none => rfl
    | some t => exact ih t

theorem foldlM_append_of_step (g : σ → List β) (new : ε → List β) {step : σ → ε → Option σ}
    (h : ∀ s e s', step s e = some s' → g s' = g s ++ new e) {es : List ε} {s s' : σ}
    (hrun : es.foldlM step s = some s') : g s' = g s ++ es.flatMap new := by
  induction es generalizing s with
  | nil =>
    obtain rfl : s = s' := Option.some.inj hrun
    simp
  | cons e es ih =>
    rw [List.foldlM_cons, Option.bind_eq_bind] at hrun
    obtain ⟨t, hfirst, hrest⟩ := Option.bind_eq_some_iff.mp hrun
    rw [ih hrest, h s e t hfirst, List.flatMap_cons, List.append_assoc]

/-- **A loop fails** exactly if it comes to an element that makes it fail. -/
theorem foldlM_eq_none_iff {P : σ → Prop} {bad : ε → Prop} {step : σ → ε → Option σ}
    (hbad : ∀ s e, P s → (step s e = none ↔ bad e))
    (hkeep : ∀ s e s', P s → step s e = some s' → P s') {es : List ε} {s : σ} (hs : P s) :
    es.foldlM step s = none ↔ ∃ e ∈ es, bad e := by
  induction es generalizing s with
  | nil => simp
  | cons e es ih =>
    rw [List.foldlM_cons, Option.bind_eq_bind, List.exists_mem_cons_iff, ← hbad s e hs]
    cases hfirst : step s e with
    | none => simp
    | some t => simpa using ih (hkeep s e t hs hfirst)

section Walk

variable (place : σ → ι) (goto : σ → ι → σ) (next : ι → ι) (act : σ → ι → Option σ)
  {step : σ → Option σ}

/-- **A loop that acts at its place and goes on** is a loop over the places of a walk, if the actions
neither look at the place nor move it. -/
theorem runFor_eq_foldlM (hplace : ∀ s i, place (goto s i) = i)
    (hgoto : ∀ s i j, goto (goto s i) j = goto s j) (hself : ∀ s, goto s (place s) = s)
    (hact : ∀ s i j, act (goto s i) j = (act s j).map (goto · i))
    (hstep : ∀ s, step s = (act s (place s)).map (goto · (next (place s)))) (n : ℕ) (s : σ) :
    runFor step n s =
      ((List.iterate next (place s) n).foldlM act s).map (goto · (next^[n] (place s))) := by
  induction n generalizing s with
  | zero => exact congrArg some (hself s).symm
  | succ n ih =>
    rw [runFor, hstep, List.iterate, List.foldlM_cons, Function.iterate_succ_apply]
    cases act s (place s) with
    | none => rfl
    | some t =>
      have hrest := foldlM_hom (φ := (goto · (next (place s)))) (fun s j => hact s _ j)
        (List.iterate next (next (place s)) n) t
      rw [Option.map_some, Option.bind_some, ih, hplace, hrest, Option.map_map]
      exact congrArg (Option.map · _) (funext fun u => hgoto u _ _)

end Walk

end FallibleLib
