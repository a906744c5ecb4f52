import Mathlib.Tactic
import Mathlib.Data.List.Basic

/-!
# Nested loops that work in place

A loop over `l` whose body visits the cells of one element, the visits reading what they overwrite.
If all cells are apart, every visit finds its cell fresh, and the loop is one loop over all cells.

* `foldl_keeps`, `foldl_keeps_fresh`: what a run of visits leaves alone.
* **`foldl_eq_foldl_flatMap`**.
* `foldl_past`: an action that commutes with those of a loop may come before it or behind it.
* `foldl_range_keeps`, `foldlM_option_keeps`: the invariants of a counting loop and of one that may fail.
-/

namespace ActionLib

variable {σ ι ε : Type} {Good : σ → Prop} {Fresh : σ → ε → Prop} {Apart : ε → ε → Prop}
  {act : σ → ε → σ}

theorem foldl_keeps (hgood : ∀ s e, Good s → Good (act s e)) (es : List ε) {s : σ} (hs : Good s) :
    Good (es.foldl act s) := by
  induction es generalizing s with
  | nil => exact hs
  | cons e es ih => exact ih (hgood s e hs)

theorem foldl_keeps_fresh (hgood : ∀ s e, Good s → Good (act s e))
    (hkeep : ∀ s e e', Good s → Apart e e' → Fresh s e' → Fresh (act s e) e') {es : List ε} {e' : ε}
    (hap : ∀ e ∈ es, Apart e e') {s : σ} (hs : Good s) (hf : Fresh s e') :
    Fresh (es.foldl act s) e' := by
  induction es generalizing s with
  | nil => exact hf
  | cons e es ih =>
    exact ih (fun x hx => hap x (List.mem_cons_of_mem _ hx)) (hgood s e hs)
      (hkeep s e e' hs (hap e List.mem_cons_self) hf)

/-- **A loop of loops over cells that are apart is one loop over all cells.** -/
theorem foldl_eq_foldl_flatMap (Good : σ → Prop) (Fresh : σ → ε → Prop) (hgood : ∀ s e, Good s → Good (act s e))
    (hkeep : ∀ s e e', Good s → Apart e e' → Fresh s e' → Fresh (act s e) e')
    {outer : σ → ι → σ} {cells : ι → List ε} {l : List ι}
    (houter : ∀ i ∈ l, ∀ s, Good s → (∀ e ∈ cells i, Fresh s e) →
      outer s i = (cells i).foldl act s)
    (hap : (l.flatMap cells).Pairwise Apart) {s : σ} (hs : Good s)
    (hf : ∀ e ∈ l.flatMap cells, Fresh s e) :
    l.foldl outer s = (l.flatMap cells).foldl act s := by
  induction l generalizing s with
  | nil => rfl
  | cons i l ih =>
    rw [List.flatMap_cons] at hap hf ⊢
    rw [List.pairwise_append] at hap
    rw [List.foldl_cons, List.foldl_append, houter i List.mem_cons_self s hs
      fun e he => hf e (List.mem_append_left _ he)]
    exact ih (fun j hj => houter j (List.mem_cons_of_mem _ hj)) hap.2.1
      (foldl_keeps hgood _ hs) fun e he => foldl_keeps_fresh hgood hkeep
        (fun x hx => hap.2.2 x hx e he) hs (hf e (List.mem_append_right _ he))

theorem foldl_past {P : σ → Prop} {a : ε} {es : List ε} (hkeep : ∀ s, ∀ e ∈ es, P s → P (act s e))
    (hcomm : ∀ s, ∀ e ∈ es, P s → act (act s a) e = act (act s e) a) {s : σ} (hs : P s) :
    es.foldl act (act s a) = act (es.foldl act s) a := by
  induction es generalizing s with
  | nil => rfl
  | cons e es ih =>
    rw [List.foldl_cons, List.foldl_cons, hcomm s e List.mem_cons_self hs]
    exact ih (fun s e he => hkeep s e (List.mem_cons_of_mem _ he))
      (fun s e he => hcomm s e (List.mem_cons_of_mem _ he)) (hkeep s e List.mem_cons_self hs)

theorem foldl_range_keeps {P : σ → Prop} {step : σ → ℕ → σ} {s : σ} {n : ℕ} (hs : P s)
    (hstep : ∀ i < n, P ((List.range i).foldl step s) → P (step ((List.range i).foldl step s) i)) :
    P ((List.range n).foldl step s) := by
  induction n with
  | zero => exact hs
  | succ n ih =>
    have hbefore := ih fun i hi => hstep i (Nat.lt_succ_of_lt hi)
    rw [List.range_succ, List.foldl_append]
    exact hstep n (Nat.lt_succ_self n) hbefore

theorem foldlM_option_keeps {P : σ → Prop} {step : σ → ε → Option σ} {es : List ε}
    (hstep : ∀ s, ∀ e ∈ es, ∀ s', P s → step s e = some s' → P s') {s s' : σ} (hs : P s)
    (hrun : es.foldlM step s = some s') : P s' := by
  induction es generalizing s with
  | nil =>
    obtain rfl : s = s' := Option.some.inj hrun
    exact hs
  | cons e es ih =>
    rw [List.foldlM_cons, Option.bind_eq_bind] at hrun
    obtain ⟨s₁, hfirst, hrest⟩ := Option.bind_eq_some_iff.mp hrun
    exact ih (fun s e he => hstep s e (List.mem_cons_of_mem _ he))
      (hstep s e List.mem_cons_self s₁ hs hfirst) hrest

end ActionLib
