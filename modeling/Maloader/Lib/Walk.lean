import Mathlib.Data.List.Iterate
import Mathlib.Tactic

/-!
# Walks

The places a loop comes to when every turn takes it from one place to the next: `List.iterate`.

* `map_iterate`: a walk seen through a map that the steps respect.
* `iterate_invariant`, `iterate_end_invariant`: what every step keeps; `iterate_rel_end`: what
  grows; `pairwise_iterate`: what relates a place to the later ones; `iterate_append`,
  `iterate_sum`, `iterate_last`: what is appended, added, given last; `iterate_history`: what holds
  of the way so far.
* **`iterate_eq_iff`**: two walks visit the same places exactly if they step alike at every place
  but the last.
-/

namespace WalkLib

variable {α β : Type}

theorem map_iterate {f : α → α} {g : β → β} {φ : α → β} (h : ∀ a, φ (f a) = g (φ a)) (a : α) (n : ℕ) :
    (List.iterate f a n).map φ = List.iterate g (φ a) n := by
  induction n generalizing a with
  | zero => rfl
  | succ n ih =>
    rw [List.iterate, List.iterate, List.map_cons, ih, h]

theorem iterate_invariant {f : α → α} {P : α → Prop} (hstep : ∀ a, P a → P (f a)) {a : α}
    (ha : P a) {n : ℕ} {b : α} (hb : b ∈ List.iterate f a n) : P b := by
  induction n generalizing a with
  | zero => simp at hb
  | succ n ih =>
    rcases List.mem_cons.mp hb with rfl | hb
    · exact ha
    · exact ih (hstep a ha) hb

theorem iterate_end_invariant {f : α → α} {P : α → Prop} {a : α} {n : ℕ}
    (hstep : ∀ b ∈ List.iterate f a n, P b → P (f b)) (ha : P a) : P (f^[n] a) := by
  induction n generalizing a with
  | zero => exact ha
  | succ n ih =>
    rw [Function.iterate_succ_apply]
    exact ih (fun b hb => hstep b (List.mem_cons_of_mem _ hb)) (hstep a List.mem_cons_self ha)

theorem iterate_rel_end {f : α → α} {R : α → α → Prop} (hrefl : ∀ a, R a a)
    (htrans : ∀ a b c, R a b → R b c → R a c) (hstep : ∀ a, R a (f a)) {a b : α} {n : ℕ}
    (hb : b ∈ List.iterate f a n) : R b (f^[n] a) := by
  have hrun : ∀ (n : ℕ) (a : α), R a (f^[n] a) := by
    intro n
    induction n with
    | zero => exact hrefl
    | succ n ih => exact fun a => htrans _ _ _ (hstep a) (ih (f a))
  induction n generalizing a with
  | zero => simp at hb
  | succ n ih =>
    rcases List.mem_cons.mp hb with rfl | hb
    · exact hrun (n + 1) b
    · exact ih hb

/-- **What every step relates** relates each place to all later ones. -/
theorem pairwise_iterate {f : α → α} {R : α → α → Prop} (htrans : ∀ a b c, R a b → R b c → R a c)
    (hstep : ∀ a, R a (f a)) (a : α) (n : ℕ) : (List.iterate f a n).Pairwise R := by
  induction n generalizing a with
  | zero => exact List.Pairwise.nil
  | succ n ih =>
    refine List.Pairwise.cons (fun b hb => ?_) (ih (f a))
    exact iterate_invariant (P := R a) (fun b h => htrans a b (f b) h (hstep b)) (hstep a) hb

theorem iterate_append {f : α → α} {g new : α → List β} (hstep : ∀ a, g (f a) = g a ++ new a)
    (a : α) (n : ℕ) : g (f^[n] a) = g a ++ (List.iterate f a n).flatMap new := by
  induction n generalizing a with
  | zero => simp
  | succ n ih =>
    rw [Function.iterate_succ_apply, ih, hstep, List.iterate, List.flatMap_cons, List.append_assoc]

theorem iterate_last {f : α → α} {g new : α → Option β} (hstep : ∀ a, g (f a) = (new a).or (g a))
    (a : α) (n : ℕ) :
    g (f^[n] a) = ((List.iterate f a n).filterMap new).getLast?.or (g a) := by
  induction n generalizing a with
  | zero => simp
  | succ n ih =>
    rw [Function.iterate_succ_apply, ih, hstep, List.iterate, List.filterMap_cons]
    cases new a with
    | none => simp
    | some b =>
      dsimp only
      rw [List.getLast?_cons]
      cases ((List.iterate f (f a) n).filterMap new).getLast? <;> simp

theorem iterate_sum [AddMonoid β] {f : α → α} {g new : α → β} (hstep : ∀ a, g (f a) = g a + new a)
    (a : α) (n : ℕ) : g (f^[n] a) = g a + ((List.iterate f a n).map new).sum := by
  induction n generalizing a with
  | zero => simp
  | succ n ih =>
    rw [Function.iterate_succ_apply, ih, hstep, List.iterate, List.map_cons, List.sum_cons, add_assoc]

theorem iterate_history {f : α → α} {P : List α → α → Prop} {a : α} {n k : ℕ} (ha : P [] a)
    (hstep : ∀ l, ∀ b ∈ List.iterate f a n, P l b → P (l ++ [b]) (f b)) (hk : k ≤ n) :
    P (List.iterate f a k) (f^[k] a) := by
  induction k with
  | zero => exact ha
  | succ k ih =>
    rw [List.iterate_add, Function.iterate_succ_apply']
    exact hstep _ _ (List.mem_iterate.mpr ⟨k, hk, rfl⟩) (ih (Nat.le_of_succ_le hk))

theorem iterate_split {f : α → α} {a b : α} {n : ℕ} {before after : List α}
    (h : List.iterate f a n = before ++ b :: after) :
    before.length < n ∧ before = List.iterate f a before.length ∧ b = f^[before.length] a := by
  have hlength := congrArg List.length h
  rw [List.length_iterate, List.length_append, List.length_cons] at hlength
  obtain ⟨m, rfl⟩ : ∃ m, n = before.length + (m + 1) := ⟨n - before.length - 1, by omega⟩
  rw [List.iterate_add] at h
  obtain ⟨hbefore, hafter⟩ := List.append_inj h.symm (List.length_iterate _ _ _).symm
  exact ⟨by omega, hbefore, (List.cons_eq_cons.mp hafter).1⟩

/-- **Two walks visit the same places** exactly if they step alike at every place but the last. -/
theorem iterate_eq_iff (f g : α → α) (a : α) (n : ℕ) :
    List.iterate f a n = List.iterate g a n ↔
      ∀ x ∈ (List.iterate g a n).dropLast, f x = g x := by
  induction n generalizing a with
  | zero => simp
  | succ n ih =>
    cases n with
    | zero => simp
    | succ n =>
      have hne : List.iterate g (g a) (n + 1) ≠ [] := by simp
      show a :: List.iterate f (f a) (n + 1) = a :: List.iterate g (g a) (n + 1) ↔
        ∀ x ∈ (a :: List.iterate g (g a) (n + 1)).dropLast, f x = g x
      rw [List.dropLast_cons_of_ne_nil hne, List.forall_mem_cons, List.cons_eq_cons]
      constructor
      · rintro ⟨-, htail⟩
        have hhead : f a = g a := (List.cons_eq_cons.mp htail).1
        rw [hhead] at htail
        exact ⟨hhead, (ih (g a)).mp htail⟩
      · rintro ⟨hhead, htail⟩
        rw [hhead]
        exact ⟨rfl, (ih (g a)).mpr htail⟩

end WalkLib
