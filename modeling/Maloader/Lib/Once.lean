import Mathlib.Data.List.Basic
import Mathlib.Tactic

/-!
# Asking until there is an answer

A value that is kept once it has been obtained, and asked for again as long as the answer is `null`.
What answers may depend on everything asked before.

* `askOnce`: one access; `answers`: what was answered for one name, by a log of all questions.
* `Held`, **`Held.askOnce`**: every answer but the last was `null`, and the last one is held;
  `Held.mem_of_ne`, `Held.length_filter_le_one`: whether and how often is asked.
-/

namespace OnceLib

variable {κ α : Type} [DecidableEq κ]

/-- The value for `k`, asked for if what is held is `null`; and the log with that question. -/
def askOnce [DecidableEq α] (ask : List κ → κ → α) (null : α) (log : List κ) (held : α) (k : κ) : α × List κ :=
  if held = null then (ask log k, log ++ [k]) else (held, log)

/-- The answers for `k`, in order. -/
def answers (ask : List κ → κ → α) (k : κ) (log : List κ) : List α :=
  (List.range log.length).filterMap fun i =>
    if log[i]? = some k then some (ask (log.take i) k) else none

theorem answers_append (ask : List κ → κ → α) (k : κ) (log : List κ) (x : κ) :
    answers ask k (log ++ [x]) = answers ask k log ++ if x = k then [ask log k] else [] := by
  have hold : (List.range log.length).filterMap (fun i =>
      if (log ++ [x])[i]? = some k then some (ask ((log ++ [x]).take i) k) else none) =
        answers ask k log := by
    refine List.filterMap_congr fun i hi => ?_
    have hi := List.mem_range.mp hi
    rw [List.getElem?_append_left hi, List.take_append_of_le_length hi.le]
  rw [answers, List.length_append, List.length_singleton, List.range_succ, List.filterMap_append, hold]
  have hat : (log ++ [x])[log.length]? = some x := List.getElem?_concat_length
  have htake : (log ++ [x]).take log.length = log := List.take_left
  rw [List.filterMap_cons, hat, htake, List.filterMap_nil]
  simp only [Option.some.injEq]
  split_ifs <;> rfl

theorem length_answers (ask : List κ → κ → α) (k : κ) (log : List κ) :
    (answers ask k log).length = (log.filter (· = k)).length := by
  induction log using List.reverseRecOn with
  | nil => rfl
  | append_singleton log x ih =>
    rw [answers_append, List.length_append, ih, List.filter_append, List.length_append,
      List.filter_singleton]
    by_cases hx : x = k <;> simp [hx]

/-- Every answer for `k` but the last was `null`; the last one, or `null` without any, is held. -/
structure Held (ask : List κ → κ → α) (null : α) (k : κ) (log : List κ) (held : α) : Prop where
  last : held = (answers ask k log).getLast?.getD null
  failed : ∀ a ∈ (answers ask k log).dropLast, a = null

variable {ask : List κ → κ → α} {null : α} {k : κ} {log : List κ} {held : α}

theorem Held.nil (ask : List κ → κ → α) (null : α) (k : κ) : Held ask null k [] null :=
  ⟨rfl, fun _ h => absurd h List.not_mem_nil⟩

theorem Held.forall_eq_null (h : Held ask null k log null) : ∀ a ∈ answers ask k log, a = null := by
  intro a ha
  cases hlast : (answers ask k log).getLast? with
  | none => rw [List.getLast?_eq_none_iff.mp hlast] at ha; simp at ha
  | some b =>
    have hb : b = null := by rw [h.last, hlast]; rfl
    rw [← List.dropLast_append_getLast? b hlast, List.mem_append, List.mem_singleton] at ha
    exact ha.elim (h.failed a) (·.trans hb)

theorem exists_of_mem_answers {a : α} (h : a ∈ answers ask k log) : k ∈ log ∧ ∃ log', ask log' k = a := by
  obtain ⟨i, -, hi⟩ := List.mem_filterMap.mp h
  split_ifs at hi with hat
  exact ⟨List.mem_of_getElem? hat, log.take i, Option.some.inj hi⟩

theorem Held.eq_null_or_mem (h : Held ask null k log held) :
    held = null ∨ held ∈ answers ask k log := by
  cases hlast : (answers ask k log).getLast? with
  | none => exact .inl (by rw [h.last, hlast]; rfl)
  | some a =>
    refine .inr ?_
    rw [h.last, hlast]
    exact List.mem_of_getLast? hlast

theorem Held.eq_null_or_answer (h : Held ask null k log held) :
    held = null ∨ ∃ log', held = ask log' k := by
  refine h.eq_null_or_mem.imp_right fun hmem => ?_
  obtain ⟨-, log', hask⟩ := exists_of_mem_answers hmem
  exact ⟨log', hask.symm⟩

theorem Held.mem_of_ne (h : Held ask null k log held) (hne : held ≠ null) : k ∈ log :=
  (exists_of_mem_answers (h.eq_null_or_mem.resolve_left hne)).1

theorem Held.length_filter_le_one (h : Held ask null k log held) (hne : ∀ log', ask log' k ≠ null) :
    (log.filter (· = k)).length ≤ 1 := by
  have hnil : (answers ask k log).dropLast = [] := by
    refine List.eq_nil_iff_forall_not_mem.mpr fun a ha => ?_
    obtain ⟨-, log', hask⟩ := exists_of_mem_answers (List.mem_of_mem_dropLast ha)
    exact hne log' (hask.trans (h.failed a ha))
  have hlen := congrArg List.length hnil
  rw [List.length_dropLast, List.length_nil, length_answers] at hlen
  omega

variable [DecidableEq α]

/-- **An access** keeps the last answer, and asks no more once that is one. -/
theorem Held.askOnce (h : Held ask null k log held) :
    Held ask null k (askOnce ask null log held k).2 (askOnce ask null log held k).1 := by
  unfold OnceLib.askOnce
  split_ifs with hnull
  · subst hnull
    have hall := h.forall_eq_null
    refine ⟨?_, ?_⟩
    · rw [answers_append, if_pos rfl, List.getLast?_concat]
      rfl
    · rw [answers_append, if_pos rfl, List.dropLast_concat]
      exact hall
  · exact h

omit [DecidableEq κ] in
theorem mem_log_askOnce {x : κ} (h : x ∈ (askOnce ask null log held k).2) : x ∈ log ∨ x = k := by
  unfold askOnce at h
  split_ifs at h
  · exact (List.mem_append.mp h).imp_right List.mem_singleton.mp
  · exact .inl h

theorem Held.askOnce_of_ne (h : Held ask null k log held) {k' : κ} (hne : k' ≠ k) (held' : α) :
    Held ask null k (OnceLib.askOnce ask null log held' k').2 held := by
  unfold OnceLib.askOnce
  split_ifs
  · exact ⟨by rw [answers_append, if_neg hne, List.append_nil]; exact h.last,
      by rw [answers_append, if_neg hne, List.append_nil]; exact h.failed⟩
  · exact h

end OnceLib
