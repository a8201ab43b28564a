import Mathlib.Data.List.Basic

/-!
# Histories

A history is a list of events, the latest last. `Always P` says of every event, and of what
had happened before it, that `P` holds.

* `Always.append`: events that satisfy `P` whatever happened before may be added;
* `Always.snoc`: so may one event that satisfies `P` now.
-/

namespace History

open List

variable {α : Type} {P : List α → α → Prop}

/-- Every event satisfies `P` together with the events before it. -/
def Always (P : List α → α → Prop) (l : List α) : Prop :=
  ∀ pre a post, l = pre ++ a :: post → P pre a

theorem always_nil : Always P [] := by
  intro pre a post heq
  simp at heq

theorem Always.snoc {l : List α} {a : α} (h : Always P l) (ha : P l a) : Always P (l ++ [a]) := by
  intro pre b post heq
  rcases append_eq_append_iff.mp heq with ⟨m, hpre, hb⟩ | ⟨m, hl, hb⟩
  · cases m with
    | nil =>
      rw [nil_append, List.cons.injEq] at hb
      rw [hpre, append_nil, ← hb.1]
      exact ha
    | cons x m => simp at hb
  · cases m with
    | nil =>
      rw [nil_append, List.cons.injEq] at hb
      rw [append_nil] at hl
      rw [← hl, hb.1]
      exact ha
    | cons x m =>
      rw [cons_append, List.cons.injEq] at hb
      exact h pre b m (by rw [hl, hb.1])

theorem Always.append {l es : List α} (h : Always P l) (hes : ∀ e ∈ es, ∀ pre, P pre e) :
    Always P (l ++ es) := by
  induction es generalizing l with
  | nil =>
    rw [append_nil]
    exact h
  | cons e es ih =>
    rw [append_cons]
    exact ih (h.snoc (hes e mem_cons_self l)) fun e' he' => hes e' (mem_cons_of_mem e he')

end History
