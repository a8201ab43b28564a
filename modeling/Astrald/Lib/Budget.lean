import Mathlib.Data.List.Basic
import Mathlib.Algebra.BigOperators.Group.List.Basic
import Mathlib.Algebra.Order.Ring.Int

/-!
# Spending a budget on a list

Every element is charged its size, in order, whether or not it fits: what is left goes below zero
and stays there. An element is kept if what is left after its charge is not negative.

* `mem_fits`: an element is kept if the elements up to it, itself included, fit together;
* `total_kept_le`: what is kept fits.
-/

namespace Budget

open List

variable {α : Type} (size : α → ℕ)

/-- What is left after a charge, and whether the charge fitted. -/
def spend (left : ℤ) (n : ℕ) : ℤ × Bool := (left - n, decide (0 ≤ left - n))

def total (l : List α) : ℕ := (l.map size).sum

def fits : ℤ → List α → List (α × Bool)
  | _, [] => []
  | left, a :: as => (a, (spend left (size a)).2) :: fits (spend left (size a)).1 as

def after (left : ℤ) (l : List α) : ℤ := left - total size l

theorem total_cons (a : α) (l : List α) : total size (a :: l) = size a + total size l := by
  simp [total]

theorem total_nil : total size [] = 0 := rfl

theorem total_append (l m : List α) : total size (l ++ m) = total size l + total size m := by
  simp [total]

theorem after_cons (left : ℤ) (a : α) (l : List α) :
    after size left (a :: l) = after size (spend left (size a)).1 l := by
  simp only [after, spend, total_cons]
  omega

theorem fits_append (left : ℤ) (l m : List α) :
    fits size left (l ++ m) = fits size left l ++ fits size (after size left l) m := by
  induction l generalizing left with
  | nil => simp [fits, after, total]
  | cons a l ih =>
    rw [cons_append, fits, fits, ih, after_cons]
    rfl

theorem map_fst_fits (left : ℤ) (l : List α) : (fits size left l).map Prod.fst = l := by
  induction l generalizing left with
  | nil => rfl
  | cons a l ih => simp [fits, ih]

/-- An element is kept if the charges up to its own fit. -/
theorem mem_fits {left : ℤ} {l : List α} {a : α} :
    (a, true) ∈ fits size left l ↔
      ∃ pre post, l = pre ++ a :: post ∧ ((total size pre + size a : ℕ) : ℤ) ≤ left := by
  induction l generalizing left with
  | nil => simp [fits]
  | cons b l ih =>
    rw [fits, mem_cons, ih]
    constructor
    · rintro (h | ⟨pre, post, rfl, hle⟩)
      · obtain ⟨rfl, hfit⟩ := Prod.mk.injEq _ _ _ _ ▸ h
        have hle : 0 ≤ left - size a := of_decide_eq_true hfit.symm
        exact ⟨[], l, rfl, by simp only [total, map_nil, sum_nil]; push_cast; omega⟩
      · refine ⟨b :: pre, post, rfl, ?_⟩
        rw [total_cons]
        simp only [spend] at hle
        omega
    · rintro ⟨pre, post, heq, hle⟩
      cases pre with
      | nil =>
        obtain ⟨rfl, rfl⟩ := List.cons.inj heq
        refine .inl (Prod.ext rfl (decide_eq_true ?_).symm)
        omega
      | cons c pre =>
        obtain ⟨rfl, rfl⟩ := List.cons.inj heq
        refine .inr ⟨pre, post, rfl, ?_⟩
        rw [total_cons] at hle
        simp only [spend]
        omega

def kept (l : List (α × Bool)) : List α := (l.filter Prod.snd).map Prod.fst

omit size in
theorem kept_append (l m : List (α × Bool)) : kept (l ++ m) = kept l ++ kept m := by
  simp [kept]

theorem kept_of_spent {left : ℤ} (h : left < 0) (l : List α) : kept (fits size left l) = [] := by
  induction l generalizing left with
  | nil => rfl
  | cons a l ih =>
    have hover : (spend left (size a)).2 = false := decide_eq_false (by omega)
    have hrest : (spend left (size a)).1 < 0 := by simp only [spend]; omega
    rw [fits, kept, filter_cons_of_neg (by simp [hover])]
    exact ih hrest

/-- Nothing is kept from the first element on that does not fit. -/
theorem kept_of_over {left : ℤ} {a : α} (h : left < size a) (l : List α) :
    kept (fits size left (a :: l)) = [] := by
  have hdrop : (spend left (size a)).2 = false := decide_eq_false (by omega)
  rw [fits, kept, filter_cons_of_neg (by simp [hdrop])]
  exact kept_of_spent size (by simp only [spend]; omega) l

theorem total_kept_le (left : ℤ) (l : List α) : (total size (kept (fits size left l)) : ℤ) ≤ max 0 left := by
  induction l generalizing left with
  | nil => simp [fits, kept, total]
  | cons a l ih =>
    by_cases hfit : 0 ≤ left - size a
    · have hkeep : (spend left (size a)).2 = true := decide_eq_true hfit
      have hrest := ih (left - size a)
      rw [fits, kept, filter_cons_of_pos (by simpa using hkeep), map_cons, total_cons]
      change ((size a + total size (kept (fits size (left - size a) l)) : ℕ) : ℤ) ≤ _
      omega
    · rw [kept_of_over size (by omega)]
      simp [total]

end Budget
