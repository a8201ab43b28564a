import Mathlib.Data.List.Basic

/-!
# Loops as folds

What a loop does to its state, from what one pass does:

* `foldl_rel`: a reflexive and transitive relation between the states before and after
  each pass holds between the states before and after the loop;
* `foldl_rel_mem`: the same when a pass may use that it is over an element of the list;
* `foldl_eq`: what no pass changes, the loop does not change.
-/

namespace Fold

variable {σ α : Type}

variable {f : σ → α → σ}

section

variable {R : σ → σ → Prop} (hrefl : ∀ s, R s s) (htrans : ∀ {a b c}, R a b → R b c → R a c)
include hrefl htrans

theorem foldl_rel_mem (l : List α) (hf : ∀ s, ∀ a ∈ l, R s (f s a)) (s : σ) : R s (l.foldl f s) :=
  List.foldlRecOn l f (hrefl s) fun s' h a ha => htrans h (hf s' a ha)

theorem foldl_rel (hf : ∀ s a, R s (f s a)) (l : List α) (s : σ) : R s (l.foldl f s) :=
  foldl_rel_mem hrefl htrans l (fun s a _ => hf s a) s

end

theorem foldl_eq {β : Type} (g : σ → β) (hf : ∀ s a, g (f s a) = g s) (l : List α) (s : σ) :
    g (l.foldl f s) = g s := by
  induction l generalizing s with
  | nil => rfl
  | cons a l ih => exact (ih (f s a)).trans (hf s a)

end Fold
