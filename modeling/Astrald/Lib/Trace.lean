import Mathlib.Data.List.Basic
import Mathlib.Data.List.Infix

/-!
# Runs of a deterministic machine

A machine is a step function and an initial state; a run is the list of its inputs, the
latest first. An input that is not enabled is one on which the step changes nothing. What
is said of a step may depend on the whole run before it.

* `Along`: a condition that every step of a run meets;
* `latest`: the last value that a step of the run has;
* `invariant`, `Along.invariant`: what holds initially and what every step keeps holds after every run;
* `elim_keeps`, `when_keeps`, `unless_keeps`: an input that names nothing, or is not enabled, changes nothing.
-/

namespace Trace

variable {σ α β : Type}

def exec (step : σ → α → σ) (init : σ) : List α → σ
  | [] => init
  | a :: as => step (exec step init as) a

theorem exec_append (step : σ → α → σ) (init : σ) (as bs : List α) :
    exec step init (as ++ bs) = exec step (exec step init bs) as := by
  induction as with
  | nil => rfl
  | cons a as ih =>
    show step (exec step init (as ++ bs)) a = _
    rw [ih]
    rfl

/-- Every step of the run meets `P`, which sees the run before it. -/
def Along (P : List α → α → Prop) : List α → Prop
  | [] => True
  | a :: as => P as a ∧ Along P as

instance decidableAlong (P : List α → α → Prop) [∀ as a, Decidable (P as a)] :
    (as : List α) → Decidable (Along P as)
  | [] => instDecidableTrue
  | a :: as =>
    haveI := decidableAlong P as
    inferInstanceAs (Decidable (P as a ∧ Along P as))

theorem Along.at_step {P : List α → α → Prop} {as : List α} (h : Along P as) {a : α} {as' : List α}
    (hsuf : (a :: as') <:+ as) : P as' a := by
  induction as with
  | nil => exact absurd (List.suffix_nil.mp hsuf) (List.cons_ne_nil a as')
  | cons b bs ih =>
    rcases List.suffix_cons_iff.mp hsuf with heq | hsuf'
    · rw [List.cons.injEq] at heq
      rw [heq.1, heq.2]
      exact h.1
    · exact ih h.2 hsuf'

/-- The last value that `say` gives to a step of the run. -/
def latest (say : List α → α → Option β) : List α → Option β
  | [] => none
  | a :: as => (say as a).or (latest say as)

/-- The invariant rule; the property may speak of the run that led to the state. -/
theorem invariant {step : σ → α → σ} {init : σ} {I : List α → σ → Prop} (hinit : I [] init)
    (hstep : ∀ a as, I as (exec step init as) → I (a :: as) (step (exec step init as) a)) (as : List α) :
    I as (exec step init as) := by
  induction as with
  | nil => exact hinit
  | cons a as ih => exact hstep a as ih

/-- The same for a run whose steps all meet a condition. -/
theorem Along.invariant {step : σ → α → σ} {init : σ} {P : List α → α → Prop} {I : σ → Prop} {as : List α}
    (h : Along P as) (hinit : I init)
    (hstep : ∀ a as, P as a → I (exec step init as) → I (step (exec step init as) a)) :
    I (exec step init as) := by
  induction as with
  | nil => exact hinit
  | cons a as ih => exact hstep a as h.1 (ih h.2)

/-- A step on something that the input names, which may not be there. -/
theorem elim_keeps {P : σ → Prop} {s : σ} (h : P s) (o : Option β) (f : β → σ)
    (hf : ∀ b, o = some b → P (f b)) :
    P (o.elim s f) := by
  cases o with
  | none => exact h
  | some b => exact hf b rfl

variable {P : σ → Prop} {p : Prop} [Decidable p] {s s' : σ}

theorem when_keeps (h : P s) (hstep : p → P s') : P (if p then s' else s) := by
  split
  · exact hstep ‹p›
  · exact h

theorem unless_keeps (h : P s) (hstep : ¬p → P s') : P (if p then s else s') := by
  split
  · exact h
  · exact hstep ‹¬p›

end Trace
