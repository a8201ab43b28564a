import Mathlib.Data.List.Basic
import Mathlib.Control.Basic

/-!
# Programs that fail part way

A program changes a state and answers a value, or stops with an error; what it changed before the
error stays changed.

* `exec_bind`, `ok_bind`: a program that answers went through its parts, each of which answered;
* `Runs`, `ok_mapM`: the same for a loop;
* `Composes`: a property that a program has if its parts have it, such as `Total`, that it never fails, and
  `Keeps`, a relation between the states before and after, however it ends.
-/

abbrev Fallible (ε σ α : Type) := ExceptT ε (StateM σ) α

namespace Fallible

variable {ε σ α β : Type}

def exec (x : Fallible ε σ α) (s : σ) : Except ε α × σ := (ExceptT.run x).run s

/-- A program given by its answer and the state after. -/
def of (f : σ → Except ε α × σ) : Fallible ε σ α := ExceptT.mk (fun s => f s)

@[simp] theorem exec_of (f : σ → Except ε α × σ) (s : σ) : (of f).exec s = f s := rfl

theorem exec_bind (x : Fallible ε σ α) (f : α → Fallible ε σ β) (s : σ) :
    (x >>= f).exec s =
      match x.exec s with
      | (.ok a, s') => (f a).exec s'
      | (.error e, s') => (.error e, s') := by
  show (match x.exec s with
    | (a, s') => (ExceptT.bindCont f a).run s') = _
  rcases x.exec s with ⟨a | e, s'⟩ <;> rfl

variable {f : α → Fallible ε σ β} {x : Fallible ε σ α}

theorem ok_bind {s s'' : σ} {b : β} (h : (x >>= f).exec s = (.ok b, s'')) :
    ∃ a s', x.exec s = (.ok a, s') ∧ (f a).exec s' = (.ok b, s'') := by
  rw [exec_bind] at h
  rcases hx : x.exec s with ⟨e | a, s'⟩
  · rw [hx] at h
    cases h
  · rw [hx] at h
    exact ⟨a, s', rfl, h⟩

inductive Runs (f : α → Fallible ε σ β) : σ → List α → List β → σ → Prop
  | nil (s : σ) : Runs f s [] [] s
  | cons {s s' s'' : σ} {a : α} {as : List α} {b : β} {bs : List β} (hhead : (f a).exec s = (.ok b, s'))
      (htail : Runs f s' as bs s'') : Runs f s (a :: as) (b :: bs) s''

theorem ok_mapM {l : List α} {s s' : σ} {bs : List β} (h : (l.mapM f).exec s = (.ok bs, s')) :
    Runs f s l bs s' := by
  induction l generalizing s bs with
  | nil =>
    cases h
    exact Runs.nil _
  | cons a l ih =>
    rw [List.mapM_cons] at h
    obtain ⟨b, s₁, hhead, h⟩ := ok_bind h
    obtain ⟨bs', s₂, htail, h⟩ := ok_bind h
    cases h
    exact Runs.cons hhead (ih htail)

/-- A property of programs that a sequence of programs with it has. -/
structure Composes (P : ∀ {α : Type}, Fallible ε σ α → Prop) : Prop where
  pure : ∀ {α : Type} (a : α), P (pure a : Fallible ε σ α)
  bind : ∀ {α β : Type} {x : Fallible ε σ α} {f : α → Fallible ε σ β}, P x → (∀ a, P (f a)) → P (x >>= f)

theorem Composes.mapM {P : ∀ {α : Type}, Fallible ε σ α → Prop} (h : Composes P) (hf : ∀ a, P (f a)) (l : List α) :
    P (l.mapM f) := by
  induction l with
  | nil =>
    rw [List.mapM_nil]
    exact h.pure []
  | cons a l ih =>
    rw [List.mapM_cons]
    exact h.bind (hf a) fun b => h.bind ih fun bs => h.pure (b :: bs)

def Total (x : Fallible ε σ α) : Prop := ∀ s, ∃ a s', x.exec s = (.ok a, s')

theorem total_composes : Composes (@Total ε σ) where
  pure a s := ⟨a, s, rfl⟩
  bind := by
    intro α β x f hx hf s
    obtain ⟨a, s₁, hexec⟩ := hx s
    obtain ⟨b, s₂, hrest⟩ := hf a s₁
    refine ⟨b, s₂, ?_⟩
    rw [exec_bind, hexec]
    exact hrest

/-- However the program ends, `R` holds between the states before and after. -/
def Keeps (R : σ → σ → Prop) (x : Fallible ε σ α) : Prop := ∀ s, R s (x.exec s).2

theorem keeps_composes {R : σ → σ → Prop} [IsPreorder σ R] : Composes fun {α} (x : Fallible ε σ α) => Keeps R x where
  pure _ s := refl s
  bind := by
    intro α β x f hx hf s
    have hfst := hx s
    rw [exec_bind]
    rcases hexec : x.exec s with ⟨e | a, s'⟩
    · rw [hexec] at hfst
      exact hfst
    · rw [hexec] at hfst
      exact IsTrans.trans _ _ _ hfst (hf a s')

end Fallible
