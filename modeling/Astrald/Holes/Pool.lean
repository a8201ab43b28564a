import Astrald.Lib.Table
import Astrald.Lib.Trace

/-!
# The pool of holes

`HolePool` keeps the holes by nonce. `Take` removes and returns a hole in one step; `TakeAny` looks for
one in a copy of the pool, removes its nonce and returns the hole, whatever the removal found.

* `one_consumer`: when every `TakeAny` still finds its hole in the pool, a hole that was added is
  returned once at most until it is added again;
* `two_consumers`: two calls of `TakeAny` return the same hole.
-/

namespace Astrald.Holes

variable {Nonce Hole Peer : Type} [DecidableEq Nonce] [DecidableEq Hole] {nonce : Hole → Nonce}

/-- The pool. `found` are the holes of the `TakeAny` calls that have not removed theirs yet, `out` the
holes as they were returned, without those that have been added again. -/
structure Pool (nonce : Hole → Nonce) where
  holes : Table nonce
  found : List Hole
  out : List Hole

inductive Op (Nonce Hole Peer : Type)
  | add (hole : Hole)
  | take (n : Nonce)
  | remove (n : Nonce)
  /-- `TakeAny` copies the pool; `hole` is the first in the copy that matches. -/
  | find (peer : Peer) (hole : Hole)
  /-- It removes the nonce and returns the hole. -/
  | takeAny (hole : Hole)

namespace Pool

def empty : Pool nonce := ⟨.empty, [], []⟩

/-- `sig.Map.Set` stores nothing under a key that is there. -/
def add (s : Pool nonce) (hole : Hole) : Pool nonce :=
  if s.holes.find (nonce hole) = none then
    { s with holes := s.holes.insert hole, out := s.out.filter (· ≠ hole) }
  else s

def remove (s : Pool nonce) (n : Nonce) : Pool nonce := { s with holes := s.holes.erase n }

def take (s : Pool nonce) (n : Nonce) (hole : Hole) : Pool nonce := { s.remove n with out := hole :: s.out }

variable (matchesPeer : Hole → Peer → Bool)

def step (s : Pool nonce) : Op Nonce Hole Peer → Pool nonce
  | .add hole => s.add hole
  | .take n => (s.holes.find n).elim s (s.take n)
  | .remove n => s.remove n
  | .find peer hole =>
    if hole ∈ s.holes.rows ∧ matchesPeer hole peer then { s with found := hole :: s.found } else s
  | .takeAny hole =>
    if hole ∈ s.found then { s.take (nonce hole) hole with found := s.found.erase hole } else s

def exec : List (Op Nonce Hole Peer) → Pool nonce := Trace.exec (step matchesPeer) empty

/-- A `TakeAny` that removes finds the hole that it returns. -/
def Undisturbed (s : Pool nonce) : Op Nonce Hole Peer → Prop
  | .takeAny hole => hole ∈ s.holes.rows
  | _ => True

/-- A hole in the pool is not out, and none is out twice. -/
structure Single (s : Pool nonce) : Prop where
  kept : ∀ hole ∈ s.holes.rows, hole ∉ s.out
  once : s.out.Nodup

variable {s : Pool nonce} (h : s.Single) {hole : Hole}
include h

theorem Single.add (hole : Hole) : (s.add hole).Single := by
  refine Trace.when_keeps h fun hfree => ⟨fun x hx hout => ?_, h.once.filter _⟩
  obtain ⟨hout, hne⟩ := List.mem_filter.mp hout
  rw [Table.rows_insert hfree, List.mem_append, List.mem_singleton] at hx
  rcases hx with hx | rfl
  · exact h.kept x hx hout
  · simp at hne

omit [DecidableEq Hole] in
theorem Single.take (hin : hole ∈ s.holes.rows) : (s.take (nonce hole) hole).Single := by
  refine ⟨fun x hx hout => ?_, List.nodup_cons.mpr ⟨h.kept hole hin, h.once⟩⟩
  obtain ⟨hx, hne⟩ := Table.mem_erase.mp hx
  rcases List.mem_cons.mp hout with rfl | hout
  · exact hne rfl
  · exact h.kept x hx hout

theorem Single.step (op : Op Nonce Hole Peer) (hop : Undisturbed s op) : (s.step matchesPeer op).Single := by
  cases op with
  | add hole => exact h.add hole
  | take n =>
    refine Trace.elim_keeps h _ _ fun hole hfind => ?_
    obtain ⟨hin, rfl⟩ := Table.find_eq_some.mp hfind
    exact h.take hin
  | remove n => exact { h with kept := fun x hx => h.kept x (Table.mem_erase.mp hx).1 }
  | find peer hole => exact Trace.when_keeps h fun _ => { h with }
  | takeAny hole => exact Trace.when_keeps h fun _ => { h.take hop with }

omit h

/-- While every `TakeAny` removes the hole that it returns, a hole is returned once at most between two
times that it is added. -/
theorem one_consumer (nonce : Hole → Nonce) (matchesPeer : Hole → Peer → Bool)
    (ops : List (Op Nonce Hole Peer))
    (h : Trace.Along (fun ops => Undisturbed (exec matchesPeer ops : Pool nonce)) ops) :
    (exec matchesPeer ops : Pool nonce).out.Nodup := by
  have hsingle : (exec matchesPeer ops : Pool nonce).Single :=
    h.invariant ⟨nofun, List.nodup_nil⟩ fun op _ hop ih => ih.step matchesPeer op hop
  exact hsingle.once

theorem one_consumer_run :
    (exec (fun _ _ => true) [.takeAny 0, .find () 0, .add 0] : Pool (id : ℕ → ℕ)).out.Nodup :=
  one_consumer _ _ _ ⟨List.mem_singleton_self 0, trivial, trivial, trivial⟩

/-- Both calls have found the hole before either removes it. -/
theorem two_consumers : (exec (fun _ _ => true)
    [.takeAny 0, .takeAny 0, .find () 0, .find () 0, .add 0] : Pool (id : ℕ → ℕ)).out = [0, 0] := by
  decide

end Pool

end Astrald.Holes
