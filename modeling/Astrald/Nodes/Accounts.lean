import Mathlib
import Astrald.Lib.Trace
import Astrald.Lib.Table

/-!
# The accounts of the link pool

The model of `AddLink`, `addCounted` and `Close` of `link_pool.go`, with the goroutine that each
link leaves behind. There are any number of links to any number of nodes and one `Close`; a step is
what a goroutine does between two points at which another can come in. Only `Add` and the `Select`
of `addCounted` are under one lock: `Remove` and the `Select` of a closed link are two steps.

The periods of a node are those in which the pool holds a link to it; they are numbered from 1, and
`period` is the number of them that have begun. A link bears the number of the period in which it
was added.

* `Link.Moves`: what a step can do to a link;
* `Shutting`: once `Close` has cloned the links, one that is not closed is still to be closed;
* `Books`: in each period exactly one link is counted 1, if no removal leaves alone a link that is
  being counted;
* `Noticed`: for each period that has ended some link counts 0, if a new one does not begin before
  that, and if it has not been ended by an `AddLink` that is cancelled;
* `accounts`, `accounts_kept`: these together, over every run;
* `accounts_off`: what happens otherwise.
-/

namespace Astrald.Nodes.Accounts

open List Function

/-! ## Links -/

/-- Where `AddLink` is with a link, and then the goroutine that waits for its end. -/
inductive Stage
  | added
  | counted
  | cancelled
  | dropped
  | refused
  | registered
  | watched
  | removed
  | recounted (n : ℕ)
  | reported (n : ℕ)
  deriving DecidableEq, Repr

def Stage.pooled : Stage → Bool
  | .added | .counted | .cancelled | .registered | .watched => true
  | _ => false

/-- `AddLink` has not returned. -/
def Stage.pending : Stage → Bool
  | .added | .counted | .cancelled | .dropped | .registered => true
  | _ => false

/-- `AddLink` has still to look at the flag of the pool, or has seen it set and has still to close the
link. -/
def Stage.late : Stage → Bool
  | .added | .counted | .cancelled | .dropped => true
  | _ => false

theorem Stage.pending_of_late {s : Stage} (h : s.late = true) : s.pending = true := by
  cases s <;> first | rfl | cases h

/-- `AddLink` has closed the link, or its goroutine has removed it. -/
def Stage.gone : Stage → Bool
  | .refused | .removed | .recounted _ | .reported _ => true
  | _ => false

/-- The goroutine of the link has removed it and has not emitted its event. -/
def Stage.closing : Stage → Bool
  | .removed | .recounted _ => true
  | _ => false

structure Link (Who : Type) where
  remoteIdentity : Who
  period : ℕ
  linkCount : Option ℕ
  stage : Stage
  closed : Bool
  deriving DecidableEq, Repr

/-- The steps for one link: the `Select` of `addCounted`, the look at the flag, `Remove` and
`CloseWithError` for a link that came too late, the rest of `AddLink`; the end of the link; and the
goroutine's `Remove`, `Select` and `Emit`. -/
inductive LinkOp
  | count
  | check
  | drop
  | refuse
  | spawn
  | die
  | remove
  | recount
  | report
  deriving DecidableEq, Repr

namespace Link

variable {Who : Type}

/-- `LinkCount` of the `LinkClosedEvent` that was emitted for the link: it is a `Uint8`. -/
def emitted (l : Link Who) : Option ℕ :=
  match l.stage with
  | .reported n => some (n % 256)
  | _ => none

/-- The goroutine of the link has counted no other link. -/
def foundNone (l : Link Who) : Bool := l.stage = .recounted 0 || l.stage = .reported 0

/-- `n` is the number of links to the same node in the pool, `shut` the flag of the pool. -/
def step (n : ℕ) (shut : Bool) (l : Link Who) : LinkOp → Option (Link Who)
  | .count => if l.stage = .added then some { l with stage := .counted, linkCount := some n } else none
  | .check =>
    if l.stage = .counted then some { l with stage := if shut then .cancelled else .registered } else none
  | .drop => if l.stage = .cancelled then some { l with stage := .dropped } else none
  | .refuse => if l.stage = .dropped then some { l with stage := .refused, closed := true } else none
  | .spawn => if l.stage = .registered then some { l with stage := .watched } else none
  | .die => some { l with closed := true }
  | .remove => if l.stage = .watched ∧ l.closed then some { l with stage := .removed } else none
  | .recount => if l.stage = .removed then some { l with stage := .recounted n } else none
  | .report =>
    match l.stage with
    | .recounted k => some { l with stage := .reported k }
    | _ => none

inductive Moves (n : ℕ) (shut : Bool) (l : Link Who) : LinkOp → Link Who → Prop
  | counts (h : l.stage = .added) : Moves n shut l .count { l with stage := .counted, linkCount := some n }
  | cancels (h : l.stage = .counted) (hshut : shut = true) :
      Moves n shut l .check { l with stage := .cancelled }
  | registers (h : l.stage = .counted) (hshut : shut = false) :
      Moves n shut l .check { l with stage := .registered }
  | drops (h : l.stage = .cancelled) : Moves n shut l .drop { l with stage := .dropped }
  | refuses (h : l.stage = .dropped) : Moves n shut l .refuse { l with stage := .refused, closed := true }
  | spawns (h : l.stage = .registered) : Moves n shut l .spawn { l with stage := .watched }
  | dies : Moves n shut l .die { l with closed := true }
  | removes (h : l.stage = .watched) (hclosed : l.closed = true) :
      Moves n shut l .remove { l with stage := .removed }
  | recounts (h : l.stage = .removed) : Moves n shut l .recount { l with stage := .recounted n }
  | reports {k : ℕ} (h : l.stage = .recounted k) : Moves n shut l .report { l with stage := .reported k }

variable {n : ℕ} {shut : Bool} {l l' : Link Who} {op : LinkOp}

theorem moves_of_step (h : l.step n shut op = some l') : Moves n shut l op l' := by
  cases op with
  | count | drop | refuse | spawn | recount =>
    simp only [step] at h
    split at h
    · cases h
      constructor
      assumption
    · cases h
  | check =>
    simp only [step] at h
    split at h
    · cases h
      cases shut
      · exact .registers ‹_› rfl
      · exact .cancels ‹_› rfl
    · cases h
  | die =>
    cases h
    exact .dies
  | remove =>
    simp only [step] at h
    split at h
    · rename_i hcond
      cases h
      exact .removes hcond.1 hcond.2
    · cases h
  | report =>
    simp only [step] at h
    split at h
    · cases h
      exact .reports ‹_›
    · cases h

theorem Moves.same (h : Moves n shut l op l') :
    l'.remoteIdentity = l.remoteIdentity ∧ l'.period = l.period := by
  cases h <;> exact ⟨rfl, rfl⟩

end Link

/-! ## The pool -/

/-- Where `Close` is: `rest` are the links that it has cloned and not closed. -/
inductive Closing
  | idle
  | flagged
  | closes (rest : List ℕ)
  deriving DecidableEq, Repr

/-- Links are named by their place in the list of all that were added. -/
structure State (Who : Type) where
  links : List (Link Who)
  period : Who → ℕ
  closing : Closing

inductive Op (Who : Type)
  | add (p : Who)
  | link (i : ℕ) (op : LinkOp)
  | flag
  | clone
  | close

namespace State

variable {Who : Type}

def start : State Who := ⟨[], fun _ => 0, .idle⟩

/-- `pool.closed`. -/
def shut (st : State Who) : Bool := st.closing ≠ .idle

def clone (st : State Who) : List ℕ :=
  (List.range st.links.length).filter fun i => (st.links[i]?.map fun l => l.stage.pooled) = some true

variable [DecidableEq Who]

def held (st : State Who) (p : Who) : ℕ := st.links.countP fun l => l.stage.pooled && l.remoteIdentity = p

/-- The number of links to a node that `addCounted` has added and not counted. -/
def counting (st : State Who) (p : Who) : ℕ :=
  st.links.countP fun l => l.stage = .added && l.remoteIdentity = p

def ones (st : State Who) (p : Who) (k : ℕ) : ℕ :=
  st.links.countP fun l => l.remoteIdentity = p && l.period = k && l.linkCount = some 1

def locked (st : State Who) : Bool := st.links.any fun l => l.stage = .added

def current (st : State Who) (p : Who) : ℕ := if st.held p = 0 then st.period p + 1 else st.period p

def step (st : State Who) : Op Who → State Who
  | .add p =>
    if st.locked then st
    else
      { st with
        links := st.links ++ [⟨p, st.current p, none, .added, false⟩]
        period := Function.update st.period p (st.current p) }
  | .link i op =>
    match st.links[i]? with
    | none => st
    | some l =>
      match l.step (st.held l.remoteIdentity) st.shut op with
      | none => st
      | some l' => { st with links := st.links.set i l' }
  | .flag => if st.closing = .idle then { st with closing := .flagged } else st
  | .clone => if st.closing = .flagged then { st with closing := .closes st.clone } else st
  | .close =>
    match st.closing with
    | .closes (i :: rest) =>
      match st.links[i]? with
      | none => { st with closing := .closes rest }
      | some l => { st with links := st.links.set i { l with closed := true }, closing := .closes rest }
    | _ => st

def exec : List (Op Who) → State Who := Trace.exec step start

/-! ## The condition -/

/-- A removal leaves two links, if one to the same node is being counted. -/
def leavesTwo (st : State Who) (l : Link Who) : Bool :=
  st.counting l.remoteIdentity = 0 || 3 ≤ st.held l.remoteIdentity

/-- Some link of the period that the node is in, or was in last, is as `P` says. -/
def someLatest (st : State Who) (p : Who) (P : Link Who → Bool) : Bool :=
  st.links.any fun l => l.remoteIdentity = p && l.period = st.period p && P l

/-- No removal leaves alone a link that is being counted; a new period begins when some link of the
last one has counted 0; an `AddLink` that is cancelled does not remove the last link of a period, unless the
goroutine of another is about to count. -/
def orderly (st : State Who) : Op Who → Bool
  | .add p =>
    st.locked || st.held p ≠ 0 || st.period p = 0 || st.someLatest p Link.foundNone
  | .link i op => st.links[i]?.elim true fun l =>
    match op with
    | .drop =>
      l.stage ≠ .cancelled || st.leavesTwo l && (st.held l.remoteIdentity ≠ 1 ||
        st.someLatest l.remoteIdentity fun l' => l'.stage = .removed)
    | .remove => !(l.stage = .watched && l.closed) || st.leavesTwo l
    | _ => true
  | _ => true

/-! ## The closing of all links -/

omit [DecidableEq Who] in
theorem mem_clone {st : State Who} {i : ℕ} {l : Link Who} (hi : st.links[i]? = some l)
    (hl : l.stage.pooled = true) : i ∈ st.clone := by
  refine mem_filter.mpr ⟨mem_range.mpr (List.getElem?_eq_some_iff.mp hi).1, ?_⟩
  simp [hi, hl]

end State

variable {Who : Type}

/-- Once `Close` has cloned the links, one that is not closed is among those it has still to close, or
its `AddLink` is going to close it. -/
structure Shutting (st : State Who) : Prop where
  gone : ∀ (i : ℕ) (l : Link Who), st.links[i]? = some l → l.stage.gone = true → l.closed = true
  cloned : ∀ rest, st.closing = .closes rest → ∀ (i : ℕ) (l : Link Who), st.links[i]? = some l →
    l.closed = true ∨ i ∈ rest ∨ l.stage.late = true

variable {st : State Who} {l l' : Link Who} {i : ℕ} {op : LinkOp}

theorem Shutting.set (h : Shutting st) (hi : st.links[i]? = some l)
    (hgone : l'.stage.gone = true → l'.closed = true)
    (hcloned : ∀ rest, st.closing = .closes rest → l'.closed = true ∨ i ∈ rest ∨ l'.stage.late = true) :
    Shutting { st with links := st.links.set i l' } where
  gone j k hj := by
    rcases (Pool.getElem?_set_some hi).mp hj with ⟨-, rfl⟩ | ⟨-, hold⟩
    · exact hgone
    · exact h.gone j k hold
  cloned rest hrest j k hj := by
    rcases (Pool.getElem?_set_some hi).mp hj with ⟨rfl, rfl⟩ | ⟨-, hold⟩
    · exact hcloned rest hrest
    · exact h.cloned rest hrest j k hold

/-- What each step of a link owes to the closing: it stays late until it is closed, and is not
registered once the flag is set. -/
theorem Shutting.moves (h : Shutting st) {n : ℕ} (hi : st.links[i]? = some l)
    (hmoves : Link.Moves n st.shut l op l') : Shutting { st with links := st.links.set i l' } := by
  have hgone := h.gone i l hi
  have hcloned := fun rest hrest => h.cloned rest hrest i l hi
  cases hmoves with
  | counts hl | cancels hl | drops hl => exact h.set hi nofun fun _ _ => .inr (.inr rfl)
  | registers hl hshut =>
    apply h.set hi
    · rintro ⟨⟩
    · intro rest hrest
      simp [State.shut, hrest] at hshut
  | refuses hl | dies => exact h.set hi (fun _ => rfl) fun _ _ => .inl rfl
  | spawns hl =>
    rw [hl] at hcloned
    exact h.set hi nofun fun rest hrest => (hcloned rest hrest).imp_right
      (Or.imp_right nofun)
  | removes hl hclosed => exact h.set hi (fun _ => hclosed) fun _ _ => .inl hclosed
  | recounts hl | reports hl =>
    have hclosed := hgone (by rw [hl]; rfl)
    exact h.set hi (fun _ => hclosed) fun _ _ => .inl hclosed

theorem Shutting.step [DecidableEq Who] (h : Shutting st) (op : Op Who) : Shutting (st.step op) := by
  cases op with
  | add p =>
    refine Trace.unless_keeps h fun _ => ?_
    refine ⟨?_, ?_⟩
    · intro i l hi hl
      rcases Pool.getElem?_snoc_some.mp hi with hold | ⟨-, rfl⟩
      · exact h.gone i l hold hl
      · cases hl
    · intro rest hrest i l hi
      rcases Pool.getElem?_snoc_some.mp hi with hold | ⟨-, rfl⟩
      · exact h.cloned rest hrest i l hold
      · exact .inr (.inr rfl)
  | link i op =>
    simp only [State.step]
    split
    · exact h
    · rename_i l hi
      split
      · exact h
      · rename_i l' hl'
        exact h.moves hi (Link.moves_of_step hl')
  | flag =>
    refine Trace.when_keeps h fun _ => ?_
    exact ⟨h.gone, nofun⟩
  | clone =>
    refine Trace.when_keeps h fun _ => ?_
    refine ⟨h.gone, ?_⟩
    rintro rest ⟨⟩ i l hi
    cases hst : l.stage with
    | added | counted | cancelled | dropped => exact .inr (.inr rfl)
    | registered | watched => exact .inr (.inl (State.mem_clone hi (by rw [hst]; rfl)))
    | refused | removed | recounted | reported => exact .inl (h.gone i l hi (by rw [hst]; rfl))
  | close =>
    simp only [State.step]
    split
    · rename_i i rest hclosing
      have hrest := h.cloned _ hclosing
      split
      · rename_i hnone
        refine ⟨h.gone, ?_⟩
        rintro rest' ⟨⟩ j l hj
        rcases hrest j l hj with hclosed | hmem | hlate
        · exact .inl hclosed
        · rcases mem_cons.mp hmem with rfl | hmem'
          · rw [hnone] at hj
            cases hj
          · exact .inr (.inl hmem')
        · exact .inr (.inr hlate)
      · rename_i l hi
        have hset : Shutting { st with links := st.links.set i { l with closed := true } } :=
          h.set hi (fun _ => rfl) fun _ _ => .inl rfl
        refine ⟨hset.gone, ?_⟩
        rintro rest' ⟨⟩ j k hj
        rcases (Pool.getElem?_set_some hi).mp hj with ⟨-, rfl⟩ | ⟨hne, hold⟩
        · exact .inl rfl
        · rcases hrest j k hold with hclosed | hmem | hlate
          · exact .inl hclosed
          · exact .inr (.inl ((mem_cons.mp hmem).resolve_left hne))
          · exact .inr (.inr hlate)
    · exact h

theorem shutting_exec [DecidableEq Who] (ops : List (Op Who)) : Shutting (State.exec ops) := by
  induction ops with
  | nil => exact ⟨nofun, nofun⟩
  | cons op ops ih => exact ih.step op

/-! ## The counts of a period -/

inductive Effect (n : ℕ) (l l' : Link Who) : Prop
  | quiet (hpooled : l'.stage.pooled = l.stage.pooled) (hadded : l'.stage = .added ↔ l.stage = .added)
      (hcount : l'.linkCount = l.linkCount)
  | counts (h : l.stage = .added) (h' : l'.stage = .counted) (hcount : l'.linkCount = some n)
  | leaves (hpooled : l.stage.pooled = true) (hadded : l.stage ≠ .added) (hpooled' : l'.stage.pooled = false)
      (hcount : l'.linkCount = l.linkCount)

theorem effect_of_moves {n : ℕ} {shut : Bool} (h : Link.Moves n shut l op l') : Effect n l l' := by
  cases h with
  | counts hl => exact .counts hl rfl rfl
  | drops hl | removes hl => exact .leaves (by rw [hl]; rfl) (by rw [hl]; rintro ⟨⟩) rfl rfl
  | dies => exact .quiet rfl Iff.rfl rfl
  | cancels hl | registers hl | refuses hl | spawns hl | recounts hl | reports hl =>
    exact .quiet (by rw [hl]; rfl) (by rw [hl]; simp) rfl

variable [DecidableEq Who]

/-- A link is of a period that has begun, and of the last one while it is in the pool. -/
structure Link.Booked (period : Who → ℕ) (l : Link Who) : Prop where
  dated : 1 ≤ l.period ∧ l.period ≤ period l.remoteIdentity
  current : l.stage.pooled = true → l.period = period l.remoteIdentity
  uncounted : l.stage = .added → l.linkCount = none

/-- In each period exactly one link is counted 1; while a link is being counted, it is the first one
and alone, or there has been a first one and it is not alone. -/
structure Books (st : State Who) : Prop where
  booked : ∀ l ∈ st.links, l.Booked st.period
  past : ∀ p k, 1 ≤ k → k < st.period p → st.ones p k = 1
  now : ∀ p, 1 ≤ st.period p → st.counting p = 0 ∧ st.ones p (st.period p) = 1 ∨
    st.counting p = 1 ∧ (st.ones p (st.period p) = 0 ∧ st.held p = 1 ∨
      st.ones p (st.period p) = 1 ∧ 2 ≤ st.held p)

namespace State

variable {st : State Who}

theorem held_pos {l : Link Who} (hl : l ∈ st.links) (hpooled : l.stage.pooled = true) :
    0 < st.held l.remoteIdentity :=
  countP_pos_iff.mpr ⟨l, hl, by simp [hpooled]⟩

theorem exists_of_held {p : Who} (h : st.held p ≠ 0) :
    ∃ l ∈ st.links, l.stage.pooled = true ∧ l.remoteIdentity = p := by
  obtain ⟨l, hl, hcond⟩ := countP_pos_iff.mp (Nat.pos_of_ne_zero h)
  simp only [Bool.and_eq_true, decide_eq_true_eq] at hcond
  exact ⟨l, hl, hcond⟩

theorem counting_of_unlocked (h : st.locked = false) (p : Who) : st.counting p = 0 := by
  refine countP_eq_zero.mpr ?_
  intro l hl
  have hnot := any_eq_false.mp h l hl
  simp [hnot]

section

variable {i : ℕ} {l l' : Link Who} (hi : st.links[i]? = some l) (hsame : l'.remoteIdentity = l.remoteIdentity)
include hi hsame

/-- The links of another node do not see a step. -/
theorem counts_set_of_ne {p : Who} (hp : p ≠ l.remoteIdentity) :
    let st' : State Who := { st with links := st.links.set i l' }
    st'.held p = st.held p ∧ st'.counting p = st.counting p ∧ ∀ k, st'.ones p k = st.ones p k := by
  have hne : ¬ l.remoteIdentity = p := fun h => hp h.symm
  refine ⟨?_, ?_, fun k => ?_⟩
  · have h := Pool.countP_set (fun l => l.stage.pooled && l.remoteIdentity = p) hi l'
    simpa [held, hsame, hne] using h
  · have h := Pool.countP_set (fun l => l.stage = .added && l.remoteIdentity = p) hi l'
    simpa [counting, hsame, hne] using h
  · have h := Pool.countP_set (fun l => l.remoteIdentity = p && l.period = k && l.linkCount = some 1) hi l'
    simpa [ones, hsame, hne] using h

theorem counts_set (hperiod : l'.period = l.period) :
    let st' : State Who := { st with links := st.links.set i l' }
    st'.held l.remoteIdentity + (if l.stage.pooled then 1 else 0) =
      st.held l.remoteIdentity + (if l'.stage.pooled then 1 else 0) ∧
    st'.counting l.remoteIdentity + (if l.stage = .added then 1 else 0) =
      st.counting l.remoteIdentity + (if l'.stage = .added then 1 else 0) ∧
    ∀ k, st'.ones l.remoteIdentity k + (if l.period = k ∧ l.linkCount = some 1 then 1 else 0) =
      st.ones l.remoteIdentity k + (if l.period = k ∧ l'.linkCount = some 1 then 1 else 0) := by
  refine ⟨?_, ?_, fun k => ?_⟩
  · have h := Pool.countP_set (fun k => k.stage.pooled && k.remoteIdentity = l.remoteIdentity) hi l'
    simpa [held, hsame] using h
  · have h := Pool.countP_set (fun k => k.stage = .added && k.remoteIdentity = l.remoteIdentity) hi l'
    simpa [counting, hsame] using h
  · have h := Pool.countP_set
      (fun j => j.remoteIdentity = l.remoteIdentity && j.period = k && j.linkCount = some 1) hi l'
    simpa [ones, hsame, hperiod] using h

end

theorem counts_add (hfree : st.locked = false) (p q : Who) (n : ℕ) (period : Who → ℕ) :
    let st' : State Who := { st with links := st.links ++ [⟨p, n, none, .added, false⟩], period }
    st'.held q = st.held q + (if p = q then 1 else 0) ∧ st'.counting q = (if p = q then 1 else 0) ∧
    ∀ k, st'.ones q k = st.ones q k := by
  have hcounting := counting_of_unlocked hfree q
  refine ⟨?_, ?_, fun k => ?_⟩
  · simp [held, countP_append, countP_cons, Stage.pooled]
  · simp only [counting] at hcounting ⊢
    simp [countP_append, countP_cons, hcounting]
  · simp [ones, countP_append]

end State

open State

theorem Books.one_le_current (h : Books st) (p : Who) : 1 ≤ st.current p := by
  unfold State.current
  split
  · omega
  · rename_i hheld
    obtain ⟨l, hl, hpooled, rfl⟩ := exists_of_held hheld
    rw [← (h.booked l hl).current hpooled]
    exact (h.booked l hl).dated.1

theorem Books.ones_later (h : Books st) (p : Who) : st.ones p (st.period p + 1) = 0 := by
  refine countP_eq_zero.mpr ?_
  intro l hl hcond
  simp only [Bool.and_eq_true, decide_eq_true_eq] at hcond
  obtain ⟨⟨rfl, hperiod⟩, -⟩ := hcond
  have := (h.booked l hl).dated.2
  omega

theorem Books.add (h : Books st) (p : Who) : Books (st.step (.add p)) := by
  refine Trace.unless_keeps h fun hlocked => ?_
  have hfree : st.locked = false := by simpa using hlocked
  have hcounts := fun q => counts_add hfree p q (st.current p) (update st.period p (st.current p))
  have hle : st.period p ≤ st.current p := by
    unfold State.current
    split <;> omega
  have hkeeps : ∀ q, q ≠ p → update st.period p (st.current p) q = st.period q := fun q hq => update_of_ne hq ..
  have hself : update st.period p (st.current p) p = st.current p := update_self ..
  have hidle : ∀ q, 1 ≤ st.period q → st.ones q (st.period q) = 1 := by
    intro q hq
    rcases h.now q hq with hnow | hnow
    · exact hnow.2
    · have := counting_of_unlocked hfree q
      omega
  refine ⟨?_, ?_, ?_⟩ <;> dsimp only
  · intro l hl
    rcases mem_append.mp hl with hold | hnew
    · obtain ⟨hdated, hcurrent, huncounted⟩ := h.booked l hold
      by_cases hq : l.remoteIdentity = p
      · subst hq
        refine ⟨⟨hdated.1, ?_⟩, fun hpooled => ?_, huncounted⟩
        · rw [hself]
          exact hdated.2.trans hle
        · rw [hself, hcurrent hpooled, State.current, if_neg (Nat.ne_of_gt (held_pos hold hpooled))]
      · rw [← hkeeps _ hq] at hdated hcurrent
        exact ⟨hdated, hcurrent, huncounted⟩
    · rw [mem_singleton.mp hnew]
      exact ⟨⟨h.one_le_current p, hself.ge⟩, fun _ => hself.symm, fun _ => rfl⟩
  · intro q k hk hlt
    rw [(hcounts q).2.2]
    by_cases hq : q = p
    · subst hq
      rw [hself] at hlt
      rcases Nat.lt_or_ge k (st.period q) with hpast | hge
      · exact h.past q k hk hpast
      · have heq : k = st.period q := by
          unfold State.current at hlt
          split at hlt <;> omega
        rw [heq]
        exact hidle q (heq ▸ hk)
    · rw [hkeeps q hq] at hlt
      exact h.past q k hk hlt
  · intro q hq'
    rw [(hcounts q).2.2, (hcounts q).2.1, (hcounts q).1]
    by_cases hq : q = p
    · subst hq
      rw [hself, if_pos rfl, State.current]
      refine .inr ⟨rfl, ?_⟩
      split
      · exact .inl ⟨h.ones_later q, by omega⟩
      · rename_i hheld
        have hone := h.one_le_current q
        rw [State.current, if_neg hheld] at hone
        exact .inr ⟨hidle q hone, by omega⟩
    · rw [hkeeps q hq] at hq' ⊢
      rw [if_neg (Ne.symm hq)]
      exact .inl ⟨rfl, hidle q hq'⟩

/-- A step of a link; a removal leaves two, if one is being counted. -/
theorem Books.moves (h : Books st) (hi : st.links[i]? = some l) (hsame : l'.remoteIdentity = l.remoteIdentity)
    (hperiod : l'.period = l.period) (heffect : Effect (st.held l.remoteIdentity) l l')
    (htwo : l.stage.pooled = true → l'.stage.pooled = false → st.leavesTwo l = true) :
    Books { st with links := st.links.set i l' } := by
  have hmem := mem_of_getElem? hi
  have hpooled : l'.stage.pooled = true → l.stage.pooled = true := by
    intro hl'
    cases heffect with
    | quiet hp => rw [← hp]; exact hl'
    | counts hl => rw [hl]; rfl
    | leaves hp => exact hp
  obtain ⟨hdated, hcurrent, huncounted⟩ := h.booked l hmem
  refine ⟨?_, ?_, ?_⟩
  · intro k hk
    rcases mem_or_eq_of_mem_set hk with hold | rfl
    · exact h.booked k hold
    · rw [← hperiod, ← hsame] at hdated hcurrent
      refine ⟨hdated, fun hkp => hcurrent (hpooled hkp), fun hadded => ?_⟩
      cases heffect with
      | quiet hp ha hc =>
        rw [hc]
        exact huncounted (ha.mp hadded)
      | counts hl hl' =>
        rw [hl'] at hadded
        cases hadded
      | leaves hp ha hp' =>
        rw [hadded] at hp'
        cases hp'
  · intro p k hk hlt
    by_cases hp : p = l.remoteIdentity
    · subst hp
      have hones := (counts_set hi hsame hperiod).2.2 k
      have hpast := h.past l.remoteIdentity k hk hlt
      cases heffect with
      | quiet hp ha hc | leaves hp ha hp' hc =>
        rw [hc] at hones
        omega
      | counts hl =>
        have hcurrent := hcurrent (by rw [hl]; rfl)
        have hk' : ¬ l.period = k := by
          dsimp only at hlt
          omega
        simp only [hk', false_and, if_false] at hones
        omega
    · rw [(counts_set_of_ne hi hsame hp).2.2]
      exact h.past p k hk hlt
  · intro p hone
    by_cases hp : p = l.remoteIdentity
    · subst hp
      obtain ⟨hheld, hcounting, hones⟩ := counts_set hi hsame hperiod
      have hones := hones (st.period l.remoteIdentity)
      have hnow := h.now l.remoteIdentity hone
      dsimp only at hone hheld hcounting hones ⊢
      cases heffect with
      | quiet hp ha hc =>
        rw [hp] at hheld
        rw [hc] at hones
        simp only [ha] at hcounting
        omega
      | counts hl hl' hc =>
        have hcurrent := hcurrent (by rw [hl]; rfl)
        have huncounted := huncounted hl
        simp only [hl, hl', if_true, reduceCtorEq, if_false] at hcounting
        simp only [hcurrent, huncounted, hc, true_and, Option.some.injEq, reduceCtorEq, if_false] at hones
        split at hones <;> omega
      | leaves hp ha hp' hc =>
        have hguard := htwo hp hp'
        simp only [leavesTwo, Bool.or_eq_true, decide_eq_true_eq] at hguard
        have hadded' : ¬ l'.stage = .added := by
          intro hl'
          rw [hl'] at hp'
          cases hp'
        simp only [hp, hp', if_true, Bool.false_eq_true, if_false] at hheld
        rw [if_neg ha, if_neg hadded'] at hcounting
        rw [hc] at hones
        omega
    · obtain ⟨hheld, hcounting, hones⟩ := counts_set_of_ne hi hsame hp
      rw [hheld, hcounting, hones]
      exact h.now p hone

/-! ## The end of a period -/

def Link.isOf (p : Who) (k : ℕ) (l : Link Who) : Prop := l.remoteIdentity = p ∧ l.period = k

instance (p : Who) (k : ℕ) (l : Link Who) : Decidable (l.isOf p k) := inferInstanceAs (Decidable (_ ∧ _))

/-- For each period that has ended some link has counted 0, or is going to: the goroutine of a link of
the last one is about to count. -/
def Noticed (st : State Who) : Prop :=
  ∀ p k, 1 ≤ k → k ≤ st.period p → k < st.period p ∨ st.held p = 0 →
    (∃ l ∈ st.links, l.isOf p k ∧ l.foundNone = true) ∨
    k = st.period p ∧ ∃ l ∈ st.links, l.isOf p k ∧ l.stage = .removed

theorem State.of_someLatest {p : Who} {P : Link Who → Bool} (h : st.someLatest p P = true) :
    ∃ l ∈ st.links, l.isOf p (st.period p) ∧ P l = true := by
  obtain ⟨l, hl, hcond⟩ := any_eq_true.mp h
  simp only [Bool.and_eq_true, decide_eq_true_eq] at hcond
  exact ⟨l, hl, hcond.1, hcond.2⟩

theorem Noticed.add (h : Noticed st) {p : Who} (hop : st.orderly (.add p) = true) :
    Noticed (st.step (.add p)) := by
  refine Trace.unless_keeps h fun hlocked => ?_
  have hfree : st.locked = false := by simpa using hlocked
  have hlinks : ∀ l ∈ st.links, l ∈ st.links ++ [⟨p, st.current p, none, .added, false⟩] := fun l =>
    mem_append_left _
  intro q k hk hle hended
  have hheld := (counts_add hfree p q (st.current p) (update st.period p (st.current p))).1
  dsimp only at hle hended ⊢
  by_cases hq : q = p
  · subst hq
    rw [if_pos rfl] at hheld
    rw [update_self] at hle hended ⊢
    have hlt : k < st.current q := by omega
    left
    rcases Nat.lt_or_ge k (st.period q) with hpast | hge
    · rcases h q k hk hpast.le (.inl hpast) with ⟨l, hl, hcond⟩ | ⟨heq, -⟩
      · exact ⟨l, hlinks l hl, hcond⟩
      · omega
    · -- The last period ended before this link came: the condition says that it was noticed.
      have hgap : st.held q = 0 ∧ k = st.period q := by
        unfold State.current at hlt
        split at hlt
        · exact ⟨‹_›, by omega⟩
        · omega
      have hperiod : ¬ st.period q = 0 := by omega
      simp only [orderly, hfree, hgap.1, hperiod, ne_eq, not_true_eq_false, decide_false,
        Bool.or_self, Bool.false_or] at hop
      obtain ⟨l, hl, hof, hnone⟩ := of_someLatest hop
      exact ⟨l, hlinks l hl, hgap.2 ▸ hof, hnone⟩
  · rw [if_neg (Ne.symm hq)] at hheld
    rw [update_of_ne hq] at hle hended ⊢
    rw [hheld] at hended
    rcases h q k hk hle hended with ⟨l, hl, hcond⟩ | ⟨heq, l, hl, hcond⟩
    · exact .inl ⟨l, hlinks l hl, hcond⟩
    · exact .inr ⟨heq, l, hlinks l hl, hcond⟩

omit [DecidableEq Who] in
theorem Link.Moves.foundNone {n : ℕ} {shut : Bool} (h : Link.Moves n shut l op l') (hl : l.foundNone = true) :
    l'.foundNone = true := by
  simp only [Link.foundNone, Bool.or_eq_true, decide_eq_true_eq] at hl
  cases h with
  | dies => simpa [Link.foundNone] using hl
  | reports hst =>
    rw [hst] at hl
    rcases hl with hk | hk
    · cases hk
      rfl
    · cases hk
  | counts hst | cancels hst | registers hst | drops hst | refuses hst | spawns hst | removes hst
    | recounts hst =>
    rw [hst] at hl
    rcases hl with hk | hk <;> cases hk

/-- Most steps leave the number of links in the pool as it is. -/
theorem State.held_moves {n : ℕ} {shut : Bool} (hi : st.links[i]? = some l) (hmoves : Link.Moves n shut l op l')
    (p : Who) :
    ({ st with links := st.links.set i l' } : State Who).held p = st.held p ∨
      p = l.remoteIdentity ∧ l.stage.pooled = true ∧
        (l'.stage = .dropped ∧ op = .drop ∨ l'.stage = .removed) ∧
        ({ st with links := st.links.set i l' } : State Who).held p + 1 = st.held p := by
  by_cases hp : p = l.remoteIdentity
  · subst hp
    have hheld := (counts_set hi hmoves.same.1 hmoves.same.2).1
    cases hmoves with
    | drops hl =>
      simp only [hl, Stage.pooled, if_true, Bool.false_eq_true, if_false, Nat.add_zero] at hheld
      exact .inr ⟨rfl, by rw [hl]; rfl, .inl ⟨rfl, rfl⟩, hheld⟩
    | removes hl =>
      simp only [hl, Stage.pooled, if_true, Bool.false_eq_true, if_false, Nat.add_zero] at hheld
      exact .inr ⟨rfl, by rw [hl]; rfl, .inr rfl, hheld⟩
    | dies => exact .inl (Nat.add_right_cancel hheld)
    | counts hl | cancels hl | registers hl | refuses hl | spawns hl | recounts hl | reports hl =>
      rw [hl] at hheld
      exact .inl (Nat.add_right_cancel hheld)
  · exact .inl (counts_set_of_ne hi hmoves.same.1 hp).1

theorem Noticed.moves (h : Noticed st) (hbooks : Books st) (hi : st.links[i]? = some l)
    (hmoves : Link.Moves (st.held l.remoteIdentity) st.shut l op l')
    (hdrop : op = .drop → st.held l.remoteIdentity = 1 →
      ∃ k ∈ st.links, k.isOf l.remoteIdentity (st.period l.remoteIdentity) ∧ k.stage = .removed) :
    Noticed { st with links := st.links.set i l' } := by
  intro p k hk hle hended
  have hof : l.isOf p k → l'.isOf p k := by
    rintro ⟨hp, hperiod⟩
    exact ⟨hmoves.same.1.trans hp, hmoves.same.2.trans hperiod⟩
  -- What was known of the period before the step is known after it.
  have hkeeps : (k < st.period p ∨ st.held p = 0) →
      (∃ w ∈ st.links.set i l', w.isOf p k ∧ w.foundNone = true) ∨
      k = st.period p ∧ ∃ w ∈ st.links.set i l', w.isOf p k ∧ w.stage = .removed := by
    intro hbefore
    rcases h p k hk hle hbefore with hnone | ⟨heq, w, hw, hwof, hwst⟩
    · exact .inl (Pool.exists_mem_set hi hnone fun hl => ⟨hof hl.1, hmoves.foundNone hl.2⟩)
    · by_cases hwl : w = l
      · subst hwl
        have hmem : l' ∈ st.links.set i l' := mem_set (List.getElem?_eq_some_iff.mp hi).1 l'
        have hheld : st.held w.remoteIdentity = 0 := by
          rw [hwof.1]
          omega
        cases hmoves with
        | recounts hl =>
          refine .inl ⟨_, hmem, hof hwof, ?_⟩
          rw [hheld]
          rfl
        | dies => exact .inr ⟨heq, _, hmem, hof hwof, hwst⟩
        | counts hl | cancels hl | registers hl | drops hl | refuses hl | spawns hl | removes hl
          | reports hl =>
          rw [hl] at hwst
          cases hwst
      · exact .inr ⟨heq, w, Pool.mem_set_of_ne hi hw hwl, hwof, hwst⟩
  rcases held_moves hi hmoves p with hsame | ⟨rfl, hpooled, hst', hheld⟩
  · rw [hsame] at hended
    exact hkeeps hended
  · rcases Nat.lt_or_ge k (st.period l.remoteIdentity) with hpast | hge
    · exact hkeeps (.inl hpast)
    · -- The step ends the period: it removes the last link to the node.
      have heq : k = st.period l.remoteIdentity := Nat.le_antisymm hle hge
      have hone : st.held l.remoteIdentity = 1 := by
        rcases hended with hlt | hzero
        · exact absurd hlt (Nat.not_lt.mpr hge)
        · omega
      refine .inr ⟨heq, ?_⟩
      rcases hst' with ⟨-, hop⟩ | hremoved
      · obtain ⟨w, hw, hwof, hwst⟩ := hdrop hop hone
        have hwl : w ≠ l := by
          rintro rfl
          rw [hwst] at hpooled
          cases hpooled
        exact ⟨w, Pool.mem_set_of_ne hi hw hwl, heq ▸ hwof, hwst⟩
      · have hcurrent := (hbooks.booked l (mem_of_getElem? hi)).current hpooled
        exact ⟨l', mem_set (List.getElem?_eq_some_iff.mp hi).1 l', hof ⟨rfl, hcurrent.trans heq.symm⟩,
          hremoved⟩

/-- Every orderly step keeps the books, and what was noticed. -/
theorem Books.step (hbooks : Books st) (h : Noticed st) {op : Op Who} (hop : st.orderly op = true) :
    Books (st.step op) ∧ Noticed (st.step op) := by
  have hsame : ∀ {s : State Who} (c : Closing), Books s → Books { s with closing := c } := fun _ hs =>
    { hs with }
  cases op with
  | add p => exact ⟨hbooks.add p, h.add hop⟩
  | link i op =>
    simp only [State.step]
    split
    · exact ⟨hbooks, h⟩
    · rename_i l hi
      split
      · exact ⟨hbooks, h⟩
      · rename_i l' hl'
        have hmoves := Link.moves_of_step hl'
        simp only [orderly, hi, Option.elim_some] at hop
        constructor
        · refine hbooks.moves hi hmoves.same.1 hmoves.same.2 (effect_of_moves hmoves) ?_
          intro hpooled hpooled'
          cases hmoves with
          | drops hl =>
            simp only [hl, ne_eq, not_true_eq_false, decide_false, Bool.false_or, Bool.and_eq_true] at hop
            exact hop.1
          | removes hl hclosed =>
            simp only [hl, hclosed, decide_true, Bool.and_self, Bool.not_true, Bool.false_or] at hop
            exact hop
          | dies =>
            rw [hpooled] at hpooled'
            cases hpooled'
          | counts | cancels | registers | spawns => cases hpooled'
          | refuses hl | recounts hl | reports hl =>
            rw [hl] at hpooled
            cases hpooled
        · refine h.moves hbooks hi hmoves ?_
          rintro rfl hone
          cases hmoves with
          | drops hl =>
            simp only [hl, hone, ne_eq, not_true_eq_false, decide_false, Bool.false_or, Bool.and_eq_true] at hop
            obtain ⟨k, hk, hof, hst⟩ := of_someLatest hop.2
            exact ⟨k, hk, hof, of_decide_eq_true hst⟩
  | flag | clone =>
    exact Trace.when_keeps (P := fun s => Books s ∧ Noticed s) ⟨hbooks, h⟩ fun _ => ⟨hsame _ hbooks, h⟩
  | close =>
    simp only [State.step]
    split
    · rename_i i rest hclosing
      split
      · exact ⟨hsame _ hbooks, h⟩
      · rename_i l hi
        have hset : Books { st with links := st.links.set i { l with closed := true } } := by
          refine hbooks.moves hi rfl rfl (.quiet rfl Iff.rfl rfl) ?_
          intro hpooled hpooled'
          rw [hpooled] at hpooled'
          cases hpooled'
        exact ⟨hsame _ hset, h.moves hbooks hi .dies nofun⟩
    · exact ⟨hbooks, h⟩

/-! ## Whole runs -/

def Orderly : List (Op Who) → Prop := Trace.Along fun earlier op => (exec earlier).orderly op = true

instance (ops : List (Op Who)) : Decidable (Orderly ops) := Trace.decidableAlong _ ops

theorem books_exec {ops : List (Op Who)} (hops : Orderly ops) :
    Books (exec ops) ∧ Noticed (exec ops) := by
  refine Trace.Along.invariant (I := fun s => Books s ∧ Noticed s) hops ?_ fun _ _ hop ih => ih.1.step ih.2 hop
  refine ⟨⟨nofun, ?_, ?_⟩, ?_⟩
  · intro p k _ hlt
    exact absurd hlt (Nat.not_lt_zero k)
  · intro p hone
    exact absurd hone (Nat.not_lt_zero 0)
  · intro p k hk hle
    have hzero : k ≤ 0 := hle
    omega

/-- **Link accounting.** In every orderly run: when `Close` and every `AddLink` have returned, all links
are closed; in each period of a node in which no link is being counted, exactly one was counted 1; and
when a period has ended and the goroutines of its links have finished, a `LinkClosedEvent` with
`LinkCount` 0 was emitted for one of them. -/
theorem accounts (ops : List (Op Who)) (hops : Orderly ops) :
    ((exec ops).closing = .closes [] → (∀ l ∈ (exec ops).links, l.stage.pending = false) →
      ∀ l ∈ (exec ops).links, l.closed = true) ∧
    (∀ p k, 1 ≤ k → k ≤ (exec ops).period p →
      (∀ l ∈ (exec ops).links, l.isOf p k → l.stage ≠ .added) → (exec ops).ones p k = 1) ∧
    ∀ p k, 1 ≤ k → k ≤ (exec ops).period p →
      k < (exec ops).period p ∨ (exec ops).held p = 0 →
      (∀ l ∈ (exec ops).links, l.isOf p k → l.stage.closing = false) →
      ∃ l ∈ (exec ops).links, l.isOf p k ∧ l.emitted = some 0 := by
  obtain ⟨hbooks, hnoticed⟩ := books_exec hops
  have hshutting := shutting_exec ops
  refine ⟨?_, ?_, ?_⟩
  · intro hclosing hreturned l hl
    obtain ⟨i, hi⟩ := mem_iff_getElem?.mp hl
    rcases hshutting.cloned [] hclosing i l hi with hclosed | hmem | hlate
    · exact hclosed
    · cases hmem
    · have hpending := hreturned l hl
      rw [Stage.pending_of_late hlate] at hpending
      cases hpending
  · intro p k hk hle hcounted
    rcases Nat.lt_or_ge k ((exec ops).period p) with hpast | hge
    · exact hbooks.past p k hk hpast
    · obtain rfl : k = (exec ops).period p := Nat.le_antisymm hle hge
      rcases hbooks.now p hk with ⟨-, hone⟩ | ⟨hcounting, -⟩
      · exact hone
      · have hpos : 0 < (exec ops).counting p := by omega
        obtain ⟨l, hl, hcond⟩ := countP_pos_iff.mp hpos
        simp only [Bool.and_eq_true, decide_eq_true_eq] at hcond
        have hcurrent := (hbooks.booked l hl).current (by rw [hcond.1]; rfl)
        exact absurd hcond.1 (hcounted l hl ⟨hcond.2, by rw [hcurrent, hcond.2]⟩)
  · intro p k hk hle hended hfinished
    rcases hnoticed p k hk hle hended with ⟨l, hl, hof, hnone⟩ | ⟨-, l, hl, hof, hst⟩
    · refine ⟨l, hl, hof, ?_⟩
      have hdone := hfinished l hl hof
      simp only [Link.foundNone, Bool.or_eq_true, decide_eq_true_eq] at hnone
      rcases hnone with hst | hst
      · rw [hst] at hdone
        cases hdone
      · simp [Link.emitted, hst]
    · have hdone := hfinished l hl hof
      rw [hst] at hdone
      cases hdone

/-! ## Runs -/

def linked (i : ℕ) : List (Op ℕ) := [.add 0, .link i .count, .link i .check, .link i .spawn]

/-- The end of a link: it is removed, its goroutine counts and emits. -/
def lost (i : ℕ) : List (Op ℕ) := [.link i .die, .link i .remove, .link i .recount, .link i .report]

def script (parts : List (List (Op ℕ))) : List (Op ℕ) := parts.flatten.reverse

/-- Two links to a node, both lost; a third that `Close` closes. -/
def quiet : List (Op ℕ) :=
  script [linked 0, linked 1, lost 0, lost 1, linked 2, [.flag, .clone, .close]]

theorem accounts_kept :
    (exec quiet).closing = .closes [] ∧ (∀ l ∈ (exec quiet).links, l.closed = true) ∧
    (exec quiet).ones 0 1 = 1 ∧ (exec quiet).ones 0 2 = 1 ∧
    ∃ l ∈ (exec quiet).links, l.isOf 0 1 ∧ l.emitted = some 0 := by
  have hops : Orderly quiet := by decide
  have hclosing : (exec quiet).closing = .closes [] := by decide
  obtain ⟨hclosed, hones, hemitted⟩ := accounts quiet hops
  refine ⟨hclosing, hclosed hclosing (by decide), ?_, ?_, ?_⟩
  · exact hones 0 1 (by decide) (by decide) (by decide)
  · exact hones 0 2 (by decide) (by decide) (by decide)
  · exact hemitted 0 1 (by decide) (by decide) (by decide) (by decide)

/-- A link is lost while another is being counted, and both are counted 1. A link comes between the removal
of the last one and the count of its goroutine, and no event says 0. `AddLink` of a closed pool removes the
only link, and there is no event. -/
theorem accounts_off :
    (∃ ops : List (Op ℕ), (∀ l ∈ (exec ops).links, l.stage ≠ .added) ∧ (exec ops).period 0 = 1 ∧
      (exec ops).ones 0 1 = 2) ∧
    (∃ ops : List (Op ℕ), (exec ops).period 0 = 2 ∧
      (∀ l ∈ (exec ops).links, l.isOf 0 1 → l.stage.closing = false) ∧
      ∀ l ∈ (exec ops).links, l.emitted ≠ some 0) ∧
    ∃ ops : List (Op ℕ), (exec ops).period 0 = 1 ∧ (exec ops).held 0 = 0 ∧
      (∀ l ∈ (exec ops).links, l.stage.closing = false) ∧
      ∀ l ∈ (exec ops).links, l.emitted ≠ some 0 := by
  refine ⟨?_, ?_, ?_⟩
  · exact ⟨script [linked 0, [.link 0 .die, .add 0, .link 0 .remove, .link 1 .count]],
      by decide, by decide, by decide⟩
  · exact ⟨script [linked 0, [.link 0 .die, .link 0 .remove], linked 1, [.link 0 .recount, .link 0 .report]],
      by decide, by decide, by decide⟩
  · exact ⟨script [[.flag, .add 0, .link 0 .count, .link 0 .check, .link 0 .drop, .link 0 .refuse]],
      by decide, by decide, by decide, by decide⟩

end Astrald.Nodes.Accounts
