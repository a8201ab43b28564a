import Mathlib
import Astrald.Lib.Trace
import Astrald.Lib.Table

/-!
# Maintaining a link

The model of `maintain_link_task.go`, for one target, with the goroutine of `AddLink` in `link_pool.go` that
reports the closing of a link. The target's links come and go; any number of calls of `Wake` are under way.
A step is what a goroutine does between two accesses to the flag `actionRequired`, to the channel `wake` or
to the pool.

An attempt succeeds with whatever link is handed to it. It may be one of an earlier round of the strategies,
which was closed, removed and reported before the attempt began: `RetrieveLink` does not look at the pool.

* `Link.Covers`: a link that is live, or whose closing is still to be reported;
* `never_sleeps`: while `Run` is blocked without a token and every closing was reported, the target is
  linked, provided that the first store of `Run` is not out of date, that an attempt succeeds only if the pool
  has held a link since it began, and that no report is absorbed by the flag of a `Wake` that has not signalled;
* `sleeps_unlinked`: each of the three does happen.
-/

namespace Astrald.User.Maintain

open List

/-- A link to the target: in the pool, then closed, removed, counted for its `LinkClosedEvent`, and
reported to `ReceiveEvent`, which may have to signal. -/
inductive Link
  | live
  | dead
  | removed
  | counted (linkCount : ℕ)
  | signalling
  | reported
  deriving DecidableEq, Repr

/-- The pool holds the link. -/
def Link.pooled (l : Link) : Bool := l = .live || l = .dead

/-- The event of its closing is still undelivered. -/
def Link.outstanding (l : Link) : Bool := l ≠ .live && l ≠ .reported

/-- Where `Run` is. -/
inductive Run
  | start
  /-- It has read whether the target is linked. -/
  | read (linked : Bool)
  | check
  | blocked
  | clear
  /-- An attempt; `held` says that the pool has held a link to the target since it began. -/
  | attempt (held : Bool)
  | failed
  | backoff
  | stopped
  deriving DecidableEq, Repr

/-- Where a call of `Wake` is that found the target not linked. -/
inductive Wake
  | checked
  | stored
  | done
  deriving DecidableEq, Repr

structure Task where
  links : List Link
  run : Run
  actionRequired : Bool
  token : Bool
  wakes : List Wake
  deriving DecidableEq, Repr

inductive LinkOp
  | die
  | remove
  | count
  | deliver
  | signal
  deriving DecidableEq, Repr

inductive RunOp
  | isLinked
  | store
  | load
  | receive
  | clear
  | succeed
  | fail
  | retry
  | timer
  | stop
  deriving DecidableEq, Repr

inductive Op
  /-- A link to the target is added to the pool, by whomever. -/
  | add
  | link (i : ℕ) (op : LinkOp)
  | wake
  | wakeStore (k : ℕ)
  | wakeSignal (k : ℕ)
  | run (op : RunOp)
  deriving DecidableEq, Repr

namespace Task

def start : Task := ⟨[], .start, false, false, []⟩

/-- `IsLinked`. -/
def isLinked (s : Task) : Bool := s.links.any (· = .live)

def setLink (s : Task) (i : ℕ) (l : Link) : Task := { s with links := s.links.set i l }

/-- `ReceiveEvent` up to its signal. -/
def receiveEvent (s : Task) (i : ℕ) (linkCount : ℕ) : Task :=
  if linkCount ≠ 0 then s.setLink i .reported
  else if s.actionRequired then s.setLink i .reported
  else { s.setLink i .signalling with actionRequired := true }

/-- A step of the goroutine of a link, and then of the report of its closing. The count is a `Uint8`. -/
def linkStep (s : Task) (i : ℕ) (op : LinkOp) : Task :=
  match s.links[i]? with
  | none => s
  | some l =>
    match op, l with
    | .die, .live => s.setLink i .dead
    | .remove, .dead => s.setLink i .removed
    | .count, .removed => s.setLink i (.counted (s.links.countP Link.pooled % 256))
    | .deliver, .counted n => s.receiveEvent i n
    | .signal, .signalling => { s.setLink i .reported with token := true }
    | _, _ => s

/-- A step of a call of `Wake`. -/
def wakeStore (s : Task) (k : ℕ) : Task :=
  match s.wakes[k]? with
  | some .checked => { s with wakes := s.wakes.set k .stored, actionRequired := true }
  | _ => s

def wakeSignal (s : Task) (k : ℕ) : Task :=
  match s.wakes[k]? with
  | some .stored => { s with wakes := s.wakes.set k .done, token := true }
  | _ => s

/-- A step of `Run`, with `waitForAction` and `backoff`. -/
def runStep (s : Task) (op : RunOp) : Task :=
  match op, s.run with
  | .isLinked, .start => { s with run := .read s.isLinked }
  | .store, .read linked => { s with run := .check, actionRequired := !linked }
  | .load, .check => { s with run := if s.actionRequired then .clear else .blocked }
  | .receive, .blocked => if s.token then { s with run := .check, token := false } else s
  | .clear, .clear => { s with run := .attempt (s.links.any Link.pooled), actionRequired := false }
  | .succeed, .attempt _ => { s with run := .check }
  | .fail, .attempt _ => { s with run := .failed }
  | .retry, .failed => { s with run := .backoff, actionRequired := true }
  | .receive, .backoff => if s.token then { s with run := .check, token := false } else s
  | .timer, .backoff => { s with run := .check }
  | .stop, .blocked => { s with run := .stopped }
  | .stop, .backoff => { s with run := .stopped }
  | .stop, .clear => { s with run := .stopped }
  | _, _ => s

/-- A link is added while an attempt is under way. -/
def Run.gains : Run → Run
  | .attempt _ => .attempt true
  | run => run

def step (s : Task) : Op → Task
  | .add => { s with links := s.links ++ [.live], run := Run.gains s.run }
  | .link i op => s.linkStep i op
  | .wake => if s.isLinked then s else { s with wakes := s.wakes ++ [.checked] }
  | .wakeStore k => s.wakeStore k
  | .wakeSignal k => s.wakeSignal k
  | .run op => s.runStep op

/-- The state after a run, whose latest step comes first. -/
def after (ops : List Op) : Task := Trace.exec step start ops

end Task

/-! ## What the other goroutines do -/

/-- The link is live, or the report of its closing will set the flag. -/
def Link.Covers (l : Link) : Prop := l = .live ∨ l = .dead ∨ l = .removed ∨ l = .counted 0

instance (l : Link) : Decidable l.Covers := inferInstanceAs (Decidable (_ ∨ _))

theorem Link.Covers.of_pooled {l : Link} (h : l.pooled = true) : l.Covers := by
  unfold Link.pooled at h
  rw [Bool.or_eq_true, decide_eq_true_eq, decide_eq_true_eq] at h
  rcases h with h | h
  · exact .inl h
  · exact .inr (.inl h)

namespace Task

/-- A link of the target is live, or the report of its closing will set the flag. -/
def Covered (s : Task) : Prop := ∃ l ∈ s.links, l.Covers

instance (s : Task) : Decidable s.Covered := inferInstanceAs (Decidable (∃ l ∈ s.links, l.Covers))

/-- Somebody has set the flag and has still to signal. -/
def Signaller (s : Task) : Prop := .signalling ∈ s.links ∨ .stored ∈ s.wakes

/-- What a step of a link does, to the link, the flag and the token. -/
inductive Moves (s : Task) : LinkOp → Link → Link → Bool → Bool → Prop
  | die : Moves s .die .live .dead s.actionRequired s.token
  | remove : Moves s .remove .dead .removed s.actionRequired s.token
  | count : Moves s .count .removed (.counted (s.links.countP Link.pooled % 256)) s.actionRequired s.token
  | skip {n : ℕ} (hn : n ≠ 0) : Moves s .deliver (.counted n) .reported s.actionRequired s.token
  | absorb (hset : s.actionRequired = true) : Moves s .deliver (.counted 0) .reported true s.token
  | swap : Moves s .deliver (.counted 0) .signalling true s.token
  | signal : Moves s .signal .signalling .reported s.actionRequired true

theorem linkStep_moves (s : Task) (i : ℕ) (op : LinkOp) :
    s.linkStep i op = s ∨ ∃ l l' flag token, s.links[i]? = some l ∧ s.Moves op l l' flag token ∧
      s.linkStep i op = { s with links := s.links.set i l', actionRequired := flag, token := token } := by
  unfold linkStep
  cases hl : s.links[i]? with
  | none => exact .inl rfl
  | some l =>
    dsimp only
    split
    · exact .inr ⟨_, _, _, _, rfl, .die, rfl⟩
    · exact .inr ⟨_, _, _, _, rfl, .remove, rfl⟩
    · exact .inr ⟨_, _, _, _, rfl, .count, rfl⟩
    · rename_i n
      unfold receiveEvent
      by_cases hn : n ≠ 0
      · rw [if_pos hn]
        exact .inr ⟨_, _, _, _, rfl, .skip hn, rfl⟩
      · rw [if_neg hn]
        obtain rfl : n = 0 := by simpa using hn
        by_cases hset : s.actionRequired = true
        · rw [if_pos hset]
          refine .inr ⟨_, _, _, _, rfl, .absorb hset, ?_⟩
          rw [← hset]
          rfl
        · rw [if_neg hset]
          exact .inr ⟨_, _, _, _, rfl, .swap, rfl⟩
    · exact .inr ⟨_, _, _, _, rfl, .signal, rfl⟩
    · exact .inl rfl

variable {s : Task} {op : LinkOp}

theorem Moves.flag {l l' : Link} {flag token : Bool} (h : s.Moves op l l' flag token)
    (hset : s.actionRequired = true) : flag = true := by
  cases h <;> first | exact hset | rfl

/-- A link that covers the target does so until the flag is set. -/
theorem Moves.covers {i : ℕ} {l l' : Link} {flag token : Bool} (hl : s.links[i]? = some l)
    (h : s.Moves op l l' flag token) (hcov : l.Covers) : (∃ x ∈ s.links.set i l', x.Covers) ∨ flag = true := by
  have hlt : i < s.links.length := (List.getElem?_eq_some_iff.mp hl).1
  have hmem : l' ∈ s.links.set i l' := mem_set hlt _
  cases h with
  | die => exact .inl ⟨_, hmem, .inr (.inl rfl)⟩
  | remove => exact .inl ⟨_, hmem, .inr (.inr (.inl rfl))⟩
  | count =>
    by_cases hzero : s.links.countP Link.pooled % 256 = 0
    · rw [hzero] at hmem ⊢
      exact .inl ⟨_, hmem, .inr (.inr (.inr rfl))⟩
    · -- a link that was counted is still in the pool
      have hpos : 0 < s.links.countP Link.pooled := by omega
      obtain ⟨x, hx, hpooled⟩ := countP_pos_iff.mp hpos
      refine .inl ⟨x, Pool.mem_set_of_ne hl hx ?_, Link.Covers.of_pooled hpooled⟩
      rintro rfl
      cases hpooled
  | skip hn =>
    rcases hcov with h | h | h | h <;> cases h
    exact absurd rfl hn
  | absorb _ | swap => exact .inr rfl
  | signal => rcases hcov with h | h | h | h <;> cases h

theorem Covered.linkStep (h : s.Covered) (i : ℕ) (op : LinkOp) :
    (s.linkStep i op).Covered ∨ (s.linkStep i op).actionRequired = true := by
  rcases s.linkStep_moves i op with heq | ⟨l, l', flag, token, hl, hmoves, heq⟩
  · rw [heq]
    exact .inl h
  · rw [heq]
    obtain ⟨x, hx, hcov⟩ := h
    by_cases hxl : x = l
    · exact hmoves.covers hl (hxl ▸ hcov)
    · exact .inl ⟨x, Pool.mem_set_of_ne hl hx hxl, hcov⟩

/-- A flag that is set was signalled, or will be. -/
theorem Moves.signaller {i : ℕ} {l l' : Link} {flag token : Bool} (hl : s.links[i]? = some l)
    (h : s.Moves op l l' flag token) (hsig : s.actionRequired = true → s.token = true ∨ s.Signaller)
    (hset : flag = true) : token = true ∨ .signalling ∈ s.links.set i l' ∨ .stored ∈ s.wakes := by
  have hlt : i < s.links.length := (List.getElem?_eq_some_iff.mp hl).1
  have hmem : l' ∈ s.links.set i l' := mem_set hlt _
  -- what signals stays, unless it is this link
  have hkeep : l ≠ .signalling → (s.token = true ∨ s.Signaller) →
      s.token = true ∨ .signalling ∈ s.links.set i l' ∨ .stored ∈ s.wakes := by
    intro hne hsig
    rcases hsig with htoken | hlink | hwake
    · exact .inl htoken
    · exact .inr (.inl (Pool.mem_set_of_ne hl hlink (Ne.symm hne)))
    · exact .inr (.inr hwake)
  cases h with
  | die | remove | count | skip hn => exact hkeep nofun (hsig hset)
  | absorb hflag => exact hkeep nofun (hsig hflag)
  | swap => exact .inr (.inl hmem)
  | signal => exact .inl rfl

/-! ## The invariant -/

/-- `Run` has seen a link, or that no action is required. -/
def Run.Relies : Run → Prop
  | .check => True
  | .blocked => True
  | .attempt true => True
  | _ => False

/-- `Run` relies on a link that covers the target, or on the flag; it sleeps on a flag that is set only
until somebody signals; and it backs off with the flag set. -/
structure Watches (s : Task) : Prop where
  alert : Run.Relies s.run → s.Covered ∨ s.actionRequired = true
  noisy : s.run = .blocked → s.actionRequired = true → s.token = true ∨ s.Signaller
  backoff : s.run = .backoff → s.actionRequired = true

theorem watches_start : start.Watches := by
  refine ⟨?_, ?_, ?_⟩
  · rintro ⟨⟩
  · rintro ⟨⟩
  · rintro ⟨⟩

theorem gains_eq {run run' : Run} (h : Run.gains run = run') (hne : ∀ held, run' ≠ .attempt held) : run = run' := by
  cases run with
  | attempt held => exact absurd h.symm (hne true)
  | start | read | check | blocked | clear | failed | backoff | stopped => exact h

theorem Watches.add (h : s.Watches) : (s.step .add).Watches := by
  refine ⟨?_, ?_, fun hback => h.backoff (gains_eq hback nofun)⟩
  · exact fun _ => .inl ⟨.live, mem_append_right _ (mem_singleton_self _), .inl rfl⟩
  · intro hrun hflag
    rcases h.noisy (gains_eq hrun nofun) hflag with htoken | hlink | hwake
    · exact .inl htoken
    · exact .inr (.inl (mem_append_left _ hlink))
    · exact .inr (.inr hwake)

theorem run_linkStep (s : Task) (i : ℕ) (op : LinkOp) :
    (s.linkStep i op).run = s.run ∧ (s.linkStep i op).wakes = s.wakes := by
  rcases s.linkStep_moves i op with heq | ⟨l, l', flag, token, -, -, heq⟩
  · rw [heq]
    exact ⟨rfl, rfl⟩
  · rw [heq]
    exact ⟨rfl, rfl⟩

theorem Watches.linkStep (h : s.Watches) (i : ℕ) (op : LinkOp) : (s.linkStep i op).Watches := by
  have hrun := (s.run_linkStep i op).1
  have hflag : s.actionRequired = true → (s.linkStep i op).actionRequired = true := by
    intro hset
    rcases s.linkStep_moves i op with heq | ⟨l, l', flag, token, -, hmoves, heq⟩
    · rw [heq]
      exact hset
    · rw [heq]
      exact hmoves.flag hset
  refine ⟨?_, ?_, ?_⟩
  · intro hrelies
    rw [hrun] at hrelies
    rcases h.alert hrelies with hcov | hset
    · exact hcov.linkStep i op
    · exact .inr (hflag hset)
  · intro hblocked hset
    rw [hrun] at hblocked
    rcases s.linkStep_moves i op with heq | ⟨l, l', flag, token, hl, hmoves, heq⟩
    · rw [heq] at hset ⊢
      exact h.noisy hblocked hset
    · rw [heq] at hset ⊢
      exact hmoves.signaller hl (h.noisy hblocked) hset
  · intro hback
    rw [hrun] at hback
    exact hflag (h.backoff hback)

theorem Watches.wake (h : s.Watches) : (s.step .wake).Watches := by
  show (if s.isLinked then s else { s with wakes := s.wakes ++ [.checked] } : Task).Watches
  split
  · exact h
  · refine { h with noisy := ?_ }
    intro hrun hflag
    rcases h.noisy hrun hflag with htoken | hlink | hwake
    · exact .inl htoken
    · exact .inr (.inl hlink)
    · exact .inr (.inr (mem_append_left _ hwake))

theorem Watches.wakeStore (h : s.Watches) (k : ℕ) : (s.wakeStore k).Watches := by
  unfold Task.wakeStore
  split
  · rename_i hk
    have hlt : k < s.wakes.length := (List.getElem?_eq_some_iff.mp hk).1
    refine ⟨fun _ => .inr rfl, ?_, fun _ => rfl⟩
    intro _ _
    exact .inr (.inr (mem_set hlt _))
  · exact h

theorem Watches.wakeSignal (h : s.Watches) (k : ℕ) : (s.wakeSignal k).Watches := by
  unfold Task.wakeSignal
  split
  · exact { h with noisy := fun _ _ => .inl rfl }
  · exact h

/-- The state and the step that the task is right for. The first store of `Run` does not overwrite a report:
the target is linked or the report is still to come. An attempt succeeds only if the pool has held a link to the
target since it began. And the last report that is outstanding is not delivered for a target that is not linked
while `Run` is blocked without a token and a `Wake` that has set the flag has still to signal. -/
def Timely (s : Task) : Op → Prop
  | .run .store => s.run = .read true → s.Covered
  | .run .succeed => s.run ≠ .attempt false
  | .link i .deliver => s.run = .blocked → s.token = false → .stored ∈ s.wakes →
      s.isLinked = true ∨ ∃ l ∈ s.links.eraseIdx i, l.outstanding = true
  | _ => True

instance (s : Task) : (op : Op) → Decidable (s.Timely op)
  | .run .store => inferInstanceAs (Decidable (s.run = .read true → s.Covered))
  | .run .succeed => inferInstanceAs (Decidable (s.run ≠ .attempt false))
  | .link i .deliver => inferInstanceAs (Decidable (s.run = .blocked → s.token = false → .stored ∈ s.wakes →
      s.isLinked = true ∨ ∃ l ∈ s.links.eraseIdx i, l.outstanding = true))
  | .add | .wake | .wakeStore _ | .wakeSignal _ => instDecidableTrue
  | .link _ .die | .link _ .remove | .link _ .count | .link _ .signal => instDecidableTrue
  | .run .isLinked | .run .load | .run .receive | .run .clear | .run .fail | .run .retry | .run .timer
  | .run .stop => instDecidableTrue

theorem Watches.runStep (h : s.Watches) {op : RunOp} (hop : s.Timely (.run op)) : (s.runStep op).Watches := by
  unfold Task.runStep
  split
  · refine ⟨?_, ?_, ?_⟩ <;> rintro ⟨⟩
  · -- the first store
    rename_i linked hread
    refine ⟨?_, ?_, ?_⟩
    · intro _
      cases linked with
      | false => exact .inr rfl
      | true => exact .inl (hop hread)
    · rintro ⟨⟩
    · rintro ⟨⟩
  · rename_i hcheck
    by_cases hflag : s.actionRequired = true
    · rw [if_pos hflag]
      refine ⟨?_, ?_, ?_⟩ <;> rintro ⟨⟩
    · rw [if_neg hflag]
      refine ⟨fun _ => h.alert (by rw [hcheck]; trivial), ?_, ?_⟩
      · intro _ hset
        exact absurd hset hflag
      · rintro ⟨⟩
  · rename_i hblocked
    split
    · refine ⟨fun _ => h.alert (by rw [hblocked]; trivial), ?_, ?_⟩
      · rintro ⟨⟩
      · rintro ⟨⟩
    · exact h
  · -- the attempt begins
    refine ⟨?_, ?_, ?_⟩
    · intro hrelies
      by_cases hany : s.links.any Link.pooled = true
      · obtain ⟨l, hl, hpooled⟩ := any_eq_true.mp hany
        exact .inl ⟨l, hl, Link.Covers.of_pooled hpooled⟩
      · have hnone : s.links.any Link.pooled = false := by simpa using hany
        rw [hnone] at hrelies
        cases hrelies
    · rintro ⟨⟩
    · rintro ⟨⟩
  · rename_i held hattempt
    refine ⟨fun _ => ?_, ?_, ?_⟩
    · cases held with
      | true => exact h.alert (by rw [hattempt]; trivial)
      | false => exact absurd hattempt hop
    · rintro ⟨⟩
    · rintro ⟨⟩
  · refine ⟨?_, ?_, ?_⟩ <;> rintro ⟨⟩
  · refine ⟨?_, ?_, fun _ => rfl⟩ <;> rintro ⟨⟩
  · rename_i hback
    split
    · refine ⟨fun _ => .inr (h.backoff hback), ?_, ?_⟩
      · rintro ⟨⟩
      · rintro ⟨⟩
    · exact h
  · rename_i hback
    refine ⟨fun _ => .inr (h.backoff hback), ?_, ?_⟩
    · rintro ⟨⟩
    · rintro ⟨⟩
  · refine ⟨?_, ?_, ?_⟩ <;> rintro ⟨⟩
  · refine ⟨?_, ?_, ?_⟩ <;> rintro ⟨⟩
  · refine ⟨?_, ?_, ?_⟩ <;> rintro ⟨⟩
  · exact h

theorem Watches.step (h : s.Watches) {op : Op} (hop : s.Timely op) : (s.step op).Watches := by
  cases op with
  | add => exact h.add
  | link i op => exact h.linkStep i op
  | wake => exact h.wake
  | wakeStore k => exact h.wakeStore k
  | wakeSignal k => exact h.wakeSignal k
  | run op => exact h.runStep hop

/-- The target is linked whenever `Run` sleeps and no report is outstanding. -/
def Rests (s : Task) : Prop :=
  s.run = .blocked → s.token = false → (∀ l ∈ s.links, l.outstanding = false) → s.isLinked = true

theorem isLinked_of_mem (h : .live ∈ s.links) : s.isLinked = true :=
  any_eq_true.mpr ⟨.live, h, rfl⟩

/-- With no report outstanding, a link that covers the target is live. -/
theorem Covered.isLinked (h : s.Covered) (hsettled : ∀ l ∈ s.links, l.outstanding = false) :
    s.isLinked = true := by
  obtain ⟨l, hl, hcov⟩ := h
  have hout := hsettled l hl
  rcases hcov with rfl | rfl | rfl | rfl
  · exact isLinked_of_mem hl
  · cases hout
  · cases hout
  · cases hout

/-- Unless a `Wake` has still to signal, the flag of a task that sleeps is not set. -/
theorem Watches.rests (h : s.Watches) (hwake : .stored ∉ s.wakes) : s.Rests := by
  intro hblocked htoken hsettled
  rcases h.alert (by rw [hblocked]; trivial) with hcov | hflag
  · exact hcov.isLinked hsettled
  · rcases h.noisy hblocked hflag with htoken' | hlink | hstored
    · rw [htoken] at htoken'
      cases htoken'
    · have hout := hsettled _ hlink
      cases hout
    · exact absurd hstored hwake

theorem Rests.linkStep (h : s.Watches) {i : ℕ} (hop : s.Timely (.link i op)) (hrests : s.Rests) :
    (s.linkStep i op).Rests := by
  have hwatches := h.linkStep i op
  obtain ⟨hrun, hwakes⟩ := s.run_linkStep i op
  by_cases hstored : .stored ∈ s.wakes
  · rcases s.linkStep_moves i op with heq | ⟨l, l', flag, token, hl, hmoves, heq⟩
    · rw [heq]
      exact hrests
    · intro hblocked htoken hsettled
      rw [hrun] at hblocked
      rw [heq] at htoken hsettled ⊢
      have hlt : i < s.links.length := (List.getElem?_eq_some_iff.mp hl).1
      have hout : l'.outstanding = false := hsettled l' (mem_set hlt _)
      -- the last report, delivered without a signal
      have hlast : op = .deliver → s.token = false → l ≠ .live →
          ∃ x ∈ s.links.set i l', decide (x = .live) = true := by
        intro hdeliver hnone hne
        rw [hdeliver] at hop
        rcases hop hblocked hnone hstored with hlinked | ⟨x, hx, hxout⟩
        · obtain ⟨x, hx, hlive⟩ := any_eq_true.mp hlinked
          rw [decide_eq_true_eq] at hlive
          exact ⟨x, Pool.mem_set_of_ne hl hx (by rw [hlive]; exact Ne.symm hne), decide_eq_true hlive⟩
        · obtain ⟨j, hj, hxj⟩ := mem_eraseIdx_iff_getElem?.mp hx
          have hmem : x ∈ s.links.set i l' :=
            mem_of_getElem? ((Pool.getElem?_set_some hl).mpr (.inr ⟨hj, hxj⟩))
          rw [hsettled x hmem] at hxout
          cases hxout
      cases hmoves with
      | die | remove | count | swap => cases hout
      | signal => cases htoken
      | skip hn | absorb hset => exact any_eq_true.mpr (hlast rfl htoken nofun)
  · apply hwatches.rests
    rw [hwakes]
    exact hstored

theorem Rests.runStep (h : s.Watches) (hrests : s.Rests) (op : RunOp) : (s.runStep op).Rests := by
  unfold Task.runStep
  -- the steps that leave `Run` elsewhere
  split <;> try rintro ⟨⟩
  · -- `waitForAction` goes to sleep
    rename_i hcheck
    by_cases hflag : s.actionRequired = true
    · rw [if_pos hflag]
      rintro ⟨⟩
    · rw [if_neg hflag]
      intro _ _ hsettled
      rcases h.alert (by rw [hcheck]; trivial) with hcov | hset
      · exact hcov.isLinked hsettled
      · exact absurd hset hflag
  · split
    · rintro ⟨⟩
    · exact hrests
  · split
    · rintro ⟨⟩
    · exact hrests
  · exact hrests

theorem Rests.step (h : s.Watches) {op : Op} (hop : s.Timely op) (hrests : s.Rests) : (s.step op).Rests := by
  cases op with
  | add =>
    intro _ _ _
    exact isLinked_of_mem (mem_append_right _ (mem_singleton_self _))
  | link i op => exact hrests.linkStep h hop
  | wake =>
    show (if s.isLinked then s else { s with wakes := s.wakes ++ [.checked] } : Task).Rests
    split <;> exact hrests
  | wakeStore k =>
    show (s.wakeStore k).Rests
    unfold Task.wakeStore
    split <;> exact hrests
  | wakeSignal k =>
    show (s.wakeSignal k).Rests
    unfold Task.wakeSignal
    split
    · intro _ htoken
      cases htoken
    · exact hrests
  | run op => exact hrests.runStep h op

theorem watches_after {ops : List Op} (h : Trace.Along (fun before op => (after before).Timely op) ops) :
    (after ops).Watches ∧ (after ops).Rests := by
  refine h.invariant (I := fun s : Task => s.Watches ∧ s.Rests) ⟨watches_start, ?_⟩ ?_
  · rintro ⟨⟩
  · exact fun _ _ hop ⟨hwatches, hrests⟩ => ⟨hwatches.step hop, hrests.step hwatches hop⟩

/-- **The task never sleeps on a broken link.** Blocked in `waitForAction` without a token, with every
closing reported, it has a target that is linked. -/
theorem never_sleeps (ops : List Op) (h : Trace.Along (fun before op => (after before).Timely op) ops)
    (hblocked : (after ops).run = .blocked) (htoken : (after ops).token = false)
    (hreported : ∀ l ∈ (after ops).links, l.outstanding = false) : (after ops).isLinked = true :=
  (watches_after h).2 hblocked htoken hreported

/-- A link is lost, an attempt fails, the next one makes a link. -/
def restored : List Op :=
  [.run .load, .run .succeed, .add, .run .clear, .run .load, .run .timer, .run .retry, .run .fail,
    .run .clear, .run .load, .run .receive, .link 0 .signal, .link 0 .deliver, .link 0 .count,
    .link 0 .remove,
    .link 0 .die, .run .load, .run .store, .run .isLinked, .add]

theorem never_sleeps_restored : (after restored).isLinked = true :=
  never_sleeps restored (by decide) (by decide) (by decide) (by decide)

/-- The link is closed and reported between the two halves of the first store. -/
def overwritten : List Op :=
  [.run .load, .run .receive, .run .load, .run .store, .link 0 .signal, .link 0 .deliver, .link 0 .count,
    .link 0 .remove, .link 0 .die, .run .isLinked, .add]

/-- The report is absorbed by the flag of a `Wake` that has not signalled. -/
def absorbed : List Op :=
  [.link 0 .deliver, .link 0 .count, .link 0 .remove, .wakeStore 0, .wake, .link 0 .die, .run .load,
    .run .store, .run .isLinked, .add]

/-- The report wakes `Run`, and the link that it was about is handed to the attempt. -/
def handedBack : List Op :=
  [.run .load, .run .succeed, .run .clear, .run .load, .run .receive, .link 0 .signal, .link 0 .deliver,
    .link 0 .count, .link 0 .remove, .link 0 .die, .run .load, .run .store, .run .isLinked, .add]

theorem sleeps_unlinked : [overwritten, absorbed, handedBack].Forall fun ops =>
    (after ops).run = .blocked ∧ (after ops).token = false ∧
      (∀ l ∈ (after ops).links, l.outstanding = false) ∧ (after ops).isLinked = false := by
  decide

end Task

end Astrald.User.Maintain
