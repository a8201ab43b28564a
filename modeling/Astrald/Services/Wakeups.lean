import Astrald.Services.Edits

/-!
# Sleeping writers

`Stream.Run` sleeps on `wake` and `Source.sendLoop` on `askWake`, each when it finds nothing to send. Whoever gives
a writer something to send leaves a token, so a writer that sleeps without one has nothing to send.

* `Stream.Edit.rested`, `Source.Edit.rested`: every edit keeps that;
* `no_lost_wake`: it holds of every stream and source in every run.
-/

namespace Astrald.Services

namespace Stream

/-- `Run` is blocked: it has found nothing to send, and there is no token. -/
def Asleep (st : Stream) : Prop := st.writer = .waiting ∧ st.wake = false

/-- A sleeping writer has an open stream and nothing to send. -/
def Rested (st : Stream) : Prop := st.Asleep → st.closed = false ∧ st.next.2 = none

variable {st st' : Stream}

/-- Whether there is something to send depends on the removals, the boundary and the queue. -/
theorem next_none_iff (st : Stream) : st.next.2 = none ↔ st.removed = [] ∧
    (!st.attemptNil && st.attempt.resolved && decide (st.attempt.owed.getD ∅ = ∅)) = false ∧
    ∀ k ∈ st.queue.head?, st.pending k = none := by
  unfold next
  by_cases hr : st.removed = []
  · cases hb : !st.attemptNil && st.attempt.resolved && decide (st.attempt.owed.getD ∅ = ∅) with
    | true => simp [hr]
    | false =>
      cases st.queue with
      | nil => simp [hr]
      | cons k rest => cases hp : st.pending k <;> simp [hr, hp]
  · simp [hr]

theorem next_of_none (h : st.next = (st', none)) : st' = st := by
  unfold next at h
  grind

theorem Rested.of_eq (h : st.Rested) (hw : st'.writer = st.writer) (hwake : st'.wake = st.wake)
    (hc : st'.closed = st.closed) (hnext : st.next.2 = none → st'.next.2 = none) : st'.Rested := by
  intro hs
  obtain ⟨hopen, hnone⟩ := h ⟨hw ▸ hs.1, hwake ▸ hs.2⟩
  exact ⟨hc.trans hopen, hnext hnone⟩

theorem Rested.of_wake (h : st.wake = true) : st.Rested := fun hs => by simp [hs.2] at h

theorem Rested.of_writer (h : st.writer ≠ .waiting) : st.Rested := fun hs => absurd hs.1 h

theorem rested_offer (st : Stream) (k : OfferingKey) (u : Update) : (st.offer k u).Rested := by
  refine .of_wake ?_
  unfold Stream.offer
  split <;> rfl

theorem Rested.lose (h : st.Rested) (provider : String) (names : List String) : (st.lose provider names).Rested := by
  refine Trace.unless_keeps h fun _ => ?_
  exact .of_wake rfl

theorem Rested.runTurn (st : Stream) : st.runTurn.Rested := by
  unfold Stream.runTurn
  split
  · exact .of_writer (by simp)
  · rename_i hc
    split
    · rename_i st' hnext
      cases next_of_none hnext
      refine fun _ => ⟨by simpa using hc, (next_none_iff _).mpr ?_⟩
      exact (next_none_iff st).mp (congrArg Prod.snd hnext)
    · exact .of_writer (by simp)

/-- Every edit but a retraction, whose token comes after the last key. -/
theorem Edit.rested {fresh retracts : Prop} (hr : ¬retracts) (st st' : Stream) (hone : st.Edit fresh retracts st')
    (h : st.Rested) : st'.Rested := by
  cases hone with
  | starts | awakes | sends | returns => exact .of_writer (by simp)
  | retracts k hk => exact absurd hk hr
  | loses provider names => exact h.lose provider names
  | finishes | shuts | wakes => exact .of_wake rfl
  | offers k u => exact rested_offer st k u
  | runs => exact .runTurn st
  | _ => exact h.of_eq rfl rfl rfl fun hn => (next_none_iff _).mpr ((next_none_iff st).mp hn)

end Stream

namespace Source

/-- `sendLoop` is blocked: its `select` finds neither a token nor `done` closed. -/
def Asleep (src : Source) : Prop := src.sender = .waiting ∧ src.askWake = false ∧ src.closed = false

def Rested (src : Source) : Prop := src.Asleep → src.asks = []

theorem Rested.modifySlot {src : Source} (h : src.Rested) (ck : String) (f : Slot → Slot) : (src.modifySlot ck f).Rested := by
  unfold Source.modifySlot
  split <;> exact h

theorem Edit.rested {draw : ℕ → ℕ} {gone : ℕ → Prop} (src src' : Source) (hone : src.Edit draw gone src')
    (h : src.Rested) : src'.Rested := by
  cases hone with
  | slot ck =>
    unfold Source.slot
    split <;> exact h
  | work ck f => exact h.modifySlot ck f
  | collect ck =>
    unfold Source.collect
    split
    · exact h
    · split <;> exact h
  | retire id => exact h.modifySlot (src.reqs id).caller _
  | close => exact fun hs => nomatch hs.2.2
  | turn =>
    unfold Coordinator.sendTurn
    split
    · exact fun hs => nomatch hs.1
    · split
      · exact fun _ => ‹_›
      · exact fun hs => nomatch hs.1
  | erase | settle | clear => exact h
  | issue => exact fun hs => nomatch hs.2.1
  | awake | sent | returned => exact fun hs => nomatch hs.1

end Source

namespace Coordinator

structure Rested (c : Coordinator) : Prop where
  stream : ∀ i, (c.streams i).Rested
  source : ∀ s, (c.sources s).Rested

variable {d : Draws} {x : Scope} {c c' : Coordinator}

theorem Edits.rested (hx : ∀ r k, ¬x.forgets r k) (he : Edits d x c c') (h : Rested c) : Rested c' :=
  ⟨fun i => keep (Stream.Edit.rested fun ⟨r, k, hk⟩ => hx r k hk) (he.stream i) (h.stream i),
    fun s => keep Source.Edit.rested (he.source s) (h.source s)⟩

/-- Whatever happens to one stream, a token at the end makes up for it. -/
theorem Rested.woken (h : Rested c) {i : ℕ} (hne : ∀ j, j ≠ i → c'.streams j = c.streams j)
    (hs : c'.sources = c.sources) : Rested (c'.modStream i fun st => { st with wake := true }) := by
  refine ⟨fun j => ?_, fun s => hs ▸ h.source s⟩
  by_cases hj : j = i
  · subst hj
    rw [streams_modStream_self]
    exact .of_wake rfl
  · rw [streams_modStream_of_ne _ hj, hne j hj]
    exact h.stream j

theorem Rested.remoteRemove (h : Rested c) (r : ℕ) (keys : List OfferingKey) : Rested (c.remoteRemove r keys) := by
  refine Trace.unless_keeps h fun _ => ?_
  refine h.woken (fun j hj => by rw [streams_removeKeys, if_neg hj]) ?_
  refine Fold.foldl_eq sources (fun c k => ?_) keys c
  unfold removeKey
  split <;> rfl

theorem Rested.remoteLost (h : Rested c) (r : ℕ) : Rested (c.remoteLost r) := by
  have hfails : Rested ((remoteObligations (c.remotes r)).foldl fail c) :=
    (edits_fails (d := countingDraws) (x := { Scope.none with gone := fun _ => True }) c _
      fun _ _ => trivial).rested (fun _ _ => id) h
  refine Trace.unless_keeps hfails fun _ => ?_
  refine hfails.woken (fun j hj => (streams_retracts _ _ _ _).trans (if_neg hj)) ?_
  exact Fold.foldl_eq (f := fun c' k => c'.modStream (c.remotes r).st (·.retract k)) sources (fun _ _ => rfl) _ _

theorem Rested.step (h : Rested c) (hw : Wf d (.tight True) c) (op : Op) : Rested (c.step d op) := by
  have hclaimed : Rested (c.claimed op) := by
    refine ⟨fun i => by rw [(claimed_eq op).1]; exact h.stream i, fun s => ?_⟩
    unfold claimed
    split
    · split
      · simp only [claim, Function.update_apply]
        split
        · exact fun hs => absurd hs.1 (by simp)
        · exact h.source s
      · exact h.source s
    · exact h.source s
  cases op with
  | remoteRemove r keys =>
    refine Trace.when_keeps h fun _ => ?_
    exact h.remoteRemove r keys
  | remoteLost r =>
    refine Trace.when_keeps h fun _ => ?_
    exact h.remoteLost r
  | _ => exact (edits_step hw _).rested (fun _ _ => id) hclaimed

/-- **No lost wakeup.** In every run, `Run` blocked without a token has an open stream and nothing to send, and
`sendLoop` blocked without a token has an open source and no queued asks. -/
theorem no_lost_wake (d : Draws) (ops : List Op) :
    (∀ i, ((exec d ops).streams i).Asleep →
      ((exec d ops).streams i).closed = false ∧ ((exec d ops).streams i).next.2 = none) ∧
    (∀ s, ((exec d ops).sources s).Asleep →
      ((exec d ops).sources s).closed = false ∧ ((exec d ops).sources s).asks = []) := by
  have h : Rested (exec d ops) := by
    induction ops with
    | nil => exact ⟨fun _ => .of_writer (by simp [exec, Trace.exec, new, default]), fun _ hs => nomatch hs.1⟩
    | cons op ops ih => exact ih.step (wf_exec d True ops fun _ _ => Or.inl trivial) op
  exact ⟨h.stream, fun s hs => ⟨hs.2.2, h.source s hs⟩⟩

/-- A source without work, and a follow stream past its boundary. -/
def bothAsleep : List Op :=
  [.run 0, .awake 0, .run 0, .wrote 0, .run 0, .discover "c" ["y"] true [], .send 0, .register "p" ["x"] []]

theorem no_lost_wake_bothAsleep :
    ((exec countingDraws bothAsleep).streams 0).next.2 = none ∧
      ((exec countingDraws bothAsleep).sources 0).asks = [] :=
  ⟨((no_lost_wake countingDraws bothAsleep).1 0 ⟨rfl, rfl⟩).2,
    ((no_lost_wake countingDraws bothAsleep).2 0 ⟨rfl, rfl, rfl⟩).2⟩

end Coordinator

end Astrald.Services
