import Astrald.Services.Convergence
import Astrald.Services.Edits

/-!
# Failed obligations

An attempt finishes once, when its stream waits for nothing more, and no obligation of the stream
fails afterwards. So the services a boundary names are those that had failed, or ran out of their
budget, when the attempt finished, however long the boundary waits for its turn.

* `timely_exec`: in the history of every stream of every run, `finished` occurs at most once and
  every failure comes before it;
* `accounted_exec`: the boundary, in the sink's hands or written, names what has failed.
-/

namespace Astrald.Services

open List

namespace Stream

/-- The history records one end of the attempt, and every failure before it. -/
structure Timely (st : Stream) : Prop where
  finished : .finished ∈ st.log ↔ st.attempt.resolved = true
  idle : st.attempt.resolved = true → st.attempt.opened = []
  early : History.Always (fun pre e => e = .finished ∨ e.fails ≠ none → .finished ∉ pre) st.log

variable {st : Stream}

theorem Timely.unfinished (h : st.Timely) (hr : st.attempt.resolved = false) : .finished ∉ st.log := by
  intro hm
  rw [h.finished.mp hm] at hr
  cases hr

/-- Events that are neither a failure nor the end of the attempt. -/
theorem Timely.mild {st' : Stream} (h : st.Timely) {l : List Event} (hlog : st'.log = st.log ++ l)
    (hes : ∀ e ∈ l, e ≠ .finished ∧ e.fails = none) (hr : st'.attempt.resolved = st.attempt.resolved)
    (ho : st.attempt.opened = [] → st'.attempt.opened = []) : st'.Timely where
  finished := by
    have hnot : .finished ∉ l := fun hm => (hes _ hm).1 rfl
    rw [hlog, hr, ← h.finished, mem_append, or_iff_left hnot]
  idle hr' := ho (h.idle (hr.symm.trans hr'))
  early := by
    rw [hlog]
    refine h.early.append fun e he pre hbad => ?_
    rcases hbad with rfl | hf
    · exact absurd rfl (hes _ he).1
    · exact absurd (hes e he).2 hf

theorem Timely.still {st' : Stream} (h : st.Timely) (hlog : st'.log = st.log)
    (hr : st'.attempt.resolved = st.attempt.resolved) (ho : st.attempt.opened = [] → st'.attempt.opened = []) :
    st'.Timely :=
  h.mild (hlog.trans (append_nil _).symm) (by simp) hr ho

theorem Timely.bare (caller : String) (services : Finset String) (follow : Bool) :
    Timely { caller, services, follow } :=
  ⟨by simp, by simp, History.always_nil⟩

/-- While the obligations of a new stream are opened, nothing finishes. -/
theorem Timely.unresolved {st' : Stream} (h : st.Acct st') (hlog : st.log = []) (hr : st.attempt.resolved = false) :
    st'.Timely := by
  obtain ⟨_, _, _, es, rfl, hes, _⟩ := h
  have hnot : .finished ∉ es := fun hm => by cases hes _ hm
  simp only [hlog, nil_append]
  refine ⟨by simp [hnot, hr], by simp [hr], fun pre e post heq _ hm => hnot ?_⟩
  dsimp only at heq
  exact heq ▸ mem_append_left _ hm

section

variable (h : st.Timely)
include h

theorem Timely.offer (k : OfferingKey) (u : Update) : (st.offer k u).Timely := by
  obtain ⟨q, hlog⟩ := st.offer_log k u
  obtain ⟨ho, hr, _⟩ := Coordinator.calm_offer st k u
  exact h.mild hlog (by simp [Event.fails]) hr fun hnil => ho.trans hnil

theorem Timely.retract (k : OfferingKey) : (st.retract k).Timely := by
  obtain ⟨ho, hr, _⟩ := Coordinator.calm_retract st k
  exact h.mild (st.retract_log k) (by simp [Event.fails]) hr fun hnil => ho.trans hnil

theorem Timely.lose (provider : String) (names : List String) : (st.lose provider names).Timely := by
  cases hc : st.closed with
  | true =>
    rw [Stream.lose, if_pos hc]
    exact h
  | false =>
    rw [Coordinator.lose_eq st provider names hc]
    have hall : ∀ ks : List OfferingKey, (st.retractAll ks).Timely := fun ks =>
      Fold.foldl_rel (R := fun a b : Stream => a.Timely → b.Timely) (fun _ => id)
        (fun hab hbc => hbc ∘ hab) (fun a k ha => ha.retract k) ks st h
    exact (hall _).still rfl rfl id

theorem Timely.sent (out : Output) : Timely { st.sent out with writer := .idle } := by
  refine h.mild (l := [.written out]) ?_ (by simp [Event.fails]) ?_ ?_
  · exact st.sent_log out
  all_goals
    cases out with
    | view k v => simp [sent_view]
    | _ => simp [Stream.sent]

theorem Timely.runTurn : st.runTurn.Timely := by
  rcases st.runTurn_cases with ⟨_, he⟩ | ⟨_, _, he⟩ | ⟨_, _, _, _, _, he⟩ | ⟨_, _, _, _, _, _, _, he⟩ |
    ⟨_, he⟩ <;> rw [he] <;> exact h.still rfl rfl id

/-- A failure while the attempt is going on. -/
theorem Timely.fails (hr : st.attempt.resolved = false) (e : Event) (he : e ≠ .finished)
    (service : String) : ((st.record e).markFailed service).Timely where
  finished := by
    have hfin := h.finished
    simp only [record, markFailed, mem_append, mem_singleton]
    rw [hfin, or_iff_left (Ne.symm he)]
  idle hr' := absurd (hr.symm.trans hr') (by simp)
  early := h.early.snoc fun _ => h.unfinished hr

theorem Timely.finish (hr : st.attempt.resolved = false) (ho : st.attempt.opened = []) : st.finish.Timely where
  finished := by simp [Stream.finish]
  idle _ := ho
  early := h.early.snoc fun _ => h.unfinished hr

end

/-- Every edit of a stream that gets no obligation. -/
theorem Edit.timely {fresh retracts : Prop} (hf : ¬fresh) (st st' : Stream) (hone : st.Edit fresh retracts st')
    (h : st.Timely) : st'.Timely := by
  cases hone with
  | starts caller services follow => exact .bare caller services follow
  | opens o ho => exact absurd ho hf
  | ends o service => exact h.mild rfl (by simp [Event.fails]) rfl id
  | fails e service he hgoing =>
    refine h.fails (hgoing.elim (fun ho => ?_) id) e (fun hf => by simp [hf, Event.fails] at he) service
    cases hr : st.attempt.resolved with
    | false => rfl
    | true => exact absurd (h.idle hr) ho
  | finishes hr ho => exact h.finish hr ho
  | offers k u => exact h.offer k u
  | retracts k => exact h.retract k
  | loses provider names => exact h.lose provider names
  | runs => exact h.runTurn
  | sends out => exact h.sent out
  | deletes o => exact h.still rfl rfl fun hnil => by simp [Stream.deleteOpen, hnil]
  | _ => exact h.still rfl rfl id

end Stream

namespace Coordinator

theorem timely_discoverSwarm (d : Draws) (c : Coordinator) (caller : String) (names : List String)
    (follow : Bool) (members : List String) :
    ((c.discoverSwarm d caller names follow members).streams c.nStreams).Timely := by
  refine keep (Stream.Edit.timely id)
    ((edits_discoverSwarm_obliged (d := d) (x := .none) c caller names follow members).stream c.nStreams) ?_
  refine Stream.Timely.unresolved (opens_obligeAll (c.enroll caller names follow) c.nStreams caller names members).1
    ?_ ?_ <;> simp [enroll]

/-- **Timeliness.** The attempt of a stream finishes once, after everything that failed. -/
theorem timely_exec (d : Draws) (ops : List Op) :
    ∀ i, i < (exec d ops).nStreams → ((exec d ops).streams i).Timely := by
  induction ops with
  | nil => exact fun i hi => absurd hi (Nat.not_lt_zero i)
  | cons op ops ih =>
    intro i hi
    by_cases hlt : i < (exec d ops).nStreams
    · have hedits := (edits_step (wf_exec d True ops fun _ _ => .inl trivial) op).stream i
      rw [(claimed_eq op).1] at hedits
      exact keep (Stream.Edit.timely (Nat.not_le.mpr hlt)) hedits (ih i hlt)
    · obtain ⟨rfl, caller, names, follow, members, rfl⟩ := eq_discover_of_new d (exec d ops) op hi hlt
      exact timely_discoverSwarm d (exec d ops) caller names follow members

end Coordinator

/-! ## What the boundary names -/

def failures (log : List Event) : List String := log.filterMap Event.fails

theorem mem_failures {log : List Event} {x : String} :
    x ∈ failures log ↔ ∃ o, .failed o x ∈ log ∨ .expired o x ∈ log := by
  simp only [failures, mem_filterMap]
  constructor
  · rintro ⟨e, he, hx⟩
    cases e with
    | failed o y =>
      cases hx
      exact ⟨o, .inl he⟩
    | expired o y =>
      cases hx
      exact ⟨o, .inr he⟩
    | _ => cases hx
  · rintro ⟨o, he | he⟩
    · exact ⟨_, he, rfl⟩
    · exact ⟨_, he, rfl⟩

theorem failures_snoc {log : List Event} {e : Event} (he : e.fails = none) :
    failures (log ++ [e]) = failures log := by
  simp [failures, he]

/-- Nothing fails once the attempt has finished. -/
theorem failures_late {before mid : List Event}
    (h : History.Always (fun pre e => e = .finished ∨ e.fails ≠ none → .finished ∉ pre) (before ++ mid))
    (hfin : .finished ∈ before) : failures (before ++ mid) = failures before := by
  have hmid : mid.filterMap Event.fails = [] := by
    refine filterMap_eq_nil_iff.mpr fun e he => ?_
    obtain ⟨m₁, m₂, rfl⟩ := append_of_mem he
    by_contra hf
    refine h (before ++ m₁) e m₂ (by simp) (.inr hf) ?_
    exact mem_append_left m₁ hfin
  rw [failures, filterMap_append, hmid, append_nil, failures]

theorem mem_incomplete (at' : Attempt) (x : String) :
    x ∈ (Stream.incomplete at').getD [] ↔ x ∈ at'.failed := by
  unfold Stream.incomplete
  split
  · rename_i h
    simp [h]
  · simp

namespace Stream

/-- The failed list agrees with the history, and so does every boundary that was written. -/
structure Recorded (st : Stream) : Prop where
  failed : ∀ x, x ∈ st.attempt.failed ↔ x ∈ failures st.log
  named : History.Always (fun pre e => ∀ inc, e = .written (.boundary inc) →
    ∀ x, x ∈ inc.getD [] ↔ x ∈ failures pre) st.log

variable {st : Stream}

theorem Recorded.snoc {t : Stream} (h : st.Recorded) {e : Event} (hlog : t.log = st.log ++ [e])
    (he : e.fails = none) (hf : t.attempt.failed = st.attempt.failed)
    (hb : ∀ inc, e = .written (.boundary inc) → ∀ x, x ∈ inc.getD [] ↔ x ∈ failures st.log) :
    t.Recorded where
  failed x := by
    rw [hlog, hf, failures_snoc he]
    exact h.failed x
  named := by
    rw [hlog]
    exact h.named.snoc hb

theorem Recorded.offer (h : st.Recorded) (k : OfferingKey) (u : Update) : (st.offer k u).Recorded := by
  obtain ⟨q, hlog⟩ := st.offer_log k u
  refine h.snoc hlog rfl ?_ (by simp)
  unfold Stream.offer
  split
  · rfl
  · rw [drop_eq]

theorem Recorded.retract (h : st.Recorded) (k : OfferingKey) : (st.retract k).Recorded := by
  refine h.snoc (st.retract_log k) rfl ?_ (by simp)
  unfold Stream.retract
  rw [drop_eq]

theorem Recorded.acct {a b : Stream} (hab : a.Acct b) (h : a.Recorded) : b.Recorded := by
  obtain ⟨o, f, r, es, rfl, hes, hf⟩ := hab
  refine ⟨fun x => ?_, h.named.append fun e he pre inc heq => ?_⟩
  · dsimp only
    rw [hf, h.failed, failures, failures, filterMap_append, mem_append, mem_filterMap (l := es)]
  · have := hes e he
    rw [heq] at this
    cases this

theorem Recorded.sent (h : st.Recorded) {out : Output}
    (hb : ∀ inc, out = .boundary inc → ∀ x, x ∈ inc.getD [] ↔ x ∈ failures st.log) :
    Recorded { st.sent out with writer := .idle } := by
  refine h.snoc (st.sent_log out) rfl ?_ fun inc heq => hb inc (Event.written.inj heq)
  cases out with
  | view k v =>
    dsimp only
    rw [sent_view]
  | _ => rfl

theorem Recorded.runTurn (h : st.Recorded) : st.runTurn.Recorded := by
  rcases st.runTurn_cases with ⟨_, he⟩ | ⟨_, _, he⟩ | ⟨_, _, _, _, _, he⟩ | ⟨_, _, _, _, _, _, _, he⟩ |
    ⟨_, he⟩ <;> rw [he] <;> exact ⟨h.failed, h.named⟩

/-- A boundary in the sink's hands names what has failed. -/
structure Accounted (st : Stream) : Prop where
  recorded : st.Recorded
  handed : ∀ inc, st.writer = .writing (.boundary inc) → ∀ x, x ∈ inc.getD [] ↔ x ∈ failures st.log

theorem Accounted.bare (caller : String) (services : Finset String) (follow : Bool) :
    Accounted { caller, services, follow } :=
  ⟨⟨by simp [failures], History.always_nil⟩, by simp⟩

theorem writer_offer? (st : Stream) (off : Option (OfferingKey × Update)) :
    (st.offer? off).writer = st.writer := by
  cases off with
  | none => rfl
  | some p =>
    simp only [offer?, Stream.offer]
    split
    · rfl
    · rw [drop_eq]

variable {off : Option (OfferingKey × Update)} {ks : List OfferingKey} {st' : Stream}

/-- The writer takes the boundary in a turn of its own, and keeps it until the sink returns. -/
theorem Turn.handed
    (h : Turn off ks st st') {inc : Option (List String)} (hw : st'.writer = .writing (.boundary inc)) :
    st.writer = .writing (.boundary inc) ∨
      st'.log = st.log ∧ inc = incomplete st.attempt := by
  cases h with
  | work hs =>
    obtain ⟨_, b, w, hb, rfl⟩ := hs
    left
    rw [← writer_offer? st off, ← hw]
    have hret : (b.retractAll ks).writer = b.writer := Fold.foldl_eq (·.writer) writer_retract ks b
    dsimp only
    rw [hret]
    rcases hb with ⟨_, _, _, _, rfl, _⟩ | ⟨a, ⟨_, _, _, _, rfl, _⟩, _, _, _, _, _, rfl, _⟩ <;> rfl
  | run _ _ hidle =>
    right
    refine ⟨st.runTurn_log.1, ?_⟩
    rcases st.runTurn_cases with ⟨_, he⟩ | ⟨_, _, he⟩ | ⟨_, _, _, _, _, he⟩ | ⟨_, _, _, _, _, _, _, he⟩ |
      ⟨_, he⟩ <;> rw [he] at hw <;> cases hw
    rfl
  | close _ _ _ ha =>
    obtain ⟨_, _, _, _, rfl, _⟩ := ha
    exact .inl hw
  | _ => cases hw

theorem Accounted.turn (h : st.Accounted) (ht : Turn off ks st st') (htidy : st.Tidy) (htime : st.Timely)
    (htime' : .finished ∈ st.log → st'.Timely) : st'.Accounted where
  recorded := ht.invariant h.recorded (fun k u _ _ => h.recorded.offer k u)
    (fun _ _ hab ha => ha.acct hab) (fun a _ _ _ ha => ha.snoc (t := a.finish) rfl rfl rfl (by simp))
    (fun _ k _ _ ha => ha.retract k) (fun _ _ ha => ⟨ha.failed, ha.named⟩) (fun _ => h.recorded.runTurn)
    (fun _ => ⟨h.recorded.failed, h.recorded.named⟩)
    (fun out hw => h.recorded.sent fun inc heq => h.handed inc (heq ▸ hw))
    (fun _ ha => ⟨ha.failed, ha.named⟩) (fun _ _ ha => ⟨ha.failed, ha.named⟩)
  handed inc hw x := by
    rcases ht.handed hw with hw₀ | ⟨hlog, rfl⟩
    · -- the attempt has finished, so the new events are no failures
      have hfin : .finished ∈ st.log := htime.finished.mpr (htidy.boundary inc hw₀).2
      obtain ⟨es, hlog⟩ := ht.log_append
      have hearly := (htime' hfin).early
      rw [hlog] at hearly ⊢
      rw [failures_late hearly hfin]
      exact h.handed inc hw₀ x
    · rw [hlog, mem_incomplete]
      exact h.recorded.failed x

end Stream

/-- The boundary of every stream names what has failed. -/
theorem Coordinator.accounted_exec (d : Draws) (ops : List Op) :
    ∀ i, i < (exec d ops).nStreams → ((exec d ops).streams i).Accounted := by
  refine stream_exec d ops (fun caller services follow st hs => ?_) fun op ops' i hsuf hi h => ?_
  · exact (Stream.Accounted.bare caller services follow).turn (.work (Stream.section_settled hs))
      (.bare caller services follow) (.bare caller services follow) (by simp)
  · refine h.turn (step_turn d (exec d ops') op i hi) (tidy_exec d ops' i hi) (timely_exec d ops' i hi)
      fun _ => ?_
    exact timely_exec d (op :: ops') i (hi.trans_le (nStreams_le d (exec d ops') op))

end Astrald.Services
