import Astrald.Services.Consumer

/-!
# What the consumer ends up seeing

The stream is told, key by key, that an offering is available or not (`offer`, `retract`).
The last word on a key is what the consumer will see of it once everything is written.

* `settles_exec`: in every run, what an open stream will show of a key is its last word;
* `Settles.quiet`: a stream with nothing queued, to be removed or in flight shows it;
* `Turn.lastWord`: what an operation does to the last word is its offer and its retractions.
-/

namespace Astrald.Services

open List Function

/-! ## The last word on a key -/

/-- What an event says about the availability of `k`. -/
def Event.word (k : OfferingKey) : Event → Option Bool
  | .offered k' u _ => if k' = k then some u.available else none
  | .retracted k' => if k' = k then some false else none
  | _ => none

def lastWord (log : List Event) (k : OfferingKey) : Bool :=
  log.foldl (fun b e => (e.word k).getD b) false

theorem lastWord_append (log es : List Event) (k : OfferingKey) :
    lastWord (log ++ es) k = es.foldl (fun b e => (e.word k).getD b) (lastWord log k) :=
  foldl_append

theorem lastWord_silent {log es : List Event} {k : OfferingKey} (h : ∀ e ∈ es, e.word k = none) :
    lastWord (log ++ es) k = lastWord log k := by
  rw [lastWord_append]
  generalize lastWord log k = b
  induction es with
  | nil => rfl
  | cons e es ih =>
    rw [foldl_cons, h e mem_cons_self]
    exact ih fun e' he' => h e' (mem_cons_of_mem e he')

theorem lastWord_retracted (log : List Event) (ks : List OfferingKey) (k : OfferingKey) :
    lastWord (log ++ ks.map .retracted) k = (!decide (k ∈ ks) && lastWord log k) := by
  rw [lastWord_append]
  generalize lastWord log k = b
  induction ks generalizing b with
  | nil => simp
  | cons k' ks ih =>
    rw [map_cons, foldl_cons, ih]
    by_cases hk : k' = k
    · simp [Event.word, hk]
    · simp [Event.word, hk, Ne.symm hk]

theorem Event.word_of_account {e : Event} (h : e.isAccount = true) (k : OfferingKey) :
    e.word k = none := by
  cases e <;> first | rfl | cases h

namespace Stream

/-- What the consumer will see of `k` once everything queued is written. -/
def eventual (st : Stream) (k : OfferingKey) : Bool :=
  match st.pending k with
  | some u => u.available
  | none => !decide (k ∈ st.removed) && st.showing k

structure Settles (st : Stream) : Prop where
  viewed : st.Viewed
  word : st.closed = false → ∀ k, st.eventual k = lastWord st.log k

variable {st st' : Stream} {off : Option (OfferingKey × Update)} {ks : List OfferingKey}

/-- A key that is not shown and has nothing queued will not be seen. -/
theorem eventual_of_not_shown {k : OfferingKey} (hp : st.pending k = none) (hs : st.shown k = false) :
    st.eventual k = false := by
  unfold eventual showing
  rw [hp]
  dsimp only
  unfold shown at hs
  split at hs
  · rename_i hf
    rw [if_pos hf, hs, Bool.and_false]
  · rename_i hf
    rw [if_neg hf, Bool.and_comm]
    exact hs

theorem lastWord_offer (st : Stream) (k : OfferingKey) (u : Update) (k' : OfferingKey) :
    lastWord (st.offer k u).log k' = if k = k' then u.available else lastWord st.log k' := by
  obtain ⟨q, hlog⟩ := st.offer_log k u
  rw [hlog, lastWord_append]
  by_cases hk : k = k'
  · simp [Event.word, hk]
  · simp [Event.word, hk]

theorem Settles.offer (h : st.Settles) (k : OfferingKey) (u : Update) : (st.offer k u).Settles := by
  refine ⟨h.viewed.offer k u, fun hc k' => ?_⟩
  have hcl : st.closed = false := (Coordinator.sameStream_offer st k u).closed ▸ hc
  rw [lastWord_offer]
  have hother : k ≠ k' → (st.offer k u).eventual k' = st.eventual k' := by
    intro hk
    unfold Stream.offer
    split
    · simp only [eventual, showing, update_of_ne (Ne.symm hk)]
    · rw [drop_eq]
      simp only [eventual, showing, update_of_ne (Ne.symm hk)]
  by_cases hk : k = k'
  · subst hk
    rw [if_pos rfl]
    unfold Stream.offer
    split
    · simp only [eventual, update_self]
    · rename_i hacc
      have hneg : u.available = false ∧ st.shown k = false := by simpa using hacc
      rw [hneg.1]
      refine eventual_of_not_shown ?_ ?_
      · rw [drop_eq]
        exact update_self ..
      · rw [drop_eq]
        exact hneg.2
  · rw [if_neg hk, hother hk, h.word hcl]

theorem Settles.retract (h : st.Settles) (k : OfferingKey) : (st.retract k).Settles := by
  refine ⟨h.viewed.retract k, fun hc k' => ?_⟩
  have hcl : st.closed = false := (Coordinator.sameStream_retract st k).closed ▸ hc
  have hlog : lastWord (st.retract k).log k' = (!decide (k' = k) && lastWord st.log k') := by
    rw [retract_log]
    simpa using lastWord_retracted st.log [k] k'
  rw [hlog]
  unfold eventual
  rw [pending_retract, showing_retract]
  by_cases hk : k' = k
  · subst hk
    simp only [update_self, decide_true, Bool.not_true, Bool.false_and]
    by_cases hs : st.shown k' = true
    · have hm := (st.mem_removed_retract k' k').mpr (.inr ⟨rfl, hs⟩)
      simp [hm]
    · have hs' : st.shown k' = false := Bool.eq_false_iff.mpr hs
      have hm : k' ∈ (st.retract k').removed ↔ k' ∈ st.removed := by
        rw [mem_removed_retract]
        simp [hs']
      simp only [hm]
      unfold shown at hs'
      unfold showing
      split at hs'
      · rename_i hf
        rw [if_pos hf, hs', Bool.and_false]
      · rename_i hf
        rw [if_neg hf, Bool.and_comm]
        exact hs'
  · rw [update_of_ne hk]
    have hm : k' ∈ (st.retract k).removed ↔ k' ∈ st.removed := by
      rw [mem_removed_retract]
      simp [hk]
    simp only [hm, hk, decide_false, Bool.not_false, Bool.true_and]
    exact h.word hcl k'

theorem Settles.silent (h : st.Settles) (hv : st'.Viewed) {l : List Event} (hlog : st'.log = st.log ++ l)
    (hes : ∀ e ∈ l, ∀ k, e.word k = none) (hc : st'.closed = st.closed)
    (he : ∀ k, st'.eventual k = st.eventual k) : st'.Settles := by
  refine ⟨hv, fun hcl k => ?_⟩
  rw [hlog, lastWord_silent fun e hm => hes e hm k, he]
  exact h.word (hc ▸ hcl) k

theorem Settles.acct {a b : Stream} (hab : a.Acct b) (h : a.Settles) : b.Settles := by
  have hv := h.viewed.acct hab
  obtain ⟨o, f, r, es, rfl, hes, _⟩ := hab
  exact h.silent hv rfl (fun e he k => Event.word_of_account (hes e he) k) rfl fun _ => rfl

theorem Settles.finish (h : st.Settles) (hr : st.attempt.resolved = false) : st.finish.Settles :=
  h.silent (l := [.finished]) (h.viewed.finish hr) rfl (by simp [Event.word]) rfl fun _ => rfl

theorem Settles.sent (h : st.Settles) {out : Output} (hw : st.writer = .writing out) :
    Settles { st.sent out with writer := .idle } := by
  refine h.silent (l := [.written out]) (h.viewed.sent hw) (st.sent_log out) (by simp [Event.word])
    (Coordinator.sameStream_sent st out).closed fun k => ?_
  cases out with
  | boundary inc => rfl
  | removed keys =>
    have hf := h.viewed.tidy.landed (by simp [hw]) (by simp [hw])
    have hin := h.viewed.tidy.removing keys hw
    -- what was removed is neither waiting to be removed nor shown any more
    simp only [eventual, showing, Stream.sent, hf]
    cases st.pending k with
    | some u => rfl
    | none =>
      by_cases hk : k ∈ keys
      · simp [hk, hin k hk]
      · simp [hk]
  | view k' v =>
    have hshow := showing_sent_view h.viewed.tidy hw k
    unfold eventual
    rw [hshow, sent_view]

theorem Settles.runTurn (h : st.Settles) (hw : st.writer = .idle) : st.runTurn.Settles := by
  have hf := h.viewed.tidy.landed (by simp [hw]) (by simp [hw])
  refine h.silent (l := []) (h.viewed.runTurn hw) ?_ (by simp) (Coordinator.sameStream_runTurn st).closed
    fun k' => ?_
  · rw [append_nil, st.runTurn_log.1]
  · rcases st.runTurn_cases with ⟨_, he⟩ | ⟨_, _, he⟩ | ⟨_, _, _, _, _, he⟩ |
      ⟨_, hr, k, rest, v, hq, hp, he⟩ | ⟨_, he⟩
    · rw [he]; rfl
    · rw [he]; rfl
    · rw [he]; rfl
    · -- the view in flight stands for the queued one
      rw [he]
      by_cases hk : k' = k
      · subst hk
        simp [eventual, showing, hp, hr]
      · have hk' : ¬(some k = some k') := fun he => hk (Option.some.inj he).symm
        simp [eventual, showing, hr, hk, hk', hf]
    · rw [he]; rfl

theorem Settles.turn (ht : Turn off ks st st') (h : st.Settles) : st'.Settles :=
  ht.invariant h (fun k u _ _ => h.offer k u) (fun _ _ hab ha => ha.acct hab)
    (fun _ _ hr _ ha => ha.finish hr) (fun _ k _ _ ha => ha.retract k)
    (fun _ w ha => ⟨⟨ha.viewed.tidy.wake w, ha.viewed.view⟩, ha.word⟩) h.runTurn
    (fun hw => ⟨⟨h.viewed.tidy.awake hw, h.viewed.view⟩, h.word⟩) (fun _ hw => h.sent hw)
    (fun _ ha => ⟨⟨ha.viewed.tidy.shut, ha.viewed.view⟩, fun hc => by cases hc⟩)
    (fun _ _ ha => ⟨⟨ha.viewed.tidy.returned, ha.viewed.view⟩, ha.word⟩)

/-- When nothing is queued, to be removed or in flight, the view is the last word. -/
theorem Settles.quiet (h : st.Settles) (hc : st.closed = false) (hq : st.queue = []) (hr : st.removed = [])
    (hf : st.inflight = none) (k : OfferingKey) : k ∈ consumerView st.log ↔ lastWord st.log k = true := by
  have hp : st.pending k = none := by
    have := (h.viewed.tidy.mem_queue k).not
    rw [hq] at this
    simpa using this
  rw [← h.word hc, h.viewed.view]
  simp [eventual, showing, hp, hr, hf]

/-! ## What a turn says -/

theorem retractAll_log (ks : List OfferingKey) (st : Stream) :
    (st.retractAll ks).log = st.log ++ ks.map .retracted := by
  induction ks generalizing st with
  | nil => simp [retractAll]
  | cons k ks ih =>
    have h := ih (st.retract k)
    rw [retract_log, append_assoc] at h
    exact h

theorem Settled.log (h : st.Settled st') : ∃ es, (∀ e ∈ es, ∀ k, e.word k = none) ∧ st'.log = st.log ++ es := by
  rcases h with ⟨o, f, r, es, rfl, hes, _⟩ | ⟨a, ⟨o, f, r, es, rfl, hes, _⟩, _, o', f', r', es', rfl, hes', _⟩
  · exact ⟨es, fun e he k => Event.word_of_account (hes e he) k, rfl⟩
  · refine ⟨es ++ ([.finished] ++ es'), fun e he k => ?_, by simp [Stream.finish]⟩
    rcases mem_append.mp he with he | he
    · exact Event.word_of_account (hes e he) k
    · rcases mem_append.mp he with he | he
      · rw [mem_singleton.mp he]
        rfl
      · exact Event.word_of_account (hes' e he) k

variable (h : Turn off ks st st')
include h

/-- The offer, silence, and the retractions. -/
theorem Turn.log : ∃ es, (∀ e ∈ es, ∀ k, e.word k = none) ∧
      st'.log = (st.offer? off).log ++ es ++ ks.map .retracted := by
  have hacct : ∀ {a b : Stream}, a.Acct b → ∃ es, (∀ e ∈ es, ∀ k, e.word k = none) ∧ b.log = a.log ++ es :=
    fun hab => Settled.log (.inl hab)
  cases h with
  | work hs =>
    obtain ⟨_, b, w, hb, rfl⟩ := hs
    obtain ⟨es, hes, hlog⟩ := hb.log
    exact ⟨es, hes, by rw [← hlog]; exact retractAll_log ks b⟩
  | run ho hk hw =>
    subst ho hk
    exact ⟨[], by simp, by simp [offer?, st.runTurn_log.1]⟩
  | awake ho hk hw | stop ho hk hw hc =>
    subst ho hk
    exact ⟨[], by simp, by simp [offer?]⟩
  | @wrote out ho hk hw =>
    subst ho hk
    refine ⟨[.written out], by simp [Event.word], ?_⟩
    simpa [offer?] using st.sent_log out
  | @last a inc ho hk hw hfo hc ha =>
    subst ho hk
    obtain ⟨es, hes, hlog⟩ := hacct ha
    refine ⟨.written (.boundary inc) :: es, ?_, ?_⟩
    · simpa [Event.word] using hes
    · simpa [offer?, Stream.sent, Stream.shut] using hlog
  | close ho hk hc ha | abort ho hk hw hc ha =>
    subst ho hk
    obtain ⟨es, hes, hlog⟩ := hacct ha
    exact ⟨es, hes, by simpa [offer?, Stream.shut] using hlog⟩
  | @lastClosed inc ho hk hw hc =>
    subst ho hk
    exact ⟨[.written (.boundary inc)], by simp [Event.word], by simp [offer?, Stream.sent]⟩

theorem Turn.log_append : ∃ es, st'.log = st.log ++ es := by
  obtain ⟨es, _, hlog⟩ := h.log
  cases off with
  | none => exact ⟨es ++ ks.map .retracted, hlog.trans (append_assoc _ _ _)⟩
  | some p =>
    obtain ⟨q, hoff⟩ := st.offer_log p.1 p.2
    exact ⟨[.offered p.1 p.2 q] ++ es ++ ks.map .retracted, by rw [hlog, offer?, hoff]; simp⟩

theorem Turn.lastWord (k : OfferingKey) :
    lastWord st'.log k = (!decide (k ∈ ks) && Services.lastWord (st.offer? off).log k) := by
  obtain ⟨es, hes, hlog⟩ := h.log
  rw [hlog, lastWord_retracted, lastWord_silent fun e he => hes e he k]

/-- What a turn cannot change. -/
theorem Turn.static : st'.caller = st.caller ∧ st'.services = st.services ∧
      st'.follow = st.follow ∧ (st'.closed = false → st.closed = false) := by
  have hsame : ∀ {a b : Stream}, Coordinator.SameStream a b → b.caller = a.caller ∧
      b.services = a.services ∧ b.follow = a.follow ∧ (b.closed = false → a.closed = false) :=
    fun hs => ⟨hs.caller, hs.services, hs.follow, fun hc => hs.closed ▸ hc⟩
  cases h with
  | work hs => exact hsame (Coordinator.sameStream_section hs)
  | run => exact hsame (Coordinator.sameStream_runTurn st)
  | awake | stop | lastClosed => exact ⟨rfl, rfl, rfl, id⟩
  | @wrote out =>
    have hs := hsame (Coordinator.sameStream_sent st out)
    exact hs
  | last _ _ _ _ hc ha | close _ _ hc ha | abort _ _ _ hc ha =>
    obtain ⟨_, _, _, _, rfl, _⟩ := ha
    exact ⟨rfl, rfl, rfl, fun _ => hc⟩

end Stream

theorem Coordinator.settles_exec (d : Draws) (ops : List Op) :
    ∀ i, i < (exec d ops).nStreams → ((exec d ops).streams i).Settles := by
  refine stream_exec d ops (fun caller services follow st hs => ?_) fun op ops' i _ hi h => ?_
  · have hb : Stream.Settles { caller, services, follow } := ⟨.bare caller services follow, fun _ _ => rfl⟩
    exact hb.turn (.work (Stream.section_settled hs))
  · exact h.turn (step_turn d (exec d ops') op i hi)

end Astrald.Services
