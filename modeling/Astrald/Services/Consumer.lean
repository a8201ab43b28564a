import Astrald.Lib.History
import Astrald.Services.Structure

/-!
# What the consumer sees

The consumer's view of a stream is the fold of the outputs written to its sink. One law
relates it to what the stream was told.

* `withdrawals_shown`: a withdrawal is written only for an offering that the consumer is
  being shown, in every run in which no negative view is accepted for a key whose available
  view is in flight while its removal is queued;
* `unseen_withdrawal`: without that condition the law fails, because `shown` answers from
  the view in flight alone.
-/

namespace Astrald.Services

open Function

/-! ## The view -/

def Event.out : Event → Option Output
  | .written out => some out
  | _ => none

def Output.apply (view : Finset OfferingKey) : Output → Finset OfferingKey
  | .view k v => if v.available then insert k view else view.erase k
  | .removed keys => view \ keys.toFinset
  | .boundary _ => view

/-- An output withdraws only what is in the view. -/
def Output.fits (view : Finset OfferingKey) : Output → Prop
  | .view k v => v.available = false → k ∈ view
  | .removed keys => ∀ k ∈ keys, k ∈ view
  | .boundary _ => True

instance (view : Finset OfferingKey) (out : Output) : Decidable (out.fits view) := by
  cases out <;> unfold Output.fits <;> infer_instance

def consumerView (log : List Event) : Finset OfferingKey :=
  (log.filterMap Event.out).foldl Output.apply ∅

/-- Every withdrawal in the history was in the view when it was written. -/
def Faithful (log : List Event) : Prop :=
  History.Always (fun pre e => ∀ out, e.out = some out → out.fits (consumerView pre)) log

theorem consumerView_append (log es : List Event) (h : ∀ e ∈ es, e.out = none) :
    consumerView (log ++ es) = consumerView log := by
  unfold consumerView
  rw [List.filterMap_append, List.filterMap_eq_nil_iff.mpr h, List.append_nil]

theorem consumerView_written (log : List Event) (out : Output) :
    consumerView (log ++ [.written out]) = out.apply (consumerView log) := by
  simp [consumerView, Event.out]

theorem Faithful.append {log es : List Event} (h : Faithful log) (hes : ∀ e ∈ es, e.out = none) :
    Faithful (log ++ es) := by
  refine History.Always.append h fun e he pre out hout => ?_
  rw [hes e he] at hout
  cases hout

theorem Faithful.written {log : List Event} {out : Output} (h : Faithful log)
    (hf : out.fits (consumerView log)) : Faithful (log ++ [.written out]) := by
  refine History.Always.snoc h fun out' hout => ?_
  cases hout
  exact hf

theorem Event.out_of_account {e : Event} (h : e.isAccount = true) : e.out = none := by
  cases e <;> first | rfl | cases h

namespace Stream

/-- The fold of what was written is the set the stream keeps. -/
structure Viewed (st : Stream) : Prop where
  tidy : st.Tidy
  view : consumerView st.log = st.visible

variable {st : Stream}

theorem Viewed.append {st' : Stream} (h : st.Viewed) (ht : st'.Tidy) {l : List Event}
    (hlog : st'.log = st.log ++ l) (hes : ∀ e ∈ l, e.out = none) (hv : st'.visible = st.visible) :
    st'.Viewed := by
  refine ⟨ht, ?_⟩
  rw [hlog, consumerView_append _ _ hes, h.view, hv]

theorem offer_log (st : Stream) (k : OfferingKey) (u : Update) :
    ∃ q, (st.offer k u).log = st.log ++ [.offered k u q] := by
  unfold Stream.offer
  split
  · exact ⟨true, rfl⟩
  · refine ⟨false, ?_⟩
    rw [drop_eq]

theorem visible_offer (st : Stream) (k : OfferingKey) (u : Update) :
    (st.offer k u).visible = st.visible := by
  unfold Stream.offer
  split
  · rfl
  · rw [drop_eq]

theorem Viewed.offer (h : st.Viewed) (k : OfferingKey) (u : Update) : (st.offer k u).Viewed := by
  obtain ⟨q, hlog⟩ := st.offer_log k u
  refine h.append (h.tidy.offer k u) hlog ?_ (st.visible_offer k u)
  simp [Event.out]

theorem retract_log (st : Stream) (k : OfferingKey) :
    (st.retract k).log = st.log ++ [.retracted k] := rfl

theorem visible_retract (st : Stream) (k : OfferingKey) : (st.retract k).visible = st.visible := by
  unfold Stream.retract
  rw [drop_eq]

theorem Viewed.retract (h : st.Viewed) (k : OfferingKey) : (st.retract k).Viewed :=
  h.append (h.tidy.retract k) (st.retract_log k) (by simp [Event.out]) (st.visible_retract k)

theorem Viewed.acct {a b : Stream} (hab : a.Acct b) (h : a.Viewed) : b.Viewed := by
  have ht := h.tidy.acct hab
  obtain ⟨o, f, r, es, rfl, hes, _⟩ := hab
  exact h.append ht rfl (fun e he => Event.out_of_account (hes e he)) rfl

theorem Viewed.finish (h : st.Viewed) (hr : st.attempt.resolved = false) : st.finish.Viewed :=
  h.append (h.tidy.finish hr) rfl (by simp [Event.out]) rfl

theorem visible_sent (st : Stream) (out : Output) : (st.sent out).visible = out.apply st.visible := by
  cases out with
  | removed keys | boundary inc => rfl
  | view k v => rw [sent_view]; rfl

theorem sent_log (st : Stream) (out : Output) : (st.sent out).log = st.log ++ [.written out] := by
  cases out <;> rfl

theorem Viewed.sent (h : st.Viewed) {out : Output} (hw : st.writer = .writing out) :
    Viewed { st.sent out with writer := .idle } := by
  refine ⟨h.tidy.sent hw, ?_⟩
  dsimp only
  rw [sent_log, visible_sent, consumerView_written, h.view]

theorem runTurn_log (st : Stream) : st.runTurn.log = st.log ∧ st.runTurn.visible = st.visible := by
  rcases st.runTurn_cases with ⟨_, he⟩ | ⟨_, _, he⟩ | ⟨_, _, _, _, _, he⟩ | ⟨_, _, _, _, _, _, _, he⟩ |
    ⟨_, he⟩ <;> rw [he] <;> exact ⟨rfl, rfl⟩

theorem Viewed.runTurn (h : st.Viewed) (hw : st.writer = .idle) : st.runTurn.Viewed := by
  refine h.append (l := []) (h.tidy.runTurn hw) ?_ (by simp) st.runTurn_log.2
  rw [List.append_nil, st.runTurn_log.1]

/-- The last view of `k` handed to the sink offers it. -/
def showing (st : Stream) (k : OfferingKey) : Bool :=
  if st.inflight = some k then st.inflightAvailable else decide (k ∈ st.visible)

/-- A view that lands does not change what is being shown. -/
theorem showing_sent_view (h : st.Tidy) {k : OfferingKey} {v : Update} (hw : st.writer = .writing (.view k v))
    (k' : OfferingKey) : showing { st.sent (.view k v) with writer := .idle } k' = st.showing k' := by
  obtain ⟨hf, hav⟩ := h.flying k v hw
  rw [sent_view]
  unfold showing
  rw [hf]
  by_cases hk : k' = k
  · subst hk
    simp only [reduceCtorEq, if_false, if_true, hav]
    cases v.available <;> simp
  · have hk' : ¬(some k = some k') := fun he => hk (Option.some.inj he).symm
    simp only [reduceCtorEq, if_false, if_neg hk']
    cases v.available <;> simp [hk]

/-! ## Withdrawals -/

/-- The withdrawals that are queued or being written are of offerings being shown. -/
structure Honest (st : Stream) : Prop where
  viewed : st.Viewed
  faithful : Faithful st.log
  removed : ∀ k ∈ st.removed, st.showing k = true
  negative : ∀ k u, st.pending k = some u → u.available = false →
    st.showing k = true ∧ k ∉ st.removed
  removing : ∀ keys, st.writer = .writing (.removed keys) → ∀ k ∈ keys, k ∈ st.visible
  flying : ∀ k v, st.writer = .writing (.view k v) → v.available = false → k ∈ st.visible

theorem showing_of_shown {k : OfferingKey} (h : st.shown k = true) : st.showing k = true := by
  unfold shown at h
  unfold showing
  split
  · rename_i hf
    rwa [if_pos hf] at h
  · rename_i hf
    rw [if_neg hf, Bool.and_eq_true] at h
    exact h.1

/-- A negative view of a key that is being removed right behind its view in flight. -/
def Overtaken (st : Stream) (k : OfferingKey) (u : Update) : Prop :=
  u.available = false ∧ st.inflight = some k ∧ st.inflightAvailable = true ∧ k ∈ st.removed

instance (st : Stream) (k : OfferingKey) (u : Update) : Decidable (st.Overtaken k u) :=
  inferInstanceAs (Decidable (_ ∧ _))

theorem Honest.offer (h : st.Honest) {k : OfferingKey} {u : Update} (hu : ¬st.Overtaken k u) :
    (st.offer k u).Honest := by
  have hv := h.viewed.offer k u
  obtain ⟨q, hlog⟩ := st.offer_log k u
  have hfaith : Faithful (st.offer k u).log := by
    rw [hlog]
    exact h.faithful.append (by simp [Event.out])
  unfold Stream.offer at hv hfaith ⊢
  split at hv
  · rename_i hacc
    rw [if_pos hacc] at hfaith ⊢
    refine ⟨hv, hfaith, h.removed, fun k' u' hp hu' => ?_, h.removing, h.flying⟩
    by_cases hk : k' = k
    · subst hk
      simp only [update_self, Option.some.injEq] at hp
      subst hp
      have hs : st.shown k' = true := by simpa [hu'] using hacc
      refine ⟨showing_of_shown hs, fun hm => ?_⟩
      unfold shown at hs
      split at hs
      · rename_i hf
        exact hu ⟨hu', hf, hs, hm⟩
      · simp [hm] at hs
    · simp only [update_of_ne hk] at hp
      exact h.negative k' u' hp hu'
  · rename_i hacc
    rw [if_neg hacc] at hfaith ⊢
    rw [drop_eq] at hv hfaith ⊢
    refine ⟨hv, hfaith, h.removed, fun k' u' hp hu' => ?_, h.removing, h.flying⟩
    by_cases hk : k' = k
    · subst hk
      simp at hp
    · simp only [update_of_ne hk] at hp
      exact h.negative k' u' hp hu'

theorem mem_removed_retract (st : Stream) (k k' : OfferingKey) :
    k' ∈ (st.retract k).removed ↔ k' ∈ st.removed ∨ k' = k ∧ st.shown k = true := by
  unfold Stream.retract
  dsimp only
  by_cases hs : st.shown k = true
  · rw [if_pos hs]
    split
    · rename_i hm
      refine ⟨Or.inl, ?_⟩
      rintro (hk | ⟨rfl, _⟩)
      · exact hk
      · exact hm
    · simp [hs]
  · rw [if_neg hs]
    simp [hs]

theorem pending_retract (st : Stream) (k : OfferingKey) :
    (st.retract k).pending = update st.pending k none := by
  unfold Stream.retract
  rw [drop_eq]

theorem showing_retract (st : Stream) (k k' : OfferingKey) : (st.retract k).showing k' = st.showing k' := by
  unfold Stream.retract showing
  rw [drop_eq]

theorem writer_retract (st : Stream) (k : OfferingKey) : (st.retract k).writer = st.writer := by
  unfold Stream.retract
  rw [drop_eq]

theorem Honest.retract (h : st.Honest) (k : OfferingKey) : (st.retract k).Honest := by
  constructor
  case viewed => exact h.viewed.retract k
  case faithful => exact h.faithful.append (by simp [Event.out])
  case removed =>
    intro k' hm
    rw [showing_retract]
    rcases (st.mem_removed_retract k k').mp hm with hm' | ⟨rfl, hs⟩
    · exact h.removed k' hm'
    · exact showing_of_shown hs
  case negative =>
    intro k' u hp hu
    rw [showing_retract, mem_removed_retract]
    rw [pending_retract] at hp
    have hk : k' ≠ k := by
      rintro rfl
      simp at hp
    rw [update_of_ne hk] at hp
    obtain ⟨hs, hnot⟩ := h.negative k' u hp hu
    exact ⟨hs, by rintro (hm | ⟨rfl, _⟩); exacts [hnot hm, hk rfl]⟩
  case removing =>
    rw [writer_retract, visible_retract]
    exact h.removing
  case flying =>
    rw [writer_retract, visible_retract]
    exact h.flying

theorem Honest.acct {a b : Stream} (hab : a.Acct b) (h : a.Honest) : b.Honest := by
  have hv := h.viewed.acct hab
  obtain ⟨o, f, r, es, rfl, hes, _⟩ := hab
  exact { h with viewed := hv, faithful := h.faithful.append fun e he => Event.out_of_account (hes e he) }

section

variable (h : st.Honest)
include h

theorem Honest.finish (hr : st.attempt.resolved = false) : st.finish.Honest :=
  { h with viewed := h.viewed.finish hr, faithful := h.faithful.append (by simp [Event.out]) }

theorem Honest.sent {out : Output} (hw : st.writer = .writing out) :
    Honest { st.sent out with writer := .idle } := by
  have hv := h.viewed.sent hw
  have hfits : out.fits (consumerView st.log) := by
    rw [h.viewed.view]
    cases out with
    | boundary inc => trivial
    | removed keys => exact h.removing keys hw
    | view k v => exact h.flying k v hw
  have hfaith : Faithful (st.sent out).log := by
    rw [sent_log]
    exact h.faithful.written hfits
  cases out with
  | boundary inc => exact ⟨hv, hfaith, h.removed, h.negative, by simp, by simp⟩
  | removed keys =>
    have hf := h.viewed.tidy.landed (by simp [hw]) (by simp [hw])
    have hin := h.viewed.tidy.removing keys hw
    have hshow : ∀ k, k ∉ keys → st.showing k = true →
        showing { st.sent (.removed keys) with writer := .idle } k = true := by
      intro k hk hs
      simp only [showing, Stream.sent, hf] at hs ⊢
      simpa [hk] using hs
    refine ⟨hv, hfaith, fun k hm => ?_, fun k u hp hu => ?_, by simp, by simp⟩
    · have hm' : k ∈ st.removed ∧ k ∉ keys := by simpa [Stream.sent] using hm
      exact hshow k hm'.2 (h.removed k hm'.1)
    · obtain ⟨hs, hnot⟩ := h.negative k u hp hu
      have hk : k ∉ keys := fun hk => hnot (hin k hk)
      exact ⟨hshow k hk hs, fun hm => hnot (List.mem_of_mem_filter hm)⟩
  | view k v =>
    have hshow := showing_sent_view h.viewed.tidy hw
    have hrem : (st.sent (.view k v)).removed = st.removed := by rw [sent_view]
    have hpend : (st.sent (.view k v)).pending = st.pending := by rw [sent_view]
    refine ⟨hv, hfaith, fun k' hm => ?_, fun k' u hp hu => ?_, by simp, by simp⟩
    · rw [hshow]
      exact h.removed k' (hrem ▸ hm)
    · rw [hshow]
      dsimp only at hp ⊢
      rw [hrem]
      exact h.negative k' u (hpend ▸ hp) hu

theorem Honest.runTurn (hw : st.writer = .idle) : st.runTurn.Honest := by
  have hv := h.viewed.runTurn hw
  have hf := h.viewed.tidy.landed (by simp [hw]) (by simp [hw])
  have hvis : ∀ k, st.showing k = true → k ∈ st.visible := by
    intro k hs
    simpa [showing, hf] using hs
  rcases st.runTurn_cases with ⟨_, he⟩ | ⟨_, _, he⟩ | ⟨_, _, _, _, _, he⟩ |
    ⟨_, hr, k, rest, v, hq, hp, he⟩ | ⟨_, he⟩
  · rw [he] at hv ⊢
    exact ⟨hv, h.faithful, h.removed, h.negative, by simp, by simp⟩
  · rw [he] at hv ⊢
    refine ⟨hv, h.faithful, h.removed, h.negative, fun keys hk k hm => ?_, by simp⟩
    cases hk
    exact hvis k (h.removed k ((List.mem_insertionSort _).mp hm))
  · rw [he] at hv ⊢
    exact ⟨hv, h.faithful, h.removed, h.negative, by simp, by simp⟩
  · rw [he] at hv ⊢
    refine ⟨hv, h.faithful, ?_, fun k' u hp' hu => ?_, by simp, fun k' v' hw' hv' => ?_⟩
    · rw [hr]
      exact fun _ hm => absurd hm List.not_mem_nil
    · by_cases hk : k' = k
      · subst hk
        simp at hp'
      · simp only [update_of_ne hk] at hp'
        obtain ⟨hs, hnot⟩ := h.negative k' u hp' hu
        refine ⟨?_, hnot⟩
        simp only [showing]
        rw [if_neg fun he => hk (Option.some.inj he).symm]
        simpa using hvis k' hs
    · cases hw'
      exact hvis k (h.negative k v hp hv').1
  · rw [he] at hv ⊢
    exact ⟨hv, h.faithful, h.removed, h.negative, by simp, by simp⟩

theorem Honest.awake (hw : st.writer = .waiting) : Honest { st with writer := .idle, wake := false } :=
  ⟨⟨h.viewed.tidy.awake hw, h.viewed.view⟩, h.faithful, h.removed, h.negative, by simp, by simp⟩

theorem Honest.wake (w : Bool) : Honest { st with wake := w } :=
  { h with viewed := ⟨h.viewed.tidy.wake w, h.viewed.view⟩ }

theorem Honest.returned : Honest { st with writer := .returned } :=
  ⟨⟨h.viewed.tidy.returned, h.viewed.view⟩, h.faithful, h.removed, h.negative, by simp, by simp⟩

theorem Honest.shut : st.shut.Honest :=
  { h with viewed := ⟨h.viewed.tidy.shut, h.viewed.view⟩, negative := by simp [Stream.shut] }

end

theorem Honest.turn {st' : Stream} {off : Option (OfferingKey × Update)} {ks : List OfferingKey}
    (ht : Turn off ks st st') (h : st.Honest) (hoff : ∀ k u, off = some (k, u) → ¬st.Overtaken k u) :
    st'.Honest :=
  ht.invariant h (fun k u he _ => h.offer (hoff k u he)) (fun _ _ hab ha => ha.acct hab)
    (fun _ _ hr _ ha => ha.finish hr) (fun _ k _ _ ha => ha.retract k) (fun _ w ha => ha.wake w)
    h.runTurn h.awake (fun _ hw => h.sent hw) (fun _ ha => ha.shut) (fun _ _ ha => ha.returned)

variable (caller : String) (services : Finset String) (follow : Bool)

theorem Viewed.bare : Viewed { caller, services, follow } :=
  ⟨.bare caller services follow, rfl⟩

theorem Honest.bare : Honest { caller, services, follow } := by
  refine ⟨.bare caller services follow, History.always_nil, ?_, ?_, by simp, by simp⟩
  · simp
  · simp

end Stream

def Op.isLocal : Op → Bool
  | .discover _ _ _ members => members.isEmpty
  | _ => true

namespace Coordinator

/-- The operation offers no stream a negative view of a key whose available view is in
flight while a removal of it is queued. -/
def OffersInTurn (c : Coordinator) (op : Op) : Prop :=
  ∀ i < c.nStreams, ∀ p ∈ c.offerOf op i, ¬(c.streams i).Overtaken p.1 p.2

instance (c : Coordinator) (op : Op) : Decidable (c.OffersInTurn op) :=
  inferInstanceAs (Decidable (∀ i < _, _))

theorem honest_exec (d : Draws) (ops : List Op) (h : Along d OffersInTurn ops) :
    ∀ i, i < (exec d ops).nStreams → ((exec d ops).streams i).Honest := by
  refine stream_exec d ops (fun caller services follow st hs => ?_) fun op ops' i hsuf hi hh => ?_
  · exact (Stream.Honest.bare caller services follow).turn (.work (Stream.section_settled hs)) (by simp)
  · exact hh.turn (step_turn d (exec d ops') op i hi) fun k u he => h.at_step hsuf i hi (k, u) he

/-- **Withdrawals.** Everything withdrawn from a consumer was in its view. -/
theorem withdrawals_shown (d : Draws) (ops : List Op) (h : Along d OffersInTurn ops) (i : ℕ)
    (hi : i < (exec d ops).nStreams) (pre post : List Event) (out : Output)
    (hlog : ((exec d ops).streams i).log = pre ++ .written out :: post) :
    out.fits (consumerView pre) :=
  (honest_exec d ops h i hi).faithful pre (.written out) post hlog out rfl

/-- A provider answers, closes once the consumer has its view, and comes back with a
negative answer. Latest first. -/
def closedInTime : List Op :=
  [.answer 1 ⟨1, some (playerUpdate false "b")⟩, .wrote 0, .run 0, .register "p" ["player"] [0],
    .closeSource 0, .wrote 0, .run 0, .answer 0 ⟨1, some (playerUpdate true "a")⟩,
    .discover "c" ["player"] true [], .register "p" ["player"] []]

theorem withdrawals_shown_closedInTime :
    Output.fits (consumerView (((exec countingDraws closedInTime).streams 0).log.take 5))
      (.removed [keyOf "p" "player"]) :=
  withdrawals_shown countingDraws closedInTime (by decide) 0 (by decide) _
    (((exec countingDraws closedInTime).streams 0).log.drop 6) _ (by decide)

/-- The same provider, but its first view is still in flight when it closes and when the
negative answer arrives; then the writer writes everything. Latest first. -/
def closedInFlight : List Op :=
  [.wrote 0, .run 0, .wrote 0, .run 0, .wrote 0, .run 0, .wrote 0,
    .answer 1 ⟨1, some (playerUpdate false "b")⟩, .register "p" ["player"] [0], .closeSource 0, .run 0,
    .answer 0 ⟨1, some (playerUpdate true "a")⟩, .discover "c" ["player"] true [],
    .register "p" ["player"] []]

/-- `shown` answers from the view in flight and does not see the removal queued behind it,
so the negative view is accepted; it is written after the removal, for a key the consumer
is no longer shown. -/
theorem unseen_withdrawal :
    (∀ op ∈ closedInFlight, op.isLocal) ∧ 0 < (exec countingDraws closedInFlight).nStreams ∧
    ∃ pre out, ((exec countingDraws closedInFlight).streams 0).log = pre ++ [.written out] ∧
      ¬out.fits (consumerView pre) :=
  ⟨by decide, by decide, ((exec countingDraws closedInFlight).streams 0).log.dropLast,
    .view (keyOf "p" "player") { playerUpdate false "b" with providerID := some "p" },
    by decide, by decide⟩

end Coordinator

end Astrald.Services
