import Astrald.Lib.Fold
import Astrald.Services.Run
import Astrald.Services.Slots

/-!
# What one lock section does to one stream

Every operation of the coordinator acts on a stream in one of six ways (`Turn`). Apart
from the writer's own steps and from closing, it is a `Section`: at most one view is
offered, obligations are accounted for, the attempt may finish, and some offerings are
retracted. `offerOf` and `retractsOf` say which view and which offerings, from the
operation and the state before it.

* `step_turn`: every operation acts on every existing stream by a `Turn` with exactly
  that offer and those retractions;
* `streams_discoverSwarm`: a stream that did not exist is accounting away from a bare one.

All laws about streams are proved over `Turn`; no later proof unfolds an operation.
-/

namespace Astrald.Services

open Function

/-! ## Accounting -/

def Event.isAccount : Event → Bool
  | .ended _ _ | .failed _ _ | .expired _ _ => true
  | _ => false

/-- The event puts a service on the attempt's failed list. -/
def Event.fails : Event → Option String
  | .failed _ service | .expired _ service => some service
  | _ => none

namespace Stream

/-- Obligations were opened, ended or forgotten: nothing the consumer sees changes. -/
def Acct (st st' : Stream) : Prop :=
  ∃ opened failed remotes es,
    st' = { st with attempt := { st.attempt with opened, failed }, remotes, log := st.log ++ es } ∧
    (∀ e ∈ es, e.isAccount = true) ∧
    ∀ x, x ∈ failed ↔ x ∈ st.attempt.failed ∨ ∃ e ∈ es, e.fails = some x

variable (st : Stream) {a b : Stream} (o : ℕ)

theorem Acct.refl : st.Acct st :=
  ⟨st.attempt.opened, st.attempt.failed, st.remotes, [], by simp, by simp, by simp⟩

theorem Acct.trans {c : Stream} (hab : a.Acct b) (hbc : b.Acct c) : a.Acct c := by
  obtain ⟨o₁, f₁, r₁, es₁, rfl, he₁, hf₁⟩ := hab
  obtain ⟨o₂, f₂, r₂, es₂, rfl, he₂, hf₂⟩ := hbc
  refine ⟨o₂, f₂, r₂, es₁ ++ es₂, by simp, ?_, ?_⟩
  · intro e he
    rcases List.mem_append.mp he with he | he
    · exact he₁ e he
    · exact he₂ e he
  · intro x
    rw [hf₂]
    simp only [hf₁, List.mem_append]
    constructor
    · rintro ((h | ⟨e, he, hx⟩) | ⟨e, he, hx⟩)
      · exact .inl h
      · exact .inr ⟨e, .inl he, hx⟩
      · exact .inr ⟨e, .inr he, hx⟩
    · rintro (h | ⟨e, he | he, hx⟩)
      · exact .inl (.inl h)
      · exact .inl (.inr ⟨e, he, hx⟩)
      · exact .inr ⟨e, he, hx⟩

theorem acct_deleteOpen : st.Acct (st.deleteOpen o) :=
  ⟨st.attempt.opened.erase o, st.attempt.failed, st.remotes, [], by simp [deleteOpen], by simp,
    by simp⟩

theorem acct_ended (service : String) : st.Acct (st.record (.ended o service)) :=
  ⟨st.attempt.opened, st.attempt.failed, st.remotes, [.ended o service], by simp [record],
    by simp [Event.isAccount], by simp [Event.fails]⟩

theorem acct_failed (service : String) : st.Acct ((st.record (.failed o service)).markFailed service) :=
  ⟨st.attempt.opened, st.attempt.failed.insert service, st.remotes, [.failed o service],
    by simp [record, markFailed], by simp [Event.isAccount], by
      intro x
      simp [Event.fails, or_comm, eq_comm]⟩

theorem acct_expired (service : String) : st.Acct ((st.record (.expired o service)).markFailed service) :=
  ⟨st.attempt.opened, st.attempt.failed.insert service, st.remotes, [.expired o service],
    by simp [record, markFailed], by simp [Event.isAccount], by
      intro x
      simp [Event.fails, or_comm, eq_comm]⟩

theorem acct_opened : st.Acct { st with attempt := { st.attempt with opened := st.attempt.opened ++ [o] } } :=
  ⟨st.attempt.opened ++ [o], st.attempt.failed, st.remotes, [], by simp, by simp, by simp⟩

theorem acct_remotes (rs : List ℕ) : st.Acct { st with remotes := rs } :=
  ⟨st.attempt.opened, st.attempt.failed, rs, [], by simp, by simp, by simp⟩

/-! ## Sections and turns -/

def offer? (st : Stream) : Option (OfferingKey × Update) → Stream
  | none => st
  | some (k, u) => st.offer k u

def retractAll (st : Stream) (ks : List OfferingKey) : Stream := ks.foldl retract st

/-- Accounting around an optional `finish`. -/
def Settled (st st' : Stream) : Prop :=
  st.Acct st' ∨ ∃ a, st.Acct a ∧ a.attempt.resolved = false ∧ a.finish.Acct st'

/-- At most one offer, accounting with an optional `finish`, and retractions. -/
def Section (off : Option (OfferingKey × Update)) (ks : List OfferingKey) (st st' : Stream) : Prop :=
  (st.closed = true → off = none ∧ ks = []) ∧
    ∃ b w, (st.offer? off).Settled b ∧ st' = { b.retractAll ks with wake := w }

inductive Turn (off : Option (OfferingKey × Update)) (ks : List OfferingKey) : Stream → Stream → Prop
  | work {st st' : Stream} : Section off ks st st' → Turn off ks st st'
  | run {st : Stream} : off = none → ks = [] → st.writer = .idle → Turn off ks st st.runTurn
  | awake {st : Stream} : off = none → ks = [] → st.writer = .waiting →
      Turn off ks st { st with writer := .idle, wake := false }
  | wrote {st : Stream} {out : Output} : off = none → ks = [] → st.writer = .writing out →
      Turn off ks st { st.sent out with writer := .idle }
  | last {st a : Stream} {inc : Option (List String)} : off = none → ks = [] →
      st.writer = .writing (.boundary inc) → st.follow = false → st.closed = false →
      Acct { st.sent (.boundary inc) with writer := .idle } a →
      Turn off ks st { a.shut with writer := .returned }
  | close {st a : Stream} : off = none → ks = [] → st.closed = false → st.Acct a →
      Turn off ks st a.shut
  | abort {st a : Stream} {out : Output} : off = none → ks = [] → st.writer = .writing out →
      st.closed = false → st.Acct a → Turn off ks st { a.shut with writer := .returned }
  | stop {st : Stream} {out : Output} : off = none → ks = [] → st.writer = .writing out →
      st.closed = true → Turn off ks st { st with writer := .returned }
  | lastClosed {st : Stream} {inc : Option (List String)} : off = none → ks = [] →
      st.writer = .writing (.boundary inc) → st.closed = true →
      Turn off ks st { st.sent (.boundary inc) with writer := .returned }

/-- What one turn of the writer does up to its sink call. -/
theorem runTurn_cases :
    (st.closed = true ∧ st.runTurn = { st with writer := .returned }) ∨
    (st.closed = false ∧ st.removed ≠ [] ∧ st.runTurn =
      { st with writer := .writing (.removed (st.removed.insertionSort (keyLE · ·))) }) ∨
    (st.closed = false ∧ st.removed = [] ∧ st.attemptNil = false ∧ st.attempt.resolved = true ∧
      st.attempt.owed.getD ∅ = ∅ ∧
      st.runTurn = { st with writer := .writing (.boundary (incomplete st.attempt)) }) ∨
    (st.closed = false ∧ st.removed = [] ∧ ∃ k rest v, st.queue = k :: rest ∧ st.pending k = some v ∧
      st.runTurn =
        { st with
          queue := rest
          pending := update st.pending k none
          inflight := some k
          inflightAvailable := v.available
          writer := .writing (.view k v) }) ∨
    (st.closed = false ∧ st.runTurn = { st with writer := .waiting }) := by
  unfold runTurn
  by_cases hc : st.closed = true
  · exact .inl ⟨hc, if_pos hc⟩
  · rw [if_neg hc]
    have hc' : st.closed = false := Bool.eq_false_iff.mpr hc
    refine .inr ?_
    by_cases hr : st.removed = []
    · refine .inr ?_
      by_cases hb : st.attemptNil = false ∧ st.attempt.resolved = true ∧ st.attempt.owed.getD ∅ = ∅
      · have hn : st.next = (st, some (.boundary (incomplete st.attempt))) := by
          rw [next, if_neg (not_not.mpr hr), if_pos (by simp [hb.1, hb.2.1, hb.2.2])]
        rw [hn]
        exact .inl ⟨hc', hr, hb.1, hb.2.1, hb.2.2, rfl⟩
      · refine .inr ?_
        have hview : st.next = (st, none) ∨ ∃ k rest v, st.queue = k :: rest ∧ st.pending k = some v ∧
            st.next = ({ st with
              queue := rest
              pending := update st.pending k none
              inflight := some k
              inflightAvailable := v.available }, some (.view k v)) := by
          rw [next, if_neg (not_not.mpr hr), if_neg (by simpa [and_assoc] using hb)]
          split
          · exact .inl rfl
          · rename_i k rest hq
            split
            · exact .inl rfl
            · rename_i v hp
              exact .inr ⟨k, rest, v, hq, hp, rfl⟩
        rcases hview with hn | ⟨k, rest, v, hq, hp, hn⟩
        · rw [hn]
          exact .inr ⟨hc', rfl⟩
        · rw [hn]
          exact .inl ⟨hc', hr, k, rest, v, hq, hp, rfl⟩
    · rw [next, if_pos hr]
      exact .inl ⟨hc', hr, rfl⟩

theorem Settled.refl : st.Settled st := .inl (.refl st)

theorem Settled.acct {c : Stream} (h : a.Settled b) (hbc : b.Acct c) : a.Settled c := by
  rcases h with h | ⟨m, hm, hr, h⟩
  · exact .inl (h.trans hbc)
  · exact .inr ⟨m, hm, hr, h.trans hbc⟩

theorem Acct.resolved (h : a.Acct b) : b.attempt.resolved = a.attempt.resolved := by
  obtain ⟨o, f, r, es, rfl, _, _⟩ := h
  rfl

/-- A later `finish` composes when the attempt had not finished before. -/
theorem Settled.finish (h : a.Settled b) (hr : b.attempt.resolved = false) : a.Settled b.finish := by
  rcases h with h | ⟨m, _, _, h⟩
  · exact .inr ⟨b, h, hr, .refl _⟩
  · rw [h.resolved] at hr
    exact absurd hr (by simp [Stream.finish])

/-- The attempt finishes at most once, so settling composes. -/
theorem Settled.trans {c : Stream} (hab : a.Settled b) (hbc : b.Settled c) : a.Settled c := by
  rcases hbc with hbc | ⟨m, hm, hr, hbc⟩
  · exact hab.acct hbc
  · exact ((hab.acct hm).finish hr).acct hbc

theorem Settled.frame (h : a.Settled b) :
    b.caller = a.caller ∧ b.services = a.services ∧ b.follow = a.follow ∧ b.closed = a.closed ∧
      b.writer = a.writer := by
  rcases h with ⟨o, f, r, es, rfl, _, _⟩ | ⟨m, ⟨o, f, r, es, rfl, _, _⟩, _, o', f', r', es', rfl, _, _⟩ <;>
    exact ⟨rfl, rfl, rfl, rfl, rfl⟩

theorem section_none : Section none [] st st :=
  ⟨fun _ => ⟨rfl, rfl⟩, st, st.wake, .refl st, rfl⟩

theorem section_settled {st st' : Stream} (h : st.Settled st') : Section none [] st st' :=
  ⟨fun _ => ⟨rfl, rfl⟩, st', st'.wake, h, rfl⟩

end Stream

namespace Coordinator

open Services.Stream

/-! ## What the primitives do to the streams -/

variable (c : Coordinator) (d : Draws) (i : ℕ) (l : List ℕ) {f : Stream → Stream} (s : ℕ) (o : ℕ) (r : ℕ)
  (j : ℕ) (ck : String)

@[simp] theorem streams_modSource (f : Source → Source) : (c.modSource s f).streams = c.streams := rfl

@[simp] theorem sources_modSource_self (f : Source → Source) :
    (c.modSource s f).sources s = f (c.sources s) := update_self ..

@[simp] theorem sources_modSource_of_ne {s t : ℕ} (h : t ≠ s) (f : Source → Source) :
    (c.modSource s f).sources t = c.sources t := update_of_ne h ..

@[simp] theorem streams_modRemote (f : Remote → Remote) : (c.modRemote r f).streams = c.streams := rfl

@[simp] theorem streams_modStream (f : Stream → Stream) :
    (c.modStream i f).streams = update c.streams i (f (c.streams i)) := rfl

theorem streams_modStream_self (f : Stream → Stream) :
    (c.modStream i f).streams i = f (c.streams i) := update_self ..

theorem streams_modStream_of_ne {i j : ℕ} (h : j ≠ i) (f : Stream → Stream) :
    (c.modStream i f).streams j = c.streams j := update_of_ne h ..

@[simp] theorem streams_schedule (c : Coordinator) (s : ℕ) (ck : String) :
    (c.schedule d s ck).streams = c.streams := by
  unfold schedule
  split <;> rfl

@[simp] theorem streams_unlink : (c.unlink o).streams = c.streams := by
  unfold unlink
  dsimp only
  split <;> rfl

/-- A change to one stream that is accounting is accounting on every stream. -/
theorem acct_modStream (h : ∀ st, Acct st (f st)) (j : ℕ) :
    (c.streams j).Acct ((c.modStream i f).streams j) := by
  by_cases hj : j = i
  · subst hj
    simpa using h (c.streams j)
  · simpa [hj] using Acct.refl (c.streams j)

theorem acct_detach : (c.streams j).Acct ((c.detach o).streams j) := by
  have h := acct_modStream (c.unlink o) (c.obligations o).st (acct_deleteOpen · o) j
  rw [streams_unlink] at h
  exact h

theorem acct_detachCollect : (c.streams j).Acct ((c.detachCollect o).streams j) := by
  unfold detachCollect
  split
  · exact acct_detach c o j
  · exact acct_detach c o j

theorem acct_expire : (c.streams j).Acct ((c.expire o).streams j) :=
  (acct_modStream c _ (acct_expired · o (c.obligations o).service) j).trans
    (acct_detachCollect _ o j)

theorem settled_settle : (c.streams j).Settled ((c.settle i).streams j) := by
  unfold settle
  split
  · rename_i h
    by_cases hj : j = i
    · subst hj
      simpa using (Settled.refl (c.streams j)).finish h.2
    · simpa [hj] using Settled.refl (c.streams j)
  · exact .refl _

theorem settled_endObligation : (c.streams j).Settled ((c.endObligation o).streams j) := by
  unfold endObligation
  split
  · have h := (acct_modStream c (c.obligations o).st
      (acct_ended · o (c.obligations o).service) j).trans (acct_detach _ o j)
    exact Settled.trans (.inl h) (settled_settle _ _ j)
  · exact .refl _

theorem settled_fail : (c.streams j).Settled ((c.fail o).streams j) := by
  unfold fail
  split
  · have h := (acct_modStream c (c.obligations o).st
      (acct_failed · o (c.obligations o).service) j).trans (acct_detach _ o j)
    exact Settled.trans (.inl h) (settled_settle _ _ j)
  · exact .refl _

/-! ## What accounting leaves alone -/

structure SameIndex (c c' : Coordinator) : Prop where
  owners : c'.owners = c.owners
  byName : c'.byName = c.byName
  byCaller : c'.byCaller = c.byCaller
  nSources : c'.nSources = c.nSources
  nStreams : c'.nStreams = c.nStreams

theorem SameIndex.trans {a b c : Coordinator} (h : SameIndex a b) (h' : SameIndex b c) : SameIndex a c :=
  ⟨h'.owners.trans h.owners, h'.byName.trans h.byName, h'.byCaller.trans h.byCaller,
    h'.nSources.trans h.nSources, h'.nStreams.trans h.nStreams⟩

/-- Ending obligations changes neither the indexes nor the tables' sizes, nor anything of a
source or a member but the obligations they hold. -/
structure Frame (c c' : Coordinator) : Prop extends SameIndex c c' where
  nRemotes : c'.nRemotes = c.nRemotes
  nObligations : c'.nObligations = c.nObligations
  obligations : c'.obligations = c.obligations
  source : ∀ s, (c.sources s).Same (c'.sources s)
  remote : ∀ r, (c'.remotes r).st = (c.remotes r).st ∧ (c'.remotes r).keys = (c.remotes r).keys

theorem Frame.refl : Frame c c :=
  ⟨⟨rfl, rfl, rfl, rfl, rfl⟩, rfl, rfl, rfl, fun _ => .refl _, fun _ => ⟨rfl, rfl⟩⟩

theorem Frame.trans {a b c : Coordinator} (h : Frame a b) (h' : Frame b c) : Frame a c where
  toSameIndex := h.toSameIndex.trans h'.toSameIndex
  nRemotes := h'.nRemotes.trans h.nRemotes
  nObligations := h'.nObligations.trans h.nObligations
  obligations := h'.obligations.trans h.obligations
  source s := (h.source s).trans (h'.source s)
  remote r := ⟨(h'.remote r).1.trans (h.remote r).1, (h'.remote r).2.trans (h.remote r).2⟩

theorem frame_modStream (f : Stream → Stream) : Frame c (c.modStream i f) :=
  ⟨⟨rfl, rfl, rfl, rfl, rfl⟩, rfl, rfl, rfl, fun _ => .refl _, fun _ => ⟨rfl, rfl⟩⟩

theorem frame_modSource (f : Source → Source) (h : ∀ src : Source, src.Same (f src)) :
    Frame c (c.modSource s f) := by
  refine ⟨⟨rfl, rfl, rfl, rfl, rfl⟩, rfl, rfl, rfl, fun t => ?_, fun _ => ⟨rfl, rfl⟩⟩
  by_cases ht : t = s
  · subst ht
    simpa [modSource] using h (c.sources t)
  · simpa [modSource, ht] using Source.Same.refl (c.sources t)

theorem frame_modRemote (f : Remote → Remote) (h : ∀ rm : Remote, (f rm).st = rm.st ∧ (f rm).keys = rm.keys) :
    Frame c (c.modRemote r f) := by
  refine ⟨⟨rfl, rfl, rfl, rfl, rfl⟩, rfl, rfl, rfl, fun _ => .refl _, fun r' => ?_⟩
  by_cases hr : r' = r
  · subst hr
    simpa [modRemote] using h (c.remotes r')
  · simp [modRemote, hr]

theorem frame_collect : Frame c (c.collect s ck) :=
  frame_modSource c s _ (Source.same_collect · ck)

theorem frame_unlink : Frame c (c.unlink o) := by
  unfold unlink
  dsimp only
  split
  · exact frame_modRemote c _ _ fun _ => ⟨rfl, rfl⟩
  · exact frame_modSource c _ _ fun src => src.same_setObls _ _
  · exact frame_modSource c _ _ fun src => src.same_modifySlot _ _

theorem frame_detach : Frame c (c.detach o) :=
  (frame_unlink c o).trans (frame_modStream _ _ _)

theorem frame_detachCollect : Frame c (c.detachCollect o) := by
  unfold detachCollect
  split
  · exact frame_detach c o
  · exact (frame_detach c o).trans (frame_collect _ _ _)

theorem frame_expire : Frame c (c.expire o) :=
  (frame_modStream c _ _).trans (frame_detachCollect _ o)

theorem frame_settle : Frame c (c.settle i) := by
  unfold settle
  split
  · exact frame_modStream c i _
  · exact .refl c

theorem frame_endObligation : Frame c (c.endObligation o) := by
  refine Trace.when_keeps (.refl c) fun _ => ?_
  exact ((frame_modStream c _ _).trans (frame_detach _ o)).trans (frame_settle _ _)

theorem frame_fail : Frame c (c.fail o) := by
  unfold fail
  split
  · exact ((frame_modStream c _ _).trans (frame_detach _ o)).trans (frame_settle _ _)
  · exact .refl c

/-! ## What an operation offers and retracts -/

/-- `s` takes the answer: it is open, the request is outstanding and the update fits it. -/
def accepts (c : Coordinator) (s : ℕ) (a : Answer) : Bool :=
  decide (s < c.nSources) && !(c.sources s).closed && decide (a.requestID ∈ (c.sources s).pending) &&
    acceptable (c.sources s) ((c.sources s).reqs a.requestID) a

def sourceCloses (c : Coordinator) : Op → Option ℕ
  | .closeSource s => if s < c.nSources ∧ (c.sources s).closed = false then some s else none
  | .sendFailed s =>
    match (c.sources s).sender with
    | .sending _ => if s < c.nSources ∧ (c.sources s).closed = false then some s else none
    | _ => none
  | .answer s a =>
    if s < c.nSources ∧ (c.sources s).closed = false ∧ a.requestID ∈ (c.sources s).pending ∧
        acceptable (c.sources s) ((c.sources s).reqs a.requestID) a = false then some s
    else none
  | .change s ch order =>
    if s < c.nSources ∧ order.isPerm c.callers ∧ (c.sources s).closed = false ∧ ch.valid = false then
      some s
    else none
  | _ => none

/-- The view an operation offers to stream `i`. -/
def offerOf (c : Coordinator) (op : Op) (i : ℕ) : Option (OfferingKey × Update) :=
  match op with
  | .answer s a =>
    let req := (c.sources s).reqs a.requestID
    let provider := (c.sources s).provider
    if c.accepts s a && c.delivers req i then
      a.update.map fun u => (keyOf provider req.service, { u with providerID := some provider })
    else none
  | .remoteOffer r u =>
    if r < c.nRemotes ∧ (c.remotes r).st = i ∧ (c.streams i).closed = false ∧
        u.name ∈ (c.streams i).services then
      u.providerID.map fun provider => (keyOf provider u.name, u)
    else none
  | _ => none

/-- What a source that closes takes from stream `i`. -/
def lostKeys (c : Coordinator) (s i : ℕ) : List OfferingKey :=
  if c.enrolled i ∧ (c.streams i).closed = false then
    ((c.sources s).names.filter (· ∈ (c.streams i).services)).map (keyOf (c.sources s).provider)
  else []

/-- The keys of `keys`, each once, that a member holding `held` contributed. -/
def contributed (held : List OfferingKey) : List OfferingKey → List OfferingKey
  | [] => []
  | k :: keys =>
    if k ∈ held then k :: contributed (held.filter (· ≠ k)) keys else contributed held keys

/-- The keys an operation retracts from stream `i`. -/
def retractsOf (c : Coordinator) (op : Op) (i : ℕ) : List OfferingKey :=
  match op with
  | .remoteRemove r keys =>
    if r < c.nRemotes ∧ (c.remotes r).st = i ∧ (c.streams i).closed = false then
      contributed (c.remotes r).keys keys
    else []
  | .remoteLost r =>
    if r < c.nRemotes ∧ (c.remotes r).st = i ∧ (c.streams i).closed = false then (c.remotes r).keys
    else []
  | op =>
    match c.sourceCloses op with
    | some s => c.lostKeys s i
    | none => []

/-! ## Closing a source -/

/-- The stages of `closeSource`: the mark, the outstanding requests, the retained work. -/
def markClosed (c : Coordinator) (s : ℕ) : Coordinator :=
  c.modSource s fun src => { src with closed := true }

def failAsked (c : Coordinator) (s : ℕ) : Coordinator :=
  ((askedObligations (c.sources s)).foldl fail c).modSource s fun src => { src with pending := [] }

def failWaiting (c : Coordinator) (s : ℕ) : Coordinator :=
  ((waitingObligations (c.sources s)).foldl fail c).modSource s fun src => { src with slots := ∅ }

/-- `closeSource` before it releases the offerings. -/
def failSource (c : Coordinator) (s : ℕ) : Coordinator := ((c.markClosed s).failAsked s).failWaiting s

theorem closeSource_eq : c.closeSource s = (c.failSource s).releaseSource s := rfl

theorem settled_fails (c : Coordinator) (j : ℕ) : (c.streams j).Settled ((l.foldl fail c).streams j) :=
  Fold.foldl_rel (R := fun a b => (a.streams j).Settled (b.streams j)) (fun a => .refl (a.streams j))
    (fun h h' => h.trans h') (fun a o => settled_fail a o j) l c

theorem settled_failSource : (c.streams j).Settled ((c.failSource s).streams j) :=
  Settled.trans (settled_fails _ (c.markClosed s) j) (settled_fails _ ((c.markClosed s).failAsked s) j)

theorem frame_fails (c : Coordinator) : Frame c (l.foldl fail c) :=
  Fold.foldl_rel Frame.refl Frame.trans frame_fail l c

/-- The streams' index and what the sources offer are the same. -/
structure Offers (c c' : Coordinator) : Prop where
  byCaller : c'.byCaller = c.byCaller
  provider : ∀ s, (c'.sources s).provider = (c.sources s).provider
  names : ∀ s, (c'.sources s).names = (c.sources s).names

theorem Offers.trans {a b c : Coordinator} (h : Offers a b) (h' : Offers b c) : Offers a c where
  byCaller := h'.byCaller.trans h.byCaller
  provider s := (h'.provider s).trans (h.provider s)
  names s := (h'.names s).trans (h.names s)

theorem Frame.offers {c c' : Coordinator} (h : Frame c c') : Offers c c' :=
  ⟨h.byCaller, fun s => (h.source s).provider, fun s => (h.source s).names⟩

theorem offers_modSource (f : Source → Source) (hp : ∀ src, (f src).provider = src.provider)
    (hn : ∀ src, (f src).names = src.names) : Offers c (c.modSource s f) := by
  constructor
  case byCaller => rfl
  all_goals
    intro t
    by_cases ht : t = s
    · subst ht
      simp [modSource, hp, hn]
    · simp [modSource, ht]

theorem offers_failSource : Offers c (c.failSource s) := by
  have h₁ : Offers c (c.markClosed s) := offers_modSource c s _ (fun _ => rfl) fun _ => rfl
  have h₂ : Offers (c.markClosed s) ((c.markClosed s).failAsked s) :=
    (frame_fails _ _).offers.trans (offers_modSource _ s _ (fun _ => rfl) fun _ => rfl)
  have h₃ : Offers ((c.markClosed s).failAsked s) (((c.markClosed s).failAsked s).failWaiting s) :=
    (frame_fails _ _).offers.trans (offers_modSource _ s _ (fun _ => rfl) fun _ => rfl)
  exact (h₁.trans h₂).trans h₃

theorem lose_eq (st : Stream) (provider : String) (names : List String) (h : st.closed = false) :
    st.lose provider names =
      { st.retractAll ((names.filter (· ∈ st.services)).map (keyOf provider)) with wake := true } := by
  unfold lose retractAll
  rw [if_neg (by simp [h]), List.foldl_map]

theorem section_closeSource :
    Section none (c.lostKeys s j) (c.streams j) ((c.closeSource s).streams j) := by
  have hs := settled_failSource c s j
  obtain ⟨hcaller, hserv, _, hclosed, _⟩ := hs.frame
  have ho := offers_failSource c s
  have hen : (c.failSource s).enrolled j ↔ c.enrolled j := by
    unfold enrolled
    rw [ho.byCaller, hcaller]
  have hval : (c.closeSource s).streams j = if (c.failSource s).enrolled j then
        ((c.failSource s).streams j).lose (c.sources s).provider (c.sources s).names
      else (c.failSource s).streams j := by
    rw [closeSource_eq, ← ho.provider s, ← ho.names s]
    rfl
  rw [hval]
  by_cases he : c.enrolled j
  · rw [if_pos (hen.mpr he)]
    cases hc : (c.streams j).closed with
    | true =>
      have hk : c.lostKeys s j = [] := by simp [lostKeys, hc]
      rw [hk, lose, if_pos (hclosed.trans hc)]
      exact section_settled hs
    | false =>
      have hk : c.lostKeys s j =
          ((c.sources s).names.filter (· ∈ (c.streams j).services)).map (keyOf (c.sources s).provider) := by
        simp [lostKeys, hc, he]
      rw [hk, lose_eq _ _ _ (hclosed.trans hc), hserv]
      exact ⟨fun h => absurd (hc.symm.trans h) Bool.false_ne_true, _, true, hs, rfl⟩
  · have hk : c.lostKeys s j = [] := by simp [lostKeys, he]
    rw [if_neg (fun h => he (hen.mp h)), hk]
    exact section_settled hs

/-! ## The other operations -/

theorem section_closeOnce :
    Section none (if (c.sources s).closed = false then c.lostKeys s j else []) (c.streams j)
      ((c.closeOnce s).streams j) := by
  unfold closeOnce
  cases hc : (c.sources s).closed with
  | true => simpa using section_none (c.streams j)
  | false => simpa using section_closeSource c s j

section

variable (c : Coordinator)

theorem streams_refreshName (name : String) : (refreshName d s ck c name).streams = c.streams := by
  simp [refreshName]

theorem streams_followDirty (i : ℕ) : (followDirty d s c i).streams = c.streams := by
  unfold followDirty
  split
  · exact Fold.foldl_eq streams (streams_refreshName d s _) _ c
  · rfl

theorem streams_register (provider : String) (names : List String) (order : List ℕ) :
    (c.register d provider names order).1.streams = c.streams := by
  unfold register
  dsimp only
  split
  · rfl
  · exact Fold.foldl_eq streams (streams_followDirty d _) order _

theorem streams_refresh (ck : String) : (refresh d s c ck).streams = c.streams := by
  unfold refresh
  dsimp only
  split
  · rfl
  · simp

theorem section_change (s : ℕ) (ch : Change) (order : List String) (j : ℕ) :
    Section none (if (c.sources s).closed = false ∧ ch.valid = false then c.lostKeys s j else [])
      (c.streams j) ((c.change d s ch order).1.streams j) := by
  unfold change
  cases hc : (c.sources s).closed with
  | true => simpa using section_none (c.streams j)
  | false =>
    cases hv : ch.valid with
    | false => simpa using section_closeSource c s j
    | true =>
      have h : ((c.audience ch order).foldl (refresh d s) c).streams = c.streams :=
        Fold.foldl_eq streams (streams_refresh d s) _ c
      simpa [h] using section_none (c.streams j)

theorem settled_ends (j : ℕ) : (c.streams j).Settled ((l.foldl endObligation c).streams j) :=
  Fold.foldl_rel (R := fun a b => (a.streams j).Settled (b.streams j)) (fun a => .refl (a.streams j))
    (fun h h' => h.trans h') (fun a o => settled_endObligation a o j) l c

end

theorem streams_deliver (req : Request) (u : Update) (j : ℕ) :
    (c.deliver s req u).streams j = (c.streams j).offer? (if c.delivers req j then
      some (keyOf (c.sources s).provider req.service, u) else none) := by
  unfold deliver
  dsimp only
  split <;> rfl

theorem section_answer (c : Coordinator) (s : ℕ) (a : Answer) (hs : s < c.nSources) (j : ℕ) :
    Section (c.offerOf (.answer s a) j) (c.retractsOf (.answer s a) j) (c.streams j)
      ((c.answer d s a).1.streams j) := by
  unfold answer
  simp only [offerOf, retractsOf, sourceCloses, accepts, hs]
  cases hc : (c.sources s).closed with
  | true => simpa using section_none (c.streams j)
  | false =>
    by_cases hp : a.requestID ∈ (c.sources s).pending
    · simp only [Bool.false_or, hp, not_true_eq_false, decide_false, Bool.false_eq_true, ↓reduceIte]
      cases hu : a.update with
      | none =>
        have hacc : acceptable (c.sources s) ((c.sources s).reqs a.requestID) a = false := by
          simp [acceptable, hu]
        simpa [hacc] using section_closeSource c s j
      | some upd =>
        cases hacc : acceptable (c.sources s) ((c.sources s).reqs a.requestID) a with
        | false => simpa using section_closeSource c s j
        | true =>
          -- the answer is delivered, then the obligations of its request end
          have hprov : ((c.modSource s (·.retire a.requestID)).sources s).provider =
              (c.sources s).provider := by
            rw [sources_modSource_self]
            exact ((c.sources s).same_modifySlot _ _).provider
          have hdel : (c.modSource s (·.retire a.requestID)).delivers
              ((c.sources s).reqs a.requestID) j = c.delivers ((c.sources s).reqs a.requestID) j := rfl
          have h := settled_ends ((c.sources s).reqs a.requestID).obls
            ((c.modSource s (·.retire a.requestID)).deliver s ((c.sources s).reqs a.requestID)
              { upd with providerID := some (c.sources s).provider }) j
          rw [streams_deliver, hprov, hdel, streams_modSource] at h
          simp only [Bool.not_true, Bool.false_eq_true, ↓reduceIte, streams_schedule]
          refine ⟨?_, _, wake _, ?_, rfl⟩
          · intro hcl
            simp [delivers, hcl]
          · simpa using h
    · simpa [hp] using section_none (c.streams j)

theorem settled_expires (c : Coordinator) (j : ℕ) : (c.streams j).Acct ((l.foldl expire c).streams j) :=
  Fold.foldl_rel (R := fun a b => (a.streams j).Acct (b.streams j)) (fun a => .refl (a.streams j))
    (fun h h' => h.trans h') (fun a o => acct_expire a o j) l c

theorem settled_budgetExpired : (c.streams j).Settled ((c.budgetExpired i).streams j) := by
  unfold budgetExpired
  split
  · exact .refl _
  · rename_i h
    have ha := settled_expires (c.streams i).attempt.opened c j
    by_cases hj : j = i
    · subst hj
      rw [streams_modStream_self]
      refine Settled.finish (.inl ha) ?_
      rw [ha.resolved]
      cases hr : (c.streams j).attempt.resolved with
      | true => simp [hr] at h
      | false => rfl
    · rw [streams_modStream_of_ne _ hj]
      exact .inl ha

theorem settled_requestExpired (c : Coordinator) (s id j : ℕ) :
    (c.streams j).Settled ((c.requestExpired d s id).streams j) := by
  unfold requestExpired
  dsimp only
  split
  · exact .refl _
  · rw [streams_schedule]
    exact settled_fails _ (c.modSource s (·.retire id)) j

theorem settled_remoteInitial (incomplete : List String) (j : ℕ) :
    (c.streams j).Settled ((c.remoteInitial r incomplete).streams j) := by
  unfold remoteInitial
  refine Fold.foldl_rel (R := fun a b => (a.streams j).Settled (b.streams j))
    (fun a => .refl (a.streams j)) (fun h h' => h.trans h') (fun a o => ?_) _ c
  split
  · exact settled_fail a o j
  · exact settled_endObligation a o j

theorem acct_closing : (c.streams j).Acct (((c.streams i).attempt.opened.foldl detachCollect c).streams j) :=
  Fold.foldl_rel (R := fun a b => (a.streams j).Acct (b.streams j)) (fun a => .refl (a.streams j))
    (fun h h' => h.trans h') (fun a o => acct_detachCollect a o j) _ c

theorem streams_closeStream (h : (c.streams i).closed = false) :
    ∃ a, (c.streams j).Acct a ∧ (c.closeStream i).streams j = if j = i then a.shut else a := by
  unfold closeStream
  rw [if_neg (by simp [h])]
  dsimp only
  split
  · refine ⟨c.streams j, .refl _, ?_⟩
    by_cases hj : j = i
    · subst hj
      simp [unenroll]
    · simp [hj, unenroll]
  · refine ⟨_, acct_closing (c.unenroll i) i j, ?_⟩
    by_cases hj : j = i
    · subst hj
      rw [streams_modStream_self, if_pos rfl]
      rfl
    · rw [streams_modStream_of_ne _ hj, if_neg hj]
      rfl

theorem turn_closeStream : Turn none [] (c.streams j) ((c.closeStream i).streams j) := by
  cases h : (c.streams i).closed with
  | true =>
    rw [closeStream, if_pos h]
    exact .work (section_none _)
  | false =>
    obtain ⟨a, ha, heq⟩ := streams_closeStream c i j h
    rw [heq]
    split
    · rename_i hj
      subst hj
      exact .close rfl rfl h ha
    · exact .work (section_settled (.inl ha))

theorem section_remoteOffer (u : Update) (hr : r < c.nRemotes) (j : ℕ) :
    Section (c.offerOf (.remoteOffer r u) j) [] (c.streams j)
      ((c.remoteOffer r u).streams j) := by
  unfold remoteOffer offerOf
  dsimp only
  cases hp : u.providerID with
  | none => simpa using section_none (c.streams j)
  | some provider =>
    by_cases hj : (c.remotes r).st = j
    · subst hj
      cases hc : (c.streams (c.remotes r).st).closed with
      | true => simpa using section_none (c.streams (c.remotes r).st)
      | false =>
        by_cases hn : u.name ∈ (c.streams (c.remotes r).st).services
        · simp only [hn, hr, Bool.false_or, not_true_eq_false, decide_false, Bool.false_eq_true,
            ↓reduceIte, and_self, Option.map_some, streams_modStream_self, streams_modRemote]
          exact ⟨fun h => absurd (hc.symm.trans h) Bool.false_ne_true, _, wake _, .refl _, rfl⟩
        · simpa [hn] using section_none (c.streams (c.remotes r).st)
    · have hne : j ≠ (c.remotes r).st := fun h => hj h.symm
      rw [if_neg (by simp [hj])]
      dsimp only
      split
      · exact section_none (c.streams j)
      · rw [streams_modStream_of_ne _ hne]
        exact section_none (c.streams j)

theorem streams_removeKeys (keys : List OfferingKey) (c : Coordinator) (j : ℕ) :
    (keys.foldl (removeKey r) c).streams j =
      if j = (c.remotes r).st then (c.streams j).retractAll (contributed (c.remotes r).keys keys)
      else c.streams j := by
  induction keys generalizing c with
  | nil => simp [contributed, retractAll]
  | cons k keys ih =>
    rw [List.foldl_cons, ih, contributed, removeKey]
    by_cases hk : k ∈ (c.remotes r).keys
    · by_cases hj : j = (c.remotes r).st
      · simp [hk, hj, modRemote, modStream, retractAll]
      · simp [hk, hj, modRemote, modStream]
    · simp [hk]

theorem section_remoteRemove (keys : List OfferingKey) (hr : r < c.nRemotes) (j : ℕ) :
    Section none (c.retractsOf (.remoteRemove r keys) j) (c.streams j)
      ((c.remoteRemove r keys).streams j) := by
  rw [retractsOf, remoteRemove]
  by_cases hj : (c.remotes r).st = j
  · subst hj
    cases hc : (c.streams (c.remotes r).st).closed with
    | true => simpa using section_none (c.streams (c.remotes r).st)
    | false =>
      simp only [Bool.false_eq_true, ↓reduceIte, streams_modStream_self, streams_removeKeys, hr, and_self]
      exact ⟨fun h => absurd (hc.symm.trans h) Bool.false_ne_true, _, true, .refl _, rfl⟩
  · have hne : j ≠ (c.remotes r).st := fun h => hj h.symm
    rw [if_neg (by simp [hj])]
    split
    · exact section_none (c.streams j)
    · rw [streams_modStream_of_ne _ hne, streams_removeKeys, if_neg hne]
      exact section_none (c.streams j)

theorem streams_retracts (ks : List OfferingKey) (c : Coordinator) (j : ℕ) :
    (ks.foldl (fun c k => c.modStream i (·.retract k)) c).streams j =
      if j = i then (c.streams j).retractAll ks else c.streams j := by
  induction ks generalizing c with
  | nil => simp [retractAll]
  | cons k ks ih =>
    rw [List.foldl_cons, ih]
    by_cases hj : j = i
    · simp [hj, retractAll]
    · simp [hj]

theorem section_remoteLost (hr : r < c.nRemotes) (j : ℕ) :
    Section none (c.retractsOf (.remoteLost r) j) (c.streams j)
      ((c.remoteLost r).streams j) := by
  have hs := settled_fails (remoteObligations (c.remotes r)) c
  have hcl : (((remoteObligations (c.remotes r)).foldl fail c).streams (c.remotes r).st).closed =
      (c.streams (c.remotes r).st).closed := (hs _).frame.2.2.2.1
  simp only [retractsOf, remoteLost, hcl]
  by_cases hj : (c.remotes r).st = j
  · subst hj
    cases hc : (c.streams (c.remotes r).st).closed with
    | true => simpa using section_settled (hs (c.remotes r).st)
    | false =>
      simp only [Bool.false_eq_true, ↓reduceIte, streams_modStream_self, streams_modRemote,
        streams_retracts, hr, and_self]
      exact ⟨fun h => absurd (hc.symm.trans h) Bool.false_ne_true, _, true, hs _, rfl⟩
  · have hne : j ≠ (c.remotes r).st := fun h => hj h.symm
    rw [if_neg (by simp [hj])]
    split
    · exact section_settled (hs j)
    · rw [streams_modStream_of_ne _ hne, streams_modRemote, streams_retracts, if_neg hne]
      exact section_settled (hs j)

/-! ## Discovering -/

/-- A change that touches no stream but `i`, and that one only by accounting. -/
def Opens (i : ℕ) (c c' : Coordinator) : Prop :=
  (c.streams i).Acct (c'.streams i) ∧ ∀ j, j ≠ i → c'.streams j = c.streams j

theorem Opens.refl (c : Coordinator) : Opens i c c := ⟨.refl _, fun _ _ => rfl⟩

theorem Opens.trans {i : ℕ} {a b c : Coordinator} (h : Opens i a b) (h' : Opens i b c) : Opens i a c :=
  ⟨h.1.trans h'.1, fun j hj => (h'.2 j hj).trans (h.2 j hj)⟩

theorem opens_modStream (h : ∀ st, Acct st (f st)) : Opens i c (c.modStream i f) :=
  ⟨acct_modStream c i h i, fun _ hj => streams_modStream_of_ne c hj f⟩

theorem opens_oblige (name : String) (c : Coordinator) (s : ℕ) : Opens i c (oblige i ck name c s) :=
  opens_modStream (c.modSource s _) i (acct_opened · c.nObligations)

theorem opens_obligeRemote (c : Coordinator) (name : String) : Opens i c (obligeRemote i r c name) :=
  opens_modStream (c.modRemote r _) i (acct_opened · c.nObligations)

theorem opens_enrollMember (names : List String) (c : Coordinator) (member : String) :
    Opens i c (enrollMember i names c member) := by
  have h := Fold.foldl_rel (R := Opens i) (Opens.refl i) Opens.trans (opens_obligeRemote i c.nRemotes)
    names { c with
      remotes := update c.remotes c.nRemotes { st := i, member }
      nRemotes := c.nRemotes + 1 }
  exact Opens.trans h (opens_modStream _ i fun st => acct_remotes st _)

theorem opens_obligeAll (names members : List String) : Opens i c (c.obligeAll i ck names members) := by
  have h₁ : Opens i c (names.foldl (obligeName i ck) c) :=
    Fold.foldl_rel (Opens.refl i) Opens.trans (fun c name =>
      Fold.foldl_rel (Opens.refl i) Opens.trans (opens_oblige i ck name) (c.byName name) c) names c
  exact h₁.trans (Fold.foldl_rel (Opens.refl i) Opens.trans (opens_enrollMember i names) members _)

theorem streams_scheduleAll (c : Coordinator) (srcs : List ℕ) : (scheduleAll d ck c srcs).streams = c.streams :=
  Fold.foldl_eq streams (fun c s => streams_schedule d c s ck) srcs c

/-- A new stream has only been accounted for, and no other stream has changed. -/
theorem streams_discoverSwarm (c : Coordinator) (caller : String) (names : List String) (follow : Bool)
    (members : List String) :
    Settled { caller, services := names.toFinset, follow }
        ((c.discoverSwarm d caller names follow members).streams c.nStreams) ∧
      ∀ j, j ≠ c.nStreams →
        (c.discoverSwarm d caller names follow members).streams j = c.streams j := by
  have hnew : (c.enroll caller names follow).streams c.nStreams =
      { caller, services := names.toFinset, follow } := update_self ..
  have hold : ∀ j, j ≠ c.nStreams → (c.enroll caller names follow).streams j = c.streams j :=
    fun j hj => update_of_ne hj ..
  obtain ⟨hacct, hne⟩ := opens_obligeAll (c.enroll caller names follow) c.nStreams caller names members
  rw [hnew] at hacct
  unfold discoverSwarm
  dsimp only
  rw [streams_scheduleAll]
  split
  · refine ⟨?_, fun j hj => ?_⟩
    · rw [streams_modStream_self, streams_scheduleAll]
      exact Settled.finish (.inl hacct) hacct.resolved
    · rw [streams_modStream_of_ne _ hj, streams_scheduleAll, hne j hj, hold j hj]
  · rw [streams_scheduleAll]
    exact ⟨.inl hacct, fun j hj => (hne j hj).trans (hold j hj)⟩

/-! ## Every operation -/

theorem turn_modStream (h : Turn none [] (c.streams i) (f (c.streams i))) :
    Turn none [] (c.streams j) ((c.modStream i f).streams j) :=
  (forall_update_iff _ fun j => Turn none [] (c.streams j)).mpr ⟨h, fun _ _ => .work (section_none _)⟩ j

theorem turn_wrote : Turn none [] (c.streams j) ((c.wrote i).streams j) := by
  unfold wrote
  cases hw : (c.streams i).writer with
  | writing out =>
    dsimp only
    split
    · rename_i hb
      obtain ⟨inc, rfl⟩ : ∃ inc, out = .boundary inc := by
        cases out <;> simp_all [Output.isBoundary]
      have hself := streams_modStream_self c i fun st => { st.sent (.boundary inc) with writer := .idle }
      generalize hc' : c.modStream i (fun st => { st.sent (.boundary inc) with writer := .idle }) = c'
      rw [hc'] at hself
      have hne : ∀ j, j ≠ i → c'.streams j = c.streams j := fun j hj => by
        rw [← hc', streams_modStream_of_ne _ hj]
      have hcl : (c'.streams i).closed = (c.streams i).closed := by
        rw [hself]
        rfl
      cases hc : (c.streams i).closed with
      | true =>
        rw [closeStream, if_pos (hcl.trans hc)]
        by_cases hj : j = i
        · subst hj
          rw [streams_modStream_self, hself]
          exact .lastClosed rfl rfl hw hc
        · rw [streams_modStream_of_ne _ hj, hne j hj]
          exact .work (section_none _)
      | false =>
        obtain ⟨a, ha, heq⟩ := streams_closeStream c' i j (hcl.trans hc)
        by_cases hj : j = i
        · subst hj
          rw [streams_modStream_self, heq, if_pos rfl]
          rw [hself] at ha
          exact .last rfl rfl hw hb.2 hc ha
        · rw [streams_modStream_of_ne _ hj, heq, if_neg hj]
          rw [hne j hj] at ha
          exact .work (section_settled (.inl ha))
    · exact turn_modStream c i j (.wrote rfl rfl hw)
  | idle | waiting | returned => exact .work (section_none _)

theorem turn_writeFailed : Turn none [] (c.streams j) ((c.writeFailed i).streams j) := by
  unfold writeFailed
  cases hw : (c.streams i).writer with
  | writing out =>
    dsimp only
    cases hc : (c.streams i).closed with
    | true =>
      rw [closeStream, if_pos hc]
      exact turn_modStream c i j (.stop rfl rfl hw hc)
    | false =>
      obtain ⟨a, ha, heq⟩ := streams_closeStream c i j hc
      by_cases hj : j = i
      · subst hj
        rw [streams_modStream_self, heq, if_pos rfl]
        exact .abort rfl rfl hw hc ha
      · rw [streams_modStream_of_ne _ hj, heq, if_neg hj]
        exact .work (section_settled (.inl ha))
  | idle | waiting | returned => exact .work (section_none _)

theorem section_sendFailed (hs : s < c.nSources) (j : ℕ) :
    Section none (c.retractsOf (.sendFailed s) j) (c.streams j)
      ((c.sendFailed s).streams j) := by
  unfold sendFailed
  simp only [retractsOf, sourceCloses]
  cases hw : (c.sources s).sender with
  | sending ask =>
    have h := section_closeOnce c s j
    simp only [streams_modSource]
    cases hc : (c.sources s).closed <;> simpa [hc, hs] using h
  | idle | waiting | returned => exact section_none _

/-- **One operation, one stream.** Every operation acts on every existing stream by a turn
with the offer and the retractions that `offerOf` and `retractsOf` read off. -/
theorem step_turn (c : Coordinator) (op : Op) (j : ℕ) (hj : j < c.nStreams) :
    Turn (c.offerOf op j) (c.retractsOf op j) (c.streams j) ((c.step d op).streams j) := by
  have hnone : Turn none [] (c.streams j) (c.streams j) := .work (section_none _)
  -- an operation behind a guard that neither offers nor retracts
  have hwhen {p : Prop} [Decidable p] {c' : Coordinator} (h : p → Turn none [] (c.streams j) (c'.streams j)) :=
    Trace.when_keeps (P := fun c' : Coordinator => Turn none [] (c.streams j) (c'.streams j)) hnone h
  cases op with
  | register provider names order =>
    refine hwhen fun _ => ?_
    rw [streams_register]
    exact hnone
  | discover caller names follow members =>
    simp only [step, offerOf, retractsOf, sourceCloses]
    rw [(streams_discoverSwarm d c caller names follow members).2 j (Nat.ne_of_lt hj)]
    exact hnone
  | answer s a =>
    simp only [step]
    split
    · rename_i hs
      exact .work (section_answer d c s a hs j)
    · rename_i hs
      simpa [offerOf, retractsOf, sourceCloses, accepts, hs] using hnone
  | change s ch order =>
    simp only [step, offerOf, retractsOf, sourceCloses]
    by_cases hs : s < c.nSources ∧ order.isPerm c.callers = true
    · have h := section_change d c s ch order j
      rw [if_pos hs]
      by_cases hv : (c.sources s).closed = false ∧ ch.valid = false
      · rw [if_pos hv] at h
        rw [if_pos ⟨hs.1, hs.2, hv⟩]
        exact .work h
      · rw [if_neg hv] at h
        rw [if_neg (fun h' => hv h'.2.2)]
        exact .work h
    · rw [if_neg hs, if_neg (fun h' => hs ⟨h'.1, h'.2.1⟩)]
      exact hnone
  | closeSource s =>
    simp only [step, offerOf, retractsOf, sourceCloses]
    by_cases hs : s < c.nSources
    · have h := section_closeOnce c s j
      rw [if_pos hs]
      cases hc : (c.sources s).closed with
      | true => simpa [hc] using Turn.work h
      | false => simpa [hc, hs] using Turn.work h
    · simpa [hs] using hnone
  | closeStream i =>
    refine hwhen fun _ => ?_
    exact turn_closeStream c i j
  | run i =>
    refine hwhen fun hi => ?_
    exact turn_modStream c i j (.run rfl rfl hi.2)
  | awake i =>
    refine hwhen fun hi => ?_
    exact turn_modStream c i j (.awake rfl rfl hi.2.1)
  | wrote i =>
    refine hwhen fun _ => ?_
    exact turn_wrote c i j
  | writeFailed i =>
    refine hwhen fun _ => ?_
    exact turn_writeFailed c i j
  | send s | sendAwake s =>
    simp only [step, offerOf, retractsOf, sourceCloses]
    split
    · split <;> exact hnone
    · exact hnone
  | sendOk s =>
    refine hwhen fun _ => ?_
    unfold sendOk
    split <;> exact hnone
  | sendFailed s =>
    simp only [step, offerOf]
    split
    · rename_i hs
      exact .work (section_sendFailed c s hs j)
    · rename_i hs
      have hr : c.retractsOf (.sendFailed s) j = [] := by
        simp only [retractsOf, sourceCloses, hs, false_and, if_false]
        cases (c.sources s).sender <;> rfl
      rw [hr]
      exact hnone
  | remoteOffer r u =>
    simp only [step, retractsOf, sourceCloses]
    split
    · rename_i hr
      exact .work (section_remoteOffer c r u hr j)
    · rename_i hr
      simpa [offerOf, hr] using hnone
  | remoteRemove r keys =>
    simp only [step, offerOf]
    split
    · rename_i hr
      exact .work (section_remoteRemove c r keys hr j)
    · rename_i hr
      simpa [retractsOf, hr] using hnone
  | remoteInitial r incomplete =>
    refine hwhen fun _ => ?_
    exact .work (section_settled (settled_remoteInitial c r incomplete j))
  | remoteLost r =>
    simp only [step, offerOf]
    split
    · rename_i hr
      exact .work (section_remoteLost c r hr j)
    · rename_i hr
      simpa [retractsOf, hr] using hnone
  | requestExpired s id =>
    refine hwhen fun _ => ?_
    exact .work (section_settled (settled_requestExpired d c s id j))
  | budgetExpired i =>
    refine hwhen fun _ => ?_
    exact .work (section_settled (settled_budgetExpired c i j))

end Coordinator

end Astrald.Services
