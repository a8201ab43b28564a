import Astrald.Services.Placement

/-!
# The indexes of the coordinator

`owners`, `byName` and `byCaller` index the open sources and the open streams. Of all that
an operation does, only a few things concern them: a source claims its pairs, a source
closes, a stream is enrolled, a stream closes. `indexStep` performs just that part.

* `step_keeps`: up to what the indexes see, an operation is its `indexStep`;
* `Indexed.step`: every operation keeps the indexes exact;
* `step_source`: what an operation does to an existing source.
* `step_newStream`: a stream that an operation makes has only been accounted for.
-/

namespace Astrald.Services

open Function

namespace Coordinator

/-! ## What the indexes see -/

structure SameSource (src src' : Source) : Prop where
  provider : src'.provider = src.provider
  names : src'.names = src.names
  closed : src'.closed = src.closed

structure SameStream (st st' : Stream) : Prop where
  caller : st'.caller = st.caller
  services : st'.services = st.services
  follow : st'.follow = st.follow
  closed : st'.closed = st.closed

structure Keeps (c c' : Coordinator) : Prop extends SameIndex c c' where
  source : ∀ s, SameSource (c.sources s) (c'.sources s)
  stream : ∀ i, SameStream (c.streams i) (c'.streams i)

theorem SameSource.refl (src : Source) : SameSource src src := ⟨rfl, rfl, rfl⟩

theorem SameSource.trans {a b c : Source} (h : SameSource a b) (h' : SameSource b c) : SameSource a c :=
  ⟨h'.provider.trans h.provider, h'.names.trans h.names, h'.closed.trans h.closed⟩

variable (c : Coordinator) (d : Draws) (st : Stream) (s : ℕ) (i : ℕ) (r : ℕ) (ck : String)
  (names : List String)

theorem SameStream.refl : SameStream st st := ⟨rfl, rfl, rfl, rfl⟩

theorem SameStream.trans {a b c : Stream} (h : SameStream a b) (h' : SameStream b c) : SameStream a c :=
  ⟨h'.caller.trans h.caller, h'.services.trans h.services, h'.follow.trans h.follow,
    h'.closed.trans h.closed⟩

theorem Keeps.refl : Keeps c c :=
  ⟨⟨rfl, rfl, rfl, rfl, rfl⟩, fun _ => .refl _, fun _ => .refl _⟩

theorem Keeps.trans {a b c : Coordinator} (h : Keeps a b) (h' : Keeps b c) : Keeps a c where
  toSameIndex := h.toSameIndex.trans h'.toSameIndex
  source s := (h.source s).trans (h'.source s)
  stream i := (h.stream i).trans (h'.stream i)

theorem keeps_modSource (f : Source → Source) (hf : ∀ src, SameSource src (f src)) :
    Keeps c (c.modSource s f) := by
  refine ⟨⟨rfl, rfl, rfl, rfl, rfl⟩, ?_, fun _ => .refl _⟩
  exact (forall_update_iff _ fun t => SameSource (c.sources t)).mpr ⟨hf _, fun _ _ => .refl _⟩

theorem keeps_modStream (f : Stream → Stream) (hf : ∀ st, SameStream st (f st)) : Keeps c (c.modStream i f) := by
  refine ⟨⟨rfl, rfl, rfl, rfl, rfl⟩, fun _ => .refl _, ?_⟩
  exact (forall_update_iff _ fun j => SameStream (c.streams j)).mpr ⟨hf _, fun _ _ => .refl _⟩

theorem keeps_modRemote (f : Remote → Remote) : Keeps c (c.modRemote r f) :=
  ⟨⟨rfl, rfl, rfl, rfl, rfl⟩, fun _ => .refl _, fun _ => .refl _⟩

theorem sameStream_settled {st st' : Stream} (h : st.Settled st') : SameStream st st' := by
  obtain ⟨h₁, h₂, h₃, h₄, _⟩ := h.frame
  exact ⟨h₁, h₂, h₃, h₄⟩

theorem sameSource_of_same {src src' : Source} (h : src.Same src') : SameSource src src' :=
  { h with }

/-- Ending obligations is nothing to the indexes. -/
theorem Frame.keeps {c c' : Coordinator} (h : Frame c c')
    (hs : ∀ i, (c.streams i).Settled (c'.streams i)) : Keeps c c' :=
  { h with source := fun s => sameSource_of_same (h.source s), stream := fun i => sameStream_settled (hs i) }

theorem keeps_schedule (c : Coordinator) (s : ℕ) (ck : String) : Keeps c (c.schedule d s ck) := by
  rcases schedule_cases d c s ck with ⟨heq, _⟩ | ⟨heq, _⟩ | ⟨service, heq, _⟩
  · rw [heq]
    exact .refl c
  · rw [heq]
    exact (frame_collect c s ck).keeps fun i => .refl (c.streams i)
  · rw [heq]
    have h := keeps_modSource c s (fun src => src.issue (d.id s) ck (src.slotAt ck) service)
      fun _ => ⟨rfl, rfl, rfl⟩
    exact { h with }

theorem keeps_foldl {α : Type} {f : Coordinator → α → Coordinator} (hf : ∀ c a, Keeps c (f c a))
    (l : List α) (c : Coordinator) : Keeps c (l.foldl f c) :=
  Fold.foldl_rel Keeps.refl Keeps.trans hf l c

theorem keeps_fails (l : List ℕ) (c : Coordinator) : Keeps c (l.foldl fail c) :=
  keeps_foldl (fun c o => (frame_fail c o).keeps (settled_fail c o)) l c

theorem keeps_endObligation (o : ℕ) : Keeps c (c.endObligation o) :=
  (frame_endObligation c o).keeps (settled_endObligation c o)

/-! ## What streams stay -/

theorem sameStream_offer (k : OfferingKey) (u : Update) : SameStream st (st.offer k u) := by
  unfold Stream.offer Stream.drop Stream.release
  dsimp only
  split
  · exact ⟨rfl, rfl, rfl, rfl⟩
  · split <;> split <;> exact ⟨rfl, rfl, rfl, rfl⟩

theorem sameStream_retract (k : OfferingKey) : SameStream st (st.retract k) := by
  unfold Stream.retract Stream.drop Stream.release
  dsimp only
  split <;> split <;> exact ⟨rfl, rfl, rfl, rfl⟩

theorem sameStream_retractAll (ks : List OfferingKey) (st : Stream) : SameStream st (st.retractAll ks) :=
  Fold.foldl_rel SameStream.refl SameStream.trans sameStream_retract ks st

theorem sameStream_section {off : Option (OfferingKey × Update)} {ks : List OfferingKey} {st st' : Stream}
    (h : Stream.Section off ks st st') : SameStream st st' := by
  obtain ⟨_, b, w, hb, rfl⟩ := h
  have ho : SameStream st (st.offer? off) := by
    cases off with
    | none => exact .refl st
    | some p => exact sameStream_offer st p.1 p.2
  have hr := (ho.trans (sameStream_settled hb)).trans (sameStream_retractAll ks b)
  exact { hr with }

theorem sameStream_sent (out : Output) : SameStream st (st.sent out) := by
  cases out with
  | removed keys | boundary inc => exact ⟨rfl, rfl, rfl, rfl⟩
  | view k v =>
    unfold Stream.sent Stream.release
    dsimp only
    split <;> exact ⟨rfl, rfl, rfl, rfl⟩

theorem sameStream_runTurn : SameStream st st.runTurn := by
  rcases st.runTurn_cases with ⟨_, h⟩ | ⟨_, _, h⟩ | ⟨_, _, _, _, _, h⟩ | ⟨_, _, _, _, _, _, _, h⟩ |
    ⟨_, h⟩ <;> rw [h] <;> exact ⟨rfl, rfl, rfl, rfl⟩

/-! ## The part of an operation that the indexes see -/

def streamCloses (c : Coordinator) : Op → Option ℕ
  | .closeStream i => if i < c.nStreams ∧ (c.streams i).closed = false then some i else none
  | .wrote i =>
    match (c.streams i).writer with
    | .writing out =>
      if i < c.nStreams ∧ (out.isBoundary = true ∧ (c.streams i).follow = false) ∧
        (c.streams i).closed = false then some i else none
    | _ => none
  | .writeFailed i =>
    match (c.streams i).writer with
    | .writing _ => if i < c.nStreams ∧ (c.streams i).closed = false then some i else none
    | _ => none
  | _ => none

/-- Closing a source, as far as the indexes are concerned. -/
def dropSource (c : Coordinator) (s : ℕ) : Coordinator := (c.markClosed s).releaseSource s

/-- Closing a stream, as far as the indexes are concerned. -/
def dropStream (c : Coordinator) (i : ℕ) : Coordinator := (c.unenroll i).modStream i (·.shut)

/-- What an operation that closes nothing adds. -/
def indexAdd (c : Coordinator) : Op → Coordinator
  | .register provider names order =>
    if order.isPerm c.enrolledStreams ∧ c.owned provider (names.insertionSort (· ≤ ·)) = false then
      c.claim provider (names.insertionSort (· ≤ ·))
    else c
  | .discover caller names follow _ => c.enroll caller names follow
  | _ => c

def indexStep (c : Coordinator) (op : Op) : Coordinator :=
  match c.sourceCloses op, c.streamCloses op with
  | some s, _ => c.dropSource s
  | none, some i => c.dropStream i
  | none, none => c.indexAdd op

theorem keeps_failSource : Keeps (c.markClosed s) (c.failSource s) := by
  have h₁ : Keeps (c.markClosed s) ((c.markClosed s).failAsked s) :=
    (keeps_fails _ _).trans (keeps_modSource _ s _ fun _ => ⟨rfl, rfl, rfl⟩)
  have h₂ : Keeps ((c.markClosed s).failAsked s) (((c.markClosed s).failAsked s).failWaiting s) :=
    (keeps_fails _ _).trans (keeps_modSource _ s _ fun _ => ⟨rfl, rfl, rfl⟩)
  exact h₁.trans h₂

theorem keeps_releaseSource {c c' : Coordinator} (h : Keeps c c') (s : ℕ) :
    Keeps (c.releaseSource s) (c'.releaseSource s) := by
  have hs := h.source s
  refine { h with owners := ?_, byName := ?_, stream := fun i => ?_ }
  · funext k
    simp only [releaseSource]
    rw [h.owners, hs.provider, hs.names]
  · funext name
    simp only [releaseSource]
    rw [h.byName, hs.names]
  · have hlose : ∀ st : Stream, ∀ p ns, SameStream st (st.lose p ns) := by
      intro st p ns
      cases hc : st.closed with
      | true =>
        rw [Stream.lose, if_pos hc]
        exact .refl st
      | false =>
        rw [lose_eq st p ns hc]
        have := sameStream_retractAll ((ns.filter (· ∈ st.services)).map (keyOf p)) st
        exact { this with }
    have hrel : ∀ (a : Coordinator), SameStream (a.streams i) ((a.releaseSource s).streams i) := by
      intro a
      refine Trace.when_keeps (.refl _) fun _ => ?_
      exact hlose _ _ _
    have h₁ := hrel c
    have h₂ := (h.stream i).trans (hrel c')
    exact ⟨h₂.caller.trans h₁.caller.symm, h₂.services.trans h₁.services.symm,
      h₂.follow.trans h₁.follow.symm, h₂.closed.trans h₁.closed.symm⟩

theorem keeps_closeSource : Keeps (c.dropSource s) (c.closeSource s) :=
  keeps_releaseSource (keeps_failSource c s) s

theorem keeps_closeStream (h : (c.streams i).closed = false) : Keeps (c.dropStream i) (c.closeStream i) := by
  have hbase : ∀ c' : Coordinator, Keeps (c.unenroll i) c' →
      Keeps (c.dropStream i) (c'.modStream i (·.shut)) := by
    intro c' hk
    refine { hk with stream := fun j => ?_ }
    unfold dropStream
    by_cases hj : j = i
    · subst hj
      rw [streams_modStream_self, streams_modStream_self]
      exact ⟨(hk.stream j).caller, (hk.stream j).services, (hk.stream j).follow, rfl⟩
    · rw [streams_modStream_of_ne _ hj, streams_modStream_of_ne _ hj]
      exact hk.stream j
  unfold closeStream
  rw [if_neg (by simp [h])]
  refine hbase _ ?_
  split
  · exact .refl _
  · exact keeps_foldl (fun c o => (frame_detachCollect c o).keeps fun i =>
      .inl (acct_detachCollect c o i)) _ _

theorem keeps_refreshName (c : Coordinator) (name : String) : Keeps c (refreshName d s ck c name) := by
  have h : Keeps c (c.modSource s fun src => (src.slot ck).markDirty ck name) :=
    keeps_modSource c s _ fun src =>
      sameSource_of_same ((src.same_slot ck).trans (Source.same_modifySlot _ ck _))
  exact h.trans (keeps_schedule d _ s ck)

theorem keeps_followDirty (c : Coordinator) (i : ℕ) : Keeps c (followDirty d s c i) := by
  refine Trace.when_keeps (.refl c) fun _ => ?_
  exact keeps_foldl (keeps_refreshName d s _) _ c

theorem same_markDirties (src : Source) : src.Same (names.foldl (fun src name => src.markDirty ck name) src) :=
  Fold.foldl_rel Source.Same.refl Source.Same.trans (fun src _ => src.same_modifySlot ck _) names src

theorem keeps_refresh (c : Coordinator) (ck : String) : Keeps c (refresh d s c ck) := by
  refine Trace.unless_keeps (.refl c) fun _ => ?_
  refine Keeps.trans (keeps_modSource c s _ fun src => ?_) (keeps_schedule d _ s ck)
  exact sameSource_of_same ((src.same_slot ck).trans (same_markDirties ck _ _))

theorem keeps_oblige (name : String) (c : Coordinator) (s : ℕ) : Keeps c (oblige i ck name c s) := by
  have h₁ : Keeps c (c.modSource s fun src => (src.slot ck).modifySlot ck fun sl =>
      { sl with initial := sl.initial ++ [(name, c.nObligations)] }) :=
    keeps_modSource c s _ fun src =>
      sameSource_of_same ((src.same_slot ck).trans (Source.same_modifySlot _ ck _))
  have h := h₁.trans (keeps_modStream _ i (opening c.nObligations) fun _ => ⟨rfl, rfl, rfl, rfl⟩)
  exact { h with }

theorem keeps_obligeRemote (c : Coordinator) (name : String) : Keeps c (obligeRemote i r c name) := by
  have h := (keeps_modRemote c r fun rm => { rm with opened := rm.opened.insert name c.nObligations }).trans
    (keeps_modStream _ i (opening c.nObligations) fun _ => ⟨rfl, rfl, rfl, rfl⟩)
  exact { h with }

theorem keeps_enrollMember (c : Coordinator) (member : String) : Keeps c (enrollMember i names c member) := by
  unfold enrollMember
  refine Keeps.trans ?_ (keeps_modStream _ i _ fun _ => ⟨rfl, rfl, rfl, rfl⟩)
  have h := keeps_foldl (keeps_obligeRemote i c.nRemotes) names { c with
    remotes := update c.remotes c.nRemotes { st := i, member }
    nRemotes := c.nRemotes + 1 }
  exact { h with }

theorem keeps_obligeAll (members : List String) : Keeps c (c.obligeAll i ck names members) := by
  have h₁ : Keeps c (names.foldl (obligeName i ck) c) :=
    keeps_foldl (fun c name => keeps_foldl (keeps_oblige i ck name) (c.byName name) c) names c
  exact h₁.trans (keeps_foldl (keeps_enrollMember i names) members _)

theorem keeps_discoverSwarm (c : Coordinator) (caller : String) (names : List String) (follow : Bool)
    (members : List String) :
    Keeps (c.enroll caller names follow) (c.discoverSwarm d caller names follow members) := by
  have h := (keeps_obligeAll (c.enroll caller names follow) c.nStreams caller names members).trans
    (keeps_foldl (fun c s => keeps_schedule d c s caller) (c.touched names) _)
  refine Trace.when_keeps h fun _ => ?_
  exact h.trans (keeps_modStream _ _ _ fun _ => ⟨rfl, rfl, rfl, rfl⟩)

theorem keeps_deliver (req : Request) (u : Update) : Keeps c (c.deliver s req u) := by
  refine ⟨⟨rfl, rfl, rfl, rfl, rfl⟩, fun _ => .refl _, fun i => ?_⟩
  refine Trace.when_keeps (.refl _) fun _ => ?_
  exact sameStream_offer _ _ _

theorem keeps_answer (c : Coordinator) (s : ℕ) (a : Answer) (hs : s < c.nSources) :
    Keeps (c.indexStep (.answer s a)) (c.answer d s a).1 := by
  unfold answer indexStep
  simp only [sourceCloses, streamCloses, hs, true_and]
  cases hc : (c.sources s).closed with
  | true => exact .refl c
  | false =>
    by_cases hp : a.requestID ∈ (c.sources s).pending
    · simp only [Bool.false_or, hp, not_true_eq_false, decide_false, Bool.false_eq_true, if_false, true_and]
      cases hu : a.update with
      | none =>
        have hacc : acceptable (c.sources s) ((c.sources s).reqs a.requestID) a = false := by
          simp [acceptable, hu]
        rw [if_pos hacc]
        exact keeps_closeSource c s
      | some upd =>
        cases hacc : acceptable (c.sources s) ((c.sources s).reqs a.requestID) a with
        | false => exact keeps_closeSource c s
        | true =>
          have h₁ : Keeps c (c.modSource s (·.retire a.requestID)) :=
            keeps_modSource c s _ fun src =>
              have hm :=
                src.same_modifySlot (src.reqs a.requestID).caller fun sl => { sl with active := none }
              { hm with }
          have h₂ := h₁.trans (keeps_deliver _ s ((c.sources s).reqs a.requestID)
            { upd with providerID := some (c.sources s).provider })
          exact (h₂.trans (keeps_foldl keeps_endObligation _ _)).trans (keeps_schedule d _ s _)
    · simp only [hp, not_false_eq_true, decide_true, Bool.or_true, if_true, false_and]
      exact .refl c

theorem keeps_change (c : Coordinator) (s : ℕ) (ch : Change) (order : List String) :
    Keeps (if (c.sources s).closed = false ∧ ch.valid = false then c.dropSource s else c)
      (c.change d s ch order).1 := by
  unfold change
  cases hc : (c.sources s).closed with
  | true => simpa using Keeps.refl c
  | false =>
    cases hv : ch.valid with
    | false => simpa using keeps_closeSource c s
    | true => simpa using keeps_foldl (keeps_refresh d s) (c.audience ch order) c

theorem keeps_closeOnce : Keeps (if (c.sources s).closed = false then c.dropSource s else c) (c.closeOnce s) := by
  unfold closeOnce
  cases hc : (c.sources s).closed with
  | true => simpa using Keeps.refl c
  | false => simpa using keeps_closeSource c s

theorem keeps_requestExpired (c : Coordinator) (s id : ℕ) : Keeps c (c.requestExpired d s id) := by
  refine Trace.unless_keeps (.refl c) fun _ => ?_
  have h₁ : Keeps c (c.modSource s (·.retire id)) := keeps_modSource c s _ fun src =>
    have hm := src.same_modifySlot (src.reqs id).caller fun sl => { sl with active := none }
    { hm with }
  exact (h₁.trans (keeps_fails _ _)).trans (keeps_schedule d _ s _)

theorem keeps_budgetExpired : Keeps c (c.budgetExpired i) := by
  refine Trace.unless_keeps (.refl c) fun _ => ?_
  exact (keeps_foldl (fun c o => (frame_expire c o).keeps fun i => .inl (acct_expire c o i)) _ c).trans
    (keeps_modStream _ i _ fun _ => ⟨rfl, rfl, rfl, rfl⟩)

theorem keeps_remoteOffer (u : Update) : Keeps c (c.remoteOffer r u) := by
  unfold remoteOffer
  split
  · exact .refl c
  · dsimp only
    split
    · exact .refl c
    · exact (keeps_modRemote c r _).trans (keeps_modStream _ _ _ fun st => sameStream_offer st _ u)

theorem keeps_remoteRemove (keys : List OfferingKey) : Keeps c (c.remoteRemove r keys) := by
  refine Trace.unless_keeps (.refl c) fun _ => ?_
  refine (keeps_foldl (fun c k => ?_) keys c).trans (keeps_modStream _ _ _ fun _ => ⟨rfl, rfl, rfl, rfl⟩)
  refine Trace.when_keeps (.refl c) fun _ => ?_
  exact (keeps_modRemote c r _).trans (keeps_modStream _ _ _ fun st => sameStream_retract st k)

theorem keeps_remoteInitial (incomplete : List String) : Keeps c (c.remoteInitial r incomplete) := by
  unfold remoteInitial
  refine keeps_foldl (fun c o => ?_) _ c
  split
  · exact (frame_fail c o).keeps (settled_fail c o)
  · exact keeps_endObligation c o

theorem keeps_remoteLost : Keeps c (c.remoteLost r) := by
  unfold remoteLost
  dsimp only
  split
  · exact keeps_fails _ c
  · refine Keeps.trans ?_ (keeps_modStream _ _ _ fun _ => ⟨rfl, rfl, rfl, rfl⟩)
    refine Keeps.trans ?_ (keeps_modRemote _ r _)
    exact (keeps_fails _ c).trans
      (keeps_foldl (fun c k => keeps_modStream c _ _ fun st => sameStream_retract st k) _ _)

theorem keeps_wrote (hi : i < c.nStreams) : Keeps (c.indexStep (.wrote i)) (c.wrote i) := by
  unfold wrote indexStep
  simp only [sourceCloses, streamCloses, indexAdd]
  cases hw : (c.streams i).writer with
  | writing out =>
    have hsent : ∀ st : Stream, SameStream st { st.sent out with writer := .idle } := fun st =>
      have h := sameStream_sent st out
      { h with }
    have hk : Keeps c (c.modStream i fun st => { st.sent out with writer := .idle }) :=
      keeps_modStream c i _ hsent
    have hcl : ((c.modStream i fun st => { st.sent out with writer := .idle }).streams i).closed =
        (c.streams i).closed := (hk.stream i).closed
    dsimp only
    by_cases hb : out.isBoundary = true ∧ (c.streams i).follow = false
    · rw [if_pos hb]
      refine Keeps.trans ?_ (keeps_modStream _ i _ fun _ => ⟨rfl, rfl, rfl, rfl⟩)
      cases hc : (c.streams i).closed with
      | true =>
        rw [closeStream, if_pos (hcl.trans hc), if_neg (by simp)]
        exact hk
      | false =>
        rw [if_pos ⟨hi, hb, rfl⟩]
        refine Keeps.trans ?_ (keeps_closeStream _ i (hcl.trans hc))
        refine { hk with byCaller := ?_, stream := fun j => ?_ }
        · simp only [dropStream, unenroll, modStream]
          rw [update_self, (hsent _).caller]
        · unfold dropStream
          by_cases hj : j = i
          · subst hj
            have h := hk.stream j
            rw [streams_modStream_self, streams_modStream_self]
            exact { h with closed := rfl }
          · rw [streams_modStream_of_ne _ hj, streams_modStream_of_ne _ hj]
            exact hk.stream j
    · rw [if_neg hb, if_neg fun h => hb h.2.1]
      exact hk
  | idle | waiting | returned => exact .refl c

theorem keeps_writeFailed (hi : i < c.nStreams) : Keeps (c.indexStep (.writeFailed i)) (c.writeFailed i) := by
  unfold writeFailed indexStep
  simp only [sourceCloses, streamCloses, indexAdd]
  cases hw : (c.streams i).writer with
  | writing out =>
    dsimp only
    refine Keeps.trans ?_ (keeps_modStream _ i _ fun _ => ⟨rfl, rfl, rfl, rfl⟩)
    cases hc : (c.streams i).closed with
    | true =>
      rw [closeStream, if_pos hc, if_neg (by simp)]
      exact .refl c
    | false =>
      rw [if_pos ⟨hi, rfl⟩]
      exact keeps_closeStream c i hc
  | idle | waiting | returned => exact .refl c

/-- **Indexing.** Up to what the indexes see, an operation is its `indexStep`. -/
theorem step_keeps (c : Coordinator) (op : Op) : Keeps (c.indexStep op) (c.step d op) := by
  cases op with
  | register provider names order =>
    simp only [step, indexStep, sourceCloses, streamCloses, indexAdd]
    by_cases hord : order.isPerm c.enrolledStreams = true
    · rw [if_pos hord, register]
      cases ho : c.owned provider (names.insertionSort (· ≤ ·)) with
      | true => simpa using Keeps.refl c
      | false =>
        simpa [hord] using keeps_foldl (keeps_followDirty d c.nSources) order
          (c.claim provider (names.insertionSort (· ≤ ·)))
    · rw [if_neg hord, if_neg (fun h => hord h.1)]
      exact .refl c
  | discover caller names follow members => exact keeps_discoverSwarm d c caller names follow members
  | answer s a =>
    simp only [step]
    split
    · rename_i hs
      exact keeps_answer d c s a hs
    · rename_i hs
      simpa [indexStep, sourceCloses, streamCloses, indexAdd, hs] using Keeps.refl c
  | change s ch order =>
    simp only [step, indexStep, sourceCloses, streamCloses, indexAdd]
    by_cases hs : s < c.nSources ∧ order.isPerm c.callers = true
    · have h := keeps_change d c s ch order
      rw [if_pos hs]
      by_cases hv : (c.sources s).closed = false ∧ ch.valid = false
      · rw [if_pos hv] at h
        rw [if_pos ⟨hs.1, hs.2, hv⟩]
        exact h
      · rw [if_neg hv] at h
        rw [if_neg (fun h' => hv h'.2.2)]
        exact h
    · rw [if_neg hs, if_neg (fun h' => hs ⟨h'.1, h'.2.1⟩)]
      exact .refl c
  | closeSource s =>
    simp only [step, indexStep, sourceCloses, streamCloses, indexAdd]
    by_cases hs : s < c.nSources
    · have h := keeps_closeOnce c s
      rw [if_pos hs]
      cases hc : (c.sources s).closed with
      | true => simpa [hc] using h
      | false => simpa [hc, hs] using h
    · simpa [hs] using Keeps.refl c
  | closeStream i =>
    simp only [step, indexStep, sourceCloses, streamCloses, indexAdd]
    by_cases hi : i < c.nStreams
    · rw [if_pos hi]
      cases hc : (c.streams i).closed with
      | true =>
        rw [closeStream, if_pos hc]
        simpa using Keeps.refl c
      | false => simpa [hi] using keeps_closeStream c i hc
    · simpa [hi] using Keeps.refl c
  | run i =>
    refine Trace.when_keeps (.refl c) fun _ => ?_
    exact keeps_modStream c i _ sameStream_runTurn
  | awake i =>
    refine Trace.when_keeps (.refl c) fun _ => ?_
    exact keeps_modStream c i _ fun _ => ⟨rfl, rfl, rfl, rfl⟩
  | wrote i =>
    simp only [step]
    split
    · rename_i hi
      exact keeps_wrote c i hi
    · rename_i hi
      simp only [indexStep, sourceCloses, streamCloses, hi, false_and, if_false, indexAdd]
      cases (c.streams i).writer <;> exact .refl c
  | writeFailed i =>
    simp only [step]
    split
    · rename_i hi
      exact keeps_writeFailed c i hi
    · rename_i hi
      simp only [indexStep, sourceCloses, streamCloses, hi, false_and, if_false, indexAdd]
      cases (c.streams i).writer <;> exact .refl c
  | send s =>
    simp only [step, indexStep, sourceCloses, streamCloses, indexAdd]
    split
    · split
      · refine keeps_modSource c s _ fun src => ?_
        unfold sendTurn
        split
        · exact ⟨rfl, rfl, rfl⟩
        · split <;> exact ⟨rfl, rfl, rfl⟩
      · exact .refl c
    · exact .refl c
  | sendAwake s =>
    simp only [step, indexStep, sourceCloses, streamCloses, indexAdd]
    split
    · split
      · exact keeps_modSource c s _ fun _ => ⟨rfl, rfl, rfl⟩
      · exact .refl c
    · exact .refl c
  | sendOk s =>
    refine Trace.when_keeps (.refl c) fun _ => ?_
    unfold sendOk
    split
    · exact keeps_modSource c s _ fun _ => ⟨rfl, rfl, rfl⟩
    · exact .refl c
  | sendFailed s =>
    simp only [step, indexStep, sourceCloses, streamCloses, indexAdd, sendFailed]
    by_cases hs : s < c.nSources
    · rw [if_pos hs]
      cases hw : (c.sources s).sender with
      | sending ask =>
        refine Keeps.trans ?_ (keeps_modSource _ s _ fun _ => ⟨rfl, rfl, rfl⟩)
        have h := keeps_closeOnce c s
        cases hc : (c.sources s).closed with
        | true => simpa [hc] using h
        | false => simpa [hc, hs] using h
      | idle | waiting | returned => exact .refl c
    · rw [if_neg hs]
      simp only [hs, false_and, if_false]
      cases (c.sources s).sender <;> exact .refl c
  | remoteOffer r u =>
    refine Trace.when_keeps (.refl c) fun _ => ?_
    exact keeps_remoteOffer c r u
  | remoteRemove r keys =>
    refine Trace.when_keeps (.refl c) fun _ => ?_
    exact keeps_remoteRemove c r keys
  | remoteInitial r incomplete =>
    refine Trace.when_keeps (.refl c) fun _ => ?_
    exact keeps_remoteInitial c r incomplete
  | remoteLost r =>
    refine Trace.when_keeps (.refl c) fun _ => ?_
    exact keeps_remoteLost c r
  | requestExpired s id =>
    refine Trace.when_keeps (.refl c) fun _ => ?_
    exact keeps_requestExpired d c s id
  | budgetExpired i =>
    refine Trace.when_keeps (.refl c) fun _ => ?_
    exact keeps_budgetExpired c i

/-! ## Exact indexes -/

structure Indexed (c : Coordinator) : Prop where
  owners : ∀ k s, c.owners k = some s ↔ s < c.nSources ∧ (c.sources s).closed = false ∧
    (c.sources s).provider = k.provider ∧ k.name ∈ (c.sources s).names
  byName : ∀ name s, s ∈ c.byName name ↔ s < c.nSources ∧ (c.sources s).closed = false ∧
    name ∈ (c.sources s).names
  byCaller : ∀ ck i, i ∈ c.byCaller ck ↔ i < c.nStreams ∧ (c.streams i).closed = false ∧
    (c.streams i).caller = ck

theorem indexed_new : Indexed new := by
  constructor <;> intro _ _ <;> simp [new]

theorem Indexed.keeps {c c' : Coordinator} (h : Indexed c) (hk : Keeps c c') : Indexed c' := by
  constructor
  · intro k s
    rw [hk.owners, hk.nSources, (hk.source s).closed, (hk.source s).provider, (hk.source s).names]
    exact h.owners k s
  · intro name s
    rw [hk.byName, hk.nSources, (hk.source s).closed, (hk.source s).names]
    exact h.byName name s
  · intro ck i
    rw [hk.byCaller, hk.nStreams, (hk.stream i).closed, (hk.stream i).caller]
    exact h.byCaller ck i

theorem Indexed.claim {c : Coordinator} (h : Indexed c) {provider : String} {names : List String}
    (ho : c.owned provider names = false) : Indexed (c.claim provider names) := by
  have hfree : ∀ k : OfferingKey, k.provider = provider → k.name ∈ names → c.owners k = none := by
    intro k hp hn
    have := List.any_eq_false.mp ho k.name hn
    rw [← hp] at this
    simpa [keyOf] using this
  have hself : (c.claim provider names).sources c.nSources = { provider, names } :=
    update_self ..
  have hne : ∀ s, s ≠ c.nSources → (c.claim provider names).sources s = c.sources s :=
    fun s hs => update_of_ne hs ..
  have hn : (c.claim provider names).nSources = c.nSources + 1 := rfl
  constructor
  · intro k s
    by_cases hs : s = c.nSources
    · subst hs
      have hold : ¬c.owners k = some c.nSources := fun he =>
        Nat.lt_irrefl _ ((h.owners k _).mp he).1
      rw [hself, hn]
      simp only [Coordinator.claim]
      split
      · rename_i hk
        simp [hk.1, hk.2]
      · rename_i hk
        refine iff_of_false hold ?_
        rintro ⟨_, _, hp, hm⟩
        exact hk ⟨hp.symm, hm⟩
    · rw [hne s hs, hn]
      have hlt : s < c.nSources + 1 ↔ s < c.nSources := by omega
      rw [hlt, ← h.owners k s]
      simp only [Coordinator.claim]
      split
      · rename_i hk
        rw [hfree k hk.1 hk.2]
        simp [Ne.symm hs]
      · exact Iff.rfl
  · intro name s
    by_cases hs : s = c.nSources
    · subst hs
      have hold : c.nSources ∉ c.byName name := fun hm =>
        Nat.lt_irrefl _ ((h.byName name _).mp hm).1
      rw [hself, hn]
      simp only [Coordinator.claim]
      split
      · rename_i hm
        simp [hm]
      · rename_i hm
        simp [hm, hold]
    · rw [hne s hs, hn]
      have hlt : s < c.nSources + 1 ↔ s < c.nSources := by omega
      rw [hlt, ← h.byName name s]
      simp only [Coordinator.claim]
      split
      · simp [hs]
      · exact Iff.rfl
  · exact h.byCaller

theorem Indexed.enroll {c : Coordinator} (h : Indexed c) (caller : String) (names : List String)
    (follow : Bool) : Indexed (c.enroll caller names follow) := by
  refine { h with byCaller := fun ck i => ?_ }
  have hn : (c.enroll caller names follow).nStreams = c.nStreams + 1 := rfl
  have hmem : i ∈ (c.enroll caller names follow).byCaller ck ↔
      i ∈ c.byCaller ck ∨ ck = caller ∧ i = c.nStreams := by
    simp only [Coordinator.enroll]
    by_cases hck : ck = caller
    · subst hck
      simp
    · simp [hck]
  rw [hmem, hn, h.byCaller]
  by_cases hi : i = c.nStreams
  · subst hi
    have hself : (c.enroll caller names follow).streams c.nStreams =
        { caller, services := names.toFinset, follow } := update_self ..
    rw [hself]
    constructor
    · rintro (⟨hlt, _⟩ | ⟨hck, _⟩)
      · exact absurd hlt (Nat.lt_irrefl _)
      · exact ⟨Nat.lt_succ_self _, rfl, hck.symm⟩
    · rintro ⟨_, _, hck⟩
      exact .inr ⟨hck.symm, rfl⟩
  · have hne : (c.enroll caller names follow).streams i = c.streams i := update_of_ne hi ..
    have hlt : i < c.nStreams + 1 ↔ i < c.nStreams := by omega
    rw [hne, hlt]
    simp [hi]

theorem closed_dropSource (t : ℕ) :
    SameSource { c.sources t with closed := (c.sources t).closed || decide (t = s) }
      ((c.dropSource s).sources t) := by
  have h : (c.dropSource s).sources t = (c.markClosed s).sources t := rfl
  rw [h]
  unfold markClosed
  by_cases ht : t = s
  · subst ht
    rw [sources_modSource_self]
    exact ⟨rfl, rfl, by simp⟩
  · rw [sources_modSource_of_ne _ ht]
    exact ⟨rfl, rfl, by simp [ht]⟩

theorem sameStream_dropSource : SameStream (c.streams i) ((c.dropSource s).streams i) := by
  have h := sameStream_section (section_closeSource c s i)
  have hk := (keeps_closeSource c s).stream i
  exact ⟨hk.caller.symm.trans h.caller, hk.services.symm.trans h.services,
    hk.follow.symm.trans h.follow, hk.closed.symm.trans h.closed⟩

section

variable {c : Coordinator} (h : Indexed c)
include h

theorem Indexed.dropSource (s : ℕ) : Indexed (c.dropSource s) := by
  have hprov : ((c.markClosed s).sources s).provider = (c.sources s).provider := by
    rw [markClosed, sources_modSource_self]
  have hnames : ((c.markClosed s).sources s).names = (c.sources s).names := by
    rw [markClosed, sources_modSource_self]
  have hn : (c.dropSource s).nSources = c.nSources := rfl
  constructor
  · intro k t
    have hsrc := closed_dropSource c s t
    have hown : (c.dropSource s).owners k = some t ↔ c.owners k = some t ∧ t ≠ s := by
      simp only [Coordinator.dropSource, releaseSource]
      rw [hprov, hnames]
      have hm : (c.markClosed s).owners k = c.owners k := rfl
      rw [hm]
      split
      · rename_i hk
        rw [hk.2.2]
        simp [eq_comm]
      · rename_i hk
        refine ⟨fun he => ⟨he, ?_⟩, And.left⟩
        rintro rfl
        have := (h.owners k t).mp he
        exact hk ⟨this.2.2.1.symm, this.2.2.2, he⟩
    rw [hown, h.owners, hsrc.closed, hsrc.provider, hsrc.names, hn]
    simp only [Bool.or_eq_false_iff, decide_eq_false_iff_not]
    constructor
    · rintro ⟨⟨h₁, h₂, h₃, h₄⟩, hne⟩
      exact ⟨h₁, ⟨h₂, hne⟩, h₃, h₄⟩
    · rintro ⟨h₁, ⟨h₂, hne⟩, h₃, h₄⟩
      exact ⟨⟨h₁, h₂, h₃, h₄⟩, hne⟩
  · intro name t
    have hsrc := closed_dropSource c s t
    have hby : t ∈ (c.dropSource s).byName name ↔ t ∈ c.byName name ∧ t ≠ s := by
      simp only [Coordinator.dropSource, releaseSource]
      rw [hnames]
      have hm : (c.markClosed s).byName name = c.byName name := rfl
      rw [hm]
      split
      · simp
      · rename_i hk
        refine ⟨fun he => ⟨he, ?_⟩, And.left⟩
        rintro rfl
        exact hk ((h.byName name t).mp he).2.2
    rw [hby, h.byName, hsrc.closed, hsrc.names, hn]
    simp only [Bool.or_eq_false_iff, decide_eq_false_iff_not]
    constructor
    · rintro ⟨⟨h₁, h₂, h₃⟩, hne⟩
      exact ⟨h₁, ⟨h₂, hne⟩, h₃⟩
    · rintro ⟨h₁, ⟨h₂, hne⟩, h₃⟩
      exact ⟨⟨h₁, h₂, h₃⟩, hne⟩
  · intro ck i
    have hst := sameStream_dropSource c s i
    rw [hst.closed, hst.caller]
    exact h.byCaller ck i

theorem Indexed.dropStream (i : ℕ) : Indexed (c.dropStream i) := by
  refine { h with byCaller := fun ck j => ?_ }
  have hn : (c.dropStream i).nStreams = c.nStreams := rfl
  have hby : j ∈ (c.dropStream i).byCaller ck ↔ j ∈ c.byCaller ck ∧ j ≠ i := by
    simp only [Coordinator.dropStream, unenroll, modStream]
    by_cases hck : ck = (c.streams i).caller
    · rw [hck, update_self]
      simp
    · rw [update_of_ne hck]
      refine ⟨fun hm => ⟨hm, ?_⟩, And.left⟩
      rintro rfl
      exact hck ((h.byCaller ck j).mp hm).2.2.symm
  rw [hby, h.byCaller, hn]
  unfold Coordinator.dropStream
  by_cases hj : j = i
  · subst hj
    rw [streams_modStream_self]
    refine iff_of_false (fun hm => hm.2 rfl) fun hm => ?_
    exact Bool.false_ne_true hm.2.1.symm
  · rw [streams_modStream_of_ne _ hj]
    exact and_iff_left hj

theorem Indexed.indexStep (op : Op) : Indexed (c.indexStep op) := by
  unfold Coordinator.indexStep
  split
  · exact h.dropSource _
  · exact h.dropStream _
  · unfold indexAdd
    split
    · split
      · rename_i ho
        exact h.claim ho.2
      · exact h
    · exact h.enroll _ _ _
    · exact h

theorem Indexed.step (d : Draws) (op : Op) : Indexed (c.step d op) :=
  (h.indexStep op).keeps (step_keeps d c op)

end

theorem indexed_exec (ops : List Op) : Indexed (exec d ops) := by
  induction ops with
  | nil => exact indexed_new
  | cons op ops ih => exact ih.step d op

/-! ## What becomes of the sources and streams -/

def discovers : Op → Option Stream
  | .discover caller names follow _ => some { caller, services := names.toFinset, follow }
  | _ => none

variable (c : Coordinator)

theorem nStreams_step (op : Op) : (c.step d op).nStreams = c.nStreams + (discovers op).toList.length := by
  rw [(step_keeps d c op).nStreams]
  cases op with
  | discover caller names follow members => rfl
  | register provider names order =>
    simp only [indexStep, sourceCloses, streamCloses, indexAdd]
    split <;> rfl
  | _ =>
    unfold indexStep
    split <;> rfl

theorem nSources_step (op : Op) : c.nSources ≤ (c.step d op).nSources := by
  rw [(step_keeps d c op).nSources]
  unfold indexStep
  split
  · exact le_rfl
  · exact le_rfl
  · unfold indexAdd
    split
    · split
      · exact Nat.le_succ _
      · exact le_rfl
    · exact le_rfl
    · exact le_rfl

theorem nStreams_le (op : Op) : c.nStreams ≤ (c.step d op).nStreams := by
  rw [nStreams_step]
  exact Nat.le_add_right _ _

theorem eq_discover_of_new (op : Op) {i : ℕ} (hi : i < (c.step d op).nStreams) (hlt : ¬i < c.nStreams) :
    i = c.nStreams ∧ ∃ caller names follow members, op = .discover caller names follow members := by
  rw [nStreams_step] at hi
  cases op with
  | discover caller names follow members =>
    have hi' : i < c.nStreams + 1 := hi
    exact ⟨by omega, caller, names, follow, members, rfl⟩
  | _ => exact absurd hi hlt

/-- A stream that an operation brings into being has only been accounted for. -/
theorem step_newStream (op : Op) {bare : Stream} (h : discovers op = some bare) :
    bare.Settled ((c.step d op).streams c.nStreams) := by
  cases op with
  | discover caller names follow members =>
    cases h
    exact (streams_discoverSwarm d c caller names follow members).1
  | _ => cases h

/-- An existing source keeps its provider and names, and is closed when the operation
closes it. -/
theorem step_source (op : Op) {s : ℕ} (hs : s < c.nSources) : SameSource { c.sources s with
      closed := (c.sources s).closed || decide (c.sourceCloses op = some s) }
      ((c.step d op).sources s) := by
  have hk := (step_keeps d c op).source s
  refine SameSource.trans ?_ hk
  have hnone : c.sourceCloses op = none → SameSource { c.sources s with
      closed := (c.sources s).closed || decide (c.sourceCloses op = some s) } (c.sources s) := by
    intro hcl
    exact ⟨rfl, rfl, by simp [hcl]⟩
  unfold indexStep
  split
  · rename_i t hcl
    simpa [hcl, eq_comm] using closed_dropSource c t s
  · rename_i hcl _
    exact hnone hcl
  · rename_i hcl _
    refine (hnone hcl).trans ?_
    have hclaim : ∀ provider names, SameSource (c.sources s) ((c.claim provider names).sources s) := by
      intro provider names
      have : (c.claim provider names).sources s = c.sources s :=
        update_of_ne (Nat.ne_of_lt hs) ..
      rw [this]
      exact .refl _
    unfold indexAdd
    split
    · split
      · exact hclaim _ _
      · exact .refl _
    · exact .refl _
    · exact .refl _

end Coordinator

end Astrald.Services
