import Astrald.Services.Consumer
import Mathlib.Logic.Relation

/-!
# Operations, edit by edit

Every operation is a sequence of small edits of one stream, one source, one member or the tables. What is to be
shown of all operations is then shown of each edit.

* `Edit`: the edits, with the `Scope` they keep to;
* `edits_step`: an operation is a sequence of edits, after a registration has claimed its names. It takes out
  what `goneBy` lists: the obligations whose source or stream closes, and those whose budget expires.
-/

namespace Astrald.Services

open List

/-- The edits of a stream, with what is known where they are made: a `fresh` stream may get obligations. -/
inductive Stream.Edit (fresh retracts : Prop) (st : Stream) : Stream → Prop
  | starts (caller : String) (services : Finset String) (follow : Bool) : Edit fresh retracts st
    { caller, services, follow }
  | opens (o : ℕ) (h : fresh) : Edit fresh retracts st (Coordinator.opening o st)
  | joins (rs : List ℕ) : Edit fresh retracts st { st with remotes := rs }
  | ends (o : ℕ) (service : String) : Edit fresh retracts st (st.record (.ended o service))
  | fails (e : Event) (service : String) (he : e.fails = some service)
    (hgoing : st.attempt.opened ≠ [] ∨ st.attempt.resolved = false) :
    Edit fresh retracts st ((st.record e).markFailed service)
  | deletes (o : ℕ) : Edit fresh retracts st (st.deleteOpen o)
  | finishes (hr : st.attempt.resolved = false) (ho : st.attempt.opened = []) : Edit fresh retracts st st.finish
  | shuts : Edit fresh retracts st st.shut
  | wakes : Edit fresh retracts st { st with wake := true }
  | offers (k : OfferingKey) (u : Update) : Edit fresh retracts st (st.offer k u)
  | retracts (k : OfferingKey) (h : retracts) : Edit fresh retracts st (st.retract k)
  | loses (provider : String) (names : List String) : Edit fresh retracts st (st.lose provider names)
  | runs (hw : st.writer = .idle) : Edit fresh retracts st st.runTurn
  | awakes : Edit fresh retracts st { st with writer := .idle, wake := false }
  | sends (out : Output) (hw : st.writer = .writing out) :
    Edit fresh retracts st { st.sent out with writer := .idle }
  | returns : Edit fresh retracts st { st with writer := .returned }

/-- The edits of a source: only obligations in `gone` leave a slot without an ask. -/
inductive Source.Edit (draw : ℕ → ℕ) (gone : ℕ → Prop) (src : Source) : Source → Prop
  | slot (ck : String) : Edit draw gone src (src.slot ck)
  | work (ck : String) (f : Slot → Slot) (hdirty : ∀ sl, sl.dirty ⊆ (f sl).dirty)
    (hinit : ∀ sl, ∀ p ∈ sl.initial, ¬gone p.2 → p ∈ (f sl).initial) : Edit draw gone src (src.modifySlot ck f)
  | collect (ck : String) : Edit draw gone src (src.collect ck)
  | issue (ck service : String) : Edit draw gone src (src.issue draw ck (src.slotAt ck) service)
  | retire (id : ℕ) : Edit draw gone src (src.retire id)
  | erase (id o : ℕ) : Edit draw gone src { src with
    reqs := Function.update src.reqs id { src.reqs id with obls := (src.reqs id).obls.erase o } }
  | close : Edit draw gone src { src with closed := true }
  | settle (pending : List ℕ) : Edit draw gone src { src with pending }
  | clear (hc : src.closed = true) : Edit draw gone src { src with slots := ∅ }
  | turn (h : src.sender = .idle) : Edit draw gone src (Coordinator.sendTurn src)
  | awake (h : src.sender = .waiting) : Edit draw gone src { src with sender := .idle, askWake := false }
  | sent (ask : Ask) (h : src.sender = .sending ask) :
    Edit draw gone src { src with sent := src.sent ++ [ask], sender := .idle }
  | returned (hc : src.closed = true) : Edit draw gone src { src with sender := .returned }

/-- What an operation takes out of a member's set of contributed keys. -/
def Op.forgets : Op → ℕ → OfferingKey → Prop
  | .remoteRemove r keys, r', k => r' = r ∧ k ∈ keys
  | .remoteLost r, r', _ => r' = r
  | _, _, _ => False

namespace Coordinator

open Relation (ReflTransGen)

/-- What may be taken out and what may come: the obligations that leave their containers, the keys that members
lose, whether members join, and the streams that get obligations. -/
structure Scope where
  gone : ℕ → Prop
  forgets : ℕ → OfferingKey → Prop
  joins : Prop
  fresh : ℕ → Prop

namespace Scope

def any : Scope := ⟨fun _ => True, fun _ _ => True, True, fun _ => True⟩

def none : Scope := ⟨fun _ => False, fun _ _ => False, False, fun _ => False⟩

abbrev stream (x : Scope) (i : ℕ) : Stream → Stream → Prop := Stream.Edit (x.fresh i) (∃ r k, x.forgets r k)

/-- The edits of a source that draws its ids from `draw`. -/
abbrev source (x : Scope) (draw : ℕ → ℕ) : Source → Source → Prop := Source.Edit draw x.gone

end Scope

inductive Edit (d : Draws) (x : Scope) (c : Coordinator) : Coordinator → Prop
  | stream (i : ℕ) (f : Stream → Stream) (h : x.stream i (c.streams i) (f (c.streams i))) :
    Edit d x c (c.modStream i f)
  | source (s : ℕ) (f : Source → Source) (h : ReflTransGen (x.source (d.id s)) (c.sources s) (f (c.sources s))) :
    Edit d x c (c.modSource s f)
  | remote (r : ℕ) (f : Remote → Remote) (hst : ∀ rm, (f rm).st = rm.st)
    (hk : ∀ rm, ∀ k ∈ rm.keys, ¬x.forgets r k → k ∈ (f rm).keys) : Edit d x c (c.modRemote r f)
  | issue (s : ℕ) (ck service : String) : Edit d x c (c.issue d s ck service)
  | release (s : ℕ) : Edit d x c (c.releaseSource s)
  | deliver (s : ℕ) (req : Request) (u : Update) : Edit d x c (c.deliver s req u)
  | enroll (caller : String) (names : List String) (follow : Bool) : Edit d x c (c.enroll caller names follow)
  | unenroll (i : ℕ) : Edit d x c (c.unenroll i)
  | oblige (i : ℕ) (ck name : String) (s : ℕ) (hi : x.fresh i) : Edit d x c (oblige i ck name c s)
  | obligeRemote (i r : ℕ) (name : String) (hi : x.fresh i) : Edit d x c (obligeRemote i r c name)
  | member (i : ℕ) (member : String) (hj : x.joins) : Edit d x c
    { c with remotes := Function.update c.remotes c.nRemotes { st := i, member }, nRemotes := c.nRemotes + 1 }

abbrev Edits (d : Draws) (x : Scope) : Coordinator → Coordinator → Prop := ReflTransGen (Edit d x)

variable {d : Draws} {x : Scope} {o : ℕ}

theorem Edits.stream {c c' : Coordinator} (h : Edits d x c c') (i : ℕ) :
    ReflTransGen (x.stream i) (c.streams i) (c'.streams i) := by
  induction h with
  | refl => exact .refl
  | tail _ hone ih =>
    refine ih.trans ?_
    cases hone with
    | stream j f hf =>
      by_cases hij : i = j
      · subst hij
        rw [streams_modStream_self]
        exact .single hf
      · rw [streams_modStream_of_ne _ hij]
    | release s =>
      refine Trace.when_keeps .refl fun _ => ?_
      exact .single (.loses _ _)
    | deliver s req u =>
      refine Trace.when_keeps .refl fun _ => ?_
      exact .single (.offers _ u)
    | enroll caller names follow =>
      simp only [enroll, Function.update_apply]
      split
      · exact .single (.starts caller _ follow)
      · exact .refl
    | oblige j ck name s hj | obligeRemote j r name hj =>
      simp only [oblige, obligeRemote, modStream, Function.update_apply]
      split
      · rename_i hij
        subst hij
        exact .single (.opens _ hj)
      · exact .refl
    | _ => exact .refl

theorem Edits.source {c c' : Coordinator} (h : Edits d x c c') (s : ℕ) :
    ReflTransGen (x.source (d.id s)) (c.sources s) (c'.sources s) := by
  induction h with
  | refl => exact .refl
  | tail _ hone ih =>
    refine ih.trans ?_
    cases hone with
    | source t f hf =>
      by_cases hst : s = t
      · subst hst
        rw [sources_modSource_self]
        exact hf
      · rw [sources_modSource_of_ne _ hst]
    | issue t ck service =>
      simp only [issue, modSource, Function.update_apply]
      split
      · rename_i hst
        subst hst
        exact .single (.issue ck service)
      · exact .refl
    | oblige i ck name t =>
      simp only [oblige, modStream, modSource, Function.update_apply]
      split
      · rename_i hst
        subst hst
        exact .head (.slot ck) (.single (.work ck _ (fun _ => Finset.Subset.refl _) fun _ _ hp _ =>
          mem_append_left _ hp))
      · exact .refl
    | _ => exact .refl

/-- What every edit keeps, edits keep. -/
theorem keep {α : Type} {r : α → α → Prop} {P : α → Prop} (hone : ∀ a b, r a b → P a → P b) {a b : α}
    (h : ReflTransGen r a b) (ha : P a) : P b := by
  induction h with
  | refl => exact ha
  | tail _ hr ih => exact hone _ _ hr ih

theorem edits_foldl {α : Type} {f : Coordinator → α → Coordinator} (l : List α)
    (hf : ∀ c, ∀ a ∈ l, Edits d x c (f c a)) (c : Coordinator) : Edits d x c (l.foldl f c) :=
  Fold.foldl_rel_mem (fun _ => .refl) ReflTransGen.trans l hf c

/-- An operation that is not enabled changes nothing. -/
theorem edits_ite {c c' : Coordinator} {p : Prop} [Decidable p] (h : p → Edits d x c c') :
    Edits d x c (if p then c' else c) := Trace.when_keeps .refl h

theorem edits_unless {c c' : Coordinator} {p : Prop} [Decidable p] (h : ¬p → Edits d x c c') :
    Edits d x c (if p then c else c') := Trace.unless_keeps .refl h

variable (c : Coordinator)

theorem edits_stream (i : ℕ) (f : Stream → Stream) (h : x.stream i (c.streams i) (f (c.streams i))) :
    Edits d x c (c.modStream i f) := .single (.stream i f h)

theorem edits_source (s : ℕ) (f : Source → Source) (h : x.source (d.id s) (c.sources s) (f (c.sources s))) :
    Edits d x c (c.modSource s f) := .single (.source s f (.single h))

/-! ## Ending obligations -/

theorem edits_unlink (ho : x.gone o) : Edits d x c (c.unlink o) := by
  unfold unlink
  dsimp only
  split
  · exact .single (.remote _ _ (fun _ => rfl) fun _ _ hk _ => hk)
  · exact edits_source c _ _ (.erase _ o)
  · refine edits_source c _ _ (.work _ _ (fun _ => Finset.Subset.refl _) fun sl p hp hg => ?_)
    refine (mem_erase_of_ne fun he => hg ?_).mpr hp
    rw [he]
    exact ho

theorem edits_detach (ho : x.gone o) : Edits d x c (c.detach o) :=
  (edits_unlink c ho).trans (edits_stream _ _ _ (.deletes o))

theorem edits_collect (s : ℕ) (ck : String) : Edits d x c (c.collect s ck) := edits_source c s _ (.collect ck)

theorem edits_detachCollect (ho : x.gone o) : Edits d x c (c.detachCollect o) := by
  unfold detachCollect
  split
  · exact edits_detach c ho
  · exact (edits_detach c ho).trans (edits_collect _ _ _)

theorem edits_settle (i : ℕ) : Edits d x c (c.settle i) :=
  edits_ite fun h => edits_stream c i _ (.finishes h.2 h.1)

theorem edits_endObligation (ho : x.gone o) : Edits d x c (c.endObligation o) :=
  edits_ite fun _ => ((edits_stream c _ _ (.ends o _)).trans (edits_detach _ ho)).trans (edits_settle _ _)

theorem edits_fail (ho : x.gone o) : Edits d x c (c.fail o) := by
  refine edits_ite fun hopen => ?_
  refine ((edits_stream c _ _ (.fails _ _ rfl (.inl ?_))).trans (edits_detach _ ho)).trans (edits_settle _ _)
  exact ne_nil_of_mem hopen

theorem edits_fails (l : List ℕ) (hl : ∀ o ∈ l, x.gone o) : Edits d x c (l.foldl fail c) :=
  edits_foldl l (fun c o ho => edits_fail c (hl o ho)) c

/-- The loop of `budgetExpired`, over obligations of a stream whose attempt is going on. -/
theorem edits_expires {j : ℕ} (l : List ℕ) (hl : ∀ o ∈ l, x.gone o ∧ (c.obligations o).st = j)
    (hr : (c.streams j).attempt.resolved = false) :
    Edits d x c (l.foldl expire c) ∧ ((l.foldl expire c).streams j).attempt.resolved = false := by
  refine (List.foldlRecOn (motive := fun c' => Edits d x c c' ∧ c'.obligations = c.obligations ∧
    (c'.streams j).attempt.resolved = false) l expire ⟨.refl, rfl, hr⟩ fun c' ⟨he, hob, hr'⟩ o ho => ?_).imp_right
    And.right
  obtain ⟨hgo, hst⟩ := hl o ho
  rw [← hob] at hst
  have hone : Edits d x c' (c'.expire o) :=
    (edits_stream c' _ _ (.fails _ _ rfl (.inr (hst ▸ hr')))).trans (edits_detachCollect _ hgo)
  exact ⟨he.trans hone, (frame_expire c' o).obligations.trans hob, (acct_expire c' o j).resolved.trans hr'⟩

theorem edits_budgetExpired {lax : Prop} {c : Coordinator} (hw : Wf d (.tight lax) c) (j : ℕ)
    (hg : ¬((c.streams j).attempt.resolved || (c.streams j).closed) = true →
      ∀ o ∈ (c.streams j).attempt.opened, x.gone o) : Edits d x c (c.budgetExpired j) := by
  have hidle := (hw.budgetExpired j).past j
  unfold budgetExpired at hidle ⊢
  refine edits_unless fun hopen => ?_
  rw [if_neg hopen, streams_modStream_self] at hidle
  obtain ⟨hloop, hr⟩ := edits_expires (x := x) c _
    (fun o ho => ⟨hg hopen o ho, (hw.known j o ho).2⟩) (by simp at hopen; exact hopen.1)
  exact hloop.trans (edits_stream _ j _ (.finishes hr (hidle (.inl rfl))))

theorem edits_schedule (s : ℕ) (ck : String) : Edits d x c (c.schedule d s ck) := by
  rcases schedule_cases d c s ck with ⟨heq, _⟩ | ⟨heq, _⟩ | ⟨service, heq, _⟩ <;> rw [heq]
  · exact edits_collect c s ck
  · exact .single (.issue s ck service)

/-! ## Closing -/

theorem edits_closeStream (i : ℕ)
    (hg : (c.streams i).closed = false → ∀ o ∈ (c.streams i).attempt.opened, x.gone o) : Edits d x c (c.closeStream i) := by
  have hun : Edits d x c (c.unenroll i) := .single (.unenroll i)
  refine edits_unless fun hc => Relation.ReflTransGen.trans ?_ (edits_stream _ i _ .shuts)
  split
  · exact hun
  · exact hun.trans (edits_foldl _ (fun c o ho => edits_detachCollect c (hg (by simpa using hc) o ho)) _)

/-- The offerings of a source that closes are lost, and what belongs to it. -/
theorem edits_closeSource {c : Coordinator} (hw : Wf d (.tight True) c) (t : ℕ)
    (hg : ∀ o ck, (c.obligations o).home = .slot t ck → x.gone o) : Edits d x c (c.closeSource t) := by
  have hw₁ := hw.markClosed t
  have hc₁ : ((c.markClosed t).sources t).closed = true := by
    rw [markClosed, sources_modSource_self]
  have hasked : Edits d x (c.markClosed t) ((c.markClosed t).failAsked t) := by
    refine (edits_fails _ _ fun o ho => ?_).trans (edits_source _ t _ (.settle []))
    obtain ⟨id, _, hmem⟩ := mem_flatMap.mp ho
    exact hg o _ (hw₁.matched t id o hmem).1
  have hwait : Edits d x ((c.markClosed t).failAsked t) (c.failSource t) := by
    obtain ⟨hw₂, _⟩ := hw₁.failAsked hc₁
    have hob : ((c.markClosed t).failAsked t).obligations = c.obligations :=
      (frame_fails _ (c.markClosed t)).obligations
    unfold failSource failWaiting
    refine (edits_fails _ _ fun o ho => ?_).trans (edits_source _ t _ (.clear ?_))
    · obtain ⟨e, he, hmem⟩ := mem_flatMap.mp ho
      obtain ⟨p, hp, rfl⟩ := mem_map.mp hmem
      have hat : (((c.markClosed t).failAsked t).sources t).slotAt e.1 = e.2 :=
        Source.slotAt_of_lookup (AList.mem_lookup_iff.mpr he)
      have hplace := (hw₂.held (.initial t e.1 p.1) p.2 (by rw [holds, hat]; exact hp)).2
      refine hg p.2 e.1 ?_
      rw [← hob]
      unfold place placeOf at hplace
      split at hplace <;> simp_all
    · have hcl := ((frame_fails (waitingObligations (((c.markClosed t).failAsked t).sources t))
        ((c.markClosed t).failAsked t)).source t).closed
      rw [hcl, failAsked, sources_modSource_self]
      exact ((frame_fails _ (c.markClosed t)).source t).closed.trans hc₁
  rw [closeSource_eq]
  exact (((edits_source c t _ .close).trans hasked).trans hwait).tail (.release t)

theorem edits_closeOnce {c : Coordinator} (hw : Wf d (.tight True) c) (t : ℕ)
    (hg : (c.sources t).closed = false → ∀ o ck, (c.obligations o).home = .slot t ck → x.gone o) :
    Edits d x c (c.closeOnce t) :=
  edits_unless fun hc => edits_closeSource hw t (hg (by simpa using hc))

/-! ## Registering and discovering -/

theorem edits_marks (t : ℕ) (ck : String) (names : List String) :
    Edits d x c (c.modSource t fun src => names.foldl (fun src name => src.markDirty ck name) (src.slot ck)) := by
  refine .single (.source t _ (.head (.slot ck) ?_))
  refine Fold.foldl_rel (fun _ => .refl) ReflTransGen.trans (fun src name => .single ?_) names _
  exact .work ck _ (fun _ => Finset.subset_insert _ _) fun _ _ hp _ => hp

theorem edits_refreshName (t : ℕ) (ck : String) (c : Coordinator) (name : String) :
    Edits d x c (refreshName d t ck c name) :=
  (edits_marks c t ck [name]).trans (edits_schedule _ t ck)

theorem edits_followDirty (t : ℕ) (c : Coordinator) (i : ℕ) : Edits d x c (followDirty d t c i) :=
  edits_ite fun _ => edits_foldl _ (fun c name _ => edits_refreshName t _ c name) c

theorem edits_refresh (t : ℕ) (c : Coordinator) (ck : String) : Edits d x c (refresh d t c ck) :=
  edits_unless fun _ => (edits_marks c t ck _).trans (edits_schedule _ t ck)

theorem edits_obligeName {i : ℕ} (hi : x.fresh i) (ck : String) (c : Coordinator) (name : String) :
    Edits d x c (obligeName i ck c name) :=
  edits_foldl _ (fun _ s _ => .single (.oblige i ck name s hi)) c

theorem edits_enrollMember {i : ℕ} (hi : x.fresh i) (hj : x.joins) (names : List String) (c : Coordinator)
    (member : String) : Edits d x c (enrollMember i names c member) := by
  have hnames := edits_foldl (d := d) (x := x) names
    (f := obligeRemote i c.nRemotes) fun c' name _ => .single (.obligeRemote i c.nRemotes name hi)
  unfold enrollMember
  exact .trans (.head (.member i member hj) (hnames _)) (edits_stream _ i _ (.joins _))

theorem edits_obligeAll {i : ℕ} (hi : x.fresh i) (ck : String) (names members : List String)
    (hj : members ≠ [] → x.joins) : Edits d x c (c.obligeAll i ck names members) := by
  refine (edits_foldl names (fun c name _ => edits_obligeName hi ck c name) c).trans
    (edits_foldl members (fun c member hm => edits_enrollMember hi (hj (ne_nil_of_mem hm)) names c member) _)

section

variable (caller : String) (names : List String) (follow : Bool) (members : List String)

/-- The end of `DiscoverSwarm`: the schedules, and the boundary of an empty attempt. -/
theorem edits_discoverSwarm_obliged :
    Edits d x ((c.enroll caller names follow).obligeAll c.nStreams caller names members)
      (c.discoverSwarm d caller names follow members) := by
  have hsched : ∀ c' : Coordinator, Edits d x c' (scheduleAll d caller c' (c.touched names)) :=
    edits_foldl _ fun c' t _ => edits_schedule c' t caller
  unfold discoverSwarm
  dsimp only
  split
  · rename_i ho
    refine (hsched _).trans (edits_stream _ _ _ (.finishes ?_ ho))
    rw [streams_scheduleAll]
    refine (opens_obligeAll (c.enroll caller names follow) c.nStreams caller names members).1.resolved.trans ?_
    simp [enroll]
  · exact hsched _

theorem edits_discoverSwarm (hi : x.fresh c.nStreams) (hj : members ≠ [] → x.joins) :
    Edits d x c (c.discoverSwarm d caller names follow members) :=
  .head (.enroll caller names follow) ((edits_obligeAll _ hi _ _ members hj).trans
    (edits_discoverSwarm_obliged c caller names follow members))

end

/-! ## What providers and members send -/

theorem edits_answer {c : Coordinator} (hw : Wf d (.tight True) c) {t : ℕ} (ht : t < c.nSources) (a : Answer)
    (hobls : ∀ o ∈ ((c.sources t).reqs a.requestID).obls, x.gone o)
    (hclose : c.sourceCloses (.answer t a) = some t → ∀ o ck, (c.obligations o).home = .slot t ck → x.gone o) :
    Edits d x c (c.answer d t a).1 := by
  unfold answer
  dsimp only
  split
  · exact .refl
  · rename_i hopen
    simp only [Bool.or_eq_true, decide_eq_true_eq, not_or, Bool.not_eq_true, not_not] at hopen
    split
    · rename_i hnone
      refine edits_closeSource hw t (hclose ?_)
      simp [sourceCloses, ht, hopen.1, hopen.2, acceptable, hnone]
    · split
      · rename_i hacc
        refine edits_closeSource hw t (hclose ?_)
        simp [sourceCloses, ht, hopen.1, hopen.2, Bool.not_eq_true' _ ▸ hacc]
      · exact (((edits_source c t _ (.retire a.requestID)).tail (.deliver t _ _)).trans
          (edits_foldl _ (fun c o ho => edits_endObligation c (hobls o ho)) _)).trans (edits_schedule _ t _)

theorem edits_change {c : Coordinator} (hw : Wf d (.tight True) c) {t : ℕ} (ch : Change) (order : List String)
    (hclose : (c.sources t).closed = false → ch.valid = false →
      ∀ o ck, (c.obligations o).home = .slot t ck → x.gone o) : Edits d x c (c.change d t ch order).1 := by
  unfold change
  split
  · exact .refl
  · rename_i hc
    split
    · rename_i hv
      exact edits_closeSource hw t (hclose (by simpa using hc) (by simpa using hv))
    · exact edits_foldl _ (fun c ck _ => edits_refresh t c ck) c

theorem edits_requestExpired (t id : ℕ) (hobls : ∀ o ∈ ((c.sources t).reqs id).obls, x.gone o) :
    Edits d x c (c.requestExpired d t id) :=
  edits_unless fun _ => ((edits_source c t _ (.retire id)).trans (edits_fails _ _ hobls)).trans (edits_schedule _ t _)

theorem edits_remoteOffer (r : ℕ) (u : Update) : Edits d x c (c.remoteOffer r u) := by
  unfold remoteOffer
  split
  · exact .refl
  · refine edits_unless fun _ => .tail (.single (.remote r _ ?_ ?_)) (.stream _ _ (.offers _ u))
    · exact fun _ => rfl
    · exact fun rm k hk _ => mem_insert_of_mem hk

theorem edits_remoteRemove (r : ℕ) (keys : List OfferingKey) (hk : ∀ k ∈ keys, x.forgets r k) :
    Edits d x c (c.remoteRemove r keys) := by
  refine edits_unless fun _ => (edits_foldl keys (fun c k hmem => ?_) c).tail (.stream _ _ .wakes)
  refine edits_ite fun _ => .tail (.single (.remote r _ ?_ ?_)) (.stream _ _ (.retracts k ⟨r, k, hk k hmem⟩))
  · exact fun _ => rfl
  · intro rm k' hk' hg
    exact mem_filter.mpr ⟨hk', decide_eq_true fun he => hg (he ▸ hk k hmem)⟩

theorem edits_remoteLost (r : ℕ) (hl : ∀ o ∈ remoteObligations (c.remotes r), x.gone o)
    (hk : ∀ k, x.forgets r k) : Edits d x c (c.remoteLost r) := by
  unfold remoteLost
  dsimp only
  split
  · exact edits_fails c _ hl
  · have hretract := edits_foldl (d := d) (x := x) (c.remotes r).keys
      fun c' k _ => .single (.stream (c.remotes r).st (·.retract k) (.retracts k ⟨r, k, hk k⟩))
    refine .tail (.tail ((edits_fails c _ hl).trans (hretract _)) (.remote r _ ?_ ?_)) (.stream _ _ .wakes)
    · exact fun _ => rfl
    · exact fun _ k _ hg => absurd (hk k) hg

/-! ## What an operation may lose -/

/-- The obligation is not waiting in the slot of a source that stays open, or its stream
is closed after the operation, or its budget has expired. -/
def goneBy (d : Draws) (c : Coordinator) (op : Op) (o : ℕ) : Prop :=
  (∀ s ck name, c.place o = .initial s ck name → c.sourceCloses op = some s) ∨
    ((c.step d op).streams (c.obligations o).st).closed = true ∨
    .expired o (c.obligations o).service ∈ ((c.step d op).streams (c.obligations o).st).log

variable {c : Coordinator}

/-- An obligation of a source that closes. -/
theorem goneBy_of_home {op : Op} {t : ℕ} {ck : String} (hc : c.sourceCloses op = some t)
    (hh : (c.obligations o).home = .slot t ck) : goneBy d c op o := by
  refine .inl fun s ck' name hp => ?_
  unfold place placeOf at hp
  rw [hh] at hp
  split at hp <;> simp_all

/-- An obligation that a request holds. -/
theorem goneBy_of_asked (hw : Wf d (.tight True) c) {t id : ℕ} (ho : o ∈ ((c.sources t).reqs id).obls) (op : Op) :
    goneBy d c op o := by
  refine .inl fun s ck name hp => ?_
  have := (hw.held (.request t id) o ho).2
  rw [hp] at this
  cases this

/-- An obligation that a swarm member owes. -/
theorem goneBy_of_remote (hw : Wf d (.tight True) c) {r : ℕ} (ho : o ∈ remoteObligations (c.remotes r))
    (op : Op) : goneBy d c op o := by
  obtain ⟨e, he, rfl⟩ := mem_map.mp ho
  refine .inl fun s ck name hp => ?_
  have := (hw.held (.remote r e.1) e.2 (AList.mem_lookup_iff.mpr he)).2
  rw [hp] at this
  cases this

theorem goneBy_of_closed (hw : Wf d (.tight True) c) {i : ℕ} (ho : o ∈ (c.streams i).attempt.opened) {op : Op}
    (hc : ((c.step d op).streams i).closed = true) : goneBy d c op o := by
  refine .inr (.inl ?_)
  rw [(hw.known i o ho).2]
  exact hc

theorem closed_closeSource (c : Coordinator) (t : ℕ) : ((c.closeSource t).sources t).closed = true := by
  rw [((keeps_closeSource c t).source t).closed, (closed_dropSource c t t).closed]
  simp

theorem closed_closeOnce (c : Coordinator) (t : ℕ) : ((c.closeOnce t).sources t).closed = true := by
  unfold closeOnce
  split
  · assumption
  · exact closed_closeSource c t

theorem closed_closeStream (c : Coordinator) (i : ℕ) : ((c.closeStream i).streams i).closed = true := by
  unfold closeStream
  split
  · assumption
  · dsimp only
    rw [streams_modStream_self]
    rfl

/-- The loop of `budgetExpired` records what it expires. -/
theorem expired_mem (l : List ℕ) (c : Coordinator) {i : ℕ} (ho : o ∈ l) (hst : (c.obligations o).st = i) :
    .expired o (c.obligations o).service ∈ ((l.foldl expire c).streams i).log := by
  induction l generalizing c with
  | nil => exact absurd ho not_mem_nil
  | cons o' l ih =>
    have hob := (frame_expire c o').obligations
    by_cases hm : o ∈ l
    · have := ih (c.expire o') hm (by rw [hob]; exact hst)
      rwa [hob] at this
    · -- recorded now, and the rest of the loop only adds to the history
      have heq : o = o' := (mem_cons.mp ho).resolve_right hm
      subst heq
      have hgrow : ∀ (l : List ℕ) (c : Coordinator), (c.streams i).Acct ((l.foldl expire c).streams i) :=
        fun l c => settled_expires l c i
      have hrec : .expired o (c.obligations o).service ∈ ((c.expire o).streams i).log := by
        have hacct := acct_detachCollect (c.modStream i fun st =>
          (st.record (.expired o (c.obligations o).service)).markFailed (c.obligations o).service) o i
        rw [streams_modStream_self] at hacct
        obtain ⟨_, _, _, es, heq, _⟩ := hacct
        unfold expire
        dsimp only
        rw [hst, heq]
        simp [Stream.record, Stream.markFailed]
      obtain ⟨_, _, _, es, heq, _⟩ := hgrow l (c.expire o)
      rw [foldl_cons, heq]
      exact mem_append_left _ hrec

theorem goneBy_of_budget (hw : Wf d (.tight True) c) {i : ℕ} (ho : o ∈ (c.streams i).attempt.opened)
    (hi : i < c.nStreams) (hr : ¬((c.streams i).attempt.resolved || (c.streams i).closed) = true) :
    goneBy d c (.budgetExpired i) o := by
  have hst := (hw.known i o ho).2
  refine .inr (.inr ?_)
  rw [hst]
  simp only [step, hi, if_true, budgetExpired]
  rw [if_neg hr, streams_modStream_self]
  exact mem_append_left _ (expired_mem _ c ho hst)

/-- The scope of an operation: what `goneBy` and `forgets` list, and new members and streams. -/
def scope (d : Draws) (c : Coordinator) (op : Op) : Scope :=
  ⟨goneBy d c op, op.forgets, op.isLocal = false, fun i => c.nStreams ≤ i⟩

/-- A registration that succeeds claims its names first. -/
def claimed (c : Coordinator) : Op → Coordinator
  | .register provider names order =>
    if order.isPerm c.enrolledStreams ∧ c.owned provider (names.insertionSort (· ≤ ·)) = false then
      c.claim provider (names.insertionSort (· ≤ ·))
    else c
  | _ => c

theorem claimed_eq (op : Op) : (c.claimed op).streams = c.streams ∧ (c.claimed op).remotes = c.remotes ∧
    (c.claimed op).nRemotes = c.nRemotes := by
  unfold claimed
  split
  · split <;> exact ⟨rfl, rfl, rfl⟩
  · exact ⟨rfl, rfl, rfl⟩

/-- **Operations.** After the claim, an operation is a sequence of edits in its scope. -/
theorem edits_step (hw : Wf d (.tight True) c) (op : Op) :
    Edits d (c.scope d op) (c.claimed op) (c.step d op) := by
  cases op with
  | register provider names order =>
    by_cases hp : order.isPerm c.enrolledStreams
    · cases ho : c.owned provider (names.insertionSort (· ≤ ·)) with
      | true => simp [claimed, step, hp, register, ho, Edits, ReflTransGen.refl]
      | false =>
        simp only [claimed, step, hp, register, ho, and_self, if_true, Bool.false_eq_true, if_false]
        exact edits_foldl _ (fun c i _ => edits_followDirty _ c i) _
    · simp [claimed, step, hp, Edits, ReflTransGen.refl]
  | discover caller names follow members =>
    exact edits_discoverSwarm c caller names follow members (le_refl c.nStreams) (by simp [scope, Op.isLocal])
  | answer t a =>
    refine edits_ite fun ht => edits_answer hw ht a (fun o ho => goneBy_of_asked hw ho _) ?_
    exact fun hc o ck hh => goneBy_of_home hc hh
  | change t ch order =>
    refine edits_ite fun ht => edits_change hw ch order fun hc hv o ck hh => goneBy_of_home ?_ hh
    simp [sourceCloses, ht, hc, hv]
  | closeSource t =>
    refine edits_ite fun ht => edits_closeOnce hw t fun hc o ck hh => goneBy_of_home ?_ hh
    simp [sourceCloses, ht, hc]
  | closeStream i =>
    refine edits_ite fun hi => edits_closeStream c i fun _ o ho => goneBy_of_closed hw ho ?_
    simp only [step, hi, if_true, closed_closeStream]
  | run i => exact edits_ite fun hi => edits_stream c i _ (.runs hi.2)
  | awake i => exact edits_ite fun _ => edits_stream c i _ .awakes
  | wrote i =>
    refine edits_ite fun hi => ?_
    cases hwr : (c.streams i).writer with
    | writing out =>
      have hsent : Edits d (c.scope d (.wrote i)) c
          (c.modStream i fun st => { st.sent out with writer := .idle }) := edits_stream c i _ (.sends out hwr)
      by_cases hlast : out.isBoundary ∧ (c.streams i).follow = false
      · have hwrote : c.wrote i =
            ((c.modStream i fun st => { st.sent out with writer := .idle }).closeStream i).modStream i
              fun st => { st with writer := .returned } := by
          simp only [wrote, hwr, if_pos hlast]
        rw [hwrote]
        refine (hsent.trans (edits_closeStream _ i fun _ o ho => ?_)).trans (edits_stream _ i _ .returns)
        rw [streams_modStream_self] at ho
        have ho' : o ∈ (c.streams i).attempt.opened := by
          cases out with
          | boundary inc => exact ho
          | _ => cases hlast.1
        refine goneBy_of_closed hw ho' ?_
        simp only [step, hi, if_true, hwrote, streams_modStream_self, closed_closeStream]
      · simp only [wrote, hwr, if_neg hlast]
        exact hsent
    | _ =>
      simp only [wrote, hwr]
      exact .refl
  | writeFailed i =>
    refine edits_ite fun hi => ?_
    cases hwr : (c.streams i).writer with
    | writing out =>
      simp only [writeFailed, hwr]
      refine (edits_closeStream c i fun _ o ho => goneBy_of_closed hw ho ?_).trans (edits_stream _ i _ .returns)
      simp only [step, hi, if_true, writeFailed, hwr, streams_modStream_self, closed_closeStream]
    | _ =>
      simp only [writeFailed, hwr]
      exact .refl
  | send t =>
    simp only [step]
    split
    · rename_i hidle
      exact edits_ite fun _ => edits_source c t _ (.turn hidle)
    · exact .refl
  | sendAwake t =>
    simp only [step]
    split
    · rename_i hwait
      exact edits_ite fun _ => edits_source c t _ (.awake hwait)
    · exact .refl
  | sendOk t =>
    refine edits_ite fun _ => ?_
    cases hsend : (c.sources t).sender with
    | sending ask =>
      simp only [sendOk, hsend]
      exact edits_source c t _ (.sent ask hsend)
    | _ =>
      simp only [sendOk, hsend]
      exact .refl
  | sendFailed t =>
    refine edits_ite fun ht => ?_
    cases hsend : (c.sources t).sender with
    | sending ask =>
      simp only [sendFailed, hsend]
      refine (edits_closeOnce hw t fun hc o ck hh => goneBy_of_home ?_ hh).trans
        (edits_source _ t _ (.returned (closed_closeOnce c t)))
      simp [sourceCloses, hsend, ht, hc]
    | _ =>
      simp only [sendFailed, hsend]
      exact .refl
  | remoteOffer r u => exact edits_ite fun _ => edits_remoteOffer c r u
  | remoteRemove r keys => exact edits_ite fun _ => edits_remoteRemove c r keys fun _ hk => ⟨rfl, hk⟩
  | remoteInitial r incomplete =>
    refine edits_ite fun _ => edits_foldl _ (fun c' o ho => ?_) c
    split
    · exact edits_fail c' (goneBy_of_remote hw ho _)
    · exact edits_endObligation c' (goneBy_of_remote hw ho _)
  | remoteLost r =>
    exact edits_ite fun _ => edits_remoteLost c r (fun o ho => goneBy_of_remote hw ho _) fun _ => rfl
  | requestExpired t id =>
    exact edits_ite fun _ => edits_requestExpired c t id fun o ho => goneBy_of_asked hw ho _
  | budgetExpired i =>
    exact edits_ite fun hi => edits_budgetExpired hw i fun hr o ho => goneBy_of_budget hw ho hi hr

end Coordinator

end Astrald.Services
