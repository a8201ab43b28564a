import Astrald.Services.Tidy

/-!
# The structural invariant of the coordinator

Every operation of the coordinator keeps `Wf`: the open obligations are where they say,
every slot kept is active, and the gate of every source works.

* `Wf.step`: one operation, from a state whose indexes are exact and whose streams are tidy;
* `wf_exec`: every run in which each discovery lists its names once;
* `structural_exec`: the indexes, the gates, the containers of obligations, what a
  boundary owes, and the queues, in every state of every such run.
-/

namespace Astrald.Services

open List Function

/-- A discovery lists its names once; without swarm members it need not. -/
def Op.distinct : Op → Prop
  | .discover _ names _ members => names.Nodup ∨ members = []
  | _ => True

/-- A change that the obligations of the stream do not notice. -/
def Stream.Calm (st st' : Stream) : Prop := st'.attempt.opened = st.attempt.opened ∧
  st'.attempt.resolved = st.attempt.resolved ∧ st'.closed = st.closed

theorem Stream.Calm.past {st st' : Stream} (h : st.Calm st') (hd : st'.past) : st.past := by
  rwa [Stream.past, h.2.1, h.2.2] at hd

namespace Coordinator

variable {d : Draws} {x : Slack} {c : Coordinator} {lax : Prop}

/-! ## Sources -/

def Slack.only (lax : Prop) (s : ℕ) (ck : String) : Slack :=
  { Slack.tight lax with idle := fun s' ck' => s' = s ∧ ck' = ck }

theorem Wf.only (h : Wf d (.tight lax) c) (s : ℕ) (ck : String) : Wf d (.only lax s ck) c :=
  h.mono fun _ _ => False.elim

variable {s i : ℕ} {c₁ : Coordinator} {ck : String} {names : List String}

/-- A visit puts the one idle slot in order. -/
theorem Wf.visited (h : Wf d ((Slack.only lax s ck).visit s ck) c) : Wf d (.tight lax) c :=
  h.mono fun _ _ hi => hi.2 hi.1

theorem Wf.claim (h : Wf d (.tight lax) c) (provider : String) (names : List String) :
    Wf d (.tight lax) (c.claim provider names) := by
  -- the place of the new source held nothing
  obtain ⟨hpend, hslots⟩ := h.down c.nSources (h.vacantSource _ le_rfl) not_false
  have hobls : ∀ id, ((c.sources c.nSources).reqs id).obls = [] := by
    intro id
    refine eq_nil_iff_forall_not_mem.mpr fun o ho => ?_
    rcases h.asked _ id o ho with hp | hr
    · rw [hpend] at hp
      exact not_mem_nil hp
    · exact hr
  have h₁ : Wf d (.tight lax) { c with nSources := c.nSources + 1 } :=
    { h with vacantSource := fun s hs => h.vacantSource s (Nat.le_of_succ_le hs) }
  have h₂ := h₁.modSource c.nSources (fun _ => { provider, names })
    (fun id => .inr ⟨rfl, hobls id⟩) (fun ck => by simp [Source.slotAt, hslots])
    (Source.sound_empty rfl rfl rfl rfl) (fun hc => by cases hc)
    (fun id o ho => by rw [hobls] at ho; exact absurd ho not_mem_nil)
    (fun hs => absurd hs (Nat.not_succ_le_self _)) (fun _ _ _ hi => hi) (fun _ _ hi => hi)
    fun _ _ hr => hr
  exact h₂.reindex _ _ _

/-- `src'` is `src` with a slot for the caller and some of its names marked. -/
structure Marked (draw : ℕ → ℕ) (idle : String → Prop) (ck : String) (src src' : Source) : Prop where
  slot : ck ∈ src'.slots
  names : src'.names = src.names
  reqs : src'.reqs = src.reqs
  initial : ∀ ck', (src'.slotAt ck').initial = (src.slotAt ck').initial
  sound : src'.Sound draw idle

theorem Marked.markDirty {draw : ℕ → ℕ} {idle : String → Prop} {src src' : Source}
    (h : Marked draw idle ck src src') {name : String} (hn : name ∈ src.names) :
    Marked draw idle ck src (src'.markDirty ck name) where
  slot := (Source.mem_slots_modifySlot src' ck ck _).mpr h.slot
  names := (src'.same_modifySlot ck _).names.trans h.names
  reqs := by
    rw [← h.reqs]
    unfold Source.markDirty Source.modifySlot
    split <;> rfl
  initial ck' := by
    have hat : (src'.markDirty ck name).slotAt ck' = _ := Source.slotAt_modifySlot src' ck ck'
      (fun sl => { sl with dirty := insert name sl.dirty }) (.inl h.slot)
    rw [hat, ← h.initial]
    split
    · rename_i hk
      rw [hk]
    · rfl
  sound := by
    refine h.sound.modify ck (.inl h.slot) (fun _ => rfl) (fun sl p hp => .inl hp) fun sl n hm => ?_
    rcases Finset.mem_insert.mp hm with rfl | hm
    · exact .inr (h.names ▸ hn)
    · exact .inl hm

theorem Wf.dirty (h : Wf d (.only lax s ck) c) (names : List String) (hc : (c.sources s).closed = false)
    (hn : ∀ name ∈ names, name ∈ (c.sources s).names) :
    Wf d (.only lax s ck) (c.modSource s fun src =>
      names.foldl (fun src name => src.markDirty ck name) (src.slot ck)) := by
  have hsame := ((c.sources s).same_slot ck).trans (same_markDirties ck names _)
  have hreqs : ((c.sources s).slot ck).reqs = (c.sources s).reqs := by
    unfold Source.slot
    split <;> rfl
  have hmarks := List.foldlRecOn (motive := Marked (d.id s) ((Slack.only lax s ck).idle s) ck (c.sources s))
    names (fun src name => src.markDirty ck name)
    ⟨(Source.mem_slots_slot _ _ _).mpr (.inl rfl), ((c.sources s).same_slot ck).names, hreqs,
      fun ck' => by rw [Source.slotAt_slot], (h.source s).slot ⟨rfl, rfl⟩⟩
    fun src hs name hm => hs.markDirty (hn name hm)
  refine h.resource s _ hsame.closed hsame.pending hmarks.reqs hmarks.initial hmarks.sound fun _ hcl => ?_
  rw [hc] at hcl
  cases hcl

theorem Wf.refreshName (h : Wf d (.tight lax) c) (ck : String) {name : String} (hc : (c.sources s).closed = false)
    (hn : name ∈ (c.sources s).names) : Wf d (.tight lax) (refreshName d s ck c name) :=
  (((h.only s ck).dirty [name] hc (by simpa using hn)).schedule s ck).visited

theorem Wf.refresh (h : Wf d (.tight lax) c) (ck : String) (hc : (c.sources s).closed = false) :
    Wf d (.tight lax) (refresh d s c ck) := by
  refine Trace.unless_keeps h fun _ => ?_
  exact (((h.only s ck).dirty _ hc fun name hm => (mem_filter.mp hm).1).schedule s ck).visited

theorem Wf.followDirty (h : Wf d (.tight lax) c) (i : ℕ) (hc : (c.sources s).closed = false) :
    Wf d (.tight lax) (followDirty d s c i) := by
  refine Trace.when_keeps h fun _ => ?_
  -- the source stays the same while its slots are marked
  refine (List.foldlRecOn (motive := fun c' => Keeps c c' ∧ Wf d (.tight lax) c') _ _ ⟨.refl c, h⟩
    fun c' ⟨hk, hw⟩ name hm => ?_).2
  refine ⟨hk.trans (keeps_refreshName d s _ c' name), hw.refreshName _ ?_ ?_⟩
  · rw [(hk.source s).closed]
    exact hc
  · rw [(hk.source s).names]
    exact (mem_filter.mp hm).1

/-- A loop of steps that keep `Wf` while a source stays open. -/
theorem Wf.whileOpen {α : Type} {f : Coordinator → α → Coordinator}
    (hf : ∀ (c : Coordinator) a, Wf d (.tight lax) c → (c.sources s).closed = false → Wf d (.tight lax) (f c a))
    (hk : ∀ (c : Coordinator) a, Keeps c (f c a)) (l : List α) (h : Wf d (.tight lax) c)
    (hc : (c.sources s).closed = false) : Wf d (.tight lax) (l.foldl f c) := by
  induction l generalizing c with
  | nil => exact h
  | cons a l ih =>
    refine ih (hf c a h hc) ?_
    rw [((hk c a).source s).closed]
    exact hc

theorem Wf.register (h : Wf d (.tight lax) c) (provider : String) (names : List String) (order : List ℕ) :
    Wf d (.tight lax) (c.register d provider names order).1 := by
  unfold Coordinator.register
  dsimp only
  split
  · exact h
  · refine Wf.whileOpen (s := c.nSources) (fun c' i hw hc => hw.followDirty i hc)
      (keeps_followDirty d c.nSources) order (h.claim provider _) ?_
    simp [Coordinator.claim]

theorem Wf.change (h : Wf d (.tight lax) c) (s : ℕ) (ch : Change) (order : List String)
    (hclose : (c.sources s).closed = false → Wf d (.tight lax) (c.closeSource s)) :
    Wf d (.tight lax) (c.change d s ch order).1 := by
  unfold Coordinator.change
  cases hc : (c.sources s).closed with
  | true => exact h
  | false =>
    cases hv : ch.valid with
    | false => exact hclose hc
    | true => exact Wf.whileOpen (fun c' ck hw hc => hw.refresh ck hc) (keeps_refresh d s) _ h hc

/-! ## Requests -/

theorem calm_offer (st : Stream) (k : OfferingKey) (u : Update) : st.Calm (st.offer k u) := by
  unfold Stream.offer
  split
  · exact ⟨rfl, rfl, rfl⟩
  · rw [Stream.drop_eq]
    exact ⟨rfl, rfl, rfl⟩

theorem calm_retract (st : Stream) (k : OfferingKey) : st.Calm (st.retract k) := by
  unfold Stream.retract
  rw [Stream.drop_eq]
  exact ⟨rfl, rfl, rfl⟩

theorem Wf.quiet (h : Wf d x c) (f : ℕ → Stream) (hf : ∀ i, (c.streams i).Calm (f i)) :
    Wf d x { c with streams := f } :=
  h.restream f (fun i => (hf i).1) fun i hd => h.past i ((hf i).past hd)

theorem Wf.calm (h : Wf d x c) (i : ℕ) (f : Stream → Stream) (hf : ∀ st : Stream, st.Calm (f st)) :
    Wf d x (c.modStream i f) :=
  h.modStream i f (hf _).1 fun hd => h.past i ((hf _).past hd)

theorem Wf.deliver (h : Wf d x c) (s : ℕ) (req : Request) (u : Update) : Wf d x (c.deliver s req u) := by
  refine h.quiet _ fun i => ?_
  split
  · exact calm_offer ..
  · exact ⟨rfl, rfl, rfl⟩

/-- A container whose obligations have all been ended holds nothing. -/
theorem Wf.emptied {y : Slack} {c' : Coordinator} {l : List ℕ} (h : Wf d x c) (h' : Wf d y c')
    {κ : Container} (hf : x.firm κ) (hl : ∀ o, c.holds κ o → o ∈ l) (hob : c'.obligations = c.obligations)
    (hopen : ∀ o, c'.isOpen o ↔ c.isOpen o ∧ o ∉ l) (o : ℕ) : ¬c'.holds κ o := by
  intro hh
  obtain ⟨hopen', hplace⟩ := h'.held κ o hh
  have hp : c.place o = κ := by
    unfold place at hplace ⊢
    rwa [hob] at hplace
  subst hp
  obtain ⟨hop, hnot⟩ := (hopen o).mp hopen'
  exact hnot (hl o (h.placed o hop hf))

/-- `Answer` and `requestExpired` end the obligations of one request and reschedule its slot. -/
theorem Wf.endRequest {id : ℕ} (f : Coordinator → ℕ → Coordinator)
    (h₁ : Wf d ((Slack.tight lax).retire s id ((c.sources s).reqs id).caller) c₁)
    (hloop : Wf d ((Slack.tight lax).retire s id ((c.sources s).reqs id).caller)
        (((c.sources s).reqs id).obls.foldl f c₁) ∧
      ∀ o, (((c.sources s).reqs id).obls.foldl f c₁).isOpen o ↔ c₁.isOpen o ∧ o ∉ ((c.sources s).reqs id).obls)
    (hframe : Frame c₁ (((c.sources s).reqs id).obls.foldl f c₁))
    (hreq : (c₁.sources s).reqs id = (c.sources s).reqs id) :
    Wf d (.tight lax)
      ((((c.sources s).reqs id).obls.foldl f c₁).schedule d s ((c.sources s).reqs id).caller) := by
  have hnil := h₁.emptied hloop.1 (κ := .request s id) trivial (fun o ho => by rwa [holds, hreq] at ho)
    hframe.obligations hloop.2
  have h₂ := hloop.1.forget (eq_nil_iff_forall_not_mem.mpr hnil)
  refine (h₂.schedule s ((c.sources s).reqs id).caller).mono fun s' ck' hi => ?_
  exact hi.1.elim False.elim hi.2

theorem frame_ends (l : List ℕ) (c : Coordinator) : Frame c (l.foldl endObligation c) :=
  Fold.foldl_rel Frame.refl Frame.trans frame_endObligation l c

theorem reqs_retire (src : Source) (id id' : ℕ) : (src.retire id').reqs id = src.reqs id := by
  unfold Source.retire Source.modifySlot
  split <;> rfl

theorem Wf.requestExpired (h : Wf d (.tight lax) c) (s id : ℕ) :
    Wf d (.tight lax) (c.requestExpired d s id) := by
  refine Trace.unless_keeps h fun hid => ?_
  have h₁ := h.retire (not_not.mp hid)
  refine Wf.endRequest Coordinator.fail h₁ (h₁.fails _) (frame_fails _ _) ?_
  rw [sources_modSource_self, reqs_retire]

theorem Wf.answer (h : Wf d (.tight lax) c) (s : ℕ) (a : Answer)
    (hclose : (c.sources s).closed = false → Wf d (.tight lax) (c.closeSource s)) :
    Wf d (.tight lax) (c.answer d s a).1 := by
  unfold Coordinator.answer
  dsimp only
  split
  · exact h
  · rename_i hguard
    simp only [Bool.or_eq_true, decide_eq_true_eq, not_or, Bool.not_eq_true, not_not] at hguard
    obtain ⟨hc, hid⟩ := hguard
    split
    · exact hclose hc
    · split
      · exact hclose hc
      · have h₁ := h.retire hid
        have h₂ := h₁.deliver s ((c.sources s).reqs a.requestID)
        refine Wf.endRequest Coordinator.endObligation (h₂ _) ((h₂ _).ends _) (frame_ends _ _) ?_
        have : ∀ u, ((c.modSource s (·.retire a.requestID)).deliver s ((c.sources s).reqs a.requestID)
            u).sources = (c.modSource s (·.retire a.requestID)).sources := fun _ => rfl
        rw [this, sources_modSource_self, reqs_retire]

/-! ## Closing a source -/

def Slack.closingOnly (lax : Prop) (s : ℕ) : Slack := { Slack.tight lax with closing := fun s' => s' = s }

theorem Wf.markClosed (h : Wf d (.tight lax) c) (s : ℕ) : Wf d (.closingOnly lax s) (c.markClosed s) := by
  have hs := h.source s
  refine h.modSource s _ (fun _ => .inl rfl) (fun _ => rfl) ?_ (fun _ hn => absurd rfl hn)
    (h.asked s) (fun _ => rfl)
    (fun _ _ _ hi => hi) (fun _ _ hc => hc.elim) fun _ _ hr => hr
  exact
    { hs with
      active := fun hc => by cases hc
      busy := fun hc => by cases hc }

theorem Wf.failAsked (h : Wf d (.closingOnly lax s) c) (hc : (c.sources s).closed = true) :
    Wf d (.closingOnly lax s) (c.failAsked s) ∧ ∀ id, (((c.failAsked s).sources s).reqs id).obls = [] := by
  obtain ⟨h₁, hopen⟩ := h.fails (askedObligations (c.sources s))
  have hf := frame_fails (askedObligations (c.sources s)) c
  have hnil : ∀ id, ((((askedObligations (c.sources s)).foldl Coordinator.fail c).sources s).reqs
    id).obls = [] := by
    intro id
    refine eq_nil_iff_forall_not_mem.mpr
      (h.emptied h₁ (κ := .request s id) trivial (fun o ho => ?_) hf.obligations hopen)
    rcases h.asked s id o ho with hp | hr
    · exact mem_flatMap.mpr ⟨id, hp, ho⟩
    · exact hr.elim
  have hcl : (((askedObligations (c.sources s)).foldl Coordinator.fail c).sources s).closed = true := by
    rw [(hf.source s).closed]
    exact hc
  have hs := h₁.source s
  refine ⟨h₁.modSource s _ (fun _ => .inl rfl) (fun _ => rfl) ?_ (fun _ hn => absurd rfl hn)
    (fun id o ho => ?_) (fun _ => hcl) (fun _ _ _ hi => hi) (fun _ _ hi => hi) fun _ _ hr => hr, ?_⟩
  · exact
      { hs with
        pending_issued := fun _ hm => absurd hm not_mem_nil
        pending_nodup := nodup_nil
        active := fun hc' => absurd (hcl.symm.trans hc') (by simp)
        busy := fun hc' => absurd (hcl.symm.trans hc') (by simp)
        pending_names := fun _ hm => absurd hm not_mem_nil }
  · rw [hnil id] at ho
    exact absurd ho not_mem_nil
  · intro id
    unfold Coordinator.failAsked
    rw [sources_modSource_self]
    exact hnil id

theorem mem_waitingObligations {src : Source} {name : String} {o : ℕ} (h : (name, o) ∈ (src.slotAt ck).initial) :
    o ∈ waitingObligations src := by
  unfold Source.slotAt at h
  cases hl : src.slots.lookup ck with
  | none =>
    rw [hl] at h
    exact absurd h not_mem_nil
  | some sl =>
    rw [hl] at h
    refine mem_flatMap.mpr ⟨⟨ck, sl⟩, AList.mem_lookup_iff.mp hl, ?_⟩
    exact mem_map.mpr ⟨(name, o), h, rfl⟩

theorem Wf.failWaiting (h : Wf d (.closingOnly lax s) c) (hc : (c.sources s).closed = true)
    (hp : (c.sources s).pending = []) : Wf d (.tight lax) (c.failWaiting s) := by
  obtain ⟨h₁, hopen⟩ := h.fails (waitingObligations (c.sources s))
  have hf := frame_fails (waitingObligations (c.sources s)) c
  have hcl : (((waitingObligations (c.sources s)).foldl Coordinator.fail c).sources s).closed = true := by
    rw [(hf.source s).closed]
    exact hc
  have hpend : (((waitingObligations (c.sources s)).foldl Coordinator.fail c).sources s).pending = [] := by
    rw [(hf.source s).pending]
    exact hp
  have hnil : ∀ ck, ((((waitingObligations (c.sources s)).foldl Coordinator.fail c).sources s).slotAt
    ck).initial = [] := by
    intro ck
    refine eq_nil_iff_forall_not_mem.mpr fun p hm => ?_
    exact h.emptied h₁ (κ := .initial s ck p.1) trivial (fun o => mem_waitingObligations) hf.obligations hopen
      p.2 hm
  have hs := h₁.source s
  refine h₁.modSource s _ (fun _ => .inl rfl) (fun ck => ?_) ?_ (fun _ _ => ⟨hpend, rfl⟩)
    (h₁.asked s) (fun _ => hcl) (fun _ _ _ hi => hi) (fun t hne ht => absurd ht hne) fun _ _ hr => hr
  · rw [hnil ck]
    rfl
  · exact
      { hs with
        active := fun hc' => absurd (hcl.symm.trans hc') (by simp)
        busy := fun hc' => absurd (hcl.symm.trans hc') (by simp)
        initial_names := fun _ _ hm => absurd hm not_mem_nil
        dirty_names := fun _ _ hm => absurd hm (Finset.notMem_empty _) }

theorem Wf.closeSource (h : Wf d (.tight lax) c) (s : ℕ) : Wf d (.tight lax) (c.closeSource s) := by
  have hc₁ : ((c.markClosed s).sources s).closed = true := by
    rw [Coordinator.markClosed, sources_modSource_self]
  obtain ⟨h₂, _⟩ := (h.markClosed s).failAsked hc₁
  have hc₂ : (((c.markClosed s).failAsked s).sources s).closed = true := by
    rw [Coordinator.failAsked, sources_modSource_self]
    have hf := frame_fails (askedObligations ((c.markClosed s).sources s)) (c.markClosed s)
    exact (hf.source s).closed.trans hc₁
  have hp₂ : (((c.markClosed s).failAsked s).sources s).pending = [] := by
    rw [Coordinator.failAsked, sources_modSource_self]
  have h₃ : Wf d (.tight lax) (c.failSource s) := h₂.failWaiting hc₂ hp₂
  rw [closeSource_eq]
  have hlose : ∀ (st : Stream) p ns, st.Calm (st.lose p ns) := by
    intro st p ns
    cases hc : st.closed with
    | true =>
      rw [Stream.lose, if_pos hc]
      exact ⟨rfl, rfl, rfl⟩
    | false =>
      rw [lose_eq st p ns hc]
      exact Fold.foldl_rel (fun _ => ⟨rfl, rfl, rfl⟩) (fun h h' =>
        ⟨h'.1.trans h.1, h'.2.1.trans h.2.1, h'.2.2.trans h.2.2⟩) calm_retract _ st
  refine (h₃.quiet (fun i => if (c.failSource s).enrolled i then ((c.failSource s).streams i).lose
    ((c.failSource s).sources s).provider ((c.failSource s).sources s).names
      else (c.failSource s).streams i) fun i => ?_).reindex _ _ _
  split
  · exact hlose _ _ _
  · exact ⟨rfl, rfl, rfl⟩

theorem Wf.closeOnce (h : Wf d (.tight lax) c) (s : ℕ) : Wf d (.tight lax) (c.closeOnce s) := by
  refine Trace.unless_keeps h fun _ => ?_
  exact h.closeSource s

/-! ## Streams -/

/-- After a loop over the open obligations of a stream it has none. -/
theorem Wf.opened_nil {c' : Coordinator} (h' : Wf d x c') (hob : c'.obligations = c.obligations)
    (hopen : ∀ o, c'.isOpen o ↔ c.isOpen o ∧ o ∉ (c.streams i).attempt.opened) :
    (c'.streams i).attempt.opened = [] := by
  refine eq_nil_iff_forall_not_mem.mpr fun o ho => ?_
  have hst := (h'.known i o ho).2
  have hop : c'.isOpen o := by
    unfold isOpen
    rw [hst]
    exact ho
  obtain ⟨hop', hnot⟩ := (hopen o).mp hop
  refine hnot ?_
  unfold isOpen at hop'
  rw [← hob, hst] at hop'
  exact hop'

theorem Wf.isOpen_of_mem (h : Wf d x c) {o : ℕ} (ho : o ∈ (c.streams i).attempt.opened) : c.isOpen o := by
  unfold isOpen
  rw [(h.known i o ho).2]
  exact ho

theorem Wf.closeStream (h : Wf d (.tight lax) c)
    (hnil : (c.streams i).attemptNil = true → (c.streams i).attempt.resolved = true) :
    Wf d (.tight lax) (c.closeStream i) := by
  refine Trace.unless_keeps h fun _ => ?_
  have hu : Wf d (.tight lax) (c.unenroll i) := h.reindex _ _ _
  dsimp only
  split
  · rename_i hn
    exact hu.modStream i _ rfl fun _ => h.past i (.inl (hnil hn))
  · obtain ⟨h₁, hopen⟩ := hu.loop Coordinator.detachCollect (fun c o hw ho => hw.detachCollect (ho.resolve_left id))
      (c.streams i).attempt.opened (.inr ⟨h.opened_nodup i, fun o => hu.isOpen_of_mem⟩)
    have hob : ((c.streams i).attempt.opened.foldl Coordinator.detachCollect (c.unenroll i)).obligations =
        (c.unenroll i).obligations :=
      (Fold.foldl_rel Frame.refl Frame.trans frame_detachCollect _ _).obligations
    exact h₁.modStream i _ rfl fun _ => h₁.opened_nil hob hopen

theorem Wf.budgetExpired (h : Wf d (.tight lax) c) (i : ℕ) : Wf d (.tight lax) (c.budgetExpired i) := by
  refine Trace.unless_keeps h fun _ => ?_
  obtain ⟨h₁, hopen⟩ := h.loop Coordinator.expire (fun c o hw ho => hw.expire (ho.resolve_left id))
    (c.streams i).attempt.opened (.inr ⟨h.opened_nodup i, fun o => h.isOpen_of_mem⟩)
  have hob : ((c.streams i).attempt.opened.foldl Coordinator.expire c).obligations = c.obligations :=
    (Fold.foldl_rel Frame.refl Frame.trans frame_expire _ _).obligations
  exact h₁.modStream i _ rfl fun _ => h₁.opened_nil hob hopen

theorem Wf.runTurn (h : Wf d x c) (i : ℕ) : Wf d x (c.modStream i (·.runTurn)) := by
  refine h.calm i _ fun st => ?_
  rcases st.runTurn_cases with ⟨_, he⟩ | ⟨_, _, he⟩ | ⟨_, _, _, _, _, he⟩ |
    ⟨_, _, _, _, _, _, _, he⟩ | ⟨_, he⟩ <;> rw [he] <;> exact ⟨rfl, rfl, rfl⟩

theorem Wf.sent (h : Wf d x c) (i : ℕ) (out : Output) :
    Wf d x (c.modStream i fun st => { st.sent out with writer := .idle }) := by
  refine h.calm i _ fun st => ?_
  cases out with
  | removed keys | boundary inc => exact ⟨rfl, rfl, rfl⟩
  | view k v =>
    unfold Stream.sent
    dsimp only
    rw [Stream.release_eq]
    exact ⟨rfl, rfl, rfl⟩

/-- Where the writer stands is nothing to the obligations. -/
theorem Wf.writer (h : Wf d x c) (i : ℕ) (w : Writer) :
    Wf d x (c.modStream i fun st => { st with writer := w }) :=
  h.calm i _ fun _ => ⟨rfl, rfl, rfl⟩

theorem Wf.wrote (h : Wf d (.tight lax) c) (i : ℕ) (ht : (c.streams i).Tidy) :
    Wf d (.tight lax) (c.wrote i) := by
  unfold Coordinator.wrote
  split
  · rename_i out hw
    dsimp only
    split
    · refine Wf.writer (Wf.closeStream (h.sent i out) fun hn => ?_) i _
      rw [streams_modStream_self] at hn ⊢
      exact (ht.sent hw).resolved_of_nil hn
    · exact h.sent i out
  · exact h

theorem Wf.writeFailed (h : Wf d (.tight lax) c) (i : ℕ) (ht : (c.streams i).Tidy) :
    Wf d (.tight lax) (c.writeFailed i) := by
  unfold Coordinator.writeFailed
  split
  · exact (h.closeStream ht.resolved_of_nil).writer i _
  · exact h

/-! ## Members -/

/-- A change of members that their obligations do not notice. -/
theorem Wf.remotes (h : Wf d x c) {remotes : ℕ → Remote} {n : ℕ}
    (hrem : ∀ r, (remotes r).opened = (c.remotes r).opened) (hn : c.nRemotes ≤ n) :
    Wf d x { c with remotes, nRemotes := n } := by
  have hholds : ∀ κ o, ({ c with remotes, nRemotes := n } : Coordinator).holds κ o ↔ c.holds κ o := by
    intro κ o
    cases κ with
    | initial s ck service | request s id => rfl
    | remote r service => simp only [holds, hrem]
  refine
    { h with
      held := fun κ o hh => h.held κ o ((hholds κ o).mp hh)
      placed := fun o ho hf => (hholds _ o).mpr (h.placed o ho hf)
      vacantRemote := fun r hr => ?_ }
  rw [hrem]
  exact h.vacantRemote r (hn.trans hr)

theorem Wf.modRemote (h : Wf d x c) (r : ℕ) (f : Remote → Remote)
    (hf : ∀ rm, (f rm).opened = rm.opened) : Wf d x (c.modRemote r f) := by
  refine h.remotes (fun r' => ?_) le_rfl
  by_cases hr : r' = r
  · subst hr
    simp [hf]
  · simp [hr]

theorem Wf.wake (h : Wf d x c) (i : ℕ) (w : Bool) : Wf d x (c.modStream i fun st => { st with wake := w }) :=
  h.calm i _ fun _ => ⟨rfl, rfl, rfl⟩

theorem Wf.foldl {α : Type} {f : Coordinator → α → Coordinator}
    (hf : ∀ (c : Coordinator) a, Wf d x c → Wf d x (f c a)) (l : List α) (h : Wf d x c) :
    Wf d x (l.foldl f c) := by
  induction l generalizing c with
  | nil => exact h
  | cons a l ih => exact ih (hf c a h)

section

variable (h : Wf d (.tight lax) c)
include h

theorem Wf.remoteOffer (r : ℕ) (u : Update) : Wf d (.tight lax) (c.remoteOffer r u) := by
  unfold Coordinator.remoteOffer
  split
  · exact h
  · dsimp only
    split
    · exact h
    · refine Wf.calm (h.modRemote r _ ?_) _ _ fun st => calm_offer st _ u
      exact fun _ => rfl

theorem Wf.remoteRemove (r : ℕ) (keys : List OfferingKey) : Wf d (.tight lax) (c.remoteRemove r keys) := by
  refine Trace.unless_keeps h fun _ => ?_
  refine (Wf.foldl (fun c k hw => ?_) keys h).wake _ true
  unfold removeKey
  split
  · refine Wf.calm (hw.modRemote r _ ?_) _ _ (calm_retract · k)
    exact fun _ => rfl
  · exact hw

theorem Wf.remoteInitial (r : ℕ) (incomplete : List String) :
    Wf d (.tight lax) (c.remoteInitial r incomplete) := by
  unfold Coordinator.remoteInitial
  refine Wf.foldl (fun c o hw => ?_) _ h
  split
  · exact (hw.fail o).1
  · exact (hw.endObligation o).1

theorem Wf.remoteLost (r : ℕ) : Wf d (.tight lax) (c.remoteLost r) := by
  unfold Coordinator.remoteLost
  dsimp only
  have h₁ := (h.fails (remoteObligations (c.remotes r))).1
  split
  · exact h₁
  · refine Wf.wake (Wf.modRemote (Wf.foldl (fun c k hw => ?_) _ h₁) r _ ?_) _ true
    · exact hw.calm _ _ (calm_retract · k)
    · exact fun _ => rfl

end

/-! ## Discovering -/

theorem Wf.enroll (h : Wf d x c) (caller : String) (names : List String) (follow : Bool) :
    Wf d x (c.enroll caller names follow) := by
  have hvac := h.vacantStream c.nStreams le_rfl
  have h₁ : Wf d x { c with nStreams := c.nStreams + 1 } :=
    { h with vacantStream := fun i hi => h.vacantStream i (Nat.le_of_succ_le hi) }
  have h₂ := h₁.modStream c.nStreams (fun _ => { caller, services := names.toFinset, follow }) hvac.symm
    fun _ => hvac
  exact h₂.reindex _ _ _

/-- The state while stream `i`, made by a discovery from `c₁`, collects its obligations. -/
structure Collecting (d : Draws) (x : Slack) (i : ℕ) (c₁ c : Coordinator) : Prop where
  wf : Wf d x c
  keeps : Keeps c₁ c
  opens : Opens i c₁ c

section

variable (h : Collecting d x i c₁ c)
include h

theorem Collecting.live (hlive : ¬(c₁.streams i).past) : ¬(c.streams i).past := by
  unfold Stream.past at hlive ⊢
  rwa [h.opens.1.resolved, (h.keeps.stream i).closed]

theorem Collecting.obligeName {name : String} (hi : i < c₁.nStreams)
    (hlive : ¬(c₁.streams i).past) (hix : Indexed c₁)
    (hx : ∀ s ∈ c₁.byName name, x.idle s ck) : Collecting d x i c₁ (obligeName i ck c name) := by
  unfold Coordinator.obligeName
  rw [h.keeps.byName]
  refine List.foldlRecOn _ _ h fun c hc s hs => ?_
  obtain ⟨_, hcs, hns⟩ := (hix.byName name s).mp hs
  refine ⟨?_, hc.keeps.trans (keeps_oblige i ck name c s), hc.opens.trans (opens_oblige i ck name c s)⟩
  refine hc.wf.obliged (by rwa [hc.keeps.nStreams]) (hc.live hlive) ?_ ?_ (hx s hs)
  · rw [(hc.keeps.source s).closed]
    exact hcs
  · rw [(hc.keeps.source s).names]
    exact hns

/-- The loop over the names of one member. -/
theorem Collecting.owe {r : ℕ} (hi : i < c₁.nStreams) (hlive : ¬(c₁.streams i).past) (hlt : r < c.nRemotes)
    (hfree : x.loose ∨ names.Nodup ∧ ∀ name ∈ names, name ∉ (c.remotes r).opened) :
    Wf d x (names.foldl (obligeRemote i r) c) := by
  induction names generalizing c with
  | nil => exact h.wf
  | cons name names ih =>
    have hop : ((obligeRemote i r c name).remotes r).opened =
        (c.remotes r).opened.insert name c.nObligations := by
      simp [obligeRemote, modStream, modRemote]
    refine ih ⟨?_, h.keeps.trans (keeps_obligeRemote i r c name),
      h.opens.trans (opens_obligeRemote i r c name)⟩ hlt ?_
    · exact h.wf.obligedRemote (by rwa [h.keeps.nStreams]) (h.live hlive) hlt
        (hfree.imp_right fun hf => hf.2 name mem_cons_self)
    · refine hfree.imp_right fun hf => ?_
      obtain ⟨hnd, hf⟩ := hf
      obtain ⟨hnot, hnd'⟩ := nodup_cons.mp hnd
      refine ⟨hnd', fun name' hn' => ?_⟩
      rw [hop, AList.mem_insert]
      rintro (rfl | hm)
      · exact hnot hn'
      · exact hf name' (mem_cons_of_mem name hn') hm

/-- A new member owes every name once. -/
theorem Collecting.enrollMember (hi : i < c₁.nStreams) (hlive : ¬(c₁.streams i).past)
    (hnd : x.loose ∨ names.Nodup) (member : String) : Collecting d x i c₁ (enrollMember i names c member) := by
  refine ⟨?_, h.keeps.trans (keeps_enrollMember i names c member),
    h.opens.trans (opens_enrollMember i names c member)⟩
  have hvac := h.wf.vacantRemote c.nRemotes le_rfl
  let c₀ : Coordinator := { c with
    remotes := update c.remotes c.nRemotes { st := i, member }
    nRemotes := c.nRemotes + 1 }
  have hrem : ∀ r, (c₀.remotes r).opened = (c.remotes r).opened := by
    intro r
    by_cases hr' : r = c.nRemotes
    · subst hr'
      simp [c₀, hvac]
    · simp [c₀, hr']
  have hk := h.keeps
  have h₀ : Collecting d x i c₁ c₀ := ⟨h.wf.remotes hrem (Nat.le_succ _),
    { hk with }, h.opens⟩
  have hloop : Wf d x (names.foldl (obligeRemote i c.nRemotes) c₀) := by
    refine h₀.owe hi hlive (Nat.lt_succ_self _) (hnd.imp_right fun hnd => ⟨hnd, fun name _ => ?_⟩)
    rw [hrem, hvac]
    exact AList.notMem_empty name
  exact hloop.calm i (fun st => { st with remotes := st.remotes ++ [c.nRemotes] }) fun _ => ⟨rfl, rfl, rfl⟩

end

/-- Visiting a list of sources puts their slots in order. -/
theorem Wf.scheduleAll (h : Wf d x c) (ck : String) (l : List ℕ) :
    Wf d { x with idle := fun s ck' => x.idle s ck' ∧ ¬(s ∈ l ∧ ck' = ck) } (scheduleAll d ck c l) := by
  induction l generalizing c x with
  | nil =>
    exact h.mono fun _ _ hi => ⟨hi, fun hm => not_mem_nil hm.1⟩
  | cons s l ih =>
    refine (ih (h.schedule s ck)).mono fun t ck' hi => ?_
    obtain ⟨⟨hx, hne⟩, hnot⟩ := hi
    refine ⟨hx, ?_⟩
    rintro ⟨hm, hck⟩
    rcases mem_cons.mp hm with hs | hm
    · exact hne ⟨hs, hck⟩
    · exact hnot ⟨hm, hck⟩

theorem Wf.discoverSwarm (h : Wf d (.tight lax) c) (hix : Indexed c) (caller : String) (follow : Bool)
    {members : List String} (hnd : lax ∨ names.Nodup ∨ members = []) :
    Wf d (.tight lax) (c.discoverSwarm d caller names follow members) := by
  let x : Slack := { Slack.tight lax with idle := fun s ck => s ∈ c.touched names ∧ ck = caller }
  let c₁ := c.enroll caller names follow
  have hix₁ : Indexed c₁ := hix.enroll caller names follow
  have hself : c₁.streams c.nStreams = { caller, services := names.toFinset, follow } :=
    update_self ..
  have hi : c.nStreams < c₁.nStreams := Nat.lt_succ_self _
  have hlive : ¬(c₁.streams c.nStreams).past := by simp [hself, Stream.past]
  have h₁ : Collecting d x c.nStreams c₁ c₁ :=
    ⟨(h.enroll caller names follow).mono (fun _ _ => False.elim),
      .refl _, .refl _ _⟩
  have h₂ : Collecting d x c.nStreams c₁ (names.foldl (obligeName c.nStreams caller) c₁) := by
    have hidle : ∀ name ∈ names, ∀ s ∈ c₁.byName name, x.idle s caller := fun name hn s hs =>
      ⟨mem_flatMap.mpr ⟨name, hn, hs⟩, rfl⟩
    exact List.foldlRecOn names _ h₁ fun c' hc' name hn => hc'.obligeName hi hlive hix₁ (hidle name hn)
  have h₃ : Collecting d x c.nStreams c₁ (c₁.obligeAll c.nStreams caller names members) := by
    unfold obligeAll
    rcases or_assoc.mpr hnd with hnd' | rfl
    · exact List.foldlRecOn members _ h₂ fun c' hc' m _ => hc'.enrollMember hi hlive hnd' m
    · exact h₂
  have h₄ : Wf d (.tight lax) (Coordinator.scheduleAll d caller (c₁.obligeAll c.nStreams caller names members)
      (c.touched names)) :=
    (h₃.wf.scheduleAll caller (c.touched names)).mono fun s ck hi => hi.2 hi.1
  refine Trace.when_keeps h₄ fun hnil => ?_
  exact h₄.modStream c.nStreams _ rfl fun _ => hnil

/-! ## Every operation -/

theorem wf_new (d : Draws) (lax : Prop) : Wf d (.tight lax) new := by
  have hsrc : ∀ s, new.sources s = default := fun _ => rfl
  constructor
  case source => exact fun s => Source.sound_empty rfl rfl rfl rfl
  case down => exact fun _ _ _ => ⟨rfl, rfl⟩
  case placed => exact fun o ho => absurd ho not_mem_nil
  case held =>
    intro κ o hh
    cases κ with
    | initial s ck service | request s id => exact absurd hh not_mem_nil
    | remote r service => cases hh
  case asked => exact fun _ _ _ hm => absurd hm not_mem_nil
  case matched => exact fun _ _ _ hm => absurd hm not_mem_nil
  case known => exact fun _ _ hm => absurd hm not_mem_nil
  case opened_nodup => exact fun _ => nodup_nil
  case initial_nodup => exact fun _ _ => nodup_nil
  case obls_nodup => exact fun _ _ => nodup_nil
  case past => exact fun _ _ => rfl
  case vacantSource => exact fun _ _ => rfl
  case vacantStream => exact fun _ _ => rfl
  case vacantRemote => exact fun _ _ => rfl

/-- What the sender of a source does is nothing to its gate. -/
theorem Wf.sender (h : Wf d x c) (s : ℕ) (f : Source → Source)
    (hf : ∀ src, ∃ asks askWake sender sent, f src = { src with asks, askWake, sender, sent }) :
    Wf d x (c.modSource s f) := by
  obtain ⟨asks, askWake, sender, sent, he⟩ := hf (c.sources s)
  have hs := h.source s
  refine h.resource s f (by rw [he]) (by rw [he]) (by rw [he]) (fun ck => by rw [he]; rfl) ?_
    fun hm _ => by rw [he]; exact hm
  rw [he]
  exact { hs with }

theorem Wf.step (h : Wf d (.tight lax) c) (hix : Indexed c)
    (ht : ∀ i, i < c.nStreams → (c.streams i).Tidy) {op : Op} (hop : lax ∨ op.distinct) :
    Wf d (.tight lax) (c.step d op) := by
  cases op with
  | register provider names order =>
    refine Trace.when_keeps h fun _ => ?_
    exact h.register provider names order
  | discover caller names follow members => exact h.discoverSwarm hix caller follow hop
  | answer s a =>
    refine Trace.when_keeps h fun _ => ?_
    exact h.answer s a fun _ => h.closeSource s
  | change s ch order =>
    refine Trace.when_keeps h fun _ => ?_
    exact h.change s ch order fun _ => h.closeSource s
  | closeSource s =>
    refine Trace.when_keeps h fun _ => ?_
    exact h.closeOnce s
  | closeStream i =>
    refine Trace.when_keeps h fun hi => ?_
    exact h.closeStream (ht i hi).resolved_of_nil
  | run i =>
    refine Trace.when_keeps h fun _ => ?_
    exact h.runTurn i
  | awake i =>
    refine Trace.when_keeps h fun _ => ?_
    exact h.calm i _ fun _ => ⟨rfl, rfl, rfl⟩
  | wrote i =>
    refine Trace.when_keeps h fun hi => ?_
    exact h.wrote i (ht i hi)
  | writeFailed i =>
    refine Trace.when_keeps h fun hi => ?_
    exact h.writeFailed i (ht i hi)
  | send s =>
    simp only [Coordinator.step]
    split
    · split
      · refine h.sender s _ fun src => ?_
        unfold sendTurn
        split
        · exact ⟨src.asks, src.askWake, _, src.sent, rfl⟩
        · split
          · exact ⟨src.asks, src.askWake, _, src.sent, rfl⟩
          · exact ⟨_, src.askWake, _, src.sent, rfl⟩
      · exact h
    · exact h
  | sendAwake s =>
    simp only [Coordinator.step]
    split
    · split
      · exact h.sender s _ fun src => ⟨src.asks, false, .idle, src.sent, rfl⟩
      · exact h
    · exact h
  | sendOk s =>
    refine Trace.when_keeps h fun _ => ?_
    unfold Coordinator.sendOk
    split
    · exact h.sender s _ fun src => ⟨src.asks, src.askWake, .idle, _, rfl⟩
    · exact h
  | sendFailed s =>
    refine Trace.when_keeps h fun _ => ?_
    unfold Coordinator.sendFailed
    split
    · exact (h.closeOnce s).sender s _ fun src => ⟨src.asks, src.askWake, .returned, src.sent, rfl⟩
    · exact h
  | remoteOffer r u =>
    refine Trace.when_keeps h fun _ => ?_
    exact h.remoteOffer r u
  | remoteRemove r keys =>
    refine Trace.when_keeps h fun _ => ?_
    exact h.remoteRemove r keys
  | remoteInitial r incomplete =>
    refine Trace.when_keeps h fun _ => ?_
    exact h.remoteInitial r incomplete
  | remoteLost r =>
    refine Trace.when_keeps h fun _ => ?_
    exact h.remoteLost r
  | requestExpired s id =>
    refine Trace.when_keeps h fun _ => ?_
    exact h.requestExpired s id
  | budgetExpired i =>
    refine Trace.when_keeps h fun _ => ?_
    exact h.budgetExpired i

theorem wf_exec (d : Draws) (lax : Prop) (ops : List Op) (hops : ∀ op ∈ ops, lax ∨ op.distinct) :
    Wf d (.tight lax) (exec d ops) := by
  induction ops with
  | nil => exact wf_new d lax
  | cons op ops ih =>
    exact (ih fun o ho => hops o (mem_cons_of_mem op ho)).step (indexed_exec d ops)
      (tidy_exec d ops) (hops op mem_cons_self)

/-! ## The invariant -/

structure Structural (c : Coordinator) : Prop where
  /-- A pair belongs to the open source that lists it. -/
  owners : ∀ k s, c.owners k = some s ↔ s < c.nSources ∧ (c.sources s).closed = false ∧
    (c.sources s).provider = k.provider ∧ k.name ∈ (c.sources s).names
  byName : ∀ name s, s ∈ c.byName name ↔ s < c.nSources ∧ (c.sources s).closed = false ∧
    name ∈ (c.sources s).names
  /-- One outstanding request per caller, and it is the active one of its slot. -/
  single : ∀ s, (c.sources s).closed = false → ∀ id ∈ (c.sources s).pending,
    ∀ id' ∈ (c.sources s).pending,
      ((c.sources s).reqs id).caller = ((c.sources s).reqs id').caller → id = id'
  active : ∀ s, (c.sources s).closed = false → ∀ ck id,
    (∃ sl, (c.sources s).slots.lookup ck = some sl ∧ sl.active = some id) ↔
      id ∈ (c.sources s).pending ∧ ((c.sources s).reqs id).caller = ck
  busy : ∀ s, (c.sources s).closed = false → ∀ ck sl, (c.sources s).slots.lookup ck = some sl →
    sl.active.isSome
  /-- An open obligation is in exactly one container. -/
  contained : ∀ i, (c.streams i).attempt.resolved = false → ∀ o ∈ (c.streams i).attempt.opened,
    ∃! κ, c.holds κ o
  resolved : ∀ i, (c.streams i).attempt.resolved = true → (c.streams i).attempt.opened = []
  /-- What the boundary of an open stream owes is on its way. -/
  owed : ∀ i, i < c.nStreams → (c.streams i).closed = false → (c.streams i).attemptNil = false →
    ∀ ks, (c.streams i).attempt.owed = some ks →
      ∀ k ∈ ks, ((c.streams i).pending k).isSome ∨ (c.streams i).inflight = some k
  queue : ∀ i, i < c.nStreams → (c.streams i).queue.Nodup ∧
    ∀ k, k ∈ (c.streams i).queue ↔ ((c.streams i).pending k).isSome

/-- **Structure.** Every state that the coordinator can reach is structurally sound. -/
theorem structural_exec (d : Draws) (ops : List Op) (hops : ∀ op ∈ ops, op.distinct) :
    Structural (exec d ops) := by
  have hw := wf_exec d False ops fun op hop => .inr (hops op hop)
  have hix := indexed_exec d ops
  have ht := tidy_exec d ops
  constructor
  case owners => exact hix.owners
  case byName => exact hix.byName
  case single =>
    intro s hc id hid id' hid' hcaller
    have h₁ := ((hw.source s).active hc _ id).mpr ⟨hid, rfl⟩
    have h₂ := ((hw.source s).active hc _ id').mpr ⟨hid', hcaller.symm⟩
    rw [h₁] at h₂
    exact Option.some.inj h₂
  case active =>
    intro s hc ck id
    rw [← (hw.source s).active hc ck id]
    unfold Source.slotAt
    cases hl : ((exec d ops).sources s).slots.lookup ck with
    | none | some sl => simp
  case busy =>
    intro s hc ck sl hl
    have hmem : ck ∈ ((exec d ops).sources s).slots := AList.lookup_isSome.mp (by simp [hl])
    have hb := (hw.source s).busy hc ck hmem
    rw [Source.slotAt_of_lookup hl] at hb
    cases ha : sl.active with
    | none => exact (hb ha).elim
    | some id => rfl
  case contained =>
    intro i _ o ho
    have hop := hw.isOpen_of_mem ho
    have hfirm : (Slack.tight False).firm ((exec d ops).place o) := by
      cases (exec d ops).place o with
      | remote r service => exact not_false
      | _ => trivial
    exact ⟨(exec d ops).place o, hw.placed o hop hfirm, fun κ hκ => (hw.held κ o hκ).2.symm⟩
  case resolved => exact fun i hr => hw.past i (.inl hr)
  case owed => exact fun i hi => (ht i hi).owed
  case queue => exact fun i hi => ⟨(ht i hi).queue_nodup, (ht i hi).mem_queue⟩

def countingDraws : Draws where
  id _ n := n + 1
  ne_zero _ n := Nat.succ_ne_zero n
  injective _ _ _ h := Nat.succ.inj h

def playerUpdate (available : Bool) (info : String) : Update :=
  { available, name := "player", providerID := none, info }

/-- A follow stream and a one-shot one wait for the same source, which answers the first
request; the second is outstanding. Latest first. -/
def twoDiscoveries : List Op :=
  [.answer 0 ⟨1, some (playerUpdate true "a")⟩, .discover "c" ["player"] false ["m"],
    .discover "c" ["player"] true [], .register "p" ["player"] []]

/-- In this run the invariant speaks of outstanding requests and of open obligations in
both kinds of places. -/
theorem structural_exec_twoDiscoveries :
    ((exec countingDraws twoDiscoveries).sources 0).pending = [2] ∧
      ((exec countingDraws twoDiscoveries).streams 1).attempt.opened = [1, 2] ∧
      Structural (exec countingDraws twoDiscoveries) :=
  ⟨by decide, by decide, structural_exec countingDraws twoDiscoveries
    (by simp [twoDiscoveries, Op.distinct])⟩

/-- A consumer that leaves between an answer and its delivery. -/
def leaveEarly : List Op :=
  [.closeStream 0, .answer 0 ⟨1, some (playerUpdate true "a")⟩, .discover "c" ["player"] true [],
    .register "p" ["player"] []]

/-- `Stream.Close` throws the unsent views away and leaves `attempt.owed` as it is: the
closed stream still owes a view that is neither queued nor in flight. -/
theorem owed_after_close :
    (∀ op ∈ leaveEarly, op.distinct) ∧
    (exec countingDraws leaveEarly).nStreams = 1 ∧
    ((exec countingDraws leaveEarly).streams 0).attemptNil = false ∧
    ((exec countingDraws leaveEarly).streams 0).attempt.owed = some {keyOf "p" "player"} ∧
    ((exec countingDraws leaveEarly).streams 0).pending (keyOf "p" "player") = none ∧
    ((exec countingDraws leaveEarly).streams 0).inflight = none := by
  refine ⟨by simp [leaveEarly, Op.distinct], ?_⟩
  decide

end Coordinator

end Astrald.Services
