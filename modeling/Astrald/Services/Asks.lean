import Astrald.Services.Edits

/-!
# The asks of a source

Work for a source waits in the slot of its caller until an ask takes it. `askLog` is every ask
the source has queued so far, whether it waits, is in the sender's hands or was sent. As long as
the source is open the log only grows, and work leaves a slot only by being asked for.

* `Source.Onward`: what a method may do to a source; `Source.onward_issue` and `Source.Edit.onward` say it of
  every edit;
* `Coordinator.onward_step`: every operation, where `goneBy` lists the obligations that may leave
  a slot without an ask: those whose source or stream closes, and those whose budget expires.
-/

namespace Astrald.Services

open List

def Sender.held : Sender → List Ask
  | .sending ask => [ask]
  | _ => []

namespace Source

/-- Every ask that was queued: the sent ones, the one in the sender's hands, the waiting ones. -/
def askLog (src : Source) : List Ask := src.sent ++ src.sender.held ++ src.asks

/-- An ask for the caller and the service comes after the first `n` of the log. -/
def Asked (src : Source) (n : ℕ) (ck name : String) : Prop :=
  ∃ a ∈ src.askLog.drop n, a.callerID = ck ∧ a.service = name

theorem Asked.mono {src src' : Source} {n : ℕ} {ck name : String} (h : src.Asked n ck name)
    (hlog : src.askLog <+: src'.askLog) : src'.Asked n ck name := by
  obtain ⟨a, ha, hfor⟩ := h
  exact ⟨a, (hlog.drop n).subset ha, hfor⟩

theorem Asked.le {src : Source} {m n : ℕ} {ck name : String} (h : src.Asked n ck name) (hmn : m ≤ n) :
    src.Asked m ck name := by
  obtain ⟨a, ha, hfor⟩ := h
  exact ⟨a, (drop_sublist_drop_left src.askLog hmn).subset ha, hfor⟩

/-- What a method does to a source. `G` may leave a slot without an ask. -/
structure Onward (draw : ℕ → ℕ) (G : ℕ → Prop) (src src' : Source) : Prop where
  closed : src.closed = true → src'.closed = true
  log : src'.closed = true ∨ src.askLog <+: src'.askLog
  drawn : src.Drawn draw → src'.Drawn draw
  issued : src.issued ⊆ src'.issued
  obls : src.Drawn draw → ∀ id ∈ src.issued, (src'.reqs id).obls ⊆ (src.reqs id).obls
  dirty : ∀ ck, ∀ name ∈ (src.slotAt ck).dirty, src'.closed = true ∨
    name ∈ (src'.slotAt ck).dirty ∨ src'.Asked src.askLog.length ck name
  initial : ∀ ck name o, (name, o) ∈ (src.slotAt ck).initial → ¬G o → src'.closed = true ∨
    (name, o) ∈ (src'.slotAt ck).initial ∨ src'.Asked src.askLog.length ck name

variable {draw : ℕ → ℕ} {G : ℕ → Prop}

/-- An edit that queues no ask. -/
theorem Onward.edit {src src' : Source} (hc : src'.closed = src.closed) (hlog : src'.askLog = src.askLog)
    (hiss : src'.issued = src.issued) (hobls : ∀ id, (src'.reqs id).obls ⊆ (src.reqs id).obls)
    (hdirty : ∀ ck, (src.slotAt ck).dirty ⊆ (src'.slotAt ck).dirty)
    (hinit : ∀ ck, ∀ p ∈ (src.slotAt ck).initial, ¬G p.2 → p ∈ (src'.slotAt ck).initial) :
    src.Onward draw G src' where
  closed h := hc.trans h
  log := .inr (hlog ▸ prefix_rfl)
  drawn h := by
    unfold Drawn at h ⊢
    rw [hiss]
    exact h
  issued := hiss ▸ List.Subset.refl _
  obls _ id _ := hobls id
  dirty ck _ hm := .inr (.inl (hdirty ck hm))
  initial ck name o hm hg := .inr (.inl (hinit ck (name, o) hm hg))

variable (src : Source) (ck : String)

theorem Onward.refl : src.Onward draw G src :=
  .edit rfl rfl rfl (fun _ => List.Subset.refl _) (fun _ => Finset.Subset.refl _) fun _ _ hp _ => hp

theorem Onward.trans {a b c : Source} (h : a.Onward draw G b) (h' : b.Onward draw G c) :
    a.Onward draw G c := by
  -- an ask of either step comes after what was queued before the first
  have hfirst : ∀ {ck name}, b.Asked a.askLog.length ck name →
      c.closed = true ∨ c.Asked a.askLog.length ck name :=
    fun hb => h'.log.imp_right hb.mono
  have hsecond : ∀ {ck name}, c.Asked b.askLog.length ck name →
      c.closed = true ∨ c.Asked a.askLog.length ck name := by
    intro ck name hc
    rcases h.log with hcl | hlog
    · exact .inl (h'.closed hcl)
    · exact .inr (hc.le hlog.length_le)
  constructor
  case closed => exact fun hc => h'.closed (h.closed hc)
  case log =>
    rcases h.log with hcl | hlog
    · exact .inl (h'.closed hcl)
    · exact h'.log.imp_right hlog.trans
  case drawn => exact fun hd => h'.drawn (h.drawn hd)
  case issued => exact List.Subset.trans h.issued h'.issued
  case obls => exact fun hd id hid =>
    List.Subset.trans (h'.obls (h.drawn hd) id (h.issued hid)) (h.obls hd id hid)
  case dirty =>
    intro ck name hm
    rcases h.dirty ck name hm with hcl | hb | hb
    · exact .inl (h'.closed hcl)
    · rcases h'.dirty ck name hb with hcl | hc | hc
      · exact .inl hcl
      · exact .inr (.inl hc)
      · exact (hsecond hc).imp_right .inr
    · exact (hfirst hb).imp_right .inr
  case initial =>
    intro ck name o hm hg
    rcases h.initial ck name o hm hg with hcl | hb | hb
    · exact .inl (h'.closed hcl)
    · rcases h'.initial ck name o hb hg with hcl | hc | hc
      · exact .inl hcl
      · exact .inr (.inl hc)
      · exact (hsecond hc).imp_right .inr
    · exact (hfirst hb).imp_right .inr

/-- Once closed, nothing is promised but the ids. -/
theorem Onward.down {src src' : Source} (hc : src'.closed = true) (hiss : src'.issued = src.issued)
    (hobls : ∀ id, (src'.reqs id).obls ⊆ (src.reqs id).obls) : src.Onward draw G src' where
  closed _ := hc
  log := .inl hc
  drawn h := by
    unfold Drawn at h ⊢
    rw [hiss]
    exact h
  issued := hiss ▸ List.Subset.refl _
  obls _ id _ := hobls id
  dirty _ _ _ := .inl hc
  initial _ _ _ _ _ := .inl hc

/-! ## The edits of a source -/

theorem onward_slot : src.Onward draw G (src.slot ck) := by
  have hs := src.same_slot ck
  refine .edit hs.closed ?_ hs.issued (fun id => ?_) (fun ck' => ?_) fun ck' p hp _ => ?_
  · simp only [askLog, hs.sent, hs.sender, hs.asks]
  · have : (src.slot ck).reqs = src.reqs := by
      unfold slot
      split <;> rfl
    rw [this]
    exact List.Subset.refl _
  · rw [slotAt_slot]
  · rwa [slotAt_slot]

/-- An edit of one slot that takes away no work but obligations that are gone. -/
theorem onward_modifySlot {f : Slot → Slot} (hdirty : ∀ sl, sl.dirty ⊆ (f sl).dirty)
    (hinit : ∀ sl, ∀ p ∈ sl.initial, ¬G p.2 → p ∈ (f sl).initial) : src.Onward draw G (src.modifySlot ck f) := by
  unfold modifySlot
  cases hl : src.slots.lookup ck with
  | none => exact .refl src
  | some sl =>
    have hat : ∀ ck', ({ src with slots := src.slots.insert ck (f sl) } : Source).slotAt ck' =
        if ck' = ck then f sl else src.slotAt ck' := by
      intro ck'
      by_cases hck : ck' = ck
      · subst hck
        simp [slotAt]
      · simp [slotAt, hck, AList.lookup_insert_ne hck]
    refine .edit rfl rfl rfl (fun _ => List.Subset.refl _) (fun ck' => ?_) fun ck' p hp hg => ?_
    · rw [hat]
      split
      · rename_i hck
        rw [hck, slotAt_of_lookup hl]
        exact hdirty sl
      · exact Finset.Subset.refl _
    · rw [hat]
      split
      · rename_i hck
        rw [hck, slotAt_of_lookup hl] at hp
        exact hinit sl p hp hg
      · exact hp

theorem onward_collect : src.Onward draw G (src.collect ck) := by
  have hs := src.same_collect ck
  refine .edit hs.closed ?_ hs.issued (fun id => ?_) (fun ck' => ?_) fun ck' p hp _ => ?_
  · simp only [askLog, hs.sent, hs.sender, hs.asks]
  · have : (src.collect ck).reqs = src.reqs := by
      unfold collect
      split
      · rfl
      · split <;> rfl
    rw [this]
    exact List.Subset.refl _
  · rw [slotAt_collect]
  · rwa [slotAt_collect]

/-- A request takes the work of its service out of the slot, and is queued as an ask for it. -/
theorem onward_issue (hd : Function.Injective draw) (src : Source) (ck service : String) :
    src.Onward draw G (src.issue draw ck (src.slotAt ck) service) := by
  have hlog : (src.issue draw ck (src.slotAt ck) service).askLog =
      src.askLog ++ [⟨draw src.issued.length, ck, service⟩] := by
    simp [askLog, issue]
  have hasked : (src.issue draw ck (src.slotAt ck) service).Asked src.askLog.length ck service := by
    refine ⟨⟨draw src.issued.length, ck, service⟩, ?_, rfl, rfl⟩
    rw [hlog, drop_left]
    exact mem_cons_self
  constructor
  case closed => exact id
  case log => exact .inr (hlog ▸ prefix_append _ _)
  case drawn =>
    intro h
    unfold Drawn at h ⊢
    simp only [issue, length_append, length_cons, length_nil, Nat.zero_add,
      range_succ, map_append, map_cons, map_nil]
    rw [← h]
  case issued => exact subset_append_left _ _
  case obls =>
    intro h id hid
    have hne : id ≠ draw src.issued.length := fun he => h.fresh hd (he ▸ hid)
    have : (src.issue draw ck (src.slotAt ck) service).reqs id = src.reqs id :=
      Function.update_of_ne hne ..
    rw [this]
    exact List.Subset.refl _
  case dirty =>
    intro ck' name hm
    right
    by_cases hck : ck' = ck
    · subst hck
      by_cases hn : name = service
      · exact .inr (hn ▸ hasked)
      · rw [slotAt_issue, if_pos rfl]
        exact .inl (Finset.mem_erase.mpr ⟨hn, hm⟩)
    · rw [slotAt_issue, if_neg hck]
      exact .inl hm
  case initial =>
    intro ck' name o hm _
    right
    by_cases hck : ck' = ck
    · subst hck
      by_cases hn : name = service
      · exact .inr (hn ▸ hasked)
      · rw [slotAt_issue, if_pos rfl]
        exact .inl (mem_filter.mpr ⟨hm, decide_eq_true hn⟩)
    · rw [slotAt_issue, if_neg hck]
      exact .inl hm

/-- An edit that keeps the log, the ids and the slots. -/
theorem Onward.keep {src src' : Source} (hc : src'.closed = src.closed) (hlog : src'.askLog = src.askLog)
    (hiss : src'.issued = src.issued) (hreqs : src'.reqs = src.reqs) (hslots : src'.slots = src.slots) :
    src.Onward draw G src' := by
  have hat : src'.slotAt = src.slotAt := by
    funext ck
    rw [slotAt, slotAt, hslots]
  exact .edit hc hlog hiss (fun id => hreqs ▸ List.Subset.refl _) (fun ck => hat ▸ Finset.Subset.refl _)
    fun ck p hp _ => hat ▸ hp

theorem Edit.onward (hd : Function.Injective draw) {src src' : Source} (h : src.Edit draw G src') :
    src.Onward draw G src' := by
  cases h with
  | slot ck => exact src.onward_slot ck
  | work ck f hdirty hinit => exact src.onward_modifySlot ck hdirty hinit
  | collect ck => exact src.onward_collect ck
  | issue ck service => exact onward_issue hd src ck service
  | erase id o =>
    refine .edit rfl rfl rfl (fun id' => ?_) (fun _ => Finset.Subset.refl _) fun _ _ hp _ => hp
    by_cases h : id' = id
    · subst h
      simpa using erase_subset
    · simp [h]
  | retire id =>
    refine (src.onward_modifySlot (src.reqs id).caller (f := fun sl => { sl with active := none })
      (fun _ => Finset.Subset.refl _) fun _ _ hp _ => hp).trans ?_
    exact .keep rfl rfl rfl rfl rfl
  | close => exact .down rfl rfl fun _ => List.Subset.refl _
  | settle pending => exact .keep rfl rfl rfl rfl rfl
  | clear hc | returned hc => exact .down hc rfl fun _ => List.Subset.refl _
  | turn h =>
    unfold Coordinator.sendTurn
    split
    · rename_i hc
      exact .down hc rfl fun _ => List.Subset.refl _
    · split <;> exact .keep rfl (by simp_all [askLog, Sender.held]) rfl rfl rfl
  | awake h | sent ask h => exact .keep rfl (by simp [askLog, h, Sender.held]) rfl rfl rfl

end Source

namespace Coordinator

/-- What a method does to source `s`; obligations keep their stream, service and home. -/
structure Onward (d : Draws) (G : ℕ → Prop) (s : ℕ) (c c' : Coordinator) : Prop where
  source : (c.sources s).Onward (d.id s) G (c'.sources s)
  nObligations : c.nObligations ≤ c'.nObligations
  obligation : ∀ o, o < c.nObligations → (c'.obligations o).st = (c.obligations o).st ∧
    (c'.obligations o).service = (c.obligations o).service ∧
    (c'.obligations o).home = (c.obligations o).home

variable {d : Draws} {G : ℕ → Prop} {s : ℕ}

theorem Onward.trans {a b c : Coordinator} (h : Onward d G s a b) (h' : Onward d G s b c) :
    Onward d G s a c where
  source := h.source.trans h'.source
  nObligations := h.nObligations.trans h'.nObligations
  obligation o ho := by
    obtain ⟨hst, hservice, hhome⟩ := h.obligation o ho
    obtain ⟨hst', hservice', hhome'⟩ := h'.obligation o (ho.trans_le h.nObligations)
    exact ⟨hst'.trans hst, hservice'.trans hservice, hhome'.trans hhome⟩

theorem onward_of_source {c c' : Coordinator} (hs : (c.sources s).Onward (d.id s) G (c'.sources s))
    (hn : c'.nObligations = c.nObligations) (ho : c'.obligations = c.obligations) : Onward d G s c c' :=
  ⟨hs, hn.ge, fun o _ => by rw [ho]; exact ⟨rfl, rfl, rfl⟩⟩

theorem onward_of_eq {c c' : Coordinator} (hs : c'.sources s = c.sources s)
    (hn : c'.nObligations = c.nObligations) (ho : c'.obligations = c.obligations) : Onward d G s c c' :=
  onward_of_source (hs ▸ .refl _) hn ho

theorem Onward.refl (c : Coordinator) : Onward d G s c c := onward_of_eq rfl rfl rfl

/-- Each edit lets the log of asks grow and keeps work in its slot until it is asked for. -/
theorem Edits.onward {x : Scope} {c c' : Coordinator} (h : Edits d x c c') : Onward d x.gone s c c' := by
  have hsrc : (c.sources s).Onward (d.id s) x.gone (c'.sources s) :=
    Relation.ReflTransGen.head_induction_on (h.source s) (.refl _)
      fun hone _ ih => (hone.onward (d.injective s)).trans ih
  suffices hobl : c.nObligations ≤ c'.nObligations ∧ ∀ o, o < c.nObligations →
      (c'.obligations o).st = (c.obligations o).st ∧ (c'.obligations o).service = (c.obligations o).service ∧
      (c'.obligations o).home = (c.obligations o).home from ⟨hsrc, hobl.1, hobl.2⟩
  clear hsrc
  induction h with
  | refl => exact ⟨le_rfl, fun _ _ => ⟨rfl, rfl, rfl⟩⟩
  | @tail a b _ hone ih =>
    cases hone with
    | issue t ck service =>
      refine ⟨ih.1, fun o ho => ?_⟩
      simp only [issue]
      split <;> exact ih.2 o ho
    | oblige i ck name t | obligeRemote i r name =>
      refine ⟨ih.1.trans (Nat.le_succ _), fun o ho => ?_⟩
      have hne : o ≠ a.nObligations := Nat.ne_of_lt (ho.trans_le ih.1)
      simpa [oblige, obligeRemote, hne] using ih.2 o ho
    | _ => exact ih

/-- **Progress of one source.** Every operation lets the log of asks grow and keeps work in its
slot until it is asked for, up to what `goneBy` lists. -/
theorem onward_step {c : Coordinator} (hw : Wf d (.tight True) c) (hs : s < c.nSources) (op : Op) :
    Onward d (goneBy d c op) s c (c.step d op) := by
  refine Onward.trans (b := c.claimed op) ?_ (edits_step hw op).onward
  unfold claimed
  split
  · split
    · exact onward_of_eq (Function.update_of_ne (Nat.ne_of_lt hs) ..) rfl rfl
    · exact .refl c
  · exact .refl c

end Coordinator

end Astrald.Services
