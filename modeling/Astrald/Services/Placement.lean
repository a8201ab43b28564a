import Astrald.Services.Sections

/-!
# Where obligations sit

An open obligation is in one of three kinds of containers: the waiting list of a slot, a
request, or the open map of a swarm member. `place` computes from an obligation's own
fields which container it should be in, and `Wf` says that containers and obligations
agree: a container holds exactly the open obligations whose place it is. The other fields of
`Wf` are what the methods rely on while they iterate over those lists.

Inside a method some of this is out of order. `Slack` lists what: slots that may be idle,
requests that are retired but not emptied, and sources that are being closed.

* `Wf.detach`, `Wf.schedule`, `Wf.obliged`, `Wf.obligedRemote`, `Wf.retire`: the primitives;
* `Wf.fails`, `Wf.ends`: the loops that end obligations, and that they end exactly those they visit.
-/

namespace Astrald.Services

open List Function

inductive Container
  | initial (s : ℕ) (caller service : String)
  | request (s id : ℕ)
  | remote (r : ℕ) (service : String)
  deriving DecidableEq

/-- The stream is past its attempt. -/
def Stream.past (st : Stream) : Prop := st.attempt.resolved = true ∨ st.closed = true

namespace Coordinator

def holds (c : Coordinator) : Container → ℕ → Prop
  | .initial s caller service, o => (service, o) ∈ ((c.sources s).slotAt caller).initial
  | .request s id, o => o ∈ ((c.sources s).reqs id).obls
  | .remote r service, o => (c.remotes r).opened.lookup service = some o

def placeOf (ob : Obligation) : Container :=
  match ob.home, ob.req with
  | .remote r, _ => .remote r ob.service
  | .slot s caller, none => .initial s caller ob.service
  | .slot s _, some id => .request s id

def place (c : Coordinator) (o : ℕ) : Container := placeOf (c.obligations o)

/-- What may be out of order inside a method. A discovery that names a service twice
overwrites an entry of its members' open maps; `loose` says that this may have happened. -/
structure Slack where
  idle : ℕ → String → Prop
  retired : ℕ → ℕ → Prop
  closing : ℕ → Prop
  loose : Prop

/-- Nothing is out of order but, possibly, the members' maps. -/
def Slack.tight (lax : Prop) : Slack := ⟨fun _ _ => False, fun _ _ => False, fun _ => False, lax⟩

def Slack.firm (x : Slack) : Container → Prop
  | .remote _ _ => ¬x.loose
  | _ => True

structure Wf (d : Draws) (x : Slack) (c : Coordinator) : Prop where
  source : ∀ s, (c.sources s).Sound (d.id s) (x.idle s)
  down : ∀ s, (c.sources s).closed = true → ¬x.closing s →
    (c.sources s).pending = [] ∧ (c.sources s).slots = ∅
  held : ∀ κ o, c.holds κ o → c.isOpen o ∧ c.place o = κ
  placed : ∀ o, c.isOpen o → x.firm (c.place o) → c.holds (c.place o) o
  asked : ∀ s id, ∀ o ∈ ((c.sources s).reqs id).obls, id ∈ (c.sources s).pending ∨ x.retired s id
  matched : ∀ s id, ∀ o ∈ ((c.sources s).reqs id).obls,
    (c.obligations o).home = .slot s ((c.sources s).reqs id).caller ∧
      (c.obligations o).service = ((c.sources s).reqs id).service
  known : ∀ i, ∀ o ∈ (c.streams i).attempt.opened, o < c.nObligations ∧ (c.obligations o).st = i
  opened_nodup : ∀ i, (c.streams i).attempt.opened.Nodup
  initial_nodup : ∀ s ck, ((c.sources s).slotAt ck).initial.Nodup
  obls_nodup : ∀ s id, ((c.sources s).reqs id).obls.Nodup
  past : ∀ i, (c.streams i).past → (c.streams i).attempt.opened = []
  vacantSource : ∀ s, c.nSources ≤ s → (c.sources s).closed = true
  vacantStream : ∀ i, c.nStreams ≤ i → (c.streams i).attempt.opened = []
  vacantRemote : ∀ r, c.nRemotes ≤ r → (c.remotes r).opened = ∅

variable {d : Draws} {x : Slack} {c : Coordinator} {lax : Prop}

theorem Wf.mono (h : Wf d x c) {idle : ℕ → String → Prop} (hi : ∀ s ck, x.idle s ck → idle s ck) :
    Wf d { x with idle } c :=
  { h with source := fun s => (h.source s).mono (hi s) }

theorem Wf.reindex (h : Wf d x c) (owners : OfferingKey → Option ℕ) (byName byCaller : String → List ℕ) :
    Wf d x { c with owners, byName, byCaller } :=
  { h with }

theorem Wf.restream (h : Wf d x c) (f : ℕ → Stream)
    (ho : ∀ i, (f i).attempt.opened = (c.streams i).attempt.opened)
    (hd : ∀ i, (f i).past → (c.streams i).attempt.opened = []) : Wf d x { c with streams := f } := by
  have hopen : ∀ o, ({ c with streams := f } : Coordinator).isOpen o ↔ c.isOpen o := by
    intro o
    unfold isOpen
    rw [ho]
  exact
    { h with
      held := fun κ o hh => by
        rw [hopen]
        exact h.held κ o hh
      placed := fun o ho => h.placed o ((hopen o).mp ho)
      known := fun i o hm => h.known i o (by rwa [← ho i])
      opened_nodup := fun i => by
        rw [ho]
        exact h.opened_nodup i
      past := fun i hi => by
        rw [ho]
        exact hd i hi
      vacantStream := fun i hi => by
        rw [ho]
        exact h.vacantStream i hi }

/-! ## Taking an obligation out of its container -/

theorem unlink_obls (c : Coordinator) (o s id : ℕ) :
    (((c.unlink o).sources s).reqs id).obls =
      if c.place o = .request s id then (((c.sources s).reqs id).obls).erase o
      else ((c.sources s).reqs id).obls := by
  unfold unlink place placeOf
  dsimp only
  cases (c.obligations o).home with
  | remote r => simp [modRemote]
  | slot t ck =>
    cases (c.obligations o).req with
    | none =>
      simp only [reduceCtorEq, if_false]
      by_cases hs : s = t
      · subst hs
        rw [sources_modSource_self]
        unfold Source.modifySlot
        split <;> rfl
      · rw [sources_modSource_of_ne _ hs]
    | some id' =>
      by_cases hs : s = t
      · subst hs
        by_cases hid : id = id'
        · subst hid
          simp
        · simp [hid, Ne.symm hid]
      · simp [hs, Ne.symm hs]

theorem unlink_initial (c : Coordinator) (o s : ℕ) (ck : String) :
    (((c.unlink o).sources s).slotAt ck).initial =
      if c.place o = .initial s ck (c.obligations o).service then
        (((c.sources s).slotAt ck).initial).erase ((c.obligations o).service, o)
      else ((c.sources s).slotAt ck).initial := by
  unfold unlink place placeOf
  dsimp only
  cases (c.obligations o).home with
  | remote r => simp [modRemote]
  | slot t ck' =>
    cases (c.obligations o).req with
    | none =>
      by_cases hs : s = t
      · subst hs
        rw [sources_modSource_self, Source.slotAt_modifySlot _ _ _ _ (.inr rfl)]
        by_cases hck : ck = ck'
        · subst hck
          simp
        · simp [hck, Ne.symm hck]
      · simp [hs, Ne.symm hs]
    | some id' =>
      by_cases hs : s = t
      · subst hs
        simp [Source.slotAt]
      · simp [hs]

theorem unlink_opened (c : Coordinator) (o r : ℕ) :
    ((c.unlink o).remotes r).opened =
      if c.place o = .remote r (c.obligations o).service then
        ((c.remotes r).opened).erase (c.obligations o).service
      else (c.remotes r).opened := by
  unfold unlink place placeOf
  dsimp only
  cases (c.obligations o).home with
  | remote r' =>
    by_cases hr : r = r'
    · subst hr
      simp [modRemote]
    · simp [modRemote, hr, Ne.symm hr]
  | slot t ck' =>
    cases (c.obligations o).req with
    | none | some id' => simp [modSource]

variable {o s : ℕ}

/-- A container other than the place of `o` does not change. -/
theorem holds_unlink_of_ne {κ : Container} (hne : c.place o ≠ κ) (o' : ℕ) (hh : c.holds κ o') :
    (c.unlink o).holds κ o' := by
  cases κ with
  | request s id =>
    simp only [holds, unlink_obls]
    rw [if_neg hne]
    exact hh
  | initial s ck service =>
    simp only [holds, unlink_initial]
    split
    · rename_i hp
      refine (mem_erase_of_ne fun he => hne ?_).mpr hh
      rw [hp, (Prod.mk.inj he).1]
    · exact hh
  | remote r service =>
    simp only [holds, unlink_opened]
    split
    · rename_i hp
      rw [AList.lookup_erase_ne fun he => hne (by rw [hp, he])]
      exact hh
    · exact hh

theorem Wf.held_unlink (h : Wf d x c) (κ : Container) (o' : ℕ) (hh : (c.unlink o).holds κ o') :
    c.holds κ o' ∧ o' ≠ o := by
  -- a container other than the place of `o` does not hold `o`
  have hout : c.place o ≠ κ → c.holds κ o' → o' ≠ o := by
    rintro hne hκ rfl
    exact hne (h.held κ o' hκ).2
  cases κ with
  | request s id =>
    simp only [holds, unlink_obls] at hh ⊢
    split at hh
    · rw [(h.obls_nodup s id).mem_erase_iff] at hh
      exact ⟨hh.2, hh.1⟩
    · rename_i hp
      exact ⟨hh, hout hp hh⟩
  | initial s ck service =>
    simp only [holds, unlink_initial] at hh ⊢
    split at hh
    · rename_i hp
      rw [(h.initial_nodup s ck).mem_erase_iff] at hh
      refine ⟨hh.2, ?_⟩
      rintro rfl
      have hplace := (h.held (.initial s ck service) o' hh.2).2
      rw [hp, Container.initial.injEq] at hplace
      exact hh.1 (by rw [hplace.2.2])
    · rename_i hp
      refine ⟨hh, hout (fun he => hp ?_) hh⟩
      have hs := he
      unfold place placeOf at hs
      split at hs <;> simp_all
  | remote r service =>
    simp only [holds, unlink_opened] at hh ⊢
    split at hh
    · rename_i hp
      have hs : service ≠ (c.obligations o).service := by
        rintro rfl
        rw [AList.lookup_erase] at hh
        cases hh
      rw [AList.lookup_erase_ne hs] at hh
      refine ⟨hh, hout (fun he => hs ?_) hh⟩
      rw [hp] at he
      simpa using he.symm
    · rename_i hp
      refine ⟨hh, hout (fun he => hp ?_) hh⟩
      have hs := he
      unfold place placeOf at hs
      split at hs <;> simp_all

theorem Wf.kept_unlink (h : Wf d x c) (ho : c.isOpen o) {κ : Container} (hf : x.firm κ) {o' : ℕ}
    (hh : c.holds κ o') (hne : o' ≠ o) : (c.unlink o).holds κ o' := by
  by_cases hp : c.place o = κ
  · cases κ with
    | request s id =>
      simp only [holds, unlink_obls]
      rw [if_pos hp]
      exact (mem_erase_of_ne hne).mpr hh
    | initial s ck service =>
      simp only [holds, unlink_initial]
      have hne' : (service, o') ≠ ((c.obligations o).service, o) := fun he => hne (Prod.mk.inj he).2
      split
      · exact (mem_erase_of_ne hne').mpr hh
      · exact hh
    | remote r service =>
      -- the entry is the one of `o`
      have hheld : (c.remotes r).opened.lookup service = some o := by
        have := h.placed o ho (by rwa [hp])
        rwa [hp] at this
      exact absurd (Option.some.inj (hheld.symm.trans hh)).symm hne
  · exact holds_unlink_of_ne hp o' hh

/-- What `unlink` does to a source keeps its gate working, and creates no slot. -/
theorem sound_unlink (c : Coordinator) (o s : ℕ) {draw : ℕ → ℕ} {idle : String → Prop}
    (h : (c.sources s).Sound draw idle) :
    ((c.unlink o).sources s).Sound draw idle ∧
      ((c.sources s).slots = ∅ → ((c.unlink o).sources s).slots = ∅) := by
  unfold unlink
  dsimp only
  split
  · exact ⟨h, id⟩
  · rename_i t ck id' _ _
    by_cases hs : s = t
    · subst hs
      rw [sources_modSource_self]
      exact ⟨h.setObls _ _ fun he => by simp [he], id⟩
    · rw [sources_modSource_of_ne _ hs]
      exact ⟨h, id⟩
  · rename_i t ck _ _
    by_cases hs : s = t
    · subst hs
      rw [sources_modSource_self]
      refine ⟨h.modify ck (.inr rfl) (fun _ => rfl) (fun sl p hp => .inl (mem_of_mem_erase hp))
        fun sl name hm => .inl hm, fun he => ?_⟩
      simp [Source.modifySlot, he]
    · rw [sources_modSource_of_ne _ hs]
      exact ⟨h, id⟩

theorem Wf.isOpen_detach (h : Wf d x c) (o' : ℕ) : (c.detach o).isOpen o' ↔ c.isOpen o' ∧ o' ≠ o := by
  have hob : (c.detach o).obligations = c.obligations := (frame_detach c o).obligations
  unfold isOpen
  rw [hob]
  have hst : (c.detach o).streams = update c.streams (c.obligations o).st
      ((c.streams (c.obligations o).st).deleteOpen o) := by
    rw [detach, streams_modStream, streams_unlink]
  rw [hst]
  by_cases hs : (c.obligations o').st = (c.obligations o).st
  · rw [hs, update_self]
    exact ((h.opened_nodup _).mem_erase_iff).trans and_comm
  · rw [update_of_ne hs]
    constructor
    · intro hm
      exact ⟨hm, fun he => hs (by rw [he])⟩
    · exact And.left

theorem opened_detach (c : Coordinator) (o i : ℕ) :
    ((c.detach o).streams i).attempt.opened.Sublist (c.streams i).attempt.opened := by
  rw [detach, streams_modStream, streams_unlink]
  by_cases hi : i = (c.obligations o).st
  · subst hi
    rw [update_self]
    exact erase_sublist
  · rw [update_of_ne hi]

theorem Wf.detach (h : Wf d x c) (ho : c.isOpen o) : Wf d x (c.detach o) := by
  have hf := frame_detach c o
  have hsub := opened_detach c o
  have hsrc : ∀ s, (c.detach o).sources s = (c.unlink o).sources s := fun _ => rfl
  have hplace : ∀ o', (c.detach o).place o' = c.place o' := by
    intro o'
    unfold place
    rw [hf.obligations]
  have hholds : ∀ κ o', (c.detach o).holds κ o' ↔ (c.unlink o).holds κ o' := by
    intro κ o'
    cases κ <;> rfl
  have hobls : ∀ s id, (((c.detach o).sources s).reqs id).obls.Sublist ((c.sources s).reqs id).obls := by
    intro s id
    rw [hsrc, unlink_obls]
    split
    · exact erase_sublist
    · exact List.Sublist.refl _
  constructor
  case source => exact fun s => (sound_unlink c o s (h.source s)).1
  case down =>
    intro s hc hn
    rw [(hf.source s).closed] at hc
    rw [(hf.source s).pending]
    obtain ⟨hp, hs⟩ := h.down s hc hn
    exact ⟨hp, (sound_unlink c o s (h.source s)).2 hs⟩
  case held =>
    intro κ o' hh
    obtain ⟨hh', hne⟩ := h.held_unlink κ o' hh
    rw [h.isOpen_detach, hplace]
    exact ⟨⟨(h.held κ o' hh').1, hne⟩, (h.held κ o' hh').2⟩
  case placed =>
    intro o' ho' hfirm
    rw [hplace] at hfirm ⊢
    obtain ⟨hop, hne⟩ := (h.isOpen_detach o').mp ho'
    exact (hholds _ o').mpr (h.kept_unlink ho hfirm (h.placed o' hop hfirm) hne)
  case asked =>
    intro s id o' hm
    rw [(hf.source s).pending]
    exact h.asked s id o' ((hobls s id).subset hm)
  case matched =>
    intro s id o' hm
    rw [hf.obligations, ((hf.source s).request id).1, ((hf.source s).request id).2]
    exact h.matched s id o' ((hobls s id).subset hm)
  case known =>
    intro i o' hm
    rw [hf.nObligations, hf.obligations]
    exact h.known i o' ((hsub i).subset hm)
  case opened_nodup => exact fun i => (h.opened_nodup i).sublist (hsub i)
  case initial_nodup =>
    intro s ck
    rw [hsrc, unlink_initial]
    split
    · exact (h.initial_nodup s ck).erase _
    · exact h.initial_nodup s ck
  case obls_nodup => exact fun s id => (h.obls_nodup s id).sublist (hobls s id)
  case past =>
    intro i hi
    have hcl := (Stream.Settled.frame (.inl (acct_detach c o i))).2.2.2.1
    unfold Stream.past at hi
    rw [(acct_detach c o i).resolved, hcl] at hi
    exact sublist_nil.mp (h.past i hi ▸ hsub i)
  case vacantSource =>
    intro s hs
    rw [hf.nSources] at hs
    rw [(hf.source s).closed]
    exact h.vacantSource s hs
  case vacantStream =>
    intro i hi
    rw [hf.nStreams] at hi
    exact sublist_nil.mp (h.vacantStream i hi ▸ hsub i)
  case vacantRemote =>
    intro r hr
    rw [hf.nRemotes] at hr
    have hrem : (c.detach o).remotes r = (c.unlink o).remotes r := rfl
    rw [hrem, unlink_opened, h.vacantRemote r hr]
    exact ite_self ∅

/-- An edit of one source that moves no obligation. -/
theorem Wf.modSource (h : Wf d x c) (s : ℕ) (f : Source → Source) {idle : ℕ → String → Prop}
    {closing : ℕ → Prop} {retired : ℕ → ℕ → Prop}
    (hreqs : ∀ id, (f (c.sources s)).reqs id = (c.sources s).reqs id ∨
      ((f (c.sources s)).reqs id).obls = [] ∧ ((c.sources s).reqs id).obls = [])
    (hinit : ∀ ck, ((f (c.sources s)).slotAt ck).initial = ((c.sources s).slotAt ck).initial)
    (hsound : (f (c.sources s)).Sound (d.id s) (idle s))
    (hdown : (f (c.sources s)).closed = true → ¬closing s →
      (f (c.sources s)).pending = [] ∧ (f (c.sources s)).slots = ∅)
    (hasked : ∀ id, ∀ o ∈ ((c.sources s).reqs id).obls, id ∈ (f (c.sources s)).pending ∨ retired s id)
    (hvacant : c.nSources ≤ s → (f (c.sources s)).closed = true)
    (hidle : ∀ t ck, t ≠ s → x.idle t ck → idle t ck) (hclosing : ∀ t, t ≠ s → x.closing t → closing t)
    (hretired : ∀ t id, x.retired t id → retired t id) :
    Wf d { x with idle, closing, retired } (c.modSource s f) := by
  have hcase : ∀ t, (t ≠ s ∧ (c.modSource s f).sources t = c.sources t) ∨
      t = s ∧ (c.modSource s f).sources t = f (c.sources s) := by
    intro t
    by_cases ht : t = s
    · subst ht
      exact .inr ⟨rfl, sources_modSource_self ..⟩
    · exact .inl ⟨ht, sources_modSource_of_ne _ ht _⟩
  have hreqs' : ∀ t id, ((c.modSource s f).sources t).reqs id = (c.sources t).reqs id ∨
      (((c.modSource s f).sources t).reqs id).obls = [] ∧ ((c.sources t).reqs id).obls = [] := by
    intro t id
    rcases hcase t with ⟨_, he⟩ | ⟨rfl, he⟩
    · rw [he]
      exact .inl rfl
    · rw [he]
      exact hreqs id
  have hobls : ∀ t id, (((c.modSource s f).sources t).reqs id).obls = ((c.sources t).reqs id).obls := by
    intro t id
    rcases hreqs' t id with he | ⟨he, he'⟩
    · rw [he]
    · rw [he, he']
  have hinit' : ∀ t ck, (((c.modSource s f).sources t).slotAt ck).initial =
      ((c.sources t).slotAt ck).initial := by
    intro t ck
    rcases hcase t with ⟨_, he⟩ | ⟨rfl, he⟩
    · rw [he]
    · rw [he, hinit]
  have hholds : ∀ κ o, (c.modSource s f).holds κ o ↔ c.holds κ o := by
    intro κ o
    cases κ with
    | initial t ck service => simp only [holds, hinit']
    | request t id => simp only [holds, hobls]
    | remote r service => rfl
  refine
    { h with
      source := fun t => ?_
      down := fun t hc hn => ?_
      held := fun κ o hh => h.held κ o ((hholds κ o).mp hh)
      placed := fun o ho hf => (hholds _ o).mpr (h.placed o ho hf)
      asked := fun t id o hm => ?_
      matched := fun t id o hm => ?_
      initial_nodup := fun t ck => ?_
      obls_nodup := fun t id => ?_
      vacantSource := fun t ht => ?_ }
  · rcases hcase t with ⟨ht, he⟩ | ⟨rfl, he⟩
    · rw [he]
      exact (h.source t).mono (hidle t · ht)
    · rw [he]
      exact hsound
  · rcases hcase t with ⟨ht, he⟩ | ⟨rfl, he⟩
    · rw [he] at hc ⊢
      exact h.down t hc fun hx => hn (hclosing t ht hx)
    · rw [he] at hc ⊢
      exact hdown hc hn
  · rw [hobls] at hm
    rcases hcase t with ⟨_, he⟩ | ⟨rfl, he⟩
    · rw [he]
      exact (h.asked t id o hm).imp_right (hretired t id)
    · rw [he]
      exact hasked id o hm
  · rcases hreqs' t id with he | ⟨he, _⟩
    · rw [he] at hm ⊢
      exact h.matched t id o hm
    · rw [he] at hm
      exact absurd hm not_mem_nil
  · rw [hinit']
    exact h.initial_nodup t ck
  · rw [hobls]
    exact h.obls_nodup t id
  · rcases hcase t with ⟨_, he⟩ | ⟨rfl, he⟩
    · rw [he]
      exact h.vacantSource t ht
    · rw [he]
      exact hvacant ht

/-- An edit of one source that starts and ends nothing either. -/
theorem Wf.resource (h : Wf d x c) (s : ℕ) (f : Source → Source)
    (hclosed : (f (c.sources s)).closed = (c.sources s).closed)
    (hpending : (f (c.sources s)).pending = (c.sources s).pending)
    (hreqs : (f (c.sources s)).reqs = (c.sources s).reqs)
    (hinit : ∀ ck, ((f (c.sources s)).slotAt ck).initial = ((c.sources s).slotAt ck).initial)
    (hsound : (f (c.sources s)).Sound (d.id s) (x.idle s))
    (hdown : (c.sources s).slots = ∅ → (c.sources s).closed = true → (f (c.sources s)).slots = ∅) :
    Wf d x (c.modSource s f) := by
  refine h.modSource s f (fun id => .inl (congrFun hreqs id)) hinit hsound (fun hc hn => ?_)
    (fun id o hm => ?_) (fun hs => ?_) (fun _ _ _ hi => hi) (fun _ _ hi => hi) fun _ _ hr => hr
  · rw [hclosed] at hc
    obtain ⟨hp, hs⟩ := h.down s hc hn
    exact ⟨hpending.trans hp, hdown hs hc⟩
  · rw [hpending]
    exact h.asked s id o hm
  · rw [hclosed]
    exact h.vacantSource s hs

theorem Wf.collect (h : Wf d x c) (s : ℕ) (ck : String) : Wf d x (c.collect s ck) := by
  have hs := (c.sources s).same_collect ck
  refine h.resource s _ hs.closed hs.pending ?_ (fun ck' => by rw [Source.slotAt_collect])
    ((h.source s).collect ck) fun he _ => by simp [Source.collect, he]
  unfold Source.collect
  split
  · rfl
  · split <;> rfl

/-! ## Ending obligations -/

/-- A change to one stream that touches none of its open obligations. -/
theorem Wf.modStream (h : Wf d x c) (i : ℕ) (f : Stream → Stream)
    (ho : (f (c.streams i)).attempt.opened = (c.streams i).attempt.opened)
    (hd : (f (c.streams i)).past → (c.streams i).attempt.opened = []) : Wf d x (c.modStream i f) := by
  refine h.restream _ (fun j => ?_) fun j hover => ?_
  · by_cases hj : j = i
    · subst hj
      rwa [update_self]
    · rw [update_of_ne hj]
  · by_cases hj : j = i
    · subst hj
      rw [update_self] at hover
      exact hd hover
    · rw [update_of_ne hj] at hover
      exact h.past j hover

theorem isOpen_modStream (c : Coordinator) (i : ℕ) (f : Stream → Stream)
    (ho : (f (c.streams i)).attempt.opened = (c.streams i).attempt.opened) (o : ℕ) :
    (c.modStream i f).isOpen o ↔ c.isOpen o := by
  unfold isOpen
  have hob : (c.modStream i f).obligations = c.obligations := rfl
  rw [hob]
  by_cases hi : (c.obligations o).st = i
  · rw [hi, streams_modStream_self, ho]
  · rw [streams_modStream_of_ne _ hi]

section

variable (h : Wf d x c)
include h

theorem Wf.settle (i : ℕ) : Wf d x (c.settle i) ∧ ∀ o, (c.settle i).isOpen o ↔ c.isOpen o := by
  unfold Coordinator.settle
  split
  · rename_i hs
    exact ⟨h.modStream i _ rfl fun _ => hs.1, isOpen_modStream c i _ rfl⟩
  · exact ⟨h, fun _ => Iff.rfl⟩

/-- Ending one obligation if it is open, with a note in the stream's history and its account. -/
theorem Wf.close (o : ℕ) (note : Stream → Stream)
    (hopen : ∀ st, (note st).attempt.opened = st.attempt.opened) (hover : ∀ st, (note st).past → st.past)
    {c' : Coordinator} (hc' : c' = if c.isOpen o then
      ((c.modStream (c.obligations o).st note).detach o).settle (c.obligations o).st else c) :
    Wf d x c' ∧ ∀ o', c'.isOpen o' ↔ c.isOpen o' ∧ o' ≠ o := by
  rw [hc']
  split
  · rename_i ho
    have h₁ : Wf d x (c.modStream (c.obligations o).st note) :=
      h.modStream _ note (hopen _) fun hd => h.past _ (hover _ hd)
    have hiff := isOpen_modStream c (c.obligations o).st note (hopen _)
    obtain ⟨h₂, hiff₂⟩ := (h₁.detach ((hiff o).mpr ho)).settle (c.obligations o).st
    refine ⟨h₂, fun o' => ?_⟩
    rw [hiff₂, h₁.isOpen_detach, hiff]
  · rename_i ho
    refine ⟨h, fun o' => ⟨fun hm => ⟨hm, ?_⟩, And.left⟩⟩
    rintro rfl
    exact ho hm

theorem Wf.endObligation (o : ℕ) :
    Wf d x (c.endObligation o) ∧ ∀ o', (c.endObligation o).isOpen o' ↔ c.isOpen o' ∧ o' ≠ o :=
  h.close o (·.record (.ended o (c.obligations o).service)) (fun _ => rfl) (fun _ hd => hd) rfl

theorem Wf.fail (o : ℕ) : Wf d x (c.fail o) ∧ ∀ o', (c.fail o).isOpen o' ↔ c.isOpen o' ∧ o' ≠ o :=
  h.close o (fun st => (st.record (.failed o (c.obligations o).service)).markFailed
    (c.obligations o).service) (fun _ => rfl) (fun _ hd => hd) rfl

theorem Wf.detachCollect (ho : c.isOpen o) :
    Wf d x (c.detachCollect o) ∧ ∀ o', (c.detachCollect o).isOpen o' ↔ c.isOpen o' ∧ o' ≠ o := by
  unfold Coordinator.detachCollect
  split
  · exact ⟨h.detach ho, h.isOpen_detach⟩
  · exact ⟨(h.detach ho).collect _ _, h.isOpen_detach⟩

theorem Wf.expire (ho : c.isOpen o) :
    Wf d x (c.expire o) ∧ ∀ o', (c.expire o).isOpen o' ↔ c.isOpen o' ∧ o' ≠ o := by
  have hiff := isOpen_modStream c (c.obligations o).st (fun st =>
    (st.record (.expired o (c.obligations o).service)).markFailed (c.obligations o).service) rfl
  have h₁ : Wf d x (c.modStream (c.obligations o).st fun st =>
      (st.record (.expired o (c.obligations o).service)).markFailed (c.obligations o).service) :=
    h.modStream _ _ rfl (h.past _)
  obtain ⟨h₂, hiff₂⟩ := h₁.detachCollect ((hiff o).mpr ho)
  exact ⟨h₂, fun o' => (hiff₂ o').trans (and_congr_left fun _ => hiff o')⟩

/-- A loop that ends the obligations of a list. Its step asks for an open one, or, with `P`, for any. -/
theorem Wf.loop {P : Prop} (f : Coordinator → ℕ → Coordinator)
    (hf : ∀ (c : Coordinator) o, Wf d x c → P ∨ c.isOpen o → Wf d x (f c o) ∧
      ∀ o', (f c o).isOpen o' ↔ c.isOpen o' ∧ o' ≠ o) (l : List ℕ) (hl : P ∨ l.Nodup ∧ ∀ o ∈ l, c.isOpen o) :
    Wf d x (l.foldl f c) ∧ ∀ o', (l.foldl f c).isOpen o' ↔ c.isOpen o' ∧ o' ∉ l := by
  induction l generalizing c with
  | nil => exact ⟨h, fun o' => by simp⟩
  | cons o l ih =>
    obtain ⟨h₁, hiff₁⟩ := hf c o h (hl.imp_right fun hl => hl.2 o mem_cons_self)
    have hl' : P ∨ l.Nodup ∧ ∀ o' ∈ l, (f c o).isOpen o' := by
      refine hl.imp_right fun ⟨hnd, ho⟩ => ⟨(nodup_cons.mp hnd).2, fun o' hm => ?_⟩
      exact (hiff₁ o').mpr ⟨ho o' (mem_cons_of_mem o hm), ne_of_mem_of_not_mem hm (nodup_cons.mp hnd).1⟩
    obtain ⟨h₂, hiff₂⟩ := ih h₁ hl'
    refine ⟨h₂, fun o' => ?_⟩
    rw [foldl_cons, hiff₂, hiff₁]
    simp [and_assoc]

theorem Wf.fails (l : List ℕ) : Wf d x (l.foldl Coordinator.fail c) ∧
      ∀ o', (l.foldl Coordinator.fail c).isOpen o' ↔ c.isOpen o' ∧ o' ∉ l :=
  h.loop _ (fun _ o hw _ => hw.fail o) l (.inl trivial)

theorem Wf.ends (l : List ℕ) : Wf d x (l.foldl Coordinator.endObligation c) ∧
      ∀ o', (l.foldl Coordinator.endObligation c).isOpen o' ↔ c.isOpen o' ∧ o' ∉ l :=
  h.loop _ (fun _ o hw _ => hw.endObligation o) l (.inl trivial)

end

/-! ## Requests -/

/-- The slot `schedule` visits is not idle afterwards. -/
def Slack.visit (x : Slack) (s : ℕ) (ck : String) : Slack :=
  { x with idle := fun s' ck' => x.idle s' ck' ∧ ¬(s' = s ∧ ck' = ck) }

/-- `schedule` when it issues a request. -/
def issue (d : Draws) (c : Coordinator) (s : ℕ) (ck service : String) : Coordinator :=
  { c.modSource s fun src => src.issue (d.id s) ck (src.slotAt ck) service with
    obligations := fun o =>
      if o ∈ ((c.sources s).slotAt ck).waiting service then
        { c.obligations o with req := some (d.id s (c.sources s).issued.length) }
      else c.obligations o }

theorem sources_issue_self (d : Draws) (c : Coordinator) (s : ℕ) (ck service : String) :
    (c.issue d s ck service).sources s =
      (c.sources s).issue (d.id s) ck ((c.sources s).slotAt ck) service := update_self ..

theorem sources_issue_of_ne (d : Draws) (c : Coordinator) {t : ℕ} (h : t ≠ s) (ck service : String) :
    (c.issue d s ck service).sources t = c.sources t := update_of_ne h ..

theorem sources_schedule_self (d : Draws) (c : Coordinator) (s : ℕ) (ck : String) :
    (c.schedule d s ck).sources s = ((c.sources s).schedule (d.id s) ck).1 := by
  unfold schedule
  split
  · rename_i heq
    rw [sources_modSource_self, heq]
  · rename_i heq
    rw [heq]
    exact update_self ..

theorem modSource_self (c : Coordinator) (s : ℕ) : (c.modSource s fun _ => c.sources s) = c := by
  unfold modSource
  rw [update_eq_self]

theorem schedule_cases (d : Draws) (c : Coordinator) (s : ℕ) (ck : String) :
    (c.schedule d s ck = c ∧ ((c.sources s).closed = true ∨ ck ∉ (c.sources s).slots ∨
      ((c.sources s).slotAt ck).active ≠ none)) ∨
    (c.schedule d s ck = c.collect s ck ∧ (c.sources s).closed = false ∧
      ((c.sources s).slotAt ck).active = none ∧
      ((c.sources s).slotAt ck).next (c.sources s).names = none) ∨
    ∃ service, c.schedule d s ck = c.issue d s ck service ∧ (c.sources s).closed = false ∧
      ck ∈ (c.sources s).slots ∧ ((c.sources s).slotAt ck).active = none ∧
      ((c.sources s).slotAt ck).next (c.sources s).names = some service := by
  unfold schedule
  rcases Source.schedule_cases (d.id s) (c.sources s) ck with ⟨heq, hwhy⟩ | ⟨heq, hwhy⟩ | ⟨service, heq, hwhy⟩
  · rw [heq]
    exact .inl ⟨modSource_self c s, hwhy⟩
  · rw [heq]
    exact .inr (.inl ⟨rfl, hwhy⟩)
  · rw [heq]
    exact .inr (.inr ⟨service, rfl, hwhy⟩)

/-- The obligations of the service have moved from the slot into the new request. -/
theorem Wf.holds_issue (h : Wf d x c) (s : ℕ) (ck service : String) (κ : Container) (o : ℕ) :
    (c.issue d s ck service).holds κ o ↔
      if o ∈ ((c.sources s).slotAt ck).waiting service then
        .request s (d.id s (c.sources s).issued.length) = κ
      else c.holds κ o := by
  have hsrc := sources_issue_self d c s ck service
  by_cases hslot : κ = .initial s ck service
  · subst hslot
    have hout : ¬(c.issue d s ck service).holds (.initial s ck service) o := by
      simp [holds, hsrc, Source.slotAt_issue]
    rw [iff_false_left hout]
    split
    · exact nofun
    · rename_i hm
      exact fun hin => hm (Source.mem_waiting.mpr hin)
  · by_cases hreq : .request s (d.id s (c.sources s).issued.length) = κ
    · subst hreq
      have hnil : ((c.sources s).reqs (d.id s (c.sources s).issued.length)).obls = [] :=
        (h.source s).unissued _ ((h.source s).fresh (d.injective s))
      simp only [holds, hsrc, Source.issue, update_self, hnil, not_mem_nil]
      simp
    · -- every other container is as it was
      have hsame : (c.issue d s ck service).holds κ o ↔ c.holds κ o := by
        cases κ with
        | initial t ck' sv =>
          by_cases ht : t = s
          · subst ht
            simp only [holds, hsrc, Source.slotAt_issue]
            split
            · rename_i hk
              have hsv : sv ≠ service := fun he => hslot (by rw [hk, he])
              rw [hk, mem_filter]
              simp [hsv]
            · exact Iff.rfl
          · simp only [holds, sources_issue_of_ne d c ht]
        | request t id =>
          by_cases ht : t = s
          · subst ht
            simp only [holds, hsrc]
            rw [show ((c.sources t).issue (d.id t) ck ((c.sources t).slotAt ck) service).reqs id = _ from
              update_of_ne (fun he => hreq (by rw [he])) ..]
          · simp only [holds, sources_issue_of_ne d c ht]
        | remote r sv => exact Iff.rfl
      rw [hsame]
      split
      · rename_i hm
        have hplace := (h.held (.initial s ck service) o (Source.mem_waiting.mp hm)).2
        exact iff_of_false (fun hin => hslot ((h.held κ o hin).2.symm.trans hplace)) hreq
      · exact Iff.rfl

/-- What waits in a slot is at home there. -/
theorem home_of_place {ck service : String} (hp : c.place o = .initial s ck service) :
    (c.obligations o).home = .slot s ck ∧ (c.obligations o).service = service := by
  unfold place placeOf at hp
  split at hp
  · cases hp
  · rename_i hh _
    simp only [Container.initial.injEq] at hp
    exact ⟨by rw [hh, hp.1, hp.2.1], hp.2.2⟩
  · cases hp

theorem Wf.issue (h : Wf d x c) {ck service : String} (hc : (c.sources s).closed = false)
    (ha : ((c.sources s).slotAt ck).active = none) (hs : service ∈ (c.sources s).names) :
    Wf d (x.visit s ck) (c.issue d s ck service) := by
  have hsrc := sources_issue_self d c s ck service
  have hne : ∀ t, t ≠ s → (c.issue d s ck service).sources t = c.sources t :=
    fun t ht => sources_issue_of_ne d c ht ck service
  have hclosed : ∀ t, ((c.issue d s ck service).sources t).closed = (c.sources t).closed := by
    intro t
    by_cases ht : t = s
    · subst ht
      rw [hsrc]
      rfl
    · rw [hne t ht]
  have hst : ∀ o, ((c.issue d s ck service).obligations o).st = (c.obligations o).st ∧
      ((c.issue d s ck service).obligations o).home = (c.obligations o).home ∧
      ((c.issue d s ck service).obligations o).service = (c.obligations o).service := by
    intro o
    simp only [Coordinator.issue]
    split <;> exact ⟨rfl, rfl, rfl⟩
  have hopen : ∀ o, (c.issue d s ck service).isOpen o ↔ c.isOpen o := by
    intro o
    unfold isOpen
    rw [(hst o).1]
    rfl
  have hmoved : ∀ o ∈ ((c.sources s).slotAt ck).waiting service, (c.issue d s ck service).place o =
      .request s (d.id s (c.sources s).issued.length) := by
    intro o hm
    have hhome := (home_of_place (h.held (.initial s ck service) o (Source.mem_waiting.mp hm)).2).1
    simp only [place, Coordinator.issue, if_pos hm, placeOf, hhome]
  have hstays : ∀ o, o ∉ ((c.sources s).slotAt ck).waiting service →
      (c.issue d s ck service).place o = c.place o := by
    intro o hm
    simp only [place, Coordinator.issue, if_neg hm]
  -- the requests are the old ones and the new one
  have hreq : ∀ t id, ((c.issue d s ck service).sources t).reqs id = (c.sources t).reqs id ∨
      t = s ∧ id = d.id s (c.sources s).issued.length ∧
        ((c.issue d s ck service).sources t).reqs id =
          { caller := ck, service, obls := ((c.sources s).slotAt ck).waiting service } := by
    intro t id
    by_cases ht : t = s
    · subst ht
      rw [hsrc]
      by_cases hid : id = d.id t (c.sources t).issued.length
      · subst hid
        exact .inr ⟨rfl, rfl, update_self ..⟩
      · exact .inl (update_of_ne hid ..)
    · rw [hne t ht]
      exact .inl rfl
  constructor
  case source =>
    intro t
    by_cases ht : t = s
    · subst ht
      rw [hsrc]
      refine ((h.source t).issue (d.injective t) hc ha hs).mono fun ck' hi => ?_
      exact ⟨hi.1, fun he => hi.2 he.2⟩
    · rw [hne t ht]
      exact (h.source t).mono fun ck' hi => ⟨hi, fun he => ht he.1⟩
  case down =>
    intro t hcl hn
    rw [hclosed] at hcl
    have ht : t ≠ s := by
      rintro rfl
      rw [hc] at hcl
      cases hcl
    rw [hne t ht]
    exact h.down t hcl hn
  case held =>
    intro κ o hh
    rw [h.holds_issue] at hh
    rw [hopen]
    split at hh
    · rename_i hm
      exact ⟨(h.held (.initial s ck service) o (Source.mem_waiting.mp hm)).1, (hmoved o hm).trans hh⟩
    · rename_i hm
      rw [hstays o hm]
      exact h.held κ o hh
  case placed =>
    intro o ho hf
    rw [h.holds_issue]
    split
    · rename_i hm
      exact (hmoved o hm).symm
    · rename_i hm
      rw [hstays o hm] at hf ⊢
      exact h.placed o ((hopen o).mp ho) hf
  case asked =>
    intro t id o hm
    rcases hreq t id with he | ⟨rfl, rfl, _⟩
    · rw [he] at hm
      rcases h.asked t id o hm with hp | hr
      · refine .inl ?_
        by_cases ht : t = s
        · subst ht
          rw [hsrc]
          exact mem_append_left _ hp
        · rwa [hne t ht]
      · exact .inr hr
    · rw [hsrc]
      exact .inl (mem_append_right _ (mem_singleton.mpr rfl))
  case matched =>
    intro t id o hm
    rw [(hst o).2.1, (hst o).2.2]
    rcases hreq t id with he | ⟨rfl, rfl, he⟩
    · rw [he] at hm ⊢
      exact h.matched t id o hm
    · rw [he] at hm ⊢
      exact home_of_place (h.held (.initial t ck service) o (Source.mem_waiting.mp hm)).2
  case known =>
    intro i o hm
    rw [(hst o).1]
    exact h.known i o hm
  case opened_nodup => exact h.opened_nodup
  case initial_nodup =>
    intro t ck'
    by_cases ht : t = s
    · subst ht
      rw [hsrc, Source.slotAt_issue]
      split
      · exact (h.initial_nodup t ck).filter _
      · exact h.initial_nodup t ck'
    · rw [hne t ht]
      exact h.initial_nodup t ck'
  case obls_nodup =>
    intro t id
    rcases hreq t id with he | ⟨rfl, _, he⟩
    · rw [he]
      exact h.obls_nodup t id
    · rw [he]
      refine List.Nodup.map_on ?_ ((h.initial_nodup t ck).filter _)
      intro p hp q hq heq
      have hp' := of_decide_eq_true (mem_filter.mp hp).2
      have hq' := of_decide_eq_true (mem_filter.mp hq).2
      exact Prod.ext (hp'.trans hq'.symm) heq
  case past => exact h.past
  case vacantSource =>
    intro t ht
    rw [hclosed]
    exact h.vacantSource t ht
  case vacantStream => exact h.vacantStream
  case vacantRemote => exact h.vacantRemote

theorem Wf.schedule (h : Wf d x c) (s : ℕ) (ck : String) :
    Wf d (x.visit s ck) (c.schedule d s ck) := by
  have hother : ∀ c' : Coordinator, Wf d x c' →
      ((c'.sources s).Sound (d.id s) fun ck' => x.idle s ck' ∧ ck' ≠ ck) → Wf d (x.visit s ck) c' := by
    intro c' hw hs
    refine { hw with source := fun t => ?_ }
    by_cases ht : t = s
    · subst ht
      exact hs.mono fun ck' hi => ⟨hi.1, fun he => hi.2 he.2⟩
    · exact (hw.source t).mono fun ck' hi => ⟨hi, fun he => ht he.1⟩
  have hsched := (h.source s).schedule (d.injective s) ck
  rw [← sources_schedule_self] at hsched
  rcases schedule_cases d c s ck with ⟨heq, _⟩ | ⟨heq, _⟩ | ⟨service, heq, hc, _, ha, hn⟩
  · rw [heq] at hsched ⊢
    exact hother c h hsched
  · rw [heq] at hsched ⊢
    exact hother _ (h.collect s ck) hsched
  · rw [heq]
    exact h.issue hc ha (Source.next_some hn).1

/-! ## New obligations -/

def opening (o : ℕ) (st : Stream) : Stream :=
  { st with attempt := { st.attempt with opened := st.attempt.opened ++ [o] } }

/-- `c'` is `c` with a new open obligation `ob` of a live stream, in its place. -/
structure Adds (x : Slack) (c c' : Coordinator) (ob : Obligation) : Prop where
  obligations : c'.obligations = Function.update c.obligations c.nObligations ob
  nObligations : c'.nObligations = c.nObligations + 1
  streams : c'.streams = Function.update c.streams ob.st (opening c.nObligations (c.streams ob.st))
  nStreams : c'.nStreams = c.nStreams
  exists_stream : ob.st < c.nStreams
  live : ¬(c.streams ob.st).past
  held : ∀ κ o, c'.holds κ o → c.holds κ o ∨ o = c.nObligations ∧ placeOf ob = κ
  kept : ∀ κ o, x.firm κ → c.holds κ o → c'.holds κ o
  here : c'.holds (placeOf ob) c.nObligations

theorem Wf.not_isOpen (h : Wf d x c) : ¬c.isOpen c.nObligations :=
  fun ho => Nat.lt_irrefl _ (h.known _ _ ho).1

theorem Adds.isOpen {c' : Coordinator} {ob : Obligation} (ha : Adds x c c' ob) (o : ℕ) :
    c'.isOpen o ↔ (c.isOpen o ∧ o ≠ c.nObligations) ∨ o = c.nObligations := by
  unfold Coordinator.isOpen
  rw [ha.obligations, ha.streams]
  by_cases ho : o = c.nObligations
  · subst ho
    simp [opening]
  · rw [update_of_ne ho]
    by_cases hst : (c.obligations o).st = ob.st
    · rw [hst, update_self]
      simp [opening, ho]
    · rw [update_of_ne hst]
      simp [ho]

theorem Adds.stream {c' : Coordinator} {ob : Obligation} (ha : Adds x c c' ob) (i : ℕ) :
    c'.streams i = c.streams i ∨
      i = ob.st ∧ c'.streams i = opening c.nObligations (c.streams i) := by
  rw [ha.streams]
  by_cases hi : i = ob.st
  · subst hi
    exact .inr ⟨rfl, update_self ..⟩
  · exact .inl (update_of_ne hi ..)

theorem Wf.add {c' : Coordinator} {b : Obligation} (h : Wf d x c) (ha : Adds x c c' b)
    (hsource : ∀ s, (c'.sources s).Sound (d.id s) (x.idle s))
    (hdown : ∀ s, (c'.sources s).closed = true → ¬x.closing s →
      (c'.sources s).pending = [] ∧ (c'.sources s).slots = ∅)
    (hreqs : ∀ s, (c'.sources s).reqs = (c.sources s).reqs)
    (hpending : ∀ s, (c'.sources s).pending = (c.sources s).pending)
    (hinit : ∀ s ck, ((c'.sources s).slotAt ck).initial.Nodup)
    (hvacantS : ∀ s, c'.nSources ≤ s → (c'.sources s).closed = true)
    (hvacantR : ∀ r, c'.nRemotes ≤ r → (c'.remotes r).opened = ∅) : Wf d x c' := by
  have hob : ∀ o, o ≠ c.nObligations → c'.obligations o = c.obligations o := by
    intro o ho
    rw [ha.obligations, update_of_ne ho]
  have hnew : c'.obligations c.nObligations = b := by
    rw [ha.obligations, update_self]
  have hplace : ∀ o, o ≠ c.nObligations → c'.place o = c.place o := by
    intro o ho
    unfold place
    rw [hob o ho]
  constructor
  case source => exact hsource
  case down => exact hdown
  case held =>
    intro κ o hh
    rw [ha.isOpen]
    rcases ha.held κ o hh with hh' | ⟨rfl, hp⟩
    · obtain ⟨ho, hp⟩ := h.held κ o hh'
      have hne : o ≠ c.nObligations := by
        rintro rfl
        exact h.not_isOpen ho
      exact ⟨.inl ⟨ho, hne⟩, (hplace o hne).trans hp⟩
    · refine ⟨.inr rfl, ?_⟩
      unfold place
      rw [hnew, hp]
  case placed =>
    intro o ho hf
    rcases (ha.isOpen o).mp ho with ⟨hop, hne⟩ | rfl
    · rw [hplace o hne] at hf ⊢
      exact ha.kept _ o hf (h.placed o hop hf)
    · unfold place
      rw [hnew]
      exact ha.here
  case asked =>
    intro s id o hm
    rw [hreqs] at hm
    rw [hpending]
    exact h.asked s id o hm
  case matched =>
    intro s id o hm
    rw [hreqs] at hm ⊢
    have ho : o ≠ c.nObligations := by
      rintro rfl
      exact h.not_isOpen (h.held (.request s id) _ hm).1
    rw [hob o ho]
    exact h.matched s id o hm
  case known =>
    intro i o hm
    rw [ha.nObligations]
    by_cases ho : o = c.nObligations
    · subst ho
      rw [hnew]
      refine ⟨Nat.lt_succ_self _, ?_⟩
      rcases ha.stream i with he | ⟨rfl, _⟩
      · rw [he] at hm
        exact absurd (h.known i _ hm).1 (Nat.lt_irrefl _)
      · rfl
    · rw [hob o ho]
      have hm' : o ∈ (c.streams i).attempt.opened := by
        rcases ha.stream i with he | ⟨_, he⟩
        · rwa [he] at hm
        · rw [he] at hm
          simpa [opening, ho] using hm
      obtain ⟨hlt, hst⟩ := h.known i o hm'
      exact ⟨Nat.lt_succ_of_lt hlt, hst⟩
  case opened_nodup =>
    intro i
    rcases ha.stream i with he | ⟨_, he⟩
    · rw [he]
      exact h.opened_nodup i
    · rw [he]
      refine nodup_append.mpr ⟨h.opened_nodup i, by simp, fun o ho o' ho' => ?_⟩
      rw [mem_singleton.mp ho']
      exact Nat.ne_of_lt (h.known i o ho).1
  case initial_nodup => exact hinit
  case obls_nodup =>
    intro s id
    rw [hreqs]
    exact h.obls_nodup s id
  case past =>
    intro i hi
    rcases ha.stream i with he | ⟨rfl, he⟩
    · rw [he] at hi ⊢
      exact h.past i hi
    · rw [he] at hi
      exact absurd hi ha.live
  case vacantSource => exact hvacantS
  case vacantStream =>
    intro i hi
    rw [ha.nStreams] at hi
    rcases ha.stream i with he | ⟨rfl, _⟩
    · rw [he]
      exact h.vacantStream i hi
    · exact absurd ha.exists_stream (Nat.not_lt.mpr hi)
  case vacantRemote => exact hvacantR

theorem Wf.obliged (h : Wf d x c) {i : ℕ} {ck name : String} (hi : i < c.nStreams)
    (hlive : ¬(c.streams i).past) (hs : (c.sources s).closed = false) (hn : name ∈ (c.sources s).names)
    (hx : x.idle s ck) : Wf d x (oblige i ck name c s) := by
  have hself : (oblige i ck name c s).sources s = ((c.sources s).slot ck).modifySlot ck fun sl =>
      { sl with initial := sl.initial ++ [(name, c.nObligations)] } := update_self ..
  have hne : ∀ t, t ≠ s → (oblige i ck name c s).sources t = c.sources t :=
    fun t ht => update_of_ne ht ..
  have hmem : ck ∈ ((c.sources s).slot ck).slots := (Source.mem_slots_slot _ _ _).mpr (.inl rfl)
  have hinit : ∀ t ck', (((oblige i ck name c s).sources t).slotAt ck').initial =
      if t = s ∧ ck' = ck then ((c.sources s).slotAt ck).initial ++ [(name, c.nObligations)]
      else ((c.sources t).slotAt ck').initial := by
    intro t ck'
    by_cases ht : t = s
    · subst ht
      rw [hself, Source.slotAt_modifySlot _ _ _ _ (.inl hmem)]
      by_cases hk : ck' = ck
      · simp [hk]
      · simp [hk]
    · simp [hne t ht, ht]
  have hsame : (c.sources s).Same ((oblige i ck name c s).sources s) := by
    rw [hself]
    exact (Source.same_slot _ ck).trans (Source.same_modifySlot _ ck _)
  have hreqs : ∀ t, ((oblige i ck name c s).sources t).reqs = (c.sources t).reqs := by
    intro t
    by_cases ht : t = s
    · subst ht
      rw [hself]
      unfold Source.modifySlot Source.slot
      split <;> split <;> rfl
    · rw [hne t ht]
  have hfresh : (name, c.nObligations) ∉ ((c.sources s).slotAt ck).initial := fun hm =>
    h.not_isOpen (h.held (.initial s ck name) _ hm).1
  have hholds : ∀ κ o, (oblige i ck name c s).holds κ o ↔
      c.holds κ o ∨ o = c.nObligations ∧ placeOf { st := i, service := name, home := .slot s ck } = κ := by
    intro κ o
    cases κ with
    | initial t ck' sv =>
      simp only [holds, hinit, placeOf, Container.initial.injEq]
      by_cases hk : t = s ∧ ck' = ck
      · obtain ⟨rfl, rfl⟩ := hk
        simp only [and_self, if_true, mem_append, mem_singleton, Prod.mk.injEq, true_and]
        rw [and_comm, eq_comm (a := name)]
      · rw [if_neg hk]
        constructor
        · exact .inl
        · rintro (hm | ⟨_, rfl, rfl, _⟩)
          · exact hm
          · exact absurd ⟨rfl, rfl⟩ hk
    | request t id => simp [holds, hreqs, placeOf]
    | remote r sv => simp [holds, placeOf, Coordinator.oblige, Coordinator.modStream, Coordinator.modSource]
  refine h.add (b := { st := i, service := name, home := .slot s ck })
    ⟨rfl, rfl, rfl, rfl, hi, hlive, fun κ o => (hholds κ o).mp,
      fun κ o _ hh => (hholds κ o).mpr (.inl hh),
      (hholds _ _).mpr (.inr ⟨rfl, rfl⟩)⟩ (fun t => ?_) (fun t hc hnc => ?_) hreqs
    (fun t => ?_) (fun t ck' => ?_) (fun t ht => ?_) h.vacantRemote
  · by_cases ht : t = s
    · subst ht
      rw [hself]
      refine ((h.source t).slot hx).modify ck (.inl hmem) (fun _ => rfl) (fun sl p hp => ?_)
        fun sl nm hm => .inl hm
      rcases mem_append.mp hp with hp | hp
      · exact .inl hp
      · refine .inr ?_
        rw [mem_singleton.mp hp, ((c.sources t).same_slot ck).names]
        exact hn
    · rw [hne t ht]
      exact h.source t
  · have ht : t ≠ s := by
      rintro rfl
      rw [hsame.closed, hs] at hc
      cases hc
    rw [hne t ht] at hc ⊢
    exact h.down t hc hnc
  · by_cases ht : t = s
    · subst ht
      exact hsame.pending
    · rw [hne t ht]
  · rw [hinit]
    split
    · refine nodup_append.mpr ⟨h.initial_nodup s ck, by simp, fun p hp q hq => ?_⟩
      rw [mem_singleton.mp hq]
      exact fun he => hfresh (he ▸ hp)
    · exact h.initial_nodup t ck'
  · by_cases hts : t = s
    · subst hts
      rw [hsame.closed]
      exact h.vacantSource t ht
    · rw [hne t hts]
      exact h.vacantSource t ht

theorem Wf.obligedRemote (h : Wf d x c) {i r : ℕ} {name : String} (hi : i < c.nStreams)
    (hlive : ¬(c.streams i).past) (hlt : r < c.nRemotes) (hn : x.loose ∨ name ∉ (c.remotes r).opened) :
    Wf d x (obligeRemote i r c name) := by
  have hself : ((obligeRemote i r c name).remotes r).opened =
      (c.remotes r).opened.insert name c.nObligations := by
    simp [Coordinator.obligeRemote, Coordinator.modStream, modRemote]
  have hne : ∀ r', r' ≠ r → (obligeRemote i r c name).remotes r' = c.remotes r' :=
    fun r' hr' => update_of_ne hr' ..
  refine h.add (b := { st := i, service := name, home := .remote r })
    ⟨rfl, rfl, rfl, rfl, hi, hlive, fun κ o hh => ?_, fun κ o hf hh => ?_, ?_⟩ h.source h.down
    (fun _ => rfl) (fun _ => rfl) h.initial_nodup h.vacantSource fun r' hr' => ?_
  · cases κ with
    | initial t ck' sv | request t id => exact .inl hh
    | remote r' sv =>
      simp only [holds] at hh
      by_cases hr' : r' = r
      · subst hr'
        rw [hself] at hh
        by_cases hsv : sv = name
        · subst hsv
          rw [AList.lookup_insert] at hh
          exact .inr ⟨(Option.some.inj hh).symm, rfl⟩
        · rw [AList.lookup_insert_ne hsv] at hh
          exact .inl hh
      · rw [hne r' hr'] at hh
        exact .inl hh
  · cases κ with
    | initial t ck' sv | request t id => exact hh
    | remote r' sv =>
      simp only [holds] at hh ⊢
      by_cases hr' : r' = r
      · subst hr'
        -- a firm map has no entry to lose
        have hsv : sv ≠ name := by
          rintro rfl
          rcases hn with hl | hn
          · exact hf hl
          · rw [AList.lookup_eq_none.mpr hn] at hh
            cases hh
        rw [hself, AList.lookup_insert_ne hsv]
        exact hh
      · rw [hne r' hr']
        exact hh
  · simp only [holds, placeOf, hself, AList.lookup_insert]
  · have hr'' : r' ≠ r := by
      rintro rfl
      exact Nat.not_lt.mpr hr' hlt
    rw [hne r' hr'']
    exact h.vacantRemote r' hr'

/-! ## Retiring a request, closing a source -/

/-- The request and its caller's slot are out of order until the method ends. -/
def Slack.retire (x : Slack) (s id : ℕ) (ck : String) : Slack :=
  { x with
    idle := fun s' ck' => x.idle s' ck' ∨ s' = s ∧ ck' = ck
    retired := fun s' id' => x.retired s' id' ∨ s' = s ∧ id' = id }

theorem Wf.retire (h : Wf d x c) {id : ℕ} (hid : id ∈ (c.sources s).pending) :
    Wf d (x.retire s id ((c.sources s).reqs id).caller) (c.modSource s (·.retire id)) := by
  have hclosed : ((c.sources s).retire id).closed = (c.sources s).closed :=
    ((c.sources s).same_modifySlot _ _).closed
  refine h.modSource s _ (fun id' => .inl ?_) (fun ck => ?_) ?_ (fun hc hn => ?_) (fun id' o hm => ?_)
    (fun hs => ?_) (fun t ck _ hi => .inl hi) (fun t _ hi => hi) fun t id' hr => .inl hr
  · unfold Source.retire Source.modifySlot
    split <;> rfl
  · have hat : ((c.sources s).retire id).slotAt ck = _ := Source.slotAt_modifySlot (c.sources s)
      ((c.sources s).reqs id).caller ck (fun sl => { sl with active := none }) (.inr rfl)
    rw [hat]
    split
    · rename_i hk
      rw [hk]
    · rfl
  · exact ((h.source s).retire hid).mono fun ck hi => hi.imp_right fun he => ⟨rfl, he⟩
  · rw [hclosed] at hc
    rw [(h.down s hc hn).1] at hid
    exact absurd hid not_mem_nil
  · rcases h.asked s id' o hm with hp | hr
    · by_cases he : id' = id
      · exact .inr (.inr ⟨rfl, he⟩)
      · exact .inl ((mem_erase_of_ne he).mpr hp)
    · exact .inr (.inl hr)
  · rw [hclosed]
    exact h.vacantSource s hs

/-- A retired request that holds nothing is in order. -/
theorem Wf.forget {id : ℕ} {ck : String} (h : Wf d (x.retire s id ck) c)
    (hnil : ((c.sources s).reqs id).obls = []) :
    Wf d { x with idle := fun s' ck' => x.idle s' ck' ∨ s' = s ∧ ck' = ck } c := by
  refine { h with asked := fun t id' o hm => (h.asked t id' o hm).imp_right ?_ }
  rintro (hr | ⟨rfl, rfl⟩)
  · exact hr
  · rw [hnil] at hm
    exact absurd hm not_mem_nil

end Coordinator

end Astrald.Services
