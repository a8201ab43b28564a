import Astrald.Services.Asks
import Astrald.Services.Convergence

/-!
# No refresh is lost

A change, a registration and a discovery leave work in the slot of a caller: a service to refresh,
or an obligation of a new stream. The work stays there until an ask for exactly that caller and
service has been queued after it; only closing the source, and for an obligation closing the
stream or running out of budget, takes it away.

* `onward_exec`: the progress of one source over a whole run;
* `refreshing_change`, `refreshing_register`, `obliged_obligeAll`: the work is there after the operation;
* `no_lost_refresh`: it is there in every later state, its obligations are not ended by an older
  ask, and a slot with work has an active request.
-/

namespace Astrald.Services

open List Function

/-! ## Refresh work of one source -/

namespace Source

/-- The refresh work is in the slot or has been asked for after the first `n` asks. -/
def Refreshing (src : Source) (n : ℕ) (ck name : String) : Prop :=
  src.closed = true ∨ name ∈ (src.slotAt ck).dirty ∨ src.Asked n ck name

variable {draw : ℕ → ℕ} {G : ℕ → Prop} {src src' : Source} {n : ℕ} {ck name : String}

theorem Onward.grows (h : src.Onward draw G src') (hn : src.closed = true ∨ n ≤ src.askLog.length) :
    src'.closed = true ∨ n ≤ src'.askLog.length := by
  rcases hn with hc | hn
  · exact .inl (h.closed hc)
  · exact h.log.imp_right fun hlog => hn.trans hlog.length_le

theorem Onward.asked (h : src.Onward draw G src') (ha : src.Asked n ck name) :
    src'.closed = true ∨ src'.Asked n ck name :=
  h.log.imp_right ha.mono

theorem Onward.refreshing (h : src.Onward draw G src') (hr : src.Refreshing n ck name)
    (hn : src.closed = true ∨ n ≤ src.askLog.length) : src'.Refreshing n ck name := by
  rcases hr with hc | hd | ha
  · exact .inl (h.closed hc)
  · rcases hn with hc | hn
    · exact .inl (h.closed hc)
    · rcases h.dirty ck name hd with hc | hd | ha
      · exact .inl hc
      · exact .inr (.inl hd)
      · exact .inr (.inr (ha.le hn))
  · exact (h.asked ha).imp_right .inr

theorem mem_dirty_markDirty {src : Source} {ck : String} (h : ck ∈ src.slots) (name n : String) :
    n ∈ ((src.markDirty ck name).slotAt ck).dirty ↔ n = name ∨ n ∈ (src.slotAt ck).dirty := by
  unfold markDirty
  rw [slotAt_modifySlot src ck ck _ (.inl h), if_pos rfl]
  exact Finset.mem_insert

theorem mem_dirty_markDirties (l : List String) {src : Source} {ck : String} (h : ck ∈ src.slots) (n : String) :
    n ∈ ((l.foldl (fun src name => src.markDirty ck name) src).slotAt ck).dirty ↔
      n ∈ l ∨ n ∈ (src.slotAt ck).dirty := by
  induction l generalizing src with
  | nil => simp
  | cons name l ih =>
    have hm : ck ∈ (src.markDirty ck name).slots := (mem_slots_modifySlot src ck ck _).mpr h
    rw [foldl_cons, ih hm, mem_dirty_markDirty h, mem_cons, or_assoc, or_left_comm]

theorem mem_slots_slot_self (src : Source) (ck : String) : ck ∈ (src.slot ck).slots :=
  (mem_slots_slot src ck ck).mpr (.inl rfl)

end Source

namespace Coordinator

variable {d : Draws} {s : ℕ} {c : Coordinator}

section

variable (d : Draws) (before after : List Op)

theorem nSources_exec : (exec d before).nSources ≤ (exec d (after ++ before)).nSources := by
  induction after with
  | nil => exact le_rfl
  | cons op after ih => exact ih.trans (nSources_step d _ op)

theorem nStreams_exec : (exec d before).nStreams ≤ (exec d (after ++ before)).nStreams := by
  induction after with
  | nil => exact le_rfl
  | cons op after ih => exact ih.trans (nStreams_le d _ op)

theorem onward_exec (hs : s < (exec d before).nSources) :
    Onward d (fun _ => True) s (exec d before) (exec d (after ++ before)) := by
  induction after with
  | nil => exact .refl _
  | cons op after ih =>
    have hs' := hs.trans_le (nSources_exec d before after)
    have hstep := onward_step (wf_exec d True (after ++ before) fun _ _ => .inl trivial) hs' op
    exact ih.trans { hstep with source := { hstep.source with initial := fun _ _ _ _ hg => absurd trivial hg } }

end

/-! ## Changes and registrations -/

/-- The caller has an open follow stream that requests the service. -/
def Follows (c : Coordinator) (ck name : String) : Prop :=
  ∃ i < c.nStreams, (c.streams i).closed = false ∧ (c.streams i).follow = true ∧
    (c.streams i).caller = ck ∧ name ∈ (c.streams i).services

theorem followsService_iff (h : Indexed c) (ck name : String) :
    c.followsService ck name = true ↔ c.Follows ck name := by
  unfold followsService Follows
  simp only [any_eq_true, Bool.and_eq_true, Bool.not_eq_true', decide_eq_true_eq, h.byCaller]
  constructor
  · rintro ⟨i, ⟨hi, hc, hck⟩, ⟨hn, hf⟩, _⟩
    exact ⟨i, hi, hc, hf, hck, hn⟩
  · rintro ⟨i, hi, hc, hf, hck, hn⟩
    exact ⟨i, ⟨hi, hc, hck⟩, ⟨hn, hf⟩, hc⟩

variable {n i o sources : ℕ} {ck name : String}

theorem refreshing_refresh (hf : c.followsService ck name = true) (hn : name ∈ (c.sources s).names)
    (hlen : (c.sources s).closed = true ∨ n ≤ (c.sources s).askLog.length) :
    ((refresh d s c ck).sources s).Refreshing n ck name := by
  have hmem : name ∈ (c.sources s).names.filter (c.followsService ck) := mem_filter.mpr ⟨hn, hf⟩
  unfold refresh
  dsimp only
  rw [if_neg (ne_nil_of_mem hmem)]
  have hmark : Onward d (fun _ => True) s c (c.modSource s fun src =>
      ((c.sources s).names.filter (c.followsService ck)).foldl (fun src name => src.markDirty ck name)
        (src.slot ck)) := (edits_marks (x := .any) c s ck _).onward
  refine (edits_schedule (x := .any) _ s ck).onward.source.refreshing ?_ (hmark.source.grows hlen)
  rw [sources_modSource_self]
  exact .inr (.inl ((Source.mem_dirty_markDirties _ ((c.sources s).mem_slots_slot_self ck) _).mpr (.inl hmem)))

/-- A loop marks what the pass over one of its elements marks. -/
theorem refreshing_foldl {α : Type} {f : Coordinator → α → Coordinator} (hkeep : ∀ c b, Keeps c (f c b))
    (hon : ∀ c b, Edits d .any c (f c b)) {l : List α} {a : α} (ha : a ∈ l)
    (hlen : (c.sources s).closed = true ∨ n ≤ (c.sources s).askLog.length)
    (hmark : ∀ c', Keeps c c' → ((c'.sources s).closed = true ∨ n ≤ (c'.sources s).askLog.length) →
      ((f c' a).sources s).Refreshing n ck name) :
    ((l.foldl f c).sources s).Refreshing n ck name := by
  obtain ⟨l₁, l₂, rfl⟩ := append_of_mem ha
  have hlen₁ := (edits_foldl l₁ (fun c b _ => hon c b) c).onward.source.grows hlen
  have hlen₂ := (hon (l₁.foldl f c) a).onward.source.grows hlen₁
  rw [foldl_append, foldl_cons]
  refine (edits_foldl l₂ (fun c b _ => hon c b) _).onward.source.refreshing ?_ hlen₂
  exact hmark _ (keeps_foldl hkeep l₁ c) hlen₁

theorem Keeps.followsService {c' : Coordinator} (h : Keeps c c') (ck name : String) :
    c'.followsService ck name = c.followsService ck name := by
  unfold Coordinator.followsService
  rw [h.byCaller]
  congr 1
  funext i
  rw [(h.stream i).services, (h.stream i).follow, (h.stream i).closed]

theorem mem_audience (hx : Indexed c) {ch : Change} {order : List String} (ho : order.isPerm c.callers)
    (hf : c.Follows ck name) (hch : ch.all = true ∨ ck ∈ ch.callers) : ck ∈ c.audience ch order := by
  obtain ⟨i, hi, hc, _, hck, _⟩ := hf
  have hby : i ∈ c.byCaller ck := (hx.byCaller ck i).mpr ⟨hi, hc, hck⟩
  unfold audience
  split
  · refine (isPerm_iff.mp ho).mem_iff.mpr (mem_dedup.mpr (mem_map.mpr ⟨i, ?_, hck⟩))
    have hen : c.enrolled i := by
      unfold enrolled
      rw [hck]
      exact hby
    exact mem_filter.mpr ⟨mem_range.mpr hi, decide_eq_true hen⟩
  · rename_i hall
    refine mem_filter.mpr ⟨hch.resolve_left hall, ?_⟩
    simpa using ne_nil_of_mem hby

/-- A change leaves refresh work for every service of the source that a selected caller follows. -/
theorem refreshing_change (hx : Indexed c) (hs : s < c.nSources) {ch : Change} {order : List String}
    (ho : order.isPerm c.callers) (hch : ch.all = true ∨ ck ∈ ch.callers) (hn : name ∈ (c.sources s).names)
    (hf : c.Follows ck name) :
    ((c.step d (.change s ch order)).sources s).Refreshing (c.sources s).askLog.length ck name := by
  simp only [step, hs, ho, and_self, if_true, change]
  split
  · rename_i hc
    exact .inl hc
  · split
    · exact .inl (closed_closeSource c s)
    · refine refreshing_foldl (keeps_refresh d s) (edits_refresh s) (mem_audience hx ho hf hch)
        (.inr le_rfl) fun c' hk hlen => refreshing_refresh ?_ ?_ hlen
      · rw [hk.followsService]
        exact (followsService_iff hx ck name).mpr hf
      · rw [(hk.source s).names]
        exact hn

theorem refreshing_refreshName (ck name : String)
    (hlen : (c.sources s).closed = true ∨ n ≤ (c.sources s).askLog.length) :
    ((refreshName d s ck c name).sources s).Refreshing n ck name := by
  have hmark : Onward d (fun _ => True) s c (c.modSource s fun src => (src.slot ck).markDirty ck name) :=
    (edits_marks (x := .any) c s ck [name]).onward
  refine (edits_schedule (x := .any) _ s ck).onward.source.refreshing ?_ (hmark.source.grows hlen)
  rw [sources_modSource_self]
  exact .inr (.inl ((Source.mem_dirty_markDirty ((c.sources s).mem_slots_slot_self ck) ..).mpr (.inl rfl)))

theorem mem_enrolledStreams (hx : Indexed c) (hi : i < c.nStreams) (hc : (c.streams i).closed = false) :
    i ∈ c.enrolledStreams := by
  have hen : c.enrolled i := (hx.byCaller _ i).mpr ⟨hi, hc, rfl⟩
  exact mem_filter.mpr ⟨mem_range.mpr hi, decide_eq_true hen⟩

/-- A new source has refresh work for every service that a caller follows. -/
theorem refreshing_register (hx : Indexed c) {provider : String} {names : List String} {order : List ℕ}
    (ho : order.isPerm c.enrolledStreams) (hok : (c.register d provider names order).2 = none) (hn : name ∈ names)
    (hf : c.Follows ck name) :
    c.nSources < (c.step d (.register provider names order)).nSources ∧
      ((c.step d (.register provider names order)).sources c.nSources).Refreshing 0 ck name := by
  obtain ⟨i, hi, hc, hfo, rfl, hserv⟩ := hf
  simp only [step, ho, if_true]
  unfold register at hok ⊢
  dsimp only at hok ⊢
  split at hok
  · cases hok
  · rename_i hown
    rw [if_neg hown]
    have hkeep := keeps_foldl (keeps_followDirty d c.nSources) order
      (c.claim provider (names.insertionSort (· ≤ ·)))
    refine ⟨by rw [hkeep.nSources]; exact Nat.lt_succ_self _, ?_⟩
    have him : i ∈ order := (isPerm_iff.mp ho).mem_iff.mpr (mem_enrolledStreams hx hi hc)
    refine refreshing_foldl (keeps_followDirty d c.nSources) (edits_followDirty c.nSources) him
      (.inr (Nat.zero_le _)) fun c' hk _ => ?_
    have hst := hk.stream i
    have hnames : (c'.sources c.nSources).names = names.insertionSort (· ≤ ·) :=
      (hk.source c.nSources).names.trans (by simp [claim])
    unfold followDirty
    rw [if_pos (hst.follow.trans hfo), hst.caller]
    refine refreshing_foldl (keeps_refreshName d _ _) (edits_refreshName _ _)
      (a := name) ?_ (.inr (Nat.zero_le _)) fun c'' _ hlen => refreshing_refreshName _ name hlen
    rw [hnames, hst.services]
    exact mem_filter.mpr ⟨(mem_insertionSort _).mpr hn, decide_eq_true hserv⟩

/-! ## Discoveries -/

/-- The obligations of a new stream are its own, and those towards a source wait in a slot. -/
structure Obliged (n i sources : ℕ) (c : Coordinator) : Prop where
  byName : ∀ name, ∀ t ∈ c.byName name, t < sources
  obligation : ∀ o, n ≤ o → o < c.nObligations → (c.obligations o).st = i ∧
    ∀ t ck, (c.obligations o).home = .slot t ck → t < sources ∧
      ((c.obligations o).service, o) ∈ ((c.sources t).slotAt ck).initial

theorem initial_oblige (i : ℕ) (ck name : String) (c : Coordinator) (t t' : ℕ) (ck' : String) :
    (((oblige i ck name c t).sources t').slotAt ck').initial =
      if t' = t ∧ ck' = ck then ((c.sources t').slotAt ck').initial ++ [(name, c.nObligations)]
      else ((c.sources t').slotAt ck').initial := by
  have hsrc : (oblige i ck name c t).sources = (c.modSource t fun src =>
      (src.slot ck).modifySlot ck fun sl => { sl with initial := sl.initial ++ [(name, c.nObligations)]
      }).sources :=
    rfl
  rw [hsrc]
  by_cases ht : t' = t
  · subst ht
    rw [sources_modSource_self, Source.slotAt_modifySlot _ _ _ _ (.inl (Source.mem_slots_slot_self _ ck)),
      Source.slotAt_slot, Source.slotAt_slot]
    by_cases hck : ck' = ck
    · simp [hck]
    · simp [hck]
  · rw [sources_modSource_of_ne c ht]
    simp [ht]

theorem obliged_oblige (h : Obliged n i sources c) (ck name : String) {t : ℕ} (ht : t < sources) :
    Obliged n i sources (oblige i ck name c t) := by
  refine ⟨h.byName, fun o hn ho => ?_⟩
  by_cases hlt : o < c.nObligations
  · have hsame : (oblige i ck name c t).obligations o = c.obligations o :=
      update_of_ne (Nat.ne_of_lt hlt) ..
    obtain ⟨hst, hslot⟩ := h.obligation o hn hlt
    rw [hsame]
    refine ⟨hst, fun t' ck' hh => ⟨(hslot t' ck' hh).1, ?_⟩⟩
    rw [initial_oblige]
    split
    · exact mem_append_left _ (hslot t' ck' hh).2
    · exact (hslot t' ck' hh).2
  · obtain rfl : o = c.nObligations := Nat.eq_of_lt_succ_of_not_lt ho hlt
    have hnew : (oblige i ck name c t).obligations c.nObligations =
        { st := i, service := name, home := .slot t ck } := update_self ..
    rw [hnew]
    refine ⟨rfl, fun t' ck' hh => ?_⟩
    cases hh
    refine ⟨ht, ?_⟩
    rw [initial_oblige, if_pos ⟨rfl, rfl⟩]
    exact mem_append_right _ mem_cons_self

theorem obliged_obligeRemote (h : Obliged n i sources c) (r : ℕ) (name : String) :
    Obliged n i sources (obligeRemote i r c name) := by
  refine ⟨h.byName, fun o hn ho => ?_⟩
  by_cases hlt : o < c.nObligations
  · have hsame : (obligeRemote i r c name).obligations o = c.obligations o :=
      update_of_ne (Nat.ne_of_lt hlt) ..
    rw [hsame]
    exact h.obligation o hn hlt
  · obtain rfl : o = c.nObligations := Nat.eq_of_lt_succ_of_not_lt ho hlt
    have hnew : (obligeRemote i r c name).obligations c.nObligations =
        { st := i, service := name, home := .remote r } := update_self ..
    rw [hnew]
    exact ⟨rfl, fun t' ck' hh => by cases hh⟩

theorem obliged_foldl {α : Type} {f : Coordinator → α → Coordinator} (l : List α)
    (hf : ∀ c, ∀ a ∈ l, Obliged n i sources c → Obliged n i sources (f c a)) (h : Obliged n i sources c) :
    Obliged n i sources (l.foldl f c) :=
  Fold.foldl_rel_mem (R := fun c c' => Obliged n i sources c → Obliged n i sources c') (fun _ => id)
    (fun hab hbc => hbc ∘ hab) l hf c h

theorem obliged_obligeAll (h : Obliged n i sources c) (ck : String) (names members : List String) :
    Obliged n i sources (c.obligeAll i ck names members) := by
  have hname : ∀ c, ∀ name ∈ names, Obliged n i sources c → Obliged n i sources (obligeName i ck c name) :=
    fun c name _ hc => obliged_foldl (c.byName name)
      (fun _ t ht hc' => obliged_oblige hc' ck name (hc.byName name t ht)) hc
  have hmember : ∀ c, ∀ member ∈ members, Obliged n i sources c →
      Obliged n i sources (enrollMember i names c member) := by
    intro c member _ hc
    have hnew : Obliged n i sources { c with
        remotes := update c.remotes c.nRemotes { st := i, member }
        nRemotes := c.nRemotes + 1 } := ⟨hc.byName, hc.obligation⟩
    have hall := obliged_foldl names (fun _ name _ hc' => obliged_obligeRemote hc' c.nRemotes name) hnew
    exact ⟨hall.byName, hall.obligation⟩
  exact obliged_foldl members hmember (obliged_foldl names hname h)

/-- An obligation made since there were `n`, for the service and the slot of the caller. -/
def HasObligation (c : Coordinator) (n t : ℕ) (ck name : String) : Prop :=
  ∃ o, n ≤ o ∧ o < c.nObligations ∧ (c.obligations o).service = name ∧ (c.obligations o).home = .slot t ck

theorem Onward.hasObligation {c' : Coordinator} {G : ℕ → Prop} (h : Onward d G s c c') {t : ℕ}
    (ho : c.HasObligation n t ck name) : c'.HasObligation n t ck name := by
  obtain ⟨o, hn, hlt, hservice, hhome⟩ := ho
  obtain ⟨_, hservice', hhome'⟩ := h.obligation o hlt
  exact ⟨o, hn, hlt.trans_le h.nObligations, hservice'.trans hservice, hhome'.trans hhome⟩

theorem hasObligation_oblige (i : ℕ) (ck name : String) (c : Coordinator) (t : ℕ) (hn : n ≤ c.nObligations) :
    (oblige i ck name c t).HasObligation n t ck name := by
  have hnew : (oblige i ck name c t).obligations c.nObligations =
      { st := i, service := name, home := .slot t ck } := update_self ..
  exact ⟨c.nObligations, hn, Nat.lt_succ_self _, by rw [hnew], by rw [hnew]⟩

/-- Every source of a requested name gets an obligation. -/
theorem hasObligation_obligeAll (d : Draws) (c : Coordinator) {t : ℕ} {names : List String}
    (members : List String) (hn : name ∈ names) (ht : t ∈ c.byName name) :
    (c.obligeAll i ck names members).HasObligation c.nObligations t ck name := by
  have hname : ∀ (l : List String) (c : Coordinator), Onward d (fun _ => True) t c
      (l.foldl (obligeName i ck) c) :=
    fun l c => (edits_foldl (x := .any) l (fun c name _ => edits_obligeName trivial ck c name) c).onward
  have hone : ∀ (l : List ℕ) (c : Coordinator), Onward d (fun _ => True) t c (l.foldl (oblige i ck name) c) :=
    fun l c => (edits_foldl (x := .any) l (fun _ t' _ => .single (.oblige i ck name t' trivial)) c).onward
  have hmembers : ∀ c : Coordinator, Onward d (fun _ => True) t c (members.foldl (enrollMember i names) c) :=
    fun c => (edits_foldl (x := .any) members
      (fun c member _ => edits_enrollMember trivial trivial names c member) c).onward
  refine (hmembers _).hasObligation ?_
  obtain ⟨n₁, n₂, rfl⟩ := append_of_mem hn
  rw [foldl_append, foldl_cons]
  refine (hname n₂ _).hasObligation ?_
  have hkeep : Keeps c (n₁.foldl (obligeName i ck) c) :=
    keeps_foldl (fun c name => keeps_foldl (keeps_oblige i ck name) (c.byName name) c) n₁ c
  have ht' : t ∈ (n₁.foldl (obligeName i ck) c).byName name := by
    rw [hkeep.byName]
    exact ht
  obtain ⟨l₁, l₂, heq⟩ := append_of_mem ht'
  unfold obligeName at heq ⊢
  rw [heq, foldl_append, foldl_cons]
  refine (hone l₂ _).hasObligation (hasObligation_oblige i ck name _ t ?_)
  exact (hname n₁ c).nObligations.trans (hone l₁ _).nObligations

/-- What is left of an obligation's wait in the slot of its caller. -/
def Outstanding (c : Coordinator) (n s : ℕ) (ck : String) (o : ℕ) : Prop :=
  (c.sources s).closed = true ∨
    ((c.obligations o).service, o) ∈ ((c.sources s).slotAt ck).initial ∨
    (c.sources s).Asked n ck (c.obligations o).service ∨
    (c.streams (c.obligations o).st).closed = true ∨
    .expired o (c.obligations o).service ∈ (c.streams (c.obligations o).st).log

theorem nObligations_discoverSwarm (c : Coordinator) (caller : String) (names : List String) (follow : Bool)
    (members : List String) : (c.discoverSwarm d caller names follow members).nObligations =
      ((c.enroll caller names follow).obligeAll c.nStreams caller names members).nObligations := by
  have hsched : ∀ c' : Coordinator, (scheduleAll d caller c' (c.touched names)).nObligations =
      c'.nObligations :=
    Fold.foldl_eq nObligations (fun c' t => by unfold schedule; split <;> rfl) _
  unfold discoverSwarm
  dsimp only
  split
  · exact hsched _
  · exact hsched _

/-- The obligations of a discovery wait in their slots, or have been asked for. -/
theorem outstanding_discoverSwarm (hx : Indexed c) (caller : String) (names : List String) (follow : Bool)
    (members : List String) (hn : c.nObligations ≤ o)
    (ho : o < (c.discoverSwarm d caller names follow members).nObligations)
    (hh : ((c.discoverSwarm d caller names follow members).obligations o).home = .slot s ck) :
    s < c.nSources ∧ ((c.discoverSwarm d caller names follow members).obligations o).st = c.nStreams ∧
      (c.discoverSwarm d caller names follow members).Outstanding (c.sources s).askLog.length s ck o := by
  have hnone : Obliged c.nObligations c.nStreams c.nSources (c.enroll caller names follow) :=
    ⟨fun name t ht => ((hx.byName name t).mp ht).1, fun o hn ho => absurd ho (not_lt.mpr hn)⟩
  have hob := obliged_obligeAll hnone caller names members
  rw [nObligations_discoverSwarm] at ho
  have hend := (edits_discoverSwarm_obliged (d := d) (x := .none) c caller names follow members).onward (s := s)
  obtain ⟨hst, hservice, hhome⟩ := hend.obligation o ho
  obtain ⟨hst', hslot⟩ := hob.obligation o hn ho
  rw [hhome] at hh
  obtain ⟨hs, hm⟩ := hslot s ck hh
  refine ⟨hs, hst.trans hst', ?_⟩
  unfold Outstanding
  rw [hservice]
  rcases hend.source.initial ck _ o hm not_false with hc | hi | ha
  · exact .inl hc
  · exact .inr (.inl hi)
  · have hstart : Onward d (fun _ => True) s c
        ((c.enroll caller names follow).obligeAll c.nStreams caller names members) := by
      refine Edits.onward (x := .any) (.head (.enroll caller names follow) ?_)
      exact edits_obligeAll _ trivial caller names members fun _ => trivial
    rcases hstart.source.log with hc | hlog
    · exact .inl (hend.source.closed hc)
    · exact .inr (.inr (.inl (ha.le hlog.length_le)))

/-- **One operation.** An obligation that waits in the slot of an open source goes on waiting, or
is asked for, unless its stream closes or its budget expires. -/
theorem outstanding_step (hw : Wf d (.tight True) c) (hs : s < c.nSources) (ho : o < c.nObligations)
    (hi : (c.obligations o).st < c.nStreams)
    (hlen : (c.sources s).closed = true ∨ n ≤ (c.sources s).askLog.length) (h : c.Outstanding n s ck o)
    (op : Op) : (c.step d op).Outstanding n s ck o := by
  have hon := onward_step hw hs op
  obtain ⟨hst, hservice, _⟩ := hon.obligation o ho
  have hturn := step_turn d c op (c.obligations o).st hi
  unfold Outstanding at h ⊢
  rw [hst, hservice]
  rcases h with hc | hm | ha | hc | he
  · exact .inl (hon.source.closed hc)
  · by_cases hg : goneBy d c op o
    · have hplace := (hw.held (.initial s ck (c.obligations o).service) o hm).2
      rcases hg with hclose | hc | he
      · have hsrc := (step_source d c op hs).closed
        rw [hclose s ck _ hplace] at hsrc
        exact .inl (by simpa using hsrc)
      · exact .inr (.inr (.inr (.inl hc)))
      · exact .inr (.inr (.inr (.inr he)))
    · rcases hlen with hc | hlen
      · exact .inl (hon.source.closed hc)
      · rcases hon.source.initial ck _ o hm hg with hc | hm | ha
        · exact .inl hc
        · exact .inr (.inl hm)
        · exact .inr (.inr (.inl (ha.le hlen)))
  · rcases hon.source.asked ha with hc | ha
    · exact .inl hc
    · exact .inr (.inr (.inl ha))
  · refine .inr (.inr (.inr (.inl ?_)))
    cases hc' : ((c.step d op).streams (c.obligations o).st).closed with
    | true => rfl
    | false =>
      rw [hturn.static.2.2.2 hc'] at hc
      cases hc
  · obtain ⟨es, hlog⟩ := hturn.log_append
    refine .inr (.inr (.inr (.inr ?_)))
    rw [hlog]
    exact mem_append_left es he

theorem outstanding_exec (d : Draws) (before after : List Op) (hs : s < (exec d before).nSources)
    (ho : o < (exec d before).nObligations) (hi : ((exec d before).obligations o).st < (exec d before).nStreams)
    (hlen : ((exec d before).sources s).closed = true ∨ n ≤ ((exec d before).sources s).askLog.length)
    (h : (exec d before).Outstanding n s ck o) : (exec d (after ++ before)).Outstanding n s ck o := by
  induction after with
  | nil => exact h
  | cons op after ih =>
    have hon := onward_exec d before after hs
    have hst := (hon.obligation o ho).1
    refine outstanding_step (wf_exec d True (after ++ before) fun _ _ => .inl trivial)
      (hs.trans_le (nSources_exec d before after)) (ho.trans_le hon.nObligations) ?_
      (hon.source.grows hlen) ih op
    rw [hst]
    exact hi.trans_le (nStreams_exec d before after)

/-! ## Answers -/

/-- The streams record no end of an obligation outside `l`. -/
def Mute (l : List ℕ) (c c' : Coordinator) : Prop :=
  ∀ i o x, .ended o x ∈ (c'.streams i).log → .ended o x ∈ (c.streams i).log ∨ o ∈ l

variable {l : List ℕ}

theorem Mute.refl (c : Coordinator) : Mute l c c := fun _ _ _ h => .inl h

theorem Mute.trans {a b c : Coordinator} (h : Mute l a b) (h' : Mute l b c) : Mute l a c :=
  fun i o x hm => (h' i o x hm).elim (h i o x) .inr

theorem mute_of_streams {c c' : Coordinator} (h : c'.streams = c.streams) : Mute l c c' := by
  intro i o x hm
  rw [h] at hm
  exact .inl hm

theorem mute_modStream (c : Coordinator) (j : ℕ) {f : Stream → Stream}
    (hf : ∀ st : Stream, ∃ es, (f st).log = st.log ++ es ∧ ∀ o x, .ended o x ∈ es → o ∈ l) :
    Mute l c (c.modStream j f) := by
  intro i o x hm
  by_cases hi : i = j
  · subst hi
    rw [streams_modStream_self] at hm
    obtain ⟨es, hlog, hes⟩ := hf (c.streams i)
    rw [hlog] at hm
    exact (mem_append.mp hm).imp_right (hes o x)
  · rw [streams_modStream_of_ne c hi] at hm
    exact .inl hm

theorem mute_foldl {α : Type} {f : Coordinator → α → Coordinator} (as : List α)
    (hf : ∀ c, ∀ a ∈ as, Mute l c (f c a)) (c : Coordinator) : Mute l c (as.foldl f c) :=
  Fold.foldl_rel_mem Mute.refl Mute.trans as hf c

theorem mute_discharge (c : Coordinator) (o j : ℕ) {f : Stream → Stream} (hf : ∀ st : Stream, ∃ es,
    (f st).log = st.log ++ es ∧ ∀ o x, .ended o x ∈ es → o ∈ l) :
    Mute l c (((c.modStream j f).detach o).settle j) := by
  have hdetach : ∀ c : Coordinator, Mute l c (c.detach o) := fun c =>
    (mute_of_streams (streams_unlink c o)).trans (mute_modStream _ _ fun st => ⟨[], by simp
    [Stream.deleteOpen]⟩)
  refine ((mute_modStream c j hf).trans (hdetach _)).trans ?_
  unfold settle
  split
  · exact mute_modStream _ j fun st => ⟨[.finished], rfl, by simp⟩
  · exact .refl _

theorem mute_fail (c : Coordinator) (o : ℕ) : Mute l c (c.fail o) := by
  unfold fail
  split
  · exact mute_discharge c o _ fun st => ⟨[.failed o _], rfl, by simp⟩
  · exact .refl c

theorem mute_endObligation (c : Coordinator) (ho : o ∈ l) : Mute l c (c.endObligation o) := by
  unfold endObligation
  split
  · refine mute_discharge c o _ fun st => ⟨[.ended o _], rfl, fun o' x hm => ?_⟩
    cases mem_singleton.mp hm
    exact ho
  · exact .refl c

theorem mute_closeSource (c : Coordinator) (t : ℕ) : Mute l c (c.closeSource t) := by
  have hfails : ∀ (as : List ℕ) (c : Coordinator), Mute l c (as.foldl fail c) :=
    fun as => mute_foldl as fun c o _ => mute_fail c o
  have hasked : Mute l c ((c.markClosed t).failAsked t) := by
    refine Mute.trans (b := c.markClosed t) (mute_of_streams rfl) ?_
    exact (hfails _ _).trans (mute_of_streams rfl)
  have hwait : Mute l ((c.markClosed t).failAsked t) (c.failSource t) :=
    (hfails _ _).trans (mute_of_streams rfl)
  rw [closeSource_eq]
  refine (hasked.trans hwait).trans fun i o x hm => ?_
  simp only [releaseSource] at hm
  split at hm
  · left
    cases hc : ((c.failSource t).streams i).closed with
    | true =>
      rw [Stream.lose, if_pos hc] at hm
      exact hm
    | false =>
      rw [lose_eq _ _ _ hc] at hm
      simpa [Stream.retractAll_log] using hm
  · exact .inl hm

/-- An answer ends the obligations of its request, and no other. -/
theorem mute_answer (d : Draws) (c : Coordinator) (t : ℕ) (a : Answer) :
    Mute ((c.sources t).reqs a.requestID).obls c (c.answer d t a).1 := by
  unfold answer
  dsimp only
  split
  · exact .refl c
  · split
    · exact mute_closeSource c t
    · split
      · exact mute_closeSource c t
      · refine Mute.trans (Mute.trans ?_ (mute_foldl _ (fun c o ho => mute_endObligation c ho) _))
          (mute_of_streams (streams_schedule _ _ _ _))
        intro i o x hm
        simp only [deliver] at hm
        split at hm
        · obtain ⟨q, hlog⟩ := ((c.modSource t (·.retire a.requestID)).streams i).offer_log _ _
          rw [hlog] at hm
          exact .inl (by simpa using hm)
        · exact .inl hm

/-- An ask issued before a discovery holds none of its obligations. -/
theorem obls_old (d : Draws) (before after : List Op) (hs : s < (exec d before).nSources) {id : ℕ}
    (hid : id ∈ ((exec d before).sources s).issued)
    (ho : o ∈ (((exec d (after ++ before)).sources s).reqs id).obls) : o < (exec d before).nObligations := by
  have hw := wf_exec d True before fun _ _ => .inl trivial
  have hold := (onward_exec d before after hs).source.obls (hw.source s).issued id hid ho
  exact (hw.known _ o (hw.held (.request s id) o hold).1).1

/-! ## The law -/

/-- **No lost refresh.** The refresh work of a change or a registration is kept until an ask for it
is queued or the source closes. So are the obligations of a discovery, unless their stream closes
or their budget expires; no answer to an older ask ends them. A slot with work of an open source
has an active request. -/
theorem no_lost_refresh (d : Draws) (before after : List Op) :
    (∀ s ch order ck name, s < (exec d before).nSources → order.isPerm (exec d before).callers →
      (ch.all = true ∨ ck ∈ ch.callers) → name ∈ ((exec d before).sources s).names →
      (exec d before).Follows ck name →
      ((exec d (after ++ .change s ch order :: before)).sources s).Refreshing
        ((exec d before).sources s).askLog.length ck name) ∧
    (∀ provider names order ck name, order.isPerm (exec d before).enrolledStreams →
      ((exec d before).register d provider names order).2 = none → name ∈ names →
      (exec d before).Follows ck name →
      (exec d before).nSources < (exec d (after ++ .register provider names order :: before)).nSources ∧
      ((exec d (after ++ .register provider names order :: before)).sources (exec d before).nSources).Refreshing
        0 ck name) ∧
    (∀ caller names follow members,
      (∀ s name, name ∈ names → s < (exec d before).nSources → ((exec d before).sources s).closed = false →
        name ∈ ((exec d before).sources s).names →
        (exec d (.discover caller names follow members :: before)).HasObligation
          (exec d before).nObligations s caller name) ∧
      ∀ o s ck, (exec d before).nObligations ≤ o →
        o < (exec d (.discover caller names follow members :: before)).nObligations →
        ((exec d (.discover caller names follow members :: before)).obligations o).home = .slot s ck →
        ((exec d (after ++ .discover caller names follow members :: before)).obligations o).st =
          (exec d before).nStreams ∧
        (exec d (after ++ .discover caller names follow members :: before)).Outstanding
          ((exec d before).sources s).askLog.length s ck o) ∧
    (∀ s a i o x, s < (exec d before).nSources → (exec d before).nObligations ≤ o →
      .ended o x ∉ ((exec d (after ++ before)).streams i).log →
      .ended o x ∈ ((exec d (.answer s a :: after ++ before)).streams i).log →
      a.requestID ∉ ((exec d before).sources s).issued) ∧
    ∀ s ck, ((exec d before).sources s).closed = false →
      (((exec d before).sources s).slotAt ck).initial ≠ [] ∨
      (((exec d before).sources s).slotAt ck).dirty ≠ ∅ →
      (((exec d before).sources s).slotAt ck).active ≠ none := by
  have hx := indexed_exec d before
  have hw := wf_exec d True before fun _ _ => .inl trivial
  refine ⟨?_, ?_, ?_, ?_, ?_⟩
  · intro s ch order ck name hs ho hch hn hf
    have hs' : s < (exec d (.change s ch order :: before)).nSources :=
      hs.trans_le (nSources_exec d before [_])
    refine (onward_exec d (.change s ch order :: before) after hs').source.refreshing
      (refreshing_change hx hs ho hch hn hf) ?_
    exact (onward_exec d before [_] hs).source.grows (.inr le_rfl)
  · intro provider names order ck name ho hok hn hf
    obtain ⟨hs, href⟩ := refreshing_register hx ho hok hn hf
    refine ⟨hs.trans_le (nSources_exec d (.register provider names order :: before) after), ?_⟩
    exact (onward_exec d (.register provider names order :: before) after hs).source.refreshing href
      (.inr (Nat.zero_le _))
  · intro caller names follow members
    constructor
    · intro s name hn hs hc hname
      have hmem : s ∈ ((exec d before).enroll caller names follow).byName name :=
        (hx.byName name s).mpr ⟨hs, hc, hname⟩
      exact ((edits_discoverSwarm_obliged (x := .any) (exec d before) caller names follow
        members).onward (s := s)).hasObligation (hasObligation_obligeAll d _ members hn hmem)
    · intro o s ck hn ho hh
      obtain ⟨hs, hst, hout⟩ := outstanding_discoverSwarm hx caller names follow members hn ho hh
      have hs' : s < (exec d (.discover caller names follow members :: before)).nSources :=
        hs.trans_le (nSources_exec d before [_])
      refine ⟨?_, outstanding_exec d (.discover caller names follow members :: before) after hs' ho ?_
        ?_ hout⟩
      · rw [((onward_exec d (.discover caller names follow members :: before) after hs').obligation o ho).1]
        exact hst
      · have hnew := nStreams_step d (exec d before) (.discover caller names follow members)
        refine lt_of_eq_of_lt hst ?_
        exact (Nat.lt_succ_self _).trans_eq hnew.symm
      · exact (onward_exec d before [_] hs).source.grows (.inr le_rfl)
  · intro s a i o x hs hn hnot hend hid
    have hmute := mute_answer d (exec d (after ++ before)) s a i o x
    have hstep : exec d (.answer s a :: after ++ before) =
        ((exec d (after ++ before)).answer d s a).1 := if_pos (hs.trans_le (nSources_exec d before after))
    rw [hstep] at hend
    exact absurd (obls_old d before after hs hid ((hmute hend).resolve_left hnot)) (not_lt.mpr hn)
  · intro s ck hc hwork ha
    have hmem : ck ∈ ((exec d before).sources s).slots := by
      by_contra hnot
      rw [Source.slotAt_of_notMem hnot] at hwork
      simp at hwork
    exact (hw.source s).busy hc ck hmem ha

/-- A follow stream whose first ask is outstanding. Latest first. -/
def followed : List Op := [.discover "c" ["player"] true [], .register "p" ["player"] []]

theorem no_lost_refresh_followed :
    ((exec countingDraws ([.send 0] ++ .change 0 ⟨true, [], true⟩ ["c"] :: followed)).sources 0).Refreshing
      ((exec countingDraws followed).sources 0).askLog.length "c" "player" :=
  (no_lost_refresh countingDraws followed [.send 0]).1 0 ⟨true, [], true⟩ ["c"] "c" "player" (by decide)
    (by decide) (.inl rfl) (by decide) ⟨0, by decide⟩

end Coordinator

end Astrald.Services
