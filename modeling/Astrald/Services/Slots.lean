import Astrald.Services.Coordinator

/-!
# The slots of one source

A source gates the asks of each caller through one slot. `Sound draw idle src` says that
the gate works: requests carry fresh ids, a slot is active exactly with the outstanding
request of its caller, every slot kept is active, and all work is for names of the source.
`idle` lists the callers whose slot may be inactive for now, inside a method.

* `Sound.schedule`: `schedule` leaves the slot it visits active, or collects it;
* `Sound.retire`: retiring a request leaves the slot of its caller idle;
* `Sound.modify`, `Sound.slot`: the edits of a slot's work.
-/

namespace Astrald.Services

open List

/-! ## Edits of the slots -/

/-- `src'` is `src` up to the obligations it holds and the slots it keeps. -/
structure Source.Same (src src' : Source) : Prop where
  provider : src'.provider = src.provider
  names : src'.names = src.names
  closed : src'.closed = src.closed
  pending : src'.pending = src.pending
  issued : src'.issued = src.issued
  asks : src'.asks = src.asks
  sent : src'.sent = src.sent
  sender : src'.sender = src.sender
  request : ∀ id, (src'.reqs id).caller = (src.reqs id).caller ∧
    (src'.reqs id).service = (src.reqs id).service

namespace Source

variable (src : Source)

theorem Same.refl : src.Same src :=
  ⟨rfl, rfl, rfl, rfl, rfl, rfl, rfl, rfl, fun _ => ⟨rfl, rfl⟩⟩

theorem Same.trans {a b c : Source} (h : a.Same b) (h' : b.Same c) : a.Same c where
  provider := h'.provider.trans h.provider
  names := h'.names.trans h.names
  closed := h'.closed.trans h.closed
  pending := h'.pending.trans h.pending
  issued := h'.issued.trans h.issued
  asks := h'.asks.trans h.asks
  sent := h'.sent.trans h.sent
  sender := h'.sender.trans h.sender
  request id := ⟨(h'.request id).1.trans (h.request id).1, (h'.request id).2.trans (h.request id).2⟩

theorem same_slots (slots : AList fun _ : String => Slot) : src.Same { src with slots } :=
  ⟨rfl, rfl, rfl, rfl, rfl, rfl, rfl, rfl, fun _ => ⟨rfl, rfl⟩⟩

theorem same_modifySlot (ck : String) (f : Slot → Slot) : src.Same (src.modifySlot ck f) := by
  unfold modifySlot
  split
  · exact .refl src
  · exact src.same_slots _

theorem same_slot (ck : String) : src.Same (src.slot ck) := by
  unfold slot
  split
  · exact .refl src
  · exact src.same_slots _

theorem same_collect (ck : String) : src.Same (src.collect ck) := by
  unfold collect
  split
  · exact .refl src
  · split
    · exact src.same_slots _
    · exact .refl src

theorem same_setObls (id : ℕ) (obls : List ℕ) :
    src.Same { src with reqs := Function.update src.reqs id { src.reqs id with obls } } := by
  refine ⟨rfl, rfl, rfl, rfl, rfl, rfl, rfl, rfl, fun id' => ?_⟩
  by_cases h : id' = id
  · subst h
    simp
  · simp [h]

end Source

namespace Source

/-! ## The slot of a caller -/

/-- The slot of a caller; the empty one when there is none. -/
def slotAt (src : Source) (ck : String) : Slot := (src.slots.lookup ck).getD {}

variable {ck : String}

theorem slotAt_of_lookup {src : Source} {sl : Slot} (h : src.slots.lookup ck = some sl) : src.slotAt ck = sl := by
  simp [slotAt, h]

theorem slotAt_of_notMem {src : Source} (h : ck ∉ src.slots) : src.slotAt ck = {} := by
  simp [slotAt, AList.lookup_eq_none.mpr h]

section

variable (src : Source) (ck ck' : String)

@[simp] theorem slotAt_slot : (src.slot ck).slotAt ck' = src.slotAt ck' := by
  unfold slot
  cases h : src.slots.lookup ck with
  | some sl => rfl
  | none =>
    by_cases hck : ck' = ck
    · subst hck
      simp [slotAt, h]
    · simp [slotAt, AList.lookup_insert_ne hck]

/-- An edit that fixes the empty slot acts on the slot as if it were always there. -/
theorem slotAt_modifySlot (f : Slot → Slot) (hf : ck ∈ src.slots ∨ f {} = {}) :
    (src.modifySlot ck f).slotAt ck' = if ck' = ck then f (src.slotAt ck) else src.slotAt ck' := by
  unfold modifySlot
  cases h : src.slots.lookup ck with
  | none =>
    have hmem : ck ∉ src.slots := AList.lookup_eq_none.mp h
    have hf' : f {} = {} := hf.resolve_left hmem
    by_cases hck : ck' = ck
    · subst hck
      simp [slotAt_of_notMem hmem, hf']
    · simp [hck]
  | some sl =>
    by_cases hck : ck' = ck
    · subst hck
      simp [slotAt, h]
    · simp [slotAt, hck, AList.lookup_insert_ne hck]

@[simp] theorem mem_slots_modifySlot (f : Slot → Slot) :
    ck' ∈ (src.modifySlot ck f).slots ↔ ck' ∈ src.slots := by
  unfold modifySlot
  cases h : src.slots.lookup ck with
  | none => rfl
  | some sl =>
    have hmem : ck ∈ src.slots := AList.lookup_isSome.mp (by simp [h])
    simp only [AList.mem_insert]
    constructor
    · rintro (rfl | h')
      · exact hmem
      · exact h'
    · exact .inr

theorem mem_slots_slot : ck' ∈ (src.slot ck).slots ↔ ck' = ck ∨ ck' ∈ src.slots := by
  unfold slot
  cases h : src.slots.lookup ck with
  | none => simp
  | some sl =>
    have hmem : ck ∈ src.slots := AList.lookup_isSome.mp (by simp [h])
    constructor
    · exact .inr
    · rintro (rfl | h')
      · exact hmem
      · exact h'

@[simp] theorem slotAt_collect : (src.collect ck).slotAt ck' = src.slotAt ck' := by
  unfold collect
  cases h : src.slots.lookup ck with
  | none => rfl
  | some sl =>
    dsimp only
    split
    · rename_i hidle
      by_cases hck : ck' = ck
      · subst hck
        obtain ⟨ha, hi, hd⟩ := hidle
        cases sl
        simp_all [slotAt]
      · simp [slotAt, AList.lookup_erase_ne hck]
    · rfl

end

theorem mem_slots_of_collect {src : Source} {ck' : String} (h : ck' ∈ (src.collect ck).slots) :
    ck' ∈ src.slots := by
  unfold collect at h
  cases hl : src.slots.lookup ck with
  | none => rwa [hl] at h
  | some sl =>
    rw [hl] at h
    dsimp only at h
    split at h
    · exact (AList.mem_erase.mp h).2
    · exact h

theorem notMem_collect {src : Source} (ha : (src.slotAt ck).active = none) (hi : (src.slotAt ck).initial = [])
    (hd : (src.slotAt ck).dirty = ∅) : ck ∉ (src.collect ck).slots := by
  unfold collect
  cases h : src.slots.lookup ck with
  | none => exact AList.lookup_eq_none.mp h
  | some sl =>
    rw [slotAt_of_lookup h] at ha hi hd
    simp [ha, hi, hd]

/-! ## Choosing the next service -/

theorem next_some {sl : Slot} {names : List String} {service : String}
    (h : sl.next names = some service) :
    service ∈ names ∧ (sl.waiting service ≠ [] ∨ service ∈ sl.dirty) := by
  unfold Slot.next at h
  split at h
  · rename_i name hfind
    cases h
    refine ⟨mem_of_find?_eq_some hfind, .inl ?_⟩
    simpa using List.find?_some hfind
  · refine ⟨mem_of_find?_eq_some h, .inr ?_⟩
    simpa using List.find?_some h

theorem next_none {sl : Slot} {names : List String} (h : sl.next names = none) {name : String}
    (hn : name ∈ names) : sl.waiting name = [] ∧ name ∉ sl.dirty := by
  unfold Slot.next at h
  split at h
  · simp at h
  · rename_i hfind
    exact ⟨by simpa using List.find?_eq_none.mp hfind name hn,
      by simpa using List.find?_eq_none.mp h name hn⟩

theorem mem_waiting {sl : Slot} {name : String} {o : ℕ} :
    o ∈ sl.waiting name ↔ (name, o) ∈ sl.initial := by
  simp [Slot.waiting]

/-- `schedule` does nothing, collects an idle slot, or issues a request. -/
theorem schedule_cases (draw : ℕ → ℕ) (src : Source) (ck : String) :
    (src.schedule draw ck = (src, none) ∧
      (src.closed = true ∨ ck ∉ src.slots ∨ (src.slotAt ck).active ≠ none)) ∨
    (src.schedule draw ck = (src.collect ck, none) ∧ src.closed = false ∧
      (src.slotAt ck).active = none ∧ (src.slotAt ck).next src.names = none) ∨
    ∃ service, src.schedule draw ck = (src.issue draw ck (src.slotAt ck) service,
        some (draw src.issued.length, (src.slotAt ck).waiting service)) ∧ src.closed = false ∧
      ck ∈ src.slots ∧ (src.slotAt ck).active = none ∧
      (src.slotAt ck).next src.names = some service := by
  unfold schedule
  cases h : src.slots.lookup ck with
  | none => exact .inl ⟨rfl, .inr (.inl (AList.lookup_eq_none.mp h))⟩
  | some sl =>
    have hmem : ck ∈ src.slots := AList.lookup_isSome.mp (by simp [h])
    rw [slotAt_of_lookup h]
    dsimp only
    cases hc : src.closed with
    | true => exact .inl ⟨rfl, .inl rfl⟩
    | false =>
      cases ha : sl.active with
      | some id => exact .inl ⟨rfl, .inr (.inr (by simp))⟩
      | none =>
        cases hn : sl.next src.names with
        | none => exact .inr (.inl ⟨rfl, rfl, rfl, rfl⟩)
        | some service => exact .inr (.inr ⟨service, rfl, rfl, hmem, rfl, rfl⟩)

theorem slotAt_issue (draw : ℕ → ℕ) (src : Source) (ck ck' : String) (sl : Slot) (service : String) :
    (src.issue draw ck sl service).slotAt ck' =
      if ck' = ck then
        { active := some (draw src.issued.length)
          initial := sl.initial.filter (·.1 ≠ service)
          dirty := sl.dirty.erase service }
      else src.slotAt ck' := by
  by_cases hck : ck' = ck
  · subst hck
    simp [issue, slotAt]
  · simp [issue, slotAt, hck, AList.lookup_insert_ne hck]

/-! ## The gate -/

/-- The ids of the requests are those that were drawn. -/
def Drawn (draw : ℕ → ℕ) (src : Source) : Prop := src.issued = (List.range src.issued.length).map draw

theorem Drawn.fresh {draw : ℕ → ℕ} {src : Source} (h : src.Drawn draw) (hd : Function.Injective draw) :
    draw src.issued.length ∉ src.issued := by
  rw [h]
  simp only [length_map, length_range, mem_map, mem_range, not_exists, not_and]
  intro n hn heq
  exact Nat.ne_of_lt hn (hd heq)

structure Sound (draw : ℕ → ℕ) (idle : String → Prop) (src : Source) : Prop where
  issued : src.issued = (List.range src.issued.length).map draw
  unissued : ∀ id, id ∉ src.issued → (src.reqs id).obls = []
  pending_issued : ∀ id ∈ src.pending, id ∈ src.issued
  pending_nodup : src.pending.Nodup
  active : src.closed = false → ∀ ck id,
    (src.slotAt ck).active = some id ↔ id ∈ src.pending ∧ (src.reqs id).caller = ck
  busy : src.closed = false → ∀ ck ∈ src.slots, (src.slotAt ck).active = none → idle ck
  initial_names : ∀ ck, ∀ p ∈ (src.slotAt ck).initial, p.1 ∈ src.names
  dirty_names : ∀ ck, ∀ name ∈ (src.slotAt ck).dirty, name ∈ src.names
  pending_names : ∀ id ∈ src.pending, (src.reqs id).service ∈ src.names

variable {draw : ℕ → ℕ} {idle idle' : String → Prop} {src : Source}

theorem Sound.mono (h : src.Sound draw idle) (himp : ∀ ck, idle ck → idle' ck) :
    src.Sound draw idle' :=
  { h with busy := fun hc ck hm ha => himp ck (h.busy hc ck hm ha) }

theorem sound_empty (hi : src.issued = []) (hr : src.reqs = fun _ => {}) (hp : src.pending = [])
    (hs : src.slots = ∅) : src.Sound draw idle := by
  have hslot : ∀ ck, src.slotAt ck = {} := fun ck => by simp [slotAt, hs]
  refine ⟨by simp [hi], by simp [hr], by simp [hp], by simp [hp], ?_, ?_, ?_, ?_, by simp [hp]⟩
  · intro _ ck id
    simp [hslot, hp]
  · intro _ ck hck
    rw [hs] at hck
    exact absurd hck (AList.notMem_empty ck)
  · simp [hslot]
  · simp [hslot]

variable (h : src.Sound draw idle)
include h

theorem Sound.fresh (hd : Function.Injective draw) : draw src.issued.length ∉ src.issued :=
  Drawn.fresh h.issued hd

/-- A slot without active request and without a next service holds no work. -/
theorem Sound.no_work (hn : (src.slotAt ck).next src.names = none) :
    (src.slotAt ck).initial = [] ∧ (src.slotAt ck).dirty = ∅ := by
  constructor
  · refine eq_nil_iff_forall_not_mem.mpr fun p hp => ?_
    have hw := (next_none hn (h.initial_names ck p hp)).1
    have : p.2 ∈ (src.slotAt ck).waiting p.1 := mem_waiting.mpr hp
    rw [hw] at this
    exact not_mem_nil this
  · refine Finset.eq_empty_of_forall_notMem fun name hm => ?_
    exact (next_none hn (h.dirty_names ck name hm)).2 hm

/-- An edit of the slots that starts and ends no request keeps the gate working. -/
theorem Sound.edit (slots : AList fun _ : String => Slot)
    (hact : ∀ ck, ({ src with slots }.slotAt ck).active = (src.slotAt ck).active)
    (hmem : ∀ ck ∈ slots, ck ∈ src.slots ∨ idle ck)
    (hinit : ∀ ck, ∀ p ∈ ({ src with slots }.slotAt ck).initial,
      p ∈ (src.slotAt ck).initial ∨ p.1 ∈ src.names)
    (hdirty : ∀ ck, ∀ name ∈ ({ src with slots }.slotAt ck).dirty,
      name ∈ (src.slotAt ck).dirty ∨ name ∈ src.names) :
    Sound draw idle { src with slots } := { h with
  active hc ck id := by
    rw [hact]
    exact h.active hc ck id
  busy hc ck hm ha := by
    rw [hact] at ha
    rcases hmem ck hm with hm | hi
    · exact h.busy hc ck hm ha
    · exact hi
  initial_names ck p hp := by
    rcases hinit ck p hp with hp | hn
    · exact h.initial_names ck p hp
    · exact hn
  dirty_names ck name hm := by
    rcases hdirty ck name hm with hm | hn
    · exact h.dirty_names ck name hm
    · exact hn }

theorem Sound.slot (hidle : idle ck) : (src.slot ck).Sound draw idle := by
  have heq : src.slot ck = { src with slots := (src.slot ck).slots } := by
    unfold Source.slot
    split <;> rfl
  have hat : ∀ ck', ({ src with slots := (src.slot ck).slots } : Source).slotAt ck' = src.slotAt ck' := by
    intro ck'
    rw [← heq, slotAt_slot]
  rw [heq]
  refine h.edit _ (fun ck' => by rw [hat]) (fun ck' hm => ?_) (fun ck' p hp => ?_) fun ck' name hm => ?_
  · rcases (mem_slots_slot src ck ck').mp hm with rfl | hm
    · exact .inr hidle
    · exact .inl hm
  · rw [hat] at hp
    exact .inl hp
  · rw [hat] at hm
    exact .inl hm

theorem Sound.modify (ck : String) {f : Slot → Slot}
    (hf : ck ∈ src.slots ∨ f {} = {}) (hact : ∀ sl, (f sl).active = sl.active)
    (hinit : ∀ sl, ∀ p ∈ (f sl).initial, p ∈ sl.initial ∨ p.1 ∈ src.names)
    (hdirty : ∀ sl, ∀ name ∈ (f sl).dirty, name ∈ sl.dirty ∨ name ∈ src.names) :
    (src.modifySlot ck f).Sound draw idle := by
  have heq : src.modifySlot ck f = { src with slots := (src.modifySlot ck f).slots } := by
    unfold modifySlot
    split <;> rfl
  have hat : ∀ ck', ({ src with slots := (src.modifySlot ck f).slots } : Source).slotAt ck' =
      if ck' = ck then f (src.slotAt ck) else src.slotAt ck' := by
    intro ck'
    rw [← heq, slotAt_modifySlot src ck ck' f hf]
  rw [heq]
  refine h.edit _ (fun ck' => ?_) (fun ck' hm => ?_) (fun ck' p hp => ?_) fun ck' name hm => ?_
  · rw [hat]
    split
    · rename_i hck
      rw [hact, hck]
    · rfl
  · exact .inl ((mem_slots_modifySlot src ck ck' f).mp hm)
  · rw [hat] at hp
    split at hp
    · rename_i hck
      rw [hck]
      exact hinit _ p hp
    · exact .inl hp
  · rw [hat] at hm
    split at hm
    · rename_i hck
      rw [hck]
      exact hdirty _ name hm
    · exact .inl hm

theorem Sound.collect (ck : String) : (src.collect ck).Sound draw idle := by
  have heq : src.collect ck = { src with slots := (src.collect ck).slots } := by
    unfold Source.collect
    split
    · rfl
    · split <;> rfl
  have hat : ∀ ck', ({ src with slots := (src.collect ck).slots } : Source).slotAt ck' = src.slotAt ck' := by
    intro ck'
    rw [← heq, slotAt_collect]
  rw [heq]
  refine h.edit _ (fun ck' => by rw [hat]) (fun ck' hm => ?_) (fun ck' p hp => ?_) fun ck' name hm => ?_
  · exact .inl (mem_slots_of_collect hm)
  · rw [hat] at hp
    exact .inl hp
  · rw [hat] at hm
    exact .inl hm

/-- The obligations of a request play no part in the gate. -/
theorem Sound.setObls (id : ℕ) (obls : List ℕ) (hobls : (src.reqs id).obls = [] → obls = []) :
    Sound draw idle { src with reqs := Function.update src.reqs id { src.reqs id with obls } } := by
  have hreq := (src.same_setObls id obls).request
  refine
    { h with
      unissued := fun id' hid => ?_
      active := fun hc ck id' => ?_
      pending_names := fun id' hid => ?_ }
  · by_cases he : id' = id
    · subst he
      simpa using hobls (h.unissued id' hid)
    · simpa [he] using h.unissued id' hid
  · rw [(hreq id').1]
    exact h.active hc ck id'
  · rw [(hreq id').2]
    exact h.pending_names id' hid

/-- A request for a service of the source makes the slot of a caller active. -/
theorem Sound.issue (hd : Function.Injective draw) {service : String}
    (hc : src.closed = false) (ha : (src.slotAt ck).active = none) (hs : service ∈ src.names) :
    (src.issue draw ck (src.slotAt ck) service).Sound draw fun ck' => idle ck' ∧ ck' ≠ ck := by
  have hfresh := h.fresh hd
  have hnp : draw src.issued.length ∉ src.pending := fun hm => hfresh (h.pending_issued _ hm)
  have hreq : ∀ id ∈ src.pending, (src.issue draw ck (src.slotAt ck) service).reqs id = src.reqs id := by
    intro id hid
    have hne : id ≠ draw src.issued.length := fun he => hnp (he ▸ hid)
    exact Function.update_of_ne hne ..
  have hnew : (src.issue draw ck (src.slotAt ck) service).reqs (draw src.issued.length) =
      { caller := ck, service, obls := (src.slotAt ck).waiting service } := Function.update_self ..
  have hpend : ∀ id, id ∈ (src.issue draw ck (src.slotAt ck) service).pending ↔
      id ∈ src.pending ∨ id = draw src.issued.length := by
    intro id
    simp [Source.issue]
  constructor
  case issued =>
    simp only [Source.issue, length_append, length_cons, length_nil, Nat.zero_add,
      range_succ, map_append, map_cons, map_nil]
    rw [← h.issued]
  case unissued =>
    intro id hid
    simp only [Source.issue, mem_append, mem_singleton, not_or] at hid
    have : (src.issue draw ck (src.slotAt ck) service).reqs id = src.reqs id :=
      Function.update_of_ne hid.2 ..
    rw [this]
    exact h.unissued id hid.1
  case pending_issued =>
    intro id hid
    simp only [Source.issue, mem_append, mem_singleton]
    rcases (hpend id).mp hid with hid | hid
    · exact .inl (h.pending_issued id hid)
    · exact .inr hid
  case pending_nodup =>
    exact nodup_append.mpr ⟨h.pending_nodup, by simp, fun a ha b hb => by
      rw [mem_singleton.mp hb]
      exact fun he => hnp (he ▸ ha)⟩
  case active =>
    intro _ ck' id
    rw [slotAt_issue, hpend]
    by_cases hk : ck' = ck
    · rw [if_pos hk]
      constructor
      · intro he
        cases he
        exact ⟨.inr rfl, by rw [hnew, hk]⟩
      · rintro ⟨hid | hid, hcaller⟩
        · -- another outstanding request of this caller would have made its slot active
          rw [hreq id hid, hk] at hcaller
          rw [(h.active hc ck id).mpr ⟨hid, hcaller⟩] at ha
          cases ha
        · rw [hid]
    · rw [if_neg hk, h.active hc ck' id]
      constructor
      · rintro ⟨hid, hcaller⟩
        exact ⟨.inl hid, by rw [hreq id hid, hcaller]⟩
      · rintro ⟨hid | hid, hcaller⟩
        · exact ⟨hid, by rwa [hreq id hid] at hcaller⟩
        · rw [hid, hnew] at hcaller
          exact absurd hcaller.symm hk
  case busy =>
    intro _ ck' hm ha'
    rw [slotAt_issue] at ha'
    by_cases hk : ck' = ck
    · rw [if_pos hk] at ha'
      cases ha'
    · rw [if_neg hk] at ha'
      have hm' : ck' ∈ src.slots := by
        rcases (AList.mem_insert _).mp hm with he | hm
        · exact absurd he hk
        · exact hm
      exact ⟨h.busy hc ck' hm' ha', hk⟩
  case initial_names =>
    intro ck' p hp
    rw [slotAt_issue] at hp
    split at hp
    · exact h.initial_names ck p (mem_of_mem_filter hp)
    · exact h.initial_names ck' p hp
  case dirty_names =>
    intro ck' name hm
    rw [slotAt_issue] at hm
    split at hm
    · exact h.dirty_names ck name (Finset.mem_of_mem_erase hm)
    · exact h.dirty_names ck' name hm
  case pending_names =>
    intro id hid
    rcases (hpend id).mp hid with hid | hid
    · rw [hreq id hid]
      exact h.pending_names id hid
    · rw [hid, hnew]
      exact hs

/-- `schedule` leaves the slot it visits active, or deletes it. -/
theorem Sound.schedule (hd : Function.Injective draw) (ck : String) :
    (src.schedule draw ck).1.Sound draw fun ck' => idle ck' ∧ ck' ≠ ck := by
  rcases schedule_cases draw src ck with ⟨heq, hwhy⟩ | ⟨heq, hc, ha, hn⟩ | ⟨service, heq, hc, _, ha, hn⟩
  · rw [heq]
    refine { h with busy := fun hc ck' hm ha => ⟨h.busy hc ck' hm ha, ?_⟩ }
    rintro rfl
    rcases hwhy with hcl | hno | hact
    · exact absurd (hcl.symm.trans hc) (by simp)
    · exact hno hm
    · exact hact ha
  · rw [heq]
    have hnw := h.no_work hn
    refine { h.collect ck with busy := fun hc ck' hm ha' => ⟨(h.collect ck).busy hc ck' hm ha', ?_⟩ }
    rintro rfl
    exact notMem_collect ha hnw.1 hnw.2 hm
  · rw [heq]
    exact h.issue hd hc ha (next_some hn).1

/-- Retiring an outstanding request leaves the slot of its caller idle. -/
theorem Sound.retire {id : ℕ} (hid : id ∈ src.pending) :
    (src.retire id).Sound draw fun ck => idle ck ∨ ck = (src.reqs id).caller := by
  have hs := src.same_modifySlot (src.reqs id).caller fun sl => { sl with active := none }
  have hat : ∀ ck, (src.retire id).slotAt ck = if ck = (src.reqs id).caller then
      { src.slotAt (src.reqs id).caller with active := none } else src.slotAt ck := by
    intro ck
    exact slotAt_modifySlot src _ ck (fun sl => { sl with active := none }) (.inr rfl)
  have hreqs : (src.retire id).reqs = src.reqs := by
    unfold Source.retire modifySlot
    split <;> rfl
  have hpend : ∀ id', id' ∈ (src.retire id).pending ↔ id' ≠ id ∧ id' ∈ src.pending :=
    fun id' => h.pending_nodup.mem_erase_iff
  have hissued : (src.retire id).issued = src.issued := hs.issued
  have hclosed : (src.retire id).closed = src.closed := hs.closed
  have hnames : (src.retire id).names = src.names := hs.names
  constructor
  case issued =>
    rw [hissued]
    exact h.issued
  case unissued =>
    rw [hissued, hreqs]
    exact h.unissued
  case pending_issued =>
    intro id' hm
    rw [hissued]
    exact h.pending_issued id' ((hpend id').mp hm).2
  case pending_nodup => exact h.pending_nodup.erase id
  case active =>
    intro hc ck id'
    rw [hclosed] at hc
    rw [hat, hpend, hreqs]
    by_cases hk : ck = (src.reqs id).caller
    · rw [if_pos hk]
      constructor
      · intro he
        cases he
      · rintro ⟨⟨hne, hm⟩, hcaller⟩
        have h₁ := (h.active hc ck id').mpr ⟨hm, hcaller⟩
        have h₂ := (h.active hc ck id).mpr ⟨hid, hk.symm⟩
        rw [h₁] at h₂
        exact absurd (Option.some.inj h₂) hne
    · rw [if_neg hk, h.active hc ck id']
      constructor
      · rintro ⟨hm, hcaller⟩
        exact ⟨⟨fun he => hk (by rw [← hcaller, he]), hm⟩, hcaller⟩
      · rintro ⟨⟨_, hm⟩, hcaller⟩
        exact ⟨hm, hcaller⟩
  case busy =>
    intro hc ck hm ha
    rw [hclosed] at hc
    rw [hat] at ha
    by_cases hk : ck = (src.reqs id).caller
    · exact .inr hk
    · rw [if_neg hk] at ha
      exact .inl (h.busy hc ck ((mem_slots_modifySlot src _ ck _).mp hm) ha)
  case initial_names =>
    intro ck p hp
    rw [hnames]
    rw [hat] at hp
    split at hp
    · exact h.initial_names _ p hp
    · exact h.initial_names ck p hp
  case dirty_names =>
    intro ck name hm
    rw [hnames]
    rw [hat] at hm
    split at hm
    · exact h.dirty_names _ name hm
    · exact h.dirty_names ck name hm
  case pending_names =>
    intro id' hm
    rw [hnames, hreqs]
    exact h.pending_names id' ((hpend id').mp hm).2

end Source

end Astrald.Services
