import Astrald.Messaging.Delivery

/-!
# Agreement on a delivery

What the stamps of the sender's row say about the recipient's inbox, in every state that the nodes
can reach.

* `Advance`, `Valid.advance_step`: what a step can do to the deliveries and to the rows, said once;
* `valid_exec`: what a row's stamps say about its delivery, in every reachable state;
* `delivery_agreement`: a landed message is stored, a failed one is not and never will be, and no
  stamp changes;
* `landed_withdrawn`: the mailbox of a recipient can be withdrawn, which deletes its rows.
-/

namespace Astrald.Messaging

open List Function

namespace System

variable {N Who ID : Type}

def Concerns (d : Delivery N Who ID) (r : Row Who ID) : Prop :=
  r.sender = d.sender ∧ r.recipient = d.recipient ∧ (⟨r.id, r.content, r.parentID⟩ : Message ID) = d.msg

/-- What a row says about a delivery: an outbox row by its stamps, an inbox row by being there. -/
structure Justified (honest : Who → Bool) (D : ID → Option (Delivery N Who ID)) (r : Row Who ID) : Prop where
  outbox : r.box = .outbox → ∃ d, D r.id = some d ∧ Concerns d r ∧
    (r.stamps .landed ≠ none → d.result = some .ack) ∧ (r.stamps .failed ≠ none → d.Dead)
  inbox : r.box = .inbox → honest r.sender = true →
    ∃ d, D r.id = some d ∧ Concerns d r ∧ d.result = some .ack

def Held (s : System N Who ID) (n : N) (d : Delivery N Who ID) : Prop :=
  ∃ r ∈ s.rows n, r.box = .inbox ∧ Concerns d r

variable {r : Row Who ID} {D : ID → Option (Delivery N Who ID)} {s : System N Who ID}

variable {d : Delivery N Who ID}

theorem concerns_of_body {q : Row Who ID} (h : Concerns d r) (hbody : q.body = r.body) :
    Concerns d q := by
  simp only [Row.body, Prod.mk.injEq] at hbody
  obtain ⟨-, hid, hsender, hrecipient, hcontent, hparent⟩ := hbody
  obtain ⟨h1, h2, h3⟩ := h
  exact ⟨hsender.trans h1, hrecipient.trans h2, by rw [hid, hcontent, hparent]; exact h3⟩

variable {d d' : Delivery N Who ID}

theorem Concerns.evolves (h : Concerns d r) (he : d.Evolves d') : Concerns d' r :=
  ⟨h.1.trans he.sender.symm, h.2.1.trans he.recipient.symm, h.2.2.trans he.msg.symm⟩

def Continues (D D' : ID → Option (Delivery N Who ID)) : Prop :=
  ∀ id d, D id = some d → ∃ d', D' id = some d' ∧ d.Evolves d'

variable {honest : Who → Bool}

theorem Justified.continues {D' : ID → Option (Delivery N Who ID)}
    (h : Justified honest D r) (hcont : Continues D D') : Justified honest D' r := by
  constructor
  · intro hbox
    obtain ⟨d, hd, hof, hlanded, hfailed⟩ := h.outbox hbox
    obtain ⟨d', hd', he⟩ := hcont _ d hd
    exact ⟨d', hd', hof.evolves he, fun hl => (he.result _ (hlanded hl)).1, fun hf => he.dead (hfailed hf)⟩
  · intro hbox hhonest
    obtain ⟨d, hd, hof, hack⟩ := h.inbox hbox hhonest
    obtain ⟨d', hd', he⟩ := hcont _ d hd
    exact ⟨d', hd', hof.evolves he, (he.result _ hack).1⟩

theorem Justified.congr {q : Row Who ID} (h : Justified honest D r)
    (hbody : q.body = r.body) (hlanded : q.stamps .landed = r.stamps .landed)
    (hfailed : q.stamps .failed = r.stamps .failed) : Justified honest D q := by
  have hparts := hbody
  simp only [Row.body, Prod.mk.injEq] at hparts
  obtain ⟨hbox, hid, hsender, -⟩ := hparts
  constructor
  · intro hout
    obtain ⟨d, hd, hof, hl, hf⟩ := h.outbox (hbox ▸ hout)
    exact ⟨d, hid ▸ hd, concerns_of_body hof hbody, fun h => hl (hlanded ▸ h), fun h => hf (hfailed ▸ h)⟩
  · intro hin hhonest
    obtain ⟨d, hd, hof, hack⟩ := h.inbox (hbox ▸ hin) (hsender ▸ hhonest)
    exact ⟨d, hid ▸ hd, concerns_of_body hof hbody, hack⟩

/-! ## What a step can do -/

/-- The new rows are the old ones, with the same words about their deliveries, or are justified. -/
def Sourced (honest : Who → Bool) (D : ID → Option (Delivery N Who ID)) (old new : List (Row Who ID)) :
    Prop :=
  ∀ r' ∈ new, Justified honest D r' ∨ ∃ r ∈ old, r'.body = r.body ∧
    r'.stamps .landed = r.stamps .landed ∧ r'.stamps .failed = r.stamps .failed

def Kept (r : Row Who ID) (new : List (Row Who ID)) : Prop :=
  ∃ r' ∈ new, r'.body = r.body ∧ ∀ c ≠ Stamp.archived, ∀ t, r.stamps c = some t → r'.stamps c = some t

theorem Kept.of_mem {new : List (Row Who ID)} (h : r ∈ new) : Kept r new :=
  ⟨r, h, rfl, fun _ _ _ ht => ht⟩

theorem Sourced.refl (honest : Who → Bool) (D : ID → Option (Delivery N Who ID)) (rows : List (Row Who ID)) :
    Sourced honest D rows rows :=
  fun r hr => .inr ⟨r, hr, rfl, rfl, rfl⟩

theorem Sourced.append {rows : List (Row Who ID)} (h : Justified honest D r) :
    Sourced honest D rows (rows ++ [r]) := by
  intro q hq
  rcases mem_append.mp hq with hold | hnew
  · exact .inr ⟨q, hold, rfl, rfl, rfl⟩
  · obtain rfl := mem_singleton.mp hnew
    exact .inl h

/-- What a step can do. Deliveries go on or begin; rows are the old ones or justified anew; no row
and no stamp goes but by a withdrawal; and a message is acknowledged once it is held. -/
structure Advance (honest : Who → Bool) (op : Op N Who ID) (s s' : System N Who ID) : Prop where
  continues : Continues s.deliveries s'.deliveries
  source : ∀ id d', s'.deliveries id = some d' → (∃ d, s.deliveries id = some d ∧ d.Evolves d') ∨
    d'.Fit ∧ d'.result = none ∧ honest d'.sender = true ∧ d'.msg.id = id
  rows : ∀ n, Sourced honest s'.deliveries (s.rows n) (s'.rows n)
  kept : ∀ n, ∀ r ∈ s.rows n, Kept r (s'.rows n) ∨ ∃ ok, op = .withdrawMailbox n r.owner ok
  acked : ∀ id d', s'.deliveries id = some d' → d'.result = some .ack →
    (∃ d, s.deliveries id = some d ∧ d.Evolves d' ∧ d.result = some .ack) ∨
      ∃ n b, d'.target = some (n, b) ∧ Held s' n d'

/-- The deliveries fit, and the rows are justified by them. -/
structure Valid (honest : Who → Bool) (s : System N Who ID) : Prop where
  fit : ∀ id d, s.deliveries id = some d → d.Fit ∧ honest d.sender = true ∧ d.msg.id = id
  rows : ∀ n, ∀ r ∈ s.rows n, Justified honest s.deliveries r

theorem Valid.advance {op : Op N Who ID} {s' : System N Who ID} (h : Valid honest s)
    (ha : Advance honest op s s') : Valid honest s' := by
  constructor
  · intro id d' hd'
    rcases ha.source id d' hd' with ⟨d, hd, he⟩ | ⟨hfit, -, hhonest, hid⟩
    · obtain ⟨-, hhonest, hid⟩ := h.fit id d hd
      exact ⟨he.fit, by rw [he.sender]; exact hhonest, by rw [he.msg]; exact hid⟩
    · exact ⟨hfit, hhonest, hid⟩
  · intro n r' hr'
    rcases ha.rows n r' hr' with hj | ⟨r, hr, hbody, hlanded, hfailed⟩
    · exact hj
    · exact ((h.rows n r hr).continues ha.continues).congr hbody hlanded hfailed

theorem Valid.evolves_refl (h : Valid honest s) {id : ID} (hd : s.deliveries id = some d) : d.Evolves d :=
  (h.fit id d hd).1.evolves_refl

theorem Valid.continues_refl (h : Valid honest s) : Continues s.deliveries s.deliveries :=
  fun _ d hd => ⟨d, hd, h.evolves_refl hd⟩

/-- A step that leaves the deliveries alone. -/
theorem Valid.advance_rows {op : Op N Who ID} {s' : System N Who ID} (h : Valid honest s)
    (hsame : s'.deliveries = s.deliveries) (hrows : ∀ n, Sourced honest s.deliveries (s.rows n) (s'.rows n))
    (hkept : ∀ n, ∀ r ∈ s.rows n, Kept r (s'.rows n) ∨ ∃ ok, op = .withdrawMailbox n r.owner ok) :
    Advance honest op s s' where
  continues := hsame ▸ h.continues_refl
  source _ d' hd' := .inl ⟨d', hsame ▸ hd', h.evolves_refl (hsame ▸ hd')⟩
  rows := hsame ▸ hrows
  kept := hkept
  acked _ d' hd' hack := .inl ⟨d', hsame ▸ hd', h.evolves_refl (hsame ▸ hd'), hack⟩

theorem Valid.advance_refl {op : Op N Who ID} (h : Valid honest s) : Advance honest op s s :=
  h.advance_rows rfl (fun _ => Sourced.refl honest _ _) fun _ _ hr => .inl (Kept.of_mem hr)

section

variable [DecidableEq ID]

theorem deliveries_setDelivery (s : System N Who ID) (id : ID) (d : Delivery N Who ID) (i : ID) :
    (s.setDelivery id d).deliveries i = if i = id then some d else s.deliveries i :=
  update_apply s.deliveries id (some d) i

theorem deliveries_cases {s : System N Who ID} {id i : ID} {e : Delivery N Who ID}
    (h : (s.setDelivery id d).deliveries i = some e) : i = id ∧ d = e ∨ s.deliveries i = some e := by
  rw [deliveries_setDelivery] at h
  split at h
  · exact .inl ⟨‹_›, Option.some.inj h⟩
  · exact .inr h

theorem Valid.continues_setDelivery {s : System N Who ID} (h : Valid honest s) {id : ID}
    (hd : s.deliveries id = some d) (he : d.Evolves d') :
    Continues s.deliveries (s.setDelivery id d').deliveries := by
  intro i e hi
  rw [deliveries_setDelivery]
  by_cases hid : i = id
  · subst hid
    obtain rfl : d = e := Option.some.inj (hd.symm.trans hi)
    exact ⟨d', if_pos rfl, he⟩
  · exact ⟨e, (if_neg hid).trans hi, h.evolves_refl hi⟩

end

section

variable [DecidableEq N]

theorem rows_setStore_self (s : System N Who ID) (n : N) (st : Store Who ID) :
    (s.setStore n st).rows n = st.rows := by
  show (update s.nodes n { s.nodes n with store := st } n).store.rows = st.rows
  rw [update_self]

theorem rows_setStore_of_ne (s : System N Who ID) {n m : N} (hne : m ≠ n) (st : Store Who ID) :
    (s.setStore n st).rows m = s.rows m := by
  show (update s.nodes n { s.nodes n with store := st } m).store.rows = s.rows m
  rw [update_of_ne hne]
  rfl

theorem setStore_self (s : System N Who ID) (n : N) : s.setStore n (s.nodes n).store = s := by
  show (⟨update s.nodes n (s.nodes n), s.deliveries⟩ : System N Who ID) = s
  rw [update_eq_self]

variable {st : Store Who ID}

/-- A write to the table of one node that is sourced and keeps the rows is so for all nodes. -/
theorem rows_setStore {D : ID → Option (Delivery N Who ID)} {s : System N Who ID} {n : N}
    (hrows : Sourced honest D (s.rows n) st.rows) (hkept : ∀ r ∈ s.rows n, Kept r st.rows) (m : N) :
    Sourced honest D (s.rows m) ((s.setStore n st).rows m) ∧
      ∀ r ∈ s.rows m, Kept r ((s.setStore n st).rows m) := by
  by_cases hm : m = n
  · subst hm
    rw [rows_setStore_self]
    exact ⟨hrows, hkept⟩
  · rw [rows_setStore_of_ne s hm]
    exact ⟨Sourced.refl honest D _, fun r hr => Kept.of_mem hr⟩

variable {honest : Who → Bool} {s : System N Who ID} {op : Op N Who ID}

variable (h : Valid honest s)
include h

/-- A step that leaves the deliveries alone and writes the table of one node. -/
theorem Valid.advance_setStore {n : N}
    (hrows : Sourced honest s.deliveries (s.rows n) st.rows) (hkept : ∀ r ∈ s.rows n, Kept r st.rows) :
    Advance honest op s (s.setStore n st) :=
  h.advance_rows rfl (fun m => (rows_setStore hrows hkept m).1)
    fun m r hr => .inl ((rows_setStore hrows hkept m).2 r hr)

variable [DecidableEq ID]

/-- A step of a delivery, with a write to the table of one node: what it acknowledges it has
written. -/
theorem Valid.advance_setDelivery {id : ID} (hd : s.deliveries id = some d) (he : d.Evolves d') {n : N}
    (hrows : Sourced honest (s.setDelivery id d').deliveries (s.rows n) st.rows)
    (hkept : ∀ r ∈ s.rows n, Kept r st.rows)
    (hack : d'.result = some .ack → d.result = some .ack ∨ ∃ b, d'.target = some (n, b) ∧
      ∃ r ∈ st.rows, r.box = .inbox ∧ Concerns d' r) :
    Advance honest op s ((s.setStore n st).setDelivery id d') where
  continues := h.continues_setDelivery hd he
  source i e hi := by
    rcases deliveries_cases hi with ⟨rfl, rfl⟩ | hi
    · exact .inl ⟨d, hd, he⟩
    · exact .inl ⟨e, hi, h.evolves_refl hi⟩
  rows m := (rows_setStore hrows hkept m).1
  kept m r hr := .inl ((rows_setStore hrows hkept m).2 r hr)
  acked i e hi hr := by
    rcases deliveries_cases hi with ⟨rfl, rfl⟩ | hi
    · rcases hack hr with hold | ⟨b, htarget, hheld⟩
      · exact .inl ⟨d, hd, he, hold⟩
      · refine .inr ⟨n, b, htarget, ?_⟩
        show ∃ r ∈ (s.setStore n st).rows n, _
        rw [rows_setStore_self]
        exact hheld
    · exact .inl ⟨e, hi, h.evolves_refl hi, hr⟩

theorem Valid.advance_begin {id : ID}
    (hfresh : s.deliveries id = none) (hfit : d.Fit) (hresult : d.result = none)
    (hhonest : honest d.sender = true) (hid : d.msg.id = id) {n : N}
    (hrows : Sourced honest (s.setDelivery id d).deliveries (s.rows n) st.rows)
    (hkept : ∀ r ∈ s.rows n, Kept r st.rows) : Advance honest op s ((s.setStore n st).setDelivery id d) where
  continues i e hi := by
    rw [deliveries_setDelivery]
    have hne : i ≠ id := by
      rintro rfl
      rw [hfresh] at hi
      cases hi
    exact ⟨e, (if_neg hne).trans hi, h.evolves_refl hi⟩
  source i e hi := by
    rcases deliveries_cases hi with ⟨rfl, rfl⟩ | hi
    · exact .inr ⟨hfit, hresult, hhonest, hid⟩
    · exact .inl ⟨e, hi, h.evolves_refl hi⟩
  rows m := (rows_setStore hrows hkept m).1
  kept m r hr := .inl ((rows_setStore hrows hkept m).2 r hr)
  acked i e hi hack := by
    rcases deliveries_cases hi with ⟨rfl, rfl⟩ | hi
    · rw [hresult] at hack
      cases hack
    · exact .inl ⟨e, hi, h.evolves_refl hi, hack⟩

/-- A step of a delivery that acknowledges nothing. -/
theorem Valid.advance_delivery {id : ID} (hd : s.deliveries id = some d) (he : d.Evolves d')
    (hack : d'.result = some .ack → d.result = some .ack) : Advance honest op s (s.setDelivery id d') := by
  have hadvance : Advance honest op s ((s.setStore d.origin (s.nodes d.origin).store).setDelivery id d') :=
    h.advance_setDelivery hd he (Sourced.refl honest _ _) (fun r hr => Kept.of_mem hr) fun hr => .inl (hack hr)
  rwa [setStore_self] at hadvance

theorem Valid.advance_act (id : ID) {f : Delivery N Who ID → Delivery N Who ID}
    (hf : ∀ d : Delivery N Who ID, d.Fit → d.Evolves (f d)) (hresult : ∀ d, (f d).result = d.result) :
    Advance honest op s (s.act id f) := by
  unfold act
  cases hd : s.deliveries id with
  | none => exact h.advance_refl
  | some d => exact h.advance_delivery hd (hf d (h.fit id d hd).1) fun hack => (hresult d).symm.trans hack

end

/-! ## Statements on the rows -/

section

variable [DecidableEq Who] [DecidableEq ID]

/-- A statement that says nothing about a delivery and removes no stamp. -/
structure Quiet (f : Row Who ID → Row Who ID) : Prop where
  body : ∀ r, (f r).body = r.body
  landed : ∀ r, (f r).stamps .landed = r.stamps .landed
  failed : ∀ r, (f r).stamps .failed = r.stamps .failed
  kept : ∀ r, ∀ c ≠ Stamp.archived, ∀ t, r.stamps c = some t → (f r).stamps c = some t

section

omit [DecidableEq Who] [DecidableEq ID]

theorem Quiet.sourced {f : Row Who ID → Row Who ID} (hf : Quiet f) (honest : Who → Bool)
    (D : ID → Option (Delivery N Who ID)) (rows : List (Row Who ID)) :
    Sourced honest D rows (rows.map f) := by
  intro r' hr'
  obtain ⟨r, hr, rfl⟩ := mem_map.mp hr'
  exact .inr ⟨r, hr, hf.body r, hf.landed r, hf.failed r⟩

theorem Kept.map {f : Row Who ID → Row Who ID} (hbody : ∀ r, (f r).body = r.body)
    (hkept : ∀ r, ∀ c ≠ Stamp.archived, ∀ t, r.stamps c = some t → (f r).stamps c = some t) {r : Row Who ID}
    {rows : List (Row Who ID)} (hr : r ∈ rows) : Kept r (rows.map f) :=
  ⟨f r, mem_map_of_mem hr, hbody r, hkept r⟩

end

theorem quiet_mark {column : Stamp} (hlanded : Stamp.landed ≠ column) (hfailed : Stamp.failed ≠ column)
    (owner : Who)
    (box : Box) (id : ID) (now : ℕ) : Quiet (Store.mark column owner box id now) where
  body := Store.body_mark column owner box id now
  landed := Store.mark_stamps_of_ne hlanded owner box id now
  failed := Store.mark_stamps_of_ne hfailed owner box id now
  kept _ _ _ _ ht := Store.mark_stamps ht column owner box id now

theorem quiet_markFrom (sender recipient : Who) (id : ID) (now : ℕ) :
    Quiet (Store.markFrom sender recipient id now) := by
  have hmark := quiet_mark (by decide : Stamp.landed ≠ .fetched) (by decide) sender .outbox id now
  constructor
  · exact Store.body_markFrom sender recipient id now
  all_goals
    intro r
    unfold Store.markFrom
    split
  · exact hmark.landed r
  · rfl
  · exact hmark.failed r
  · rfl
  · exact hmark.kept r
  · exact fun _ _ _ ht => ht

theorem quiet_clear (owner : Who) (box : Box) (id : ID) : Quiet (Store.clear owner box id) := by
  have hstamps : ∀ r c, c ≠ Stamp.archived → (Store.clear owner box id r).stamps c = r.stamps c := by
    intro r c hne
    unfold Store.clear
    split
    · exact update_of_ne hne none r.stamps
    · rfl
  exact ⟨Store.body_clear owner box id, fun r => hstamps r _ (by decide), fun r => hstamps r _ (by decide),
    fun r c hne t ht => (hstamps r c hne).trans ht⟩

theorem quiet_note (sender : Who) (id : ID) (text : String) : Quiet (Store.note sender id text) := by
  have hstamps : ∀ r, (Store.note sender id text r).stamps = r.stamps := by
    intro r
    unfold Store.note
    split <;> rfl
  refine ⟨Store.body_note sender id text, fun r => ?_, fun r => ?_, fun r c _ t ht => ?_⟩
  · rw [hstamps]
  · rw [hstamps]
  · rw [hstamps]
    exact ht

/-- Every statement of the other parts of the module is quiet. -/
theorem exists_quiet_run (st : Store Who ID) (now : ℕ) (stmt : Stmt Who ID) :
    ∃ f, Quiet f ∧ (stmt.run st now).rows = st.rows.map f := by
  cases stmt with
  | markRead owner id | markReceiptDue owner id | stampReceiptStored owner id =>
    exact ⟨_, quiet_mark (by decide) (by decide) owner .inbox id now, rfl⟩
  | stampFetched sender id => exact ⟨_, quiet_mark (by decide) (by decide) sender .outbox id now, rfl⟩
  | stampFetchedFrom sender recipient id => exact ⟨_, quiet_markFrom sender recipient id now, rfl⟩
  | archive owner box id => exact ⟨_, quiet_mark (by decide) (by decide) owner box id now, rfl⟩
  | unarchive owner box id => exact ⟨_, quiet_clear owner box id, rfl⟩

/-- A stamp on the row of a delivery is justified by what the delivery knows. -/
theorem Justified.mark {D : ID → Option (Delivery N Who ID)} {r : Row Who ID}
    (h : Justified honest D r) {column : Stamp} {sender : Who} {id : ID} (now : ℕ)
    (hlanded : column = .landed → ∀ d, D id = some d → d.result = some .ack)
    (hfailed : column = .failed → ∀ d, D id = some d → d.Dead) :
    Justified honest D (Store.mark column sender .outbox id now r) := by
  refine Trace.when_keeps h fun hmark => ?_
  have hid : r.id = id := congrArg (fun k => k.2.2) hmark.1
  have hbox : r.box = .outbox := congrArg (fun k => k.2.1) hmark.1
  refine ⟨fun _ => ?_, fun hin => absurd hin (by show r.box ≠ .inbox; rw [hbox]; decide)⟩
  obtain ⟨d, hd, hof, hl, hf⟩ := h.outbox hbox
  refine ⟨d, hd, hof, fun hne => ?_, fun hne => ?_⟩
  · by_cases hcol : column = .landed
    · exact hlanded hcol d (hid ▸ hd)
    · refine hl fun hnone => hne ?_
      exact (update_of_ne (Ne.symm hcol) _ _).trans hnone
  · by_cases hcol : column = .failed
    · exact hfailed hcol d (hid ▸ hd)
    · refine hf fun hnone => hne ?_
      exact (update_of_ne (Ne.symm hcol) _ _).trans hnone

end

/-! ## Every step -/

section

variable [DecidableEq N] [DecidableEq Who] [DecidableEq ID] {honest : Who → Bool} {s : System N Who ID}
  {op : Op N Who ID}

theorem Valid.advance_run (h : Valid honest s) (n : N) (stmt : Stmt Who ID) (now : ℕ) :
    Advance honest op s (s.setStore n (stmt.run (s.nodes n).store now)) := by
  obtain ⟨f, hf, hrows⟩ := exists_quiet_run (s.nodes n).store now stmt
  refine h.advance_setStore ?_ fun r hr => ?_
  · rw [hrows]
    exact hf.sourced honest _ _
  · rw [hrows]
    exact Kept.map hf.body hf.kept hr

/-- `sendMessage` stamps its row with what the delivery has come to. -/
theorem Valid.advance_stamp (h : Valid honest s) (id : ID) (now : ℕ) (ok : Bool) :
    Advance honest op s (s.stamp id now ok) := by
  unfold stamp
  cases hd : s.deliveries id with
  | none => exact h.advance_refl
  | some d =>
    have hfit := (h.fit id d hd).1
    have he := Delivery.evolves_stamped hfit
    have hcont := h.continues_setDelivery hd he
    have hself : ∀ e, (s.setDelivery id d.stamped).deliveries id = some e → e = d.stamped := by
      intro e hi
      rw [deliveries_setDelivery, if_pos rfl] at hi
      exact (Option.some.inj hi).symm
    have hmark : ∀ column, (column = .landed → d.result = some .ack) → (column = .failed → d.Dead) →
        Advance honest op s
          ((s.setStore d.origin ((s.nodes d.origin).store.stamp column d.sender .outbox id now)).setDelivery id d.stamped) := by
      intro column hlanded hfailed
      refine h.advance_setDelivery hd he (fun r' hr' => ?_) (fun r hr => ?_) fun hack =>
        .inl (d.result_stamped ▸ hack)
      · obtain ⟨r, hr, rfl⟩ := mem_map.mp hr'
        refine .inl (((h.rows _ r hr).continues hcont).mark now (fun hcol e hi => ?_) fun hcol e hi => ?_)
        · rw [hself e hi]
          exact (he.result _ (hlanded hcol)).1
        · rw [hself e hi]
          exact he.dead (hfailed hcol)
      · exact Kept.map (Store.body_mark _ _ _ _ _) (fun r c _ t ht => Store.mark_stamps ht _ _ _ _ _) hr
    have hnothing : Advance honest op s ((s.setStore d.origin (s.nodes d.origin).store).setDelivery id
      d.stamped) := by
      rw [setStore_self]
      exact h.advance_delivery hd he fun hack => d.result_stamped ▸ hack
    cases ok with
    | false => exact hnothing
    | true =>
      show Advance honest op s
        ((s.setStore d.origin (stampStmt (s.nodes d.origin).store d.stage d.sender id now)).setDelivery
        id d.stamped)
      cases hstage : d.stage with
      | landing => exact hmark .landed (fun _ => hfit.landing hstage) (fun hcol => absurd hcol (by decide))
      | failing c => exact hmark .failed (fun hcol => absurd hcol (by decide)) fun _ => hfit.failing c hstage
      | noting text =>
        have hf := quiet_note d.sender id (Store.clip text Store.errLimit)
        exact h.advance_setDelivery hd he (hf.sourced honest _ _) (fun r hr => Kept.map hf.body hf.kept hr)
          fun hack =>
        .inl (d.result_stamped ▸ hack)
      | routing | sending | receiving | returned => exact hnothing

/-- A send begins with a row that says nothing about its delivery yet. -/
theorem Valid.advance_post (h : Valid honest s) (maxPayloadBytes : ℕ) (n : N) (id : ID)
    (sender recipient : Who)
    (content : String) (parentID : ID) (now : ℕ) :
    Advance honest op s (s.post honest maxPayloadBytes n id sender recipient content parentID now) := by
  refine Trace.when_keeps h.advance_refl fun hguard => ?_
  simp only [Bool.and_eq_true, Option.isNone_iff_eq_none] at hguard
  obtain ⟨⟨⟨hhonest, hfresh⟩, -⟩, -⟩ := hguard
  split
  · exact h.advance_refl
  · rename_i st hins
    obtain ⟨-, hrows⟩ := Store.insert_some hins
    refine h.advance_begin hfresh (Delivery.fit_begin n sender recipient _) rfl hhonest rfl ?_ fun r hr => ?_
    · rw [hrows]
      refine Sourced.append ⟨fun _ => ?_, fun hin => by cases hin⟩
      refine ⟨_, by rw [deliveries_setDelivery]; exact if_pos rfl, ⟨rfl, rfl, rfl⟩, ?_, ?_⟩
      · exact fun hne => absurd rfl hne
      · exact fun hne => absurd rfl hne
    · rw [hrows]
      exact Kept.of_mem (mem_append_left _ hr)

omit [DecidableEq Who] [DecidableEq ID] in
theorem Valid.advance_createMailbox (h : Valid honest s) (n : N) (identity : Who) :
    Advance honest op s (s.createMailbox n identity) := by
  have hrows : ∀ m, (s.createMailbox n identity).rows m = s.rows m := by
    intro m
    show (update s.nodes n { s.nodes n with mailboxes := identity :: (s.nodes n).mailboxes } m).store.rows = _
    by_cases hm : m = n
    · subst hm
      rw [update_self]
      rfl
    · rw [update_of_ne hm]
      rfl
  refine h.advance_rows rfl (fun m => ?_) fun m r hr => ?_
  · rw [hrows]
    exact Sourced.refl honest _ _
  · rw [hrows]
    exact .inl (Kept.of_mem hr)

omit [DecidableEq ID] in
theorem Valid.advance_withdrawMailbox (h : Valid honest s) (n : N) (identity : Who) (ok : Bool) :
    Advance honest (.withdrawMailbox n identity ok) s (s.withdrawMailbox n identity ok) := by
  have hrows : ∀ m, ∀ r, r ∈ (s.withdrawMailbox n identity ok).rows m ↔
      r ∈ s.rows m ∧ (m = n → ok = true → r.owner ≠ identity) := by
    intro m r
    show r ∈ (update s.nodes n (⟨_, _⟩ : Node Who ID) m).store.rows ↔ _
    by_cases hm : m = n
    · subst hm
      rw [update_self]
      cases ok <;> simp [Store.deleteOwned, System.rows]
    · rw [update_of_ne hm]
      simp [hm, System.rows]
  refine h.advance_rows rfl (fun m r hr => ?_) fun m r hr => ?_
  · exact .inr ⟨r, ((hrows m r).mp hr).1, rfl, rfl, rfl⟩
  · by_cases hgone : m = n ∧ r.owner = identity
    · obtain ⟨rfl, rfl⟩ := hgone
      exact .inr ⟨ok, rfl⟩
    · exact .inl (Kept.of_mem ((hrows m r).mpr ⟨hr, fun hm _ howner => hgone ⟨hm, howner⟩⟩))

variable [Zero ID]

/-- What accepting a message does: `storeMessage_spec`, or nothing at all. -/
theorem accept_cases (maxPayloadBytes : ℕ) (faults : Faults) (node : Node Who ID) (sender recipient : Who)
    (msg : Message ID) (now : ℕ) :
    (∃ st, accept maxPayloadBytes faults node sender recipient msg now = (.ok (), st) ∧
        st.rows = node.store.rows ++ [msg.row sender recipient now]) ∨
      ∃ res, accept maxPayloadBytes faults node sender recipient msg now = (res, node.store) ∧
        (res = .ok () → ∃ row, node.store.find recipient .inbox msg.id = some row ∧ row.sender = sender) := by
  unfold accept
  split
  · rcases storeMessage_spec maxPayloadBytes faults node.store sender recipient msg now with
      ⟨st, hout, hrows, -⟩ | ⟨res, hout, hretry⟩
    · exact .inl ⟨st, hout, hrows⟩
    · exact .inr ⟨res, hout, hretry⟩
  · exact .inr ⟨_, rfl, fun hok => by cases hok⟩

section

variable (h : Valid honest s) (maxPayloadBytes : ℕ)
include h

/-- A stranger's message says nothing about a delivery of these nodes. -/
theorem Valid.advance_deliver (n : N) (sender recipient : Who)
    (msg : Message ID) (faults : Faults) (now : ℕ) :
    Advance honest op s (s.deliver honest maxPayloadBytes n sender recipient msg faults now) := by
  refine Trace.unless_keeps h.advance_refl fun hstranger => ?_
  rcases accept_cases maxPayloadBytes faults (s.nodes n) sender recipient msg now with
    ⟨st, hout, hrows⟩ | ⟨res, hout, -⟩
  · rw [hout]
    refine h.advance_setStore ?_ fun r hr => ?_
    · rw [hrows]
      exact Sourced.append ⟨fun hout => (by cases hout), fun _ hhonest => absurd hhonest hstranger⟩
    · rw [hrows]
      exact Kept.of_mem (mem_append_left _ hr)
  · rw [hout, setStore_self]
    exact h.advance_refl

/-- A message is acknowledged when its row is written; a row that was there is not one of its
sender's. -/
theorem Valid.advance_handleStore (id : ID) (faults : Faults) (now : ℕ) :
    Advance honest op s (s.handleStore maxPayloadBytes id faults now) := by
  unfold handleStore
  cases hd : s.deliveries id with
  | none => exact h.advance_refl
  | some d =>
    obtain ⟨hfit, hhonest, hid⟩ := h.fit id d hd
    dsimp only
    split
    · rename_i n hstoring htarget
      rcases accept_cases maxPayloadBytes faults (s.nodes n) d.sender d.recipient d.msg now with
        ⟨st, hout, hrows⟩ | ⟨res, hout, hretry⟩
      · rw [hout]
        have hof : Concerns (d.handled .ack) (d.msg.row d.sender d.recipient now) := ⟨rfl, rfl, rfl⟩
        refine h.advance_setDelivery hd (Delivery.evolves_handled hfit hstoring _) ?_ (fun r hr => ?_)
          fun _ => ?_
        · rw [hrows]
          refine Sourced.append ⟨fun hout => (by cases hout), fun _ _ => ?_⟩
          refine ⟨d.handled .ack, ?_, hof, rfl⟩
          rw [deliveries_setDelivery]
          exact if_pos hid
        · rw [hrows]
          exact Kept.of_mem (mem_append_left _ hr)
        · refine .inr ⟨true, htarget, d.msg.row d.sender d.recipient now, ?_, rfl, hof⟩
          rw [hrows]
          exact mem_append_right _ (mem_singleton_self _)
      · rw [hout, setStore_self]
        refine h.advance_delivery hd (Delivery.evolves_handled hfit hstoring _) fun hack => ?_
        have hok : res = .ok () := by
          cases res with
          | ok u => rfl
          | error e => cases hack
        -- A row under the id from this sender is the row of this delivery, which is not decided.
        obtain ⟨row, hfind, hsender⟩ := hretry hok
        obtain ⟨hrow, hkey⟩ := Store.find_some hfind
        have hbox : row.box = .inbox := congrArg (fun k => k.2.1) hkey
        have hrowid : row.id = id := (congrArg (fun k => k.2.2) hkey).trans hid
        obtain ⟨e, he, -, hacked⟩ := (h.rows n row hrow).inbox hbox (hsender ▸ hhonest)
        obtain rfl : d = e := Option.some.inj (hd.symm.trans (hrowid ▸ he))
        exact hacked
    · rename_i n hstoring htarget
      exact h.advance_delivery hd (Delivery.evolves_handled hfit hstoring _) fun hack => by cases hack
    · exact h.advance_refl

theorem Valid.advance_step (op : Op N Who ID) :
    Advance honest op s (s.step honest maxPayloadBytes op) := by
  cases op with
  | createMailbox n identity => exact h.advance_createMailbox n identity
  | withdrawMailbox n identity ok => exact h.advance_withdrawMailbox n identity ok
  | post n id sender recipient content parentID now =>
    exact h.advance_post maxPayloadBytes n id sender recipient content parentID now
  | route id r => exact h.advance_act id (fun d hd => Delivery.evolves_route hd r) fun d => d.result_route r
  | send id ok => exact h.advance_act id (fun d hd => Delivery.evolves_send hd ok) fun d => d.result_send ok
  | receive id ok =>
    exact h.advance_act id (fun d hd => Delivery.evolves_receive hd ok) fun d => d.result_receive ok
  | stamp id now ok => exact h.advance_stamp id now ok
  | handleRead id ok =>
    exact h.advance_act id (fun d hd => Delivery.evolves_handleRead hd ok) fun d => d.result_handleRead ok
  | handleStore id faults now => exact h.advance_handleStore maxPayloadBytes id faults now
  | handleAnswer id ok =>
    exact h.advance_act id (fun d hd => Delivery.evolves_handleAnswer hd ok) fun d => d.result_handleAnswer ok
  | deliver n sender recipient msg faults now =>
    exact h.advance_deliver maxPayloadBytes n sender recipient msg faults now
  | run n stmt now => exact h.advance_run n stmt now

end

/-! ## Every run -/

variable (honest) (maxPayloadBytes : ℕ)

/-- The recipient's mailbox was withdrawn from the node after it held the message. -/
def Lost (ops : List (Op N Who ID)) (n : N) (d : Delivery N Who ID) : Prop :=
  ∃ later earlier ok, ops = later ++ .withdrawMailbox n d.recipient ok :: earlier ∧
    Held (exec honest maxPayloadBytes earlier) n d

theorem valid_exec (ops : List (Op N Who ID)) : Valid honest (exec honest maxPayloadBytes ops) := by
  apply Trace.invariant (I := fun _ s => Valid honest s)
  · exact ⟨fun _ _ hd => (by cases hd), fun _ _ hr => absurd hr not_mem_nil⟩
  · exact fun op ops ih => ih.advance (ih.advance_step maxPayloadBytes op)

theorem advance_exec (op : Op N Who ID) (ops : List (Op N Who ID)) :
    Advance honest op (exec honest maxPayloadBytes ops) (exec honest maxPayloadBytes (op :: ops)) :=
  (valid_exec honest maxPayloadBytes ops).advance_step maxPayloadBytes op

/-- What was acknowledged is held, or was until its mailbox was withdrawn. -/
theorem acked_exec (ops : List (Op N Who ID)) :
    ∀ id d, (exec honest maxPayloadBytes ops).deliveries id = some d → d.result = some .ack →
      ∃ n, Held (exec honest maxPayloadBytes ops) n d ∨ Lost honest maxPayloadBytes ops n d := by
  induction ops with
  | nil =>
    intro id d hd
    cases hd
  | cons op ops ih =>
    intro id d' hd' hack
    have ha := advance_exec honest maxPayloadBytes op ops
    rcases ha.acked id d' hd' hack with ⟨d, hd, he, hold⟩ | ⟨n, b, -, hheld⟩
    · obtain ⟨n, hheld | ⟨later, earlier, ok, hops, hheld⟩⟩ := ih id d hd hold
      · obtain ⟨r, hr, hbox, hof⟩ := hheld
        rcases ha.kept n r hr with ⟨r', hr', hbody, -⟩ | ⟨ok, hop⟩
        · refine ⟨n, .inl ⟨r', hr', ?_, concerns_of_body (hof.evolves he) hbody⟩⟩
          exact (congrArg (fun b => b.1) hbody).trans hbox
        · have howner : r.owner = d'.recipient := by
            unfold Row.owner
            rw [hbox]
            exact hof.2.1.trans he.recipient.symm
          exact ⟨n, .inr ⟨[], ops, ok, by rw [hop, howner]; rfl, r, hr, hbox, hof.evolves he⟩⟩
      · obtain ⟨r, hr, hbox, hof⟩ := hheld
        refine ⟨n, .inr ⟨op :: later, earlier, ok, ?_, r, hr, hbox, hof.evolves he⟩⟩
        rw [hops, he.recipient]
        rfl
    · exact ⟨n, .inl hheld⟩

theorem continues_exec (later earlier : List (Op N Who ID)) :
    Continues (exec honest maxPayloadBytes earlier).deliveries
      (exec honest maxPayloadBytes (later ++ earlier)).deliveries := by
  induction later with
  | nil => exact (valid_exec honest maxPayloadBytes earlier).continues_refl
  | cons op later ih =>
    intro id d hd
    obtain ⟨d', hd', he⟩ := ih id d hd
    obtain ⟨d'', hd'', he'⟩ := (advance_exec honest maxPayloadBytes op (later ++ earlier)).continues id d' hd'
    exact ⟨d'', hd'', he.trans he'⟩

/-- Rows stay with their stamps until their owner's mailbox is withdrawn. -/
theorem kept_exec (later earlier : List (Op N Who ID)) (n : N) (r : Row Who ID)
    (hr : r ∈ (exec honest maxPayloadBytes earlier).rows n) :
    Kept r ((exec honest maxPayloadBytes (later ++ earlier)).rows n) ∨
      ∃ ok, .withdrawMailbox n r.owner ok ∈ later := by
  induction later with
  | nil => exact .inl (Kept.of_mem hr)
  | cons op later ih =>
    rcases ih with ⟨r', hr', hbody, hstamps⟩ | ⟨ok, hok⟩
    · rcases (advance_exec honest maxPayloadBytes op (later ++ earlier)).kept n r' hr' with
        ⟨r'', hr'', hbody', hstamps'⟩ | ⟨ok, hop⟩
      · exact .inl ⟨r'', hr'', hbody'.trans hbody, fun c hc t ht => hstamps' c hc t (hstamps c hc t ht)⟩
      · have howner : r'.owner = r.owner := congrArg (fun k => k.1) (Row.key_eq_of_body hbody)
        exact .inr ⟨ok, by rw [hop, howner]; exact mem_cons_self⟩
    · exact .inr ⟨ok, mem_cons_of_mem op hok⟩

/-- The inbox copy of a sent message: the same id, sender, recipient, content and parent. -/
def CopyOf (r q : Row Who ID) : Prop :=
  q.box = .inbox ∧ q.id = r.id ∧ q.sender = r.sender ∧ q.recipient = r.recipient ∧ q.content = r.content ∧
    q.parentID = r.parentID

instance (r q : Row Who ID) : Decidable (CopyOf r q) :=
  inferInstanceAs (Decidable (_ ∧ _ ∧ _ ∧ _ ∧ _ ∧ _))

omit [DecidableEq N] [DecidableEq Who] [DecidableEq ID] [Zero ID] in
theorem copyOf_of_concerns {r q : Row Who ID} (hr : Concerns d r) (hq : Concerns d q)
    (hbox : q.box = .inbox) : CopyOf r q := by
  obtain ⟨hs, hrec, hmsg⟩ := hr
  obtain ⟨hs', hrec', hmsg'⟩ := hq
  have hparts := hmsg'.trans hmsg.symm
  simp only [Message.mk.injEq] at hparts
  exact ⟨hbox, hparts.1, hs'.trans hs.symm, hrec'.trans hrec.symm, hparts.2.1, hparts.2.2⟩

/-- **Delivery agreement.** A row of the sender that says landed has its copy in the recipient's
inbox, or had it until the recipient's mailbox was withdrawn; of one that says failed no inbox holds
a copy, then or later; no row says both; and as long as the owner's mailbox is not withdrawn no
landed, failed, fetched or read stamp changes. -/
theorem delivery_agreement (ops : List (Op N Who ID)) (n : N) (r : Row Who ID)
    (hr : r ∈ (exec honest maxPayloadBytes ops).rows n) :
    (r.box = .outbox →
      (r.stamps .landed ≠ none → ∃ m, (∃ q ∈ (exec honest maxPayloadBytes ops).rows m, CopyOf r q) ∨
        ∃ later earlier ok, ops = later ++ .withdrawMailbox m r.recipient ok :: earlier ∧
          ∃ q ∈ (exec honest maxPayloadBytes earlier).rows m, CopyOf r q) ∧
      (r.stamps .failed ≠ none → ∀ later m, ∀ q ∈ (exec honest maxPayloadBytes (later ++ ops)).rows m,
        ¬ (q.box = .inbox ∧ q.id = r.id ∧ q.sender = r.sender)) ∧
      (r.stamps .landed = none ∨ r.stamps .failed = none)) ∧
    ∀ c ∈ [Stamp.landed, .failed, .fetched, .read], ∀ t, r.stamps c = some t → ∀ later,
      (∃ q ∈ (exec honest maxPayloadBytes (later ++ ops)).rows n, q.body = r.body ∧ q.stamps c = some t) ∨
        ∃ ok, .withdrawMailbox n r.owner ok ∈ later := by
  have hvalid := valid_exec honest maxPayloadBytes ops
  refine ⟨fun hbox => ?_, fun c hc t ht later => ?_⟩
  · obtain ⟨d, hd, hof, hlanded, hfailed⟩ := (hvalid.rows n r hr).outbox hbox
    refine ⟨fun hl => ?_, fun hf later m q hq => ?_, ?_⟩
    · obtain ⟨m, ⟨q, hq, hin, hcopy⟩ | ⟨later, earlier, ok, hops, q, hq, hin, hcopy⟩⟩ :=
        acked_exec honest maxPayloadBytes ops r.id d hd (hlanded hl)
      · exact ⟨m, .inl ⟨q, hq, copyOf_of_concerns hof hcopy hin⟩⟩
      · refine ⟨m, .inr ⟨later, earlier, ok, ?_, q, hq, copyOf_of_concerns hof hcopy hin⟩⟩
        rw [hof.2.1]
        exact hops
    · rintro ⟨hin, hid, hsender⟩
      obtain ⟨d', hd', he⟩ := continues_exec honest maxPayloadBytes later ops r.id d hd
      have hhonest : honest q.sender = true := by
        rw [hsender, hof.1]
        exact (hvalid.fit r.id d hd).2.1
      obtain ⟨e, hfound, -, hack⟩ :=
        ((valid_exec honest maxPayloadBytes (later ++ ops)).rows m q hq).inbox hin hhonest
      obtain rfl : d' = e := Option.some.inj (hd'.symm.trans (hid ▸ hfound))
      exact (he.fit.not_dead_of_ack hack) (he.dead (hfailed hf))
    · by_contra hboth
      rw [not_or] at hboth
      exact ((hvalid.fit r.id d hd).1.not_dead_of_ack (hlanded hboth.1)) (hfailed hboth.2)
  · rcases kept_exec honest maxPayloadBytes later ops n r hr with ⟨q, hq, hbody, hstamps⟩ | hgone
    · have hne : c ≠ .archived := by
        rintro rfl
        exact absurd hc (by decide)
      exact .inl ⟨q, hq, hbody, hstamps c hne t ht⟩
    · exact .inr hgone

/-- **No forgery.** Rows in the inboxes of any nodes that have one id, of senders whose mail these nodes send, are
copies of one message; it was sent to that recipient, and its delivery acknowledged. -/
theorem inbox_authentic (ops : List (Op N Who ID)) {n m : N} {r q : Row Who ID}
    (hr : r ∈ (exec honest maxPayloadBytes ops).rows n) (hq : q ∈ (exec honest maxPayloadBytes ops).rows m)
    (hbox : r.box = .inbox ∧ q.box = .inbox) (hhonest : honest r.sender = true ∧ honest q.sender = true)
    (hid : r.id = q.id) :
    CopyOf r q ∧ ∃ d, (exec honest maxPayloadBytes ops).deliveries r.id = some d ∧ Concerns d r ∧
      d.result = some .ack := by
  have hvalid := valid_exec honest maxPayloadBytes ops
  obtain ⟨d, hd, hof, hack⟩ := (hvalid.rows n r hr).inbox hbox.1 hhonest.1
  obtain ⟨d', hd', hof', -⟩ := (hvalid.rows m q hq).inbox hbox.2 hhonest.2
  rw [← hid, hd] at hd'
  cases hd'
  exact ⟨copyOf_of_concerns hof hof' hbox.2, d, hd, hof, hack⟩

end

/-- The mail of identity 1 is sent by these nodes. -/
def sendsHere (w : ℕ) : Bool := w == 1

/-- Identity 1, at node `false`, sends message 5 to identity 2, at node `true`, where it is stored
and acknowledged. -/
def acknowledged : List (Op Bool ℕ ℕ) :=
  [.stamp 5 9 true, .receive 5 true, .handleAnswer 5 true, .handleStore 5 Faults.none 8, .handleRead 5 true,
    .send 5 true, .route 5 (.accepted true true), .post false 5 1 2 "hello" 0 7, .createMailbox true 2,
    .createMailbox false 1]

theorem delivery_agreement_acknowledged :
    ∃ r ∈ (exec sendsHere 100 acknowledged).rows false, r.stamps .landed = some 9 ∧
      ∃ m, (∃ q ∈ (exec sendsHere 100 acknowledged).rows m, CopyOf r q) ∨
        ∃ later earlier ok, acknowledged = later ++ .withdrawMailbox m r.recipient ok :: earlier ∧
          ∃ q ∈ (exec sendsHere 100 earlier).rows m, CopyOf r q := by
  obtain ⟨r, hr, hbox, hlanded⟩ : ∃ r ∈ (exec sendsHere 100 acknowledged).rows false,
      r.box = .outbox ∧ r.stamps .landed = some 9 := by decide
  have hagree := (delivery_agreement sendsHere 100 acknowledged false r hr).1 hbox
  exact ⟨r, hr, hlanded, hagree.1 (by rw [hlanded]; exact Option.some_ne_none 9)⟩

theorem inbox_authentic_acknowledged :
    ∃ r ∈ (exec sendsHere 100 acknowledged).rows true, ∃ d,
      (exec sendsHere 100 acknowledged).deliveries r.id = some d ∧ d.result = some .ack := by
  obtain ⟨r, hr, hbox, hhonest⟩ : ∃ r ∈ (exec sendsHere 100 acknowledged).rows true,
      r.box = .inbox ∧ sendsHere r.sender = true := by decide
  obtain ⟨-, d, hd, -, hack⟩ := inbox_authentic sendsHere 100 acknowledged hr hr ⟨hbox, hbox⟩ ⟨hhonest, hhonest⟩ rfl
  exact ⟨r, hr, d, hd, hack⟩

/-- Identity 2's mailbox is withdrawn: the sender's row says landed, and no inbox holds the message. -/
theorem landed_withdrawn :
    ∃ r ∈ (exec sendsHere 100 (.withdrawMailbox true 2 true :: acknowledged)).rows false,
      r.box = .outbox ∧ r.stamps .landed = some 9 ∧
        ∀ m, ∀ q ∈
          (exec sendsHere 100 (.withdrawMailbox true 2 true :: acknowledged)).rows m, ¬ CopyOf r q := by
  decide

end System

end Astrald.Messaging
