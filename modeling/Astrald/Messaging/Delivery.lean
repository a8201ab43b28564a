import Astrald.Lib.Trace
import Astrald.Messaging.Store

/-!
# Deliveries between nodes

The model of `sendMessage` from the writing of its row on, with `deliverMessage` and
`noteDeliveryFailed`, and of `acceptMessage`: any number of nodes, each with its table of messages
and its index of mailboxes, and one record for each message sent, which says where the sending and
the receiving goroutine are and what is on its way between them. Everything can fail at every
point: the route (with or without a handler left behind on the other side), the sending, either
reading, the answer, the deadline, and every statement of the database. Strangers deliver whatever
they like under identities of their own, and mailboxes come and go.

* `Delivery.Fit`: what the stages of the two goroutines say about each other;
* `Delivery.Evolves` and its step lemmas: no step changes the message or what was decided about it,
  and a message that is known not to be stored stays so.
-/

namespace Astrald.Messaging

/-! ## One message -/

inductive Answer
  | ack
  | notAdmitted
  | refused (text : String)
  deriving DecidableEq, Repr

/-- The outcomes of `deliverMessage` that are not a success; `errNoAnswer` stamps nothing. -/
inductive Cause
  | notAdmitted
  | unreachable
  | notSent
  | refused (text : String)
  deriving DecidableEq, Repr

/-- The words that `noteDeliveryFailed` leaves on the row: only the recipient's side saying no
leaves any. -/
def Cause.words : Cause → Option String
  | .notAdmitted => some "the recipient does not take messages from you"
  | .refused text => some ("the recipient's node refused it: " ++ text)
  | .unreachable => none
  | .notSent => none

/-- Where `sendMessage` is, once its row is written. -/
inductive Stage
  | routing
  | sending
  | receiving
  | landing
  | failing (c : Cause)
  | noting (text : String)
  | returned
  deriving DecidableEq, Repr

/-- Where `acceptMessage` is. -/
inductive Handler
  | absent
  | reading
  | storing
  | answering
  | closed
  deriving DecidableEq, Repr

/-- How a route ends for the sender. A route can fail after the other side has accepted. -/
inductive Route (N : Type)
  | failed (notAdmitted : Bool) (behind : Option (N × Bool))
  | accepted (node : N) (admitted : Bool)

structure Delivery (N Who ID : Type) where
  origin : N
  sender : Who
  recipient : Who
  msg : Message ID
  stage : Stage
  sent : Bool
  handler : Handler
  /-- The node that accepted the query, and whether it admits the sender. -/
  target : Option (N × Bool)
  /-- What the receiving side decided. -/
  result : Option Answer
  reply : Option Answer

namespace Delivery

variable {N Who ID : Type}

def begin (origin : N) (sender recipient : Who) (msg : Message ID) : Delivery N Who ID :=
  { origin, sender, recipient, msg, stage := .routing, sent := false, handler := .absent, target := none,
    result := none, reply := none }

def route (d : Delivery N Who ID) (r : Route N) : Delivery N Who ID :=
  if d.stage = .routing then
    match r with
    | .accepted node admitted =>
      { d with stage := .sending, handler := .reading, target := some (node, admitted) }
    | .failed notAdmitted behind =>
      { d with
        stage := .failing (if notAdmitted then .notAdmitted else .unreachable)
        handler := if behind.isSome then .reading else .absent
        target := behind }
  else d

def send (d : Delivery N Who ID) (ok : Bool) : Delivery N Who ID :=
  if d.stage = .sending then
    if ok then { d with stage := .receiving, sent := true } else { d with stage := .failing .notSent }
  else d

/-- The classification at the end of `deliverMessage`. -/
def classify : Answer → Stage
  | .ack => .landing
  | .notAdmitted => .failing .notAdmitted
  | .refused text => .failing (.refused text)

/-- The read of the answer: it blocks until there is one, and can fail at any time. -/
def receive (d : Delivery N Who ID) (ok : Bool) : Delivery N Who ID :=
  if d.stage = .receiving then
    if ok then
      match d.reply with
      | none => d
      | some a => { d with stage := classify a, reply := none }
    else { d with stage := .returned }
  else d

/-- What follows the statement that the stage is about. -/
def stamped (d : Delivery N Who ID) : Delivery N Who ID :=
  match d.stage with
  | .landing => { d with stage := .returned }
  | .failing c => { d with stage := (c.words.map Stage.noting).getD .returned }
  | .noting _ => { d with stage := .returned }
  | _ => d

def handleRead (d : Delivery N Who ID) (ok : Bool) : Delivery N Who ID :=
  if d.handler = .reading then
    if ok then
      if d.sent then { d with handler := .storing } else d
    else { d with handler := .closed }
  else d

/-- What the handler answers to a message that it admits. -/
def answer : Except StoreErr Unit → Answer
  | .ok () => .ack
  | .error e => .refused e.text

def handled (d : Delivery N Who ID) (a : Answer) : Delivery N Who ID :=
  { d with handler := .answering, result := some a }

def handleAnswer (d : Delivery N Who ID) (ok : Bool) : Delivery N Who ID :=
  if d.handler = .answering then
    { d with handler := .closed, reply := if ok then d.result else none }
  else d

section

variable (d : Delivery N Who ID)

theorem result_route (r : Route N) : (d.route r).result = d.result := by
  unfold route
  split
  · cases r <;> rfl
  · rfl

theorem result_send (ok : Bool) : (d.send ok).result = d.result := by
  unfold send
  split_ifs <;> rfl

theorem result_receive (ok : Bool) : (d.receive ok).result = d.result := by
  unfold receive
  split_ifs
  · cases d.reply <;> rfl
  · rfl
  · rfl

theorem result_stamped : d.stamped.result = d.result := by
  unfold stamped
  split <;> rfl

theorem result_handleRead (ok : Bool) : (d.handleRead ok).result = d.result := by
  unfold handleRead
  split_ifs <;> rfl

theorem result_handleAnswer (ok : Bool) : (d.handleAnswer ok).result = d.result := by
  unfold handleAnswer
  split_ifs <;> rfl

end

/-- The message is not stored, and will not be. -/
def Dead (d : Delivery N Who ID) : Prop :=
  (∃ a, a ≠ .ack ∧ d.result = some a) ∨ d.sent = false ∧ d.stage ≠ .routing ∧ d.stage ≠ .sending

/-- What the stages of the two goroutines say about each other. -/
structure Fit (d : Delivery N Who ID) : Prop where
  unsent : d.stage = .routing ∨ d.stage = .sending → d.sent = false
  apart : d.stage = .routing → d.handler = .absent
  unread : d.sent = false → d.handler ≠ .storing ∧ d.result = none
  undecided : d.handler = .absent ∨ d.handler = .reading ∨ d.handler = .storing → d.result = none
  accepted : d.handler ≠ .absent → d.target.isSome
  replied : ∀ a, d.reply = some a → d.result = some a
  landing : d.stage = .landing → d.result = some .ack
  failing : ∀ c, d.stage = .failing c → d.Dead

/-- A step of one of the two goroutines keeps the message, what was decided, and what is dead. -/
structure Evolves (d d' : Delivery N Who ID) : Prop where
  sender : d'.sender = d.sender
  recipient : d'.recipient = d.recipient
  msg : d'.msg = d.msg
  fit : d'.Fit
  result : ∀ a, d.result = some a → d'.result = some a ∧ d'.target = d.target
  dead : d.Dead → d'.Dead

variable {d d' : Delivery N Who ID}

theorem Fit.evolves_refl (h : d.Fit) : Evolves d d :=
  ⟨rfl, rfl, rfl, h, fun _ ha => ⟨ha, rfl⟩, id⟩

theorem fit_begin (origin : N) (sender recipient : Who) (msg : Message ID) :
    (begin origin sender recipient msg).Fit := by
  constructor <;> simp [begin]

theorem Fit.early (h : d.Fit) (hstage : d.stage = .routing ∨ d.stage = .sending) :
    d.result = none ∧ ¬ d.Dead := by
  have hresult := (h.unread (h.unsent hstage)).2
  refine ⟨hresult, ?_⟩
  rintro (⟨a, -, ha⟩ | ⟨-, hrouting, hsending⟩)
  · rw [hresult] at ha
    cases ha
  · exact hstage.elim hrouting hsending

/-- A step before the message has left has nothing to keep but the message. -/
theorem Fit.evolves_early (h : d.Fit) (hstage : d.stage = .routing ∨ d.stage = .sending)
    (hsender : d'.sender = d.sender) (hrecipient : d'.recipient = d.recipient) (hmsg : d'.msg = d.msg)
    (hfit : d'.Fit) : Evolves d d' := by
  obtain ⟨hresult, hdead⟩ := h.early hstage
  refine ⟨hsender, hrecipient, hmsg, hfit, fun a ha => ?_, fun hd => absurd hd hdead⟩
  rw [hresult] at ha
  cases ha

theorem evolves_route (h : d.Fit) (r : Route N) : Evolves d (d.route r) := by
  refine Trace.when_keeps h.evolves_refl fun hstage => ?_
  cases r with
  | accepted node admitted =>
    refine h.evolves_early (.inl hstage) rfl rfl rfl ?_
    obtain ⟨h1, h2, h3, h4, h5, h6, h7, h8⟩ := h
    constructor <;> simp_all
  | failed notAdmitted behind =>
    refine h.evolves_early (.inl hstage) rfl rfl rfl ?_
    obtain ⟨h1, h2, h3, h4, h5, h6, h7, h8⟩ := h
    constructor <;> cases behind <;> simp_all [Dead]

theorem evolves_send (h : d.Fit) (ok : Bool) : Evolves d (d.send ok) := by
  refine Trace.when_keeps h.evolves_refl fun hstage => ?_
  split
  all_goals
    refine h.evolves_early (.inr hstage) rfl rfl rfl ?_
    obtain ⟨h1, h2, h3, h4, h5, h6, h7, h8⟩ := h
    constructor <;> simp_all [Dead]

/-- A step after the message has left that decides nothing. -/
theorem Fit.evolves_late (hsender : d'.sender = d.sender) (hrecipient : d'.recipient = d.recipient)
    (hmsg : d'.msg = d.msg) (hfit : d'.Fit) (hresult : d'.result = d.result) (htarget : d'.target = d.target)
    (hsent : d'.sent = d.sent) (hstage : d'.stage = .routing ∨ d'.stage = .sending → d'.stage = d.stage) :
    Evolves d d' := by
  refine ⟨hsender, hrecipient, hmsg, hfit, fun a ha => ⟨hresult.trans ha, htarget⟩, ?_⟩
  rintro (⟨a, hne, ha⟩ | ⟨hs, hrouting, hsending⟩)
  · exact .inl ⟨a, hne, hresult.trans ha⟩
  · refine .inr ⟨hsent.trans hs, fun hr => hrouting ?_, fun hr => hsending ?_⟩
    · rw [← hstage (.inl hr), hr]
    · rw [← hstage (.inr hr), hr]

section

variable (h : d.Fit)
include h

/-- `sendMessage` moves on, to a stage after the message has left or failed to leave. -/
theorem Fit.evolves_stage {st : Stage} {rep : Option Answer} (hst : st ≠ .routing ∧ st ≠ .sending)
    (hrep : ∀ a, rep = some a → d.reply = some a) (hlanding : st = .landing → d.result = some .ack)
    (hfailing : ∀ c, st = .failing c → d.Dead) : Evolves d { d with stage := st, reply := rep } := by
  refine Fit.evolves_late rfl rfl rfl ?_ rfl rfl rfl fun hold => absurd hold (not_or.mpr hst)
  exact { h with
    unsent := fun hold => absurd hold (not_or.mpr hst)
    apart := fun hold => absurd hold hst.1
    replied := fun a ha => h.replied a (hrep a ha)
    landing := hlanding
    failing := fun c hc => (hfailing c hc).imp_right fun hs => ⟨hs.1, hst⟩ }

/-- `acceptMessage` moves on without deciding anything. -/
theorem Fit.evolves_handler {hd : Handler} {rep : Option Answer} (hold : d.handler ≠ .absent)
    (hnew : hd ≠ .absent) (hsent : hd = .storing → d.sent = true)
    (hdecided : hd = .reading ∨ hd = .storing → d.result = none) (hrep : ∀ a, rep = some a → d.result = some a) :
    Evolves d { d with handler := hd, reply := rep } := by
  refine Fit.evolves_late rfl rfl rfl ?_ rfl rfl rfl fun _ => rfl
  exact { h with
    apart := fun hst => absurd (h.apart hst) hold
    unread := fun hs => ⟨fun hstoring => absurd (hsent hstoring) (by rw [hs]; decide), (h.unread hs).2⟩
    undecided := fun hcase => hdecided (hcase.resolve_left hnew)
    accepted := fun _ => h.accepted hold
    replied := hrep }

theorem evolves_receive (ok : Bool) : Evolves d (d.receive ok) := by
  refine Trace.when_keeps h.evolves_refl fun _ => ?_
  split
  · cases hreply : d.reply with
    | none => exact h.evolves_refl
    | some a =>
      have hresult := h.replied a hreply
      refine h.evolves_stage (by cases a <;> simp [classify]) nofun ?_ ?_
      · intro hst
        cases a with
        | ack => exact hresult
        | notAdmitted | refused text => cases hst
      · intro c hst
        refine .inl ⟨a, ?_, hresult⟩
        rintro rfl
        cases hst
  · exact h.evolves_stage (by decide) (fun _ => id) nofun nofun

theorem evolves_stamped : Evolves d d.stamped := by
  unfold stamped
  split
  · exact h.evolves_stage (by decide) (fun _ => id) nofun nofun
  · rename_i c _
    cases c with
    | notAdmitted | refused text | unreachable | notSent =>
      exact h.evolves_stage ⟨Stage.noConfusion, Stage.noConfusion⟩ (fun _ => id) nofun nofun
  · exact h.evolves_stage (by decide) (fun _ => id) nofun nofun
  · exact h.evolves_refl

theorem evolves_handleRead (ok : Bool) : Evolves d (d.handleRead ok) := by
  refine Trace.when_keeps h.evolves_refl fun hreading => ?_
  have hold : d.handler ≠ .absent := by rw [hreading]; exact Handler.noConfusion
  have hnone : d.result = none := h.undecided (.inr (.inl hreading))
  split
  · split
    · rename_i hsent
      exact h.evolves_handler hold Handler.noConfusion (fun _ => hsent) (fun _ => hnone) h.replied
    · exact h.evolves_refl
  · exact h.evolves_handler hold Handler.noConfusion nofun (fun _ => hnone) h.replied

theorem evolves_handleAnswer (ok : Bool) : Evolves d (d.handleAnswer ok) := by
  refine Trace.when_keeps h.evolves_refl fun hanswering => ?_
  have hold : d.handler ≠ .absent := by rw [hanswering]; exact Handler.noConfusion
  refine h.evolves_handler hold Handler.noConfusion nofun (fun hcase => ?_) fun a ha => ?_
  · rcases hcase with hcase | hcase <;> cases hcase
  · split at ha
    · exact ha
    · cases ha

/-- A message that is being stored has left, and is not dead. -/
theorem evolves_handled (hstoring : d.handler = .storing) (a : Answer) : Evolves d (d.handled a) := by
  have hresult := h.undecided (.inr (.inr hstoring))
  have hsent : d.sent = true := by
    by_contra hs
    exact (h.unread (by simpa using hs)).1 hstoring
  have hdead : ¬ d.Dead := by
    rintro (⟨b, -, hb⟩ | ⟨hs, -⟩)
    · rw [hresult] at hb
      cases hb
    · rw [hsent] at hs
      cases hs
  refine ⟨rfl, rfl, rfl, ?_, fun b hb => ?_, fun hd => absurd hd hdead⟩
  · obtain ⟨h1, h2, h3, h4, h5, h6, h7, h8⟩ := h
    constructor <;> simp_all [handled]
  · rw [hresult] at hb
    cases hb

theorem Fit.not_dead_of_ack (hack : d.result = some .ack) : ¬ d.Dead := by
  rintro (⟨a, hne, ha⟩ | ⟨hsent, -⟩)
  · exact hne (Option.some.inj (ha.symm.trans hack))
  · exact absurd ((h.unread hsent).2.symm.trans hack) (by simp)

end

theorem Evolves.trans {d'' : Delivery N Who ID} (h : Evolves d d') (h' : Evolves d' d'') :
    Evolves d d'' where
  sender := h'.sender.trans h.sender
  recipient := h'.recipient.trans h.recipient
  msg := h'.msg.trans h.msg
  fit := h'.fit
  result a ha :=
    have hmid := h.result a ha
    have hend := h'.result a hmid.1
    ⟨hend.1, hend.2.trans hmid.2⟩
  dead hd := h'.dead (h.dead hd)

end Delivery

/-! ## The nodes -/

structure Node (Who ID : Type) where
  store : Store Who ID
  mailboxes : List Who

structure System (N Who ID : Type) where
  nodes : N → Node Who ID
  deliveries : ID → Option (Delivery N Who ID)

/-- The statements that other parts of the module run on the rows: reading, receipts, archiving. -/
inductive Stmt (Who ID : Type)
  | markRead (owner : Who) (id : ID)
  | markReceiptDue (recipient : Who) (id : ID)
  | stampReceiptStored (recipient : Who) (id : ID)
  | stampFetched (sender : Who) (id : ID)
  | stampFetchedFrom (sender recipient : Who) (id : ID)
  | archive (owner : Who) (box : Box) (id : ID)
  | unarchive (owner : Who) (box : Box) (id : ID)

def Stmt.run {Who ID : Type} [DecidableEq Who] [DecidableEq ID] (st : Store Who ID) (now : ℕ) :
    Stmt Who ID → Store Who ID
  | .markRead owner id => st.markRead owner id now
  | .markReceiptDue recipient id => st.markReceiptDue recipient id now
  | .stampReceiptStored recipient id => st.stampReceiptStored recipient id now
  | .stampFetched sender id => st.stampFetched sender id now
  | .stampFetchedFrom sender recipient id => st.stampFetchedFrom sender recipient id now
  | .archive owner box id => st.archive owner box id now
  | .unarchive owner box id => st.unarchive owner box id

inductive Op (N Who ID : Type)
  | createMailbox (n : N) (identity : Who)
  /-- `ok` says whether the database ran the deletion. -/
  | withdrawMailbox (n : N) (identity : Who) (ok : Bool)
  | post (n : N) (id : ID) (sender recipient : Who) (content : String) (parentID : ID) (now : ℕ)
  | route (id : ID) (r : Route N)
  | send (id : ID) (ok : Bool)
  | receive (id : ID) (ok : Bool)
  | stamp (id : ID) (now : ℕ) (ok : Bool)
  | handleRead (id : ID) (ok : Bool)
  | handleStore (id : ID) (faults : Faults) (now : ℕ)
  | handleAnswer (id : ID) (ok : Bool)
  /-- A stranger's delivery reaches its write. -/
  | deliver (n : N) (sender recipient : Who) (msg : Message ID) (faults : Faults) (now : ℕ)
  | run (n : N) (stmt : Stmt Who ID) (now : ℕ)

namespace System

variable {N Who ID : Type} [DecidableEq N] [DecidableEq Who] [DecidableEq ID]

def start : System N Who ID := ⟨fun _ => ⟨Store.empty, []⟩, fun _ => none⟩

def rows (s : System N Who ID) (n : N) : List (Row Who ID) := (s.nodes n).store.rows

def setStore (s : System N Who ID) (n : N) (st : Store Who ID) : System N Who ID :=
  { s with nodes := Function.update s.nodes n { s.nodes n with store := st } }

def setDelivery (s : System N Who ID) (id : ID) (d : Delivery N Who ID) : System N Who ID :=
  { s with deliveries := Function.update s.deliveries id (some d) }

def createMailbox (s : System N Who ID) (n : N) (identity : Who) : System N Who ID :=
  { s with nodes := Function.update s.nodes n { s.nodes n with mailboxes := identity ::
    (s.nodes n).mailboxes } }

/-- `withdrawMailbox`: the index forgets the identity first. -/
def withdrawMailbox (s : System N Who ID) (n : N) (identity : Who) (ok : Bool) : System N Who ID :=
  { s with
    nodes := Function.update s.nodes n
      { store := if ok then (s.nodes n).store.deleteOwned identity else (s.nodes n).store
        mailboxes := (s.nodes n).mailboxes.filter fun w => w ≠ identity } }

/-- The writing of the row in `sendMessage`. Its checks were made at an earlier state, so that any
parent is possible here; the id is one that no send has drawn. -/
def post (honest : Who → Bool) (maxPayloadBytes : ℕ) (s : System N Who ID) (n : N) (id : ID)
    (sender recipient : Who)
    (content : String) (parentID : ID) (now : ℕ) : System N Who ID :=
  if honest sender && (s.deliveries id).isNone && content.utf8ByteSize ≤ maxPayloadBytes
      && sender ∈ (s.nodes n).mailboxes then
    match (s.nodes n).store.insertOutbox id sender recipient content parentID now with
    | none => s
    | some st => (s.setStore n st).setDelivery id (.begin n sender recipient ⟨id, content, parentID⟩)
  else s

/-- A step of one of the two goroutines of a delivery. -/
def act (s : System N Who ID) (id : ID) (f : Delivery N Who ID → Delivery N Who ID) : System N Who ID :=
  match s.deliveries id with
  | none => s
  | some d => s.setDelivery id (f d)

/-- The statement that `sendMessage` runs on its row at a stage. -/
def stampStmt (st : Store Who ID) (stage : Stage) (sender : Who) (id : ID) (now : ℕ) : Store Who ID :=
  match stage with
  | .landing => st.stampLanded sender id now
  | .failing _ => st.stampFailed sender id now
  | .noting text => st.setErr sender id text
  | _ => st

def stamp (s : System N Who ID) (id : ID) (now : ℕ) (ok : Bool) : System N Who ID :=
  match s.deliveries id with
  | none => s
  | some d =>
    let st := (s.nodes d.origin).store
    (s.setStore d.origin (if ok then stampStmt st d.stage d.sender id now else st)).setDelivery id d.stamped

variable [Zero ID]

/-- `storeMessage` under `whileIndexed`. -/
def accept (maxPayloadBytes : ℕ) (faults : Faults) (node : Node Who ID) (sender recipient : Who)
    (msg : Message ID)
    (now : ℕ) : Except StoreErr Unit × Store Who ID :=
  if recipient ∈ node.mailboxes then storeMessage maxPayloadBytes faults node.store sender recipient msg now
  else (.error .notParticipant, node.store)

def handleStore (maxPayloadBytes : ℕ) (s : System N Who ID) (id : ID) (faults : Faults) (now : ℕ) :
    System N Who ID :=
  match s.deliveries id with
  | none => s
  | some d =>
    match d.handler, d.target with
    | .storing, some (n, true) =>
      let out := accept maxPayloadBytes faults (s.nodes n) d.sender d.recipient d.msg now
      (s.setStore n out.2).setDelivery id (d.handled (Delivery.answer out.1))
    | .storing, some (_, false) => s.setDelivery id (d.handled .notAdmitted)
    | _, _ => s

/-- A stranger's delivery: its sender is none of the identities whose mail these nodes send. -/
def deliver (honest : Who → Bool) (maxPayloadBytes : ℕ) (s : System N Who ID) (n : N) (sender recipient : Who)
    (msg : Message ID) (faults : Faults) (now : ℕ) : System N Who ID :=
  if honest sender then s
  else s.setStore n (accept maxPayloadBytes faults (s.nodes n) sender recipient msg now).2

def step (honest : Who → Bool) (maxPayloadBytes : ℕ) (s : System N Who ID) : Op N Who ID → System N Who ID
  | .createMailbox n identity => s.createMailbox n identity
  | .withdrawMailbox n identity ok => s.withdrawMailbox n identity ok
  | .post n id sender recipient content parentID now =>
    s.post honest maxPayloadBytes n id sender recipient content parentID now
  | .route id r => s.act id fun d => d.route r
  | .send id ok => s.act id fun d => d.send ok
  | .receive id ok => s.act id fun d => d.receive ok
  | .stamp id now ok => s.stamp id now ok
  | .handleRead id ok => s.act id fun d => d.handleRead ok
  | .handleStore id faults now => s.handleStore maxPayloadBytes id faults now
  | .handleAnswer id ok => s.act id fun d => d.handleAnswer ok
  | .deliver n sender recipient msg faults now =>
    s.deliver honest maxPayloadBytes n sender recipient msg faults now
  | .run n stmt now => s.setStore n (stmt.run (s.nodes n).store now)

def exec (honest : Who → Bool) (maxPayloadBytes : ℕ) : List (Op N Who ID) → System N Who ID :=
  Trace.exec (step honest maxPayloadBytes) start

end System

end Astrald.Messaging
