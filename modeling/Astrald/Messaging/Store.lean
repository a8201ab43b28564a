import Mathlib

/-!
# The message store and the receiving side

The model of `messaging/src/db_schema.go`, `db_messages.go`, `db_stamps.go` and of `storeMessage`
with `checkRetry` in `receive.go`. A store is its rows in the order of `seq`, and carries the
unique index on owner, box and id. A statement that the database fails to run changes nothing;
which statements fail is part of the input.

* `Store.insert_some`, `Store.find_some`, `Store.eq_of_key`: what the statements do to the rows;
* `storeMessage_spec`: a delivery adds one row or none, and alters none;
* `stored_of_ack`: an acknowledged delivery is stored exactly if a sender that repeats an id, and is not
  refused before `checkRetry` compares, repeats the message;
* `acked_not_stored`: otherwise an acknowledgement can answer a message that was dropped.
-/

namespace Astrald.Messaging

open List

inductive Box
  | inbox
  | outbox
  deriving DecidableEq, Repr

/-- The columns that hold an instant and start out empty. -/
inductive Stamp
  | archived
  | read
  | receiptDue
  | receiptStored
  | landed
  | failed
  | fetched
  deriving DecidableEq, Repr

section

variable {Who ID : Type}

/-- `dbMessage`, whose place in the list of rows is its `seq`. The zero id in `parentID` answers
none. -/
structure Row (Who ID : Type) where
  box : Box
  id : ID
  sender : Who
  recipient : Who
  content : String
  parentID : ID
  createdAt : ℕ
  stamps : Stamp → Option ℕ
  err : Option String

namespace Row

/-- The generated column. -/
def owner (r : Row Who ID) : Who :=
  match r.box with
  | .inbox => r.recipient
  | .outbox => r.sender

/-- What the unique index is on. -/
def key (r : Row Who ID) : Who × Box × ID := (r.owner, r.box, r.id)

/-- The columns that no statement updates. -/
def body (r : Row Who ID) : Box × ID × Who × Who × String × ID :=
  (r.box, r.id, r.sender, r.recipient, r.content, r.parentID)

theorem key_eq_of_body {r q : Row Who ID} (h : r.body = q.body) : r.key = q.key := by
  simp only [body, Prod.mk.injEq] at h
  simp [key, owner, h]

end Row

structure Store (Who ID : Type) where
  rows : List (Row Who ID)
  unique : (rows.map Row.key).Nodup

/-- `newRow`, with the box and the creation time that the statement sets. -/
def newRow (box : Box) (id : ID) (sender recipient : Who) (content : String) (parentID : ID) (now : ℕ) :
    Row Who ID :=
  { box, id, sender, recipient, content, parentID, createdAt := now, stamps := fun _ => none, err := none }

end

inductive StoreErr
  | noID
  | tooLarge
  | answersItself
  | parentNotHeld
  | idTaken
  | notFound
  | notParticipant
  | database (text : String)
  deriving DecidableEq, Repr

def StoreErr.text : StoreErr → String
  | .noID => "the message names no id"
  | .tooLarge => "message too large"
  | .answersItself => "a message may not answer itself"
  | .parentNotHeld => "the message answers one this node does not hold"
  | .idTaken => "a message is already stored under that id"
  | .notFound => "record not found"
  | .notParticipant => "not a messaging participant"
  | .database text => text

variable {Who ID : Type} [DecidableEq Who] [DecidableEq ID]

namespace Store

def empty : Store Who ID := ⟨[], List.nodup_nil⟩

/-- The row that `owner = ? AND box = ? AND id = ?` takes. -/
def find (s : Store Who ID) (owner : Who) (box : Box) (id : ID) : Option (Row Who ID) :=
  s.rows.find? fun r => r.key = (owner, box, id)

/-- `Holds`: in either box, archived or not. -/
def holds (s : Store Who ID) (owner : Who) (id : ID) : Bool :=
  s.rows.any fun r => r.owner = owner && (r.box = .inbox || r.box = .outbox) && r.id = id

/-- An insert; `none` on a conflict with the unique index. -/
def insert (s : Store Who ID) (r : Row Who ID) : Option (Store Who ID) :=
  if h : r.key ∈ s.rows.map Row.key then none
  else some
    { rows := s.rows ++ [r]
      unique := by
        rw [List.map_append, List.map_singleton]
        exact List.nodup_append.mpr ⟨s.unique, List.nodup_singleton _, fun a ha b hb hab =>
          h (by rw [← List.mem_singleton.mp hb, ← hab]; exact ha)⟩ }

omit [DecidableEq Who] [DecidableEq ID] in
/-- What an update of the rows leaves alone in each row it leaves alone in the table. -/
theorem map_map_of_keeps {α : Type} {f : Row Who ID → Row Who ID} {g : Row Who ID → α}
    (hf : ∀ r, g (f r) = g r) (rows : List (Row Who ID)) : (rows.map f).map g = rows.map g := by
  rw [map_map]
  exact map_congr_left fun r _ => hf r

/-- An update of columns that are not part of the message. -/
def update (s : Store Who ID) (f : Row Who ID → Row Who ID) (hf : ∀ r, (f r).body = r.body) : Store Who ID :=
  ⟨s.rows.map f, by rw [map_map_of_keeps fun r => Row.key_eq_of_body (hf r)]; exact s.unique⟩

/-- The row under a key gets a column that is empty written. -/
def mark (column : Stamp) (owner : Who) (box : Box) (id : ID) (now : ℕ) (r : Row Who ID) : Row Who ID :=
  if r.key = (owner, box, id) ∧ r.stamps column = none then
    { r with stamps := Function.update r.stamps column (some now) }
  else r

theorem body_mark (column : Stamp) (owner : Who) (box : Box) (id : ID) (now : ℕ) (r : Row Who ID) :
    (mark column owner box id now r).body = r.body := by
  unfold mark
  split <;> rfl

variable {s : Store Who ID} {r : Row Who ID}

theorem mark_stamps {c : Stamp} {t : ℕ} (h : r.stamps c = some t) (column : Stamp) (owner : Who) (box : Box)
    (id : ID) (now : ℕ) : (mark column owner box id now r).stamps c = some t := by
  unfold mark
  split
  · rename_i hmark
    have hne : c ≠ column := by
      rintro rfl
      rw [hmark.2] at h
      cases h
    show Function.update r.stamps column (some now) c = some t
    rw [Function.update_of_ne hne, h]
  · exact h

theorem mark_stamps_of_ne {c column : Stamp} (hne : c ≠ column) (owner : Who) (box : Box) (id : ID) (now : ℕ)
    (r : Row Who ID) : (mark column owner box id now r).stamps c = r.stamps c := by
  unfold mark
  split
  · show Function.update r.stamps column (some now) c = r.stamps c
    rw [Function.update_of_ne hne]
  · rfl

/-- The statements of `db_stamps.go` and `MarkRead` that end in `... AND column IS NULL`. -/
def stamp (s : Store Who ID) (column : Stamp) (owner : Who) (box : Box) (id : ID) (now : ℕ) : Store Who ID :=
  s.update (mark column owner box id now) (body_mark column owner box id now)

def stampLanded (s : Store Who ID) (sender : Who) (id : ID) (now : ℕ) : Store Who ID :=
  s.stamp .landed sender .outbox id now

def stampFailed (s : Store Who ID) (sender : Who) (id : ID) (now : ℕ) : Store Who ID :=
  s.stamp .failed sender .outbox id now

def stampFetched (s : Store Who ID) (sender : Who) (id : ID) (now : ℕ) : Store Who ID :=
  s.stamp .fetched sender .outbox id now

/-- The row must be one that was sent to the recipient that names it. -/
def markFrom (sender recipient : Who) (id : ID) (now : ℕ) (r : Row Who ID) : Row Who ID :=
  if r.recipient = recipient then mark .fetched sender .outbox id now r else r

theorem body_markFrom (sender recipient : Who) (id : ID) (now : ℕ) (r : Row Who ID) :
    (markFrom sender recipient id now r).body = r.body := by
  unfold markFrom
  split
  · exact body_mark .fetched sender .outbox id now r
  · rfl

def stampFetchedFrom (s : Store Who ID) (sender recipient : Who) (id : ID) (now : ℕ) : Store Who ID :=
  s.update (markFrom sender recipient id now) (body_markFrom sender recipient id now)

def markRead (s : Store Who ID) (owner : Who) (id : ID) (now : ℕ) : Store Who ID :=
  s.stamp .read owner .inbox id now

def markReceiptDue (s : Store Who ID) (recipient : Who) (id : ID) (now : ℕ) : Store Who ID :=
  s.stamp .receiptDue recipient .inbox id now

def stampReceiptStored (s : Store Who ID) (recipient : Who) (id : ID) (now : ℕ) : Store Who ID :=
  s.stamp .receiptStored recipient .inbox id now

def archive (s : Store Who ID) (owner : Who) (box : Box) (id : ID) (now : ℕ) : Store Who ID :=
  s.stamp .archived owner box id now

/-- `Unarchive`, the one column with an inverse. -/
def clear (owner : Who) (box : Box) (id : ID) (r : Row Who ID) : Row Who ID :=
  if r.key = (owner, box, id) then { r with stamps := Function.update r.stamps .archived none } else r

theorem body_clear (owner : Who) (box : Box) (id : ID) (r : Row Who ID) :
    (clear owner box id r).body = r.body := by
  unfold clear
  split <;> rfl

def unarchive (s : Store Who ID) (owner : Who) (box : Box) (id : ID) : Store Who ID :=
  s.update (clear owner box id) (body_clear owner box id)

/-- The characters of a text that fit in a number of bytes. -/
def fit : ℕ → List Char → List Char
  | _, [] => []
  | n, c :: cs => if c.utf8Size ≤ n then c :: fit (n - c.utf8Size) cs else []

/-- `clip`, on texts that are valid UTF-8. -/
def clip (text : String) (n : ℕ) : String :=
  if text.utf8ByteSize ≤ n then text else String.ofList (fit n text.toList) ++ "… (cut)"

def errLimit : ℕ := 256

/-- The refusal's words on an outbox row, once. -/
def note (sender : Who) (id : ID) (text : String) (r : Row Who ID) : Row Who ID :=
  if r.key = (sender, .outbox, id) ∧ r.err = none then { r with err := some text } else r

theorem body_note (sender : Who) (id : ID) (text : String) (r : Row Who ID) :
    (note sender id text r).body = r.body := by
  unfold note
  split <;> rfl

def setErr (s : Store Who ID) (sender : Who) (id : ID) (text : String) : Store Who ID :=
  s.update (note sender id (clip text errLimit)) (body_note sender id (clip text errLimit))

/-- The mail that `DeleteMailbox` deletes: every message the identity owns. -/
def deleteOwned (s : Store Who ID) (owner : Who) : Store Who ID :=
  ⟨s.rows.filter fun r => r.owner ≠ owner, s.unique.sublist (List.filter_sublist.map Row.key)⟩

def insertOutbox (s : Store Who ID) (id : ID) (sender recipient : Who) (content : String) (parentID : ID)
    (now : ℕ) : Option (Store Who ID) :=
  s.insert (newRow .outbox id sender recipient content parentID now)

/-- `InsertInbox`: the store and the number of rows stored. -/
def insertInbox (s : Store Who ID) (id : ID) (sender recipient : Who) (content : String) (parentID : ID)
    (now : ℕ) : Store Who ID × ℕ :=
  match s.insert (newRow .inbox id sender recipient content parentID now) with
  | some s' => (s', 1)
  | none => (s, 0)

theorem insert_some {s' : Store Who ID} (h : s.insert r = some s') :
    r.key ∉ s.rows.map Row.key ∧ s'.rows = s.rows ++ [r] := by
  unfold insert at h
  split at h
  · cases h
  · rename_i hkey
    cases h
    exact ⟨hkey, rfl⟩

theorem find_some {owner : Who} {box : Box} {id : ID} (h : s.find owner box id = some r) :
    r ∈ s.rows ∧ r.key = (owner, box, id) :=
  ⟨mem_of_find?_eq_some h, by simpa using List.find?_some h⟩

omit [DecidableEq Who] [DecidableEq ID] in
theorem eq_of_key {q : Row Who ID} (hr : r ∈ s.rows) (hq : q ∈ s.rows) (h : r.key = q.key) : r = q :=
  inj_on_of_nodup_map s.unique hr hq h

theorem find_none {owner : Who} {box : Box} {id : ID} (h : (owner, box, id) ∉ s.rows.map Row.key) :
    s.find owner box id = none := by
  refine List.find?_eq_none.mpr fun r hr hkey => h ?_
  rw [← of_decide_eq_true hkey]
  exact mem_map_of_mem hr

theorem holds_iff {owner : Who} {id : ID} :
    s.holds owner id = true ↔ ∃ r ∈ s.rows, r.owner = owner ∧ r.id = id := by
  unfold holds
  rw [any_eq_true]
  constructor
  · rintro ⟨r, hr, h⟩
    simp only [Bool.and_eq_true, decide_eq_true_eq] at h
    exact ⟨r, hr, h.1.1, h.2⟩
  · rintro ⟨r, hr, howner, hid⟩
    refine ⟨r, hr, ?_⟩
    cases hbox : r.box <;> simp [howner, hid]

end Store

/-! ## Receiving -/

structure Message (ID : Type) where
  id : ID
  content : String
  parentID : ID
  deriving DecidableEq, Repr

/-- The statements that the database fails to run, with the driver's words. -/
structure Faults where
  holds : Option String
  insert : Option String
  senderOf : Option String
  deriving DecidableEq, Repr

def Faults.none : Faults := ⟨.none, .none, .none⟩

def checkRetry (faults : Faults) (s : Store Who ID) (sender recipient : Who) (id : ID) :
    Except StoreErr Unit :=
  match faults.senderOf with
  | some text => .error (.database text)
  | none =>
    match s.find recipient .inbox id with
    | none => .error .notFound
    | some row => if row.sender = sender then .ok () else .error .idTaken

variable [Zero ID]

inductive SendErr
  | contentOver (limit : ℕ)
  | cannotAnswer
  | database (text : String)
  deriving DecidableEq, Repr

def checkParent (faults : Faults) (s : Store Who ID) (sender : Who) (parentID : ID) : Except SendErr Unit :=
  if parentID = 0 then .ok ()
  else
    match faults.holds with
    | some text => .error (.database text)
    | none => if s.holds sender parentID then .ok () else .error .cannotAnswer

/-- The checks of `sendMessage` before it writes, once the recipient is resolved. -/
def checkSend (maxPayloadBytes : ℕ) (faults : Faults) (s : Store Who ID) (sender : Who) (content : String)
    (parentID : ID) : Except SendErr Unit :=
  if content.utf8ByteSize > maxPayloadBytes then .error (.contentOver maxPayloadBytes)
  else checkParent faults s sender parentID

theorem held_of_checkSend {maxPayloadBytes : ℕ} {faults : Faults} {s : Store Who ID} {sender : Who}
    {content : String} {parentID : ID}
    (h : checkSend maxPayloadBytes faults s sender content parentID = .ok ())
    (hparent : parentID ≠ 0) : s.holds sender parentID = true := by
  unfold checkSend checkParent at h
  cases hf : faults.holds with
  | some text =>
    rw [hf] at h
    split_ifs at h
  | none =>
    rw [hf] at h
    split_ifs at h with _ hheld
    exact hheld

/-- The checks of `storeMessage` before it writes. -/
def checkMessage (maxPayloadBytes : ℕ) (faults : Faults) (s : Store Who ID) (recipient : Who)
    (msg : Message ID) :
    Except StoreErr Unit :=
  if msg.id = 0 then .error .noID
  else if msg.content.utf8ByteSize > maxPayloadBytes then .error .tooLarge
  else if msg.parentID = msg.id then .error .answersItself
  else if msg.parentID ≠ 0 then
    match faults.holds with
    | some text => .error (.database text)
    | none => if s.holds recipient msg.parentID then .ok () else .error .parentNotHeld
  else .ok ()

theorem held_of_checkMessage {maxPayloadBytes : ℕ} {faults : Faults} {s : Store Who ID} {recipient : Who}
    {msg : Message ID} (h : checkMessage maxPayloadBytes faults s recipient msg = .ok ())
    (hparent : msg.parentID ≠ 0) : s.holds recipient msg.parentID = true := by
  unfold checkMessage at h
  cases hf : faults.holds with
  | some text =>
    rw [hf] at h
    split_ifs at h
  | none =>
    rw [hf] at h
    split_ifs at h with _ _ _ hheld
    exact hheld

/-- The write of `storeMessage`, and its answer. -/
def write (faults : Faults) (s : Store Who ID) (sender recipient : Who) (msg : Message ID) (now : ℕ) :
    Except StoreErr Unit × Store Who ID :=
  match faults.insert with
  | some text => (.error (.database text), s)
  | none =>
    match s.insertInbox msg.id sender recipient msg.content msg.parentID now with
    | (s', n) => if n = 1 then (.ok (), s') else (checkRetry faults s' sender recipient msg.id, s')

def storeMessage (maxPayloadBytes : ℕ) (faults : Faults) (s : Store Who ID) (sender recipient : Who)
    (msg : Message ID) (now : ℕ) : Except StoreErr Unit × Store Who ID :=
  match checkMessage maxPayloadBytes faults s recipient msg with
  | .error e => (.error e, s)
  | .ok () => write faults s sender recipient msg now

def Message.row (msg : Message ID) (sender recipient : Who) (now : ℕ) : Row Who ID :=
  newRow .inbox msg.id sender recipient msg.content msg.parentID now

omit [Zero ID] in
/-- What the write does: the row is stored, or the store stays and the answer is that of
`checkRetry` about the row that is there. -/
theorem write_cases (faults : Faults) (s : Store Who ID) (sender recipient : Who) (msg : Message ID)
    (now : ℕ) :
    (∃ s', write faults s sender recipient msg now = (.ok (), s') ∧
      s'.rows = s.rows ++ [msg.row sender recipient now] ∧
        (msg.row sender recipient now).key ∉ s.rows.map Row.key) ∨
      ∃ res, write faults s sender recipient msg now = (res, s) ∧
        (res = .ok () → ∃ row, s.find recipient .inbox msg.id = some row ∧ row.sender = sender) := by
  unfold write
  cases faults.insert with
  | some text => exact .inr ⟨_, rfl, fun h => by cases h⟩
  | none =>
    unfold Store.insertInbox
    cases hins : s.insert (newRow .inbox msg.id sender recipient msg.content msg.parentID now) with
    | some s' =>
      obtain ⟨hkey, hrows⟩ := Store.insert_some hins
      exact .inl ⟨s', rfl, hrows, hkey⟩
    | none =>
      refine .inr ⟨checkRetry faults s sender recipient msg.id, rfl, ?_⟩
      unfold checkRetry
      intro hok
      split at hok
      · cases hok
      · split at hok
        · cases hok
        · rename_i row hfind
          split at hok
          · exact ⟨row, hfind, ‹_›⟩
          · cases hok

/-- A delivery adds one row or none, and alters none; refused, it adds none. -/
theorem storeMessage_spec (maxPayloadBytes : ℕ) (faults : Faults) (s : Store Who ID) (sender recipient : Who)
    (msg : Message ID) (now : ℕ) :
    (∃ s', storeMessage maxPayloadBytes faults s sender recipient msg now = (.ok (), s') ∧
        s'.rows = s.rows ++ [msg.row sender recipient now] ∧
        (msg.row sender recipient now).key ∉ s.rows.map Row.key) ∨
      ∃ res, storeMessage maxPayloadBytes faults s sender recipient msg now = (res, s) ∧
        (res = .ok () → ∃ row, s.find recipient .inbox msg.id = some row ∧ row.sender = sender) := by
  unfold storeMessage
  cases checkMessage maxPayloadBytes faults s recipient msg with
  | error e => exact .inr ⟨_, rfl, fun h => by cases h⟩
  | ok _ => exact write_cases faults s sender recipient msg now

def Store.inboxRows (s : Store Who ID) (recipient : Who) (id : ID) : List (Row Who ID) :=
  s.rows.filter fun r => r.key = (recipient, .inbox, id)

omit [Zero ID] in
theorem Store.inboxRows_eq {s : Store Who ID} {recipient : Who} {id : ID} {row : Row Who ID}
    (hrow : row ∈ s.rows)
    (hkey : row.key = (recipient, .inbox, id)) : s.inboxRows recipient id = [row] := by
  have hnodup : (s.inboxRows recipient id).Nodup := (List.Nodup.of_map Row.key s.unique).filter _
  have hmem : ∀ r, r ∈ s.inboxRows recipient id ↔ r = row := by
    intro r
    unfold Store.inboxRows
    rw [mem_filter]
    constructor
    · rintro ⟨hr, h⟩
      exact Store.eq_of_key hr hrow (by simpa [hkey] using h)
    · rintro rfl
      exact ⟨hrow, by simpa using hkey⟩
  have hperm : (s.inboxRows recipient id).Perm [row] :=
    (perm_ext_iff_of_nodup hnodup (nodup_singleton row)).mpr (by simpa using hmem)
  exact perm_singleton.mp hperm

/-- Nothing refuses the delivery before `checkRetry` compares the senders. -/
def Compared (maxPayloadBytes : ℕ) (faults : Faults) (s : Store Who ID) (recipient : Who) (msg : Message ID) : Prop :=
  checkMessage maxPayloadBytes faults s recipient msg = .ok () ∧ faults.insert = none ∧ faults.senderOf = none

/-- A delivery under an id that is there from its sender stores nothing, and is acknowledged if it is not refused
before the comparison. -/
theorem storeMessage_repeated (maxPayloadBytes : ℕ) (faults : Faults) (now : ℕ) {s : Store Who ID}
    {sender recipient : Who} {msg : Message ID} {row : Row Who ID}
    (hfind : s.find recipient .inbox msg.id = some row) (hsender : row.sender = sender) :
    ∃ res, storeMessage maxPayloadBytes faults s sender recipient msg now = (res, s) ∧
      (res = .ok () ↔ Compared maxPayloadBytes faults s recipient msg) := by
  have hkey : (newRow .inbox msg.id sender recipient msg.content msg.parentID now).key ∈ s.rows.map Row.key := by
    obtain ⟨hrow, hkey⟩ := Store.find_some hfind
    exact mem_map.mpr ⟨row, hrow, hkey⟩
  have hinsert : s.insertInbox msg.id sender recipient msg.content msg.parentID now = (s, 0) := by
    rw [Store.insertInbox, Store.insert, dif_pos hkey]
  unfold storeMessage Compared
  cases checkMessage maxPayloadBytes faults s recipient msg with
  | error e => exact ⟨_, rfl, by simp⟩
  | ok _ =>
    dsimp only
    unfold write
    rw [hinsert]
    cases faults.insert with
    | some text => exact ⟨_, rfl, by simp⟩
    | none =>
      refine ⟨_, rfl, ?_⟩
      unfold checkRetry
      rw [hfind]
      cases faults.senderOf <;> simp [hsender]

/-- **Acknowledged means stored.** A delivery that is acknowledged is the one row under its id, a refused one
leaves the store as it was, and no row is altered, if and only if the delivery, where it comes to the comparison
and the inbox holds its id from its sender, has the content and the parent of the row that is there. -/
theorem stored_of_ack (maxPayloadBytes : ℕ) (faults : Faults) (s : Store Who ID) (sender recipient : Who)
    (msg : Message ID) (now : ℕ) :
    let out := storeMessage maxPayloadBytes faults s sender recipient msg now
    (Compared maxPayloadBytes faults s recipient msg → ∀ row, s.find recipient .inbox msg.id = some row →
        row.sender = sender → row.content = msg.content ∧ row.parentID = msg.parentID) ↔
      (out.1 = .ok () → ∃ row, out.2.inboxRows recipient msg.id = [row] ∧ row.sender = sender ∧
        row.content = msg.content ∧ row.parentID = msg.parentID) ∧
      (out.1 ≠ .ok () → out.2 = s) ∧ s.rows <+: out.2.rows := by
  intro out
  constructor
  swap
  · rintro ⟨hstored, -⟩ hcompared row hfind hsender
    obtain ⟨res, hout, hok⟩ := storeMessage_repeated maxPayloadBytes faults now hfind hsender
    rw [show out = (res, s) from hout] at hstored
    obtain ⟨row', hrows, -, hsame⟩ := hstored (hok.mpr hcompared)
    obtain ⟨hrow, hkey⟩ := Store.find_some hfind
    rw [Store.inboxRows_eq hrow hkey] at hrows
    rwa [(List.cons.inj hrows).1]
  intro hsame
  rcases storeMessage_spec maxPayloadBytes faults s sender recipient msg now with
    ⟨s', hout, hrows, _⟩ | ⟨res, hout, hretry⟩
  · have hmem : msg.row sender recipient now ∈ s'.rows := by
      rw [hrows]
      exact mem_append_right _ (mem_singleton_self _)
    rw [show out = (.ok (), s') from hout]
    refine ⟨fun _ => ?_, fun h => absurd rfl h, ?_⟩
    · exact ⟨_, Store.inboxRows_eq hmem rfl, rfl, rfl, rfl⟩
    · show s.rows <+: s'.rows
      rw [hrows]
      exact prefix_append _ _
  · rw [show out = (res, s) from hout]
    refine ⟨fun hok => ?_, fun _ => rfl, prefix_refl _⟩
    obtain ⟨row, hfind, hsender⟩ := hretry hok
    obtain ⟨hrow, hkey⟩ := Store.find_some hfind
    obtain ⟨res', hout', hcompared⟩ := storeMessage_repeated maxPayloadBytes faults now hfind hsender
    rw [hout] at hout'
    cases hout'
    obtain ⟨hcontent, hparent⟩ := hsame (hcompared.mp hok) row hfind hsender
    exact ⟨row, Store.inboxRows_eq hrow hkey, hsender, hcontent, hparent⟩

def holdsFive : Store ℕ ℕ := (storeMessage 100 Faults.none Store.empty 1 2 ⟨5, "first", 0⟩ 9).2

theorem stored_of_ack_repeated :
    (storeMessage 100 Faults.none holdsFive 1 2 ⟨5, "first", 0⟩ 10).1 = .ok () ∧
      ∃ row, (storeMessage 100 Faults.none holdsFive 1 2 ⟨5, "first", 0⟩ 10).2.inboxRows 2 5 = [row] ∧
        row.sender = 1 ∧ row.content = "first" ∧ row.parentID = 0 := by
  have hack : (storeMessage 100 Faults.none holdsFive 1 2 ⟨5, "first", 0⟩ 10).1 = .ok () := by decide
  refine ⟨hack, ((stored_of_ack 100 Faults.none holdsFive 1 2 ⟨5, "first", 0⟩ 10).mp ?_).1 hack⟩
  intro _ row hfind _
  obtain rfl : (⟨5, "first", 0⟩ : Message ℕ).row 1 2 9 = row := Option.some.inj hfind
  exact ⟨rfl, rfl⟩

/-- The sender of message 5 delivers another message under that id: it is acknowledged, and the
inbox holds the first one. -/
theorem acked_not_stored :
    (storeMessage 100 Faults.none holdsFive 1 2 ⟨5, "second", 0⟩ 10).1 = .ok () ∧
      ((storeMessage 100 Faults.none holdsFive 1 2 ⟨5, "second", 0⟩ 10).2.inboxRows 2 5).map
      Row.content = ["first"] := by
  decide

end Astrald.Messaging
