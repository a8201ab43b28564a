import Mathlib
import Astrald.Messaging.Store

/-!
# Listing messages

The model of `query.go`, of `Module.query` in `listing.go` and of `ListMessages` in `db_messages.go`. A
listing is of one of three lists, is narrowed by columns and by cursors, and is ordered as the list reads. The
rows carry their `seq`, which the database assigns in the order of the inserts.

* `query_ok_iff`: a query is answered if it is legal and its cursors and its limit are not too large;
* `validate_ok`: what a query is once it is legal;
* `Mail.seq_narrowed`: a narrowing is one by columns and one by cursors;
* `Later`: what may happen to the rows between two listings.
-/

namespace Astrald.Messaging

open List

def listInbox : String := "inbox"

def listOutbox : String := "outbox"

def listArchive : String := "archive"

/-- `messageQuery`; `sentBy` is its `From`, `sentTo` its `To`. A cursor or a limit that is 0 is none. -/
structure MessageQuery (Who : Type) where
  list : String
  sentBy : Option Who
  sentTo : Option Who
  unreadOnly : Bool
  awaitingPickup : Bool
  since : ℕ
  before : ℕ
  limit : ℕ
  deriving DecidableEq, Repr

/-- `math.MaxInt64`. -/
def maxInt64 : ℕ := 2 ^ 63 - 1

/-- `messaging.PageLimitMax`. -/
def listLimitMax : ℕ := 100

inductive QueryErr
  | sinceOver (v : ℕ)
  | beforeOver (v : ℕ)
  | limitOver (v : ℕ)
  | oppositeDirections
  | badNarrowing (why : String)
  | noSuchList (list : String)
  deriving DecidableEq, Repr

def QueryErr.text : QueryErr → String
  | .sinceOver v => s!"since is a cursor a previous answer gave you, not {v}"
  | .beforeOver v => s!"before is a cursor a previous answer gave you, not {v}"
  | .limitOver v => s!"limit is at most {listLimitMax}, not {v}"
  | .oppositeDirections => "since and before page in opposite directions"
  | .badNarrowing why => "that filter does not apply to this list: " ++ why
  | .noSuchList list => s!"no such list: {list}"

inductive Order
  | seq
  | seqDesc
  | createdAtDesc
  deriving DecidableEq, Repr

namespace MessageQuery

variable {Who ID : Type}

/-- `validate`, which also fills in the list that the caller left out. -/
def validate (q : MessageQuery Who) : Except QueryErr (MessageQuery Who) :=
  if q.since ≠ 0 ∧ q.before ≠ 0 then .error .oppositeDirections
  else if q.list = "" ∨ q.list = listInbox then
    if q.awaitingPickup then .error (.badNarrowing "awaiting_pickup asks about what you sent")
    else if q.sentTo.isSome then .error (.badNarrowing "an inbox is narrowed by from, not to")
    else .ok { q with list := listInbox }
  else if q.list = listOutbox then
    if q.since ≠ 0 then
      .error (.badNarrowing "since pages the inbox; the outbox is a history, read newest first")
    else if q.unreadOnly then .error (.badNarrowing "unread_only asks about what you received")
    else if q.sentBy.isSome then
      .error (.badNarrowing "you are the sender of everything here; narrow by to")
    else .ok q
  else if q.list = listArchive then
    if q.before ≠ 0 then .error (.badNarrowing "before pages by cursor; the archive is read by time")
    else if q.since ≠ 0 then
      .error (.badNarrowing "since pages the inbox; the archive is a history, read newest first")
    else if q.unreadOnly ∨ q.awaitingPickup then .error (.badNarrowing "the archive spans both directions")
    else if q.sentBy.isSome ∨ q.sentTo.isSome then
      .error (.badNarrowing "the archive spans both directions, so neither from nor to picks one")
    else .ok q
  else .error (.noSuchList q.list)

def atMost (max : ℕ) (refusal : ℕ → QueryErr) (v : ℕ) : Except QueryErr ℕ :=
  if max < v then .error (refusal v) else .ok v

def sinceOf : ℕ → Except QueryErr ℕ := atMost maxInt64 .sinceOver

def beforeOf : ℕ → Except QueryErr ℕ := atMost maxInt64 .beforeOver

def limitOf : ℕ → Except QueryErr ℕ := atMost listLimitMax .limitOver

/-- `Module.query`, for a request whose names have been resolved. -/
def query (q : MessageQuery Who) : Except QueryErr (MessageQuery Who) := do
  let since ← sinceOf q.since
  let before ← beforeOf q.before
  let limit ← limitOf q.limit
  validate { q with since, before, limit }

def order (q : MessageQuery Who) : Order :=
  if q.list = listOutbox then .seqDesc
  else if q.list = listArchive then .createdAtDesc
  else if q.before ≠ 0 ∨ (q.limit ≠ 0 ∧ q.since = 0) then .seqDesc
  else .seq

variable [DecidableEq Who]

/-- The part of `apply` that is about the columns of a row. -/
def selects (q : MessageQuery Who) (owner : Who) (r : Row Who ID) : Bool :=
  r.owner = owner &&
    (if q.list = listArchive then (r.stamps .archived).isSome
    else if q.list = listOutbox then r.box = .outbox && (r.stamps .archived).isNone
    else r.box = .inbox && (r.stamps .archived).isNone) &&
    q.sentBy.all (· = r.sender) && q.sentTo.all (· = r.recipient) &&
    (!q.unreadOnly || (r.stamps .read).isNone) &&
    (!q.awaitingPickup || ((r.stamps .landed).isSome && (r.stamps .fetched).isNone))

omit [DecidableEq Who] in
/-- The part of `apply` that is about the cursor of a row. -/
def inRange (q : MessageQuery Who) (seq : ℕ) : Bool :=
  (q.since = 0 || q.since < seq) && (q.before = 0 || seq < q.before)

end MessageQuery

/-! ## The rows -/

structure Entry (Who ID : Type) where
  seq : ℕ
  row : Row Who ID

/-- The table in the order of `seq`, with its keys. -/
structure Mail (Who ID : Type) where
  entries : List (Entry Who ID)
  increasing : entries.Pairwise fun a b => a.seq < b.seq
  positive : ∀ e ∈ entries, 0 < e.seq
  unique : (entries.map fun e => e.row.key).Nodup

namespace Mail

variable {Who ID : Type}

def store (m : Mail Who ID) : Store Who ID := ⟨m.entries.map Entry.row, by rw [List.map_map]; exact m.unique⟩

/-- The rows in an order; rows of one `created_at` come in the order of `seq`. -/
def ordered (order : Order) (rows : List (Entry Who ID)) : List (Entry Who ID) :=
  match order with
  | .seq => rows
  | .seqDesc => rows.reverse
  | .createdAtDesc => rows.insertionSort fun a b => b.row.createdAt ≤ a.row.createdAt

variable [DecidableEq Who]

def narrowed (m : Mail Who ID) (owner : Who) (q : MessageQuery Who) : List (Entry Who ID) :=
  m.entries.filter fun e => q.selects owner e.row && q.inRange e.seq

def listMessages (m : Mail Who ID) (owner : Who) (q : MessageQuery Who) : List (Entry Who ID) :=
  let rows := ordered q.order (m.narrowed owner q)
  if q.limit ≠ 0 then rows.take q.limit else rows

def cursors (m : Mail Who ID) (owner : Who) (q : MessageQuery Who) : List ℕ :=
  (m.entries.filter fun e => q.selects owner e.row).map Entry.seq

variable (m : Mail Who ID) (owner : Who) (q : MessageQuery Who)

theorem cursors_increasing : (m.cursors owner q).Pairwise (· < ·) :=
  pairwise_map.mpr (m.increasing.filter _)

theorem cursors_positive : ∀ n ∈ m.cursors owner q, 0 < n := by
  intro n hn
  obtain ⟨e, he, rfl⟩ := mem_map.mp hn
  exact m.positive e (mem_of_mem_filter he)

/-- The cursors that `apply` narrows to are those in range. -/
theorem seq_narrowed : (m.narrowed owner q).map Entry.seq = (m.cursors owner q).filter q.inRange := by
  rw [narrowed, cursors, filter_map, filter_filter]
  congr 1
  apply filter_congr
  intro e _
  exact Bool.and_comm _ _

end Mail

/-! ## Legal queries -/

namespace MessageQuery

variable {Who : Type}

def named (q : MessageQuery Who) : MessageQuery Who :=
  { q with list := if q.list = "" then listInbox else q.list }

variable {q q' : MessageQuery Who}

theorem query_ok_iff : q.query = .ok q' ↔
    q.since ≤ maxInt64 ∧ q.before ≤ maxInt64 ∧ q.limit ≤ listLimitMax ∧ q.validate = .ok q' := by
  have hmost : ∀ {max v : ℕ} {refusal : ℕ → QueryErr} {f : ℕ → Except QueryErr (MessageQuery Who)},
      (atMost max refusal v >>= f) = .ok q' ↔ v ≤ max ∧ f v = .ok q' := by
    intro max v refusal f
    unfold atMost
    by_cases hover : max < v
    · rw [if_pos hover]
      exact ⟨nofun, fun h => absurd h.1 (by omega)⟩
    · rw [if_neg hover]
      exact ⟨fun h => ⟨by omega, h⟩, fun h => h.2⟩
  unfold query sinceOf beforeOf limitOf
  rw [hmost, hmost, hmost]

section

variable (h : q.validate = .ok q')
include h

/-- A legal query: only its list may have been left out. -/
theorem validate_ok : q' = q.named := by
  unfold validate at h
  unfold named
  split_ifs at h with h₀ h₁ h₂ h₃ h₄ h₅ h₆ h₇ h₈ h₉ h₁₀ h₁₁ h₁₂ <;> cases h
  · rcases h₁ with hlist | hlist
    · rw [if_pos hlist]
    · rw [if_neg (by rw [hlist]; decide), hlist]
  · rw [if_neg (by rw [h₄]; decide)]
  · rw [if_neg (by rw [h₈]; decide)]

/-- A legal query with a cursor that goes forwards is of the inbox. -/
theorem since_legal (hsince : q.since ≠ 0) : q.before = 0 ∧ (q.list = "" ∨ q.list = listInbox) := by
  unfold validate at h
  -- the other lists refuse the cursor
  split_ifs at h with h₀ h₁
  refine ⟨?_, h₁⟩
  by_contra hbefore
  exact h₀ ⟨hsince, hbefore⟩

theorem archive_legal (hlist : q.list = listArchive) : q.before = 0 ∧ q.since = 0 := by
  unfold validate at h
  rw [hlist, if_neg (show ¬ (listArchive = "" ∨ listArchive = listInbox) by decide),
    if_neg (show listArchive ≠ listOutbox by decide), if_pos rfl] at h
  split_ifs at h with h₀ h₁ h₂
  exact ⟨by simpa using h₁, by simpa using h₂⟩

/-- A legal query of the inbox or the outbox takes a cursor that goes backwards, if it has no other. -/
theorem validate_before (hlist : q.list ≠ listArchive) (hsince : q.since = 0) (b L : ℕ) :
    ({ q with before := b, limit := L } : MessageQuery Who).validate =
      .ok ({ q with before := b, limit := L } : MessageQuery Who).named := by
  have hok : ∃ q'', ({ q with before := b, limit := L } : MessageQuery Who).validate = .ok q'' := by
    unfold validate at h ⊢
    rw [hsince] at h ⊢
    rw [if_neg (fun hboth => hboth.1 rfl)] at h ⊢
    by_cases hin : q.list = "" ∨ q.list = listInbox
    · rw [if_pos hin] at h ⊢
      split_ifs at h ⊢
      exact ⟨_, rfl⟩
    · rw [if_neg hin] at h ⊢
      by_cases hout : q.list = listOutbox
      · rw [if_pos hout] at h ⊢
        split_ifs at h ⊢
        exact ⟨_, rfl⟩
      · rw [if_neg hout, if_neg hlist] at h
        cases h
  obtain ⟨q'', hq''⟩ := hok
  rw [hq'', validate_ok hq'']

/-- A legal query with a cursor that goes forwards takes any other such cursor. -/
theorem validate_since (hsince : q.since ≠ 0) (c L : ℕ) :
    ({ q with since := c, limit := L } : MessageQuery Who).validate =
      .ok ({ q with since := c, limit := L } : MessageQuery Who).named := by
  obtain ⟨hbefore, hlist⟩ := since_legal h hsince
  have hok : ∃ q'', ({ q with since := c, limit := L } : MessageQuery Who).validate = .ok q'' := by
    unfold validate at h ⊢
    rw [hbefore] at h ⊢
    rw [if_neg (fun hboth => hboth.2 rfl), if_pos hlist] at h ⊢
    split_ifs at h ⊢
    exact ⟨_, rfl⟩
  obtain ⟨q'', hq''⟩ := hok
  rw [hq'', validate_ok hq'']

end

/-- Filling in the list selects the same rows. -/
theorem selects_named {ID : Type} [DecidableEq Who] (q : MessageQuery Who) (owner : Who) (r : Row Who ID) :
    q.named.selects owner r = q.selects owner r := by
  by_cases hlist : q.list = ""
  · have hnamed : q.named = { q with list := listInbox } := by
      rw [named, if_pos hlist]
    unfold selects
    rw [hnamed, hlist]
    rw [if_neg (show listInbox ≠ listArchive by decide), if_neg (show listInbox ≠ listOutbox by decide),
      if_neg (show "" ≠ listArchive by decide), if_neg (show "" ≠ listOutbox by decide)]
  · rw [named, if_neg hlist]

end MessageQuery

namespace Mail

variable {Who ID : Type} [DecidableEq Who]

theorem cursors_congr (m : Mail Who ID) (owner : Who) {q q' : MessageQuery Who}
    (h : ∀ r : Row Who ID, q'.selects owner r = q.selects owner r) :
    m.cursors owner q' = m.cursors owner q := by
  unfold cursors
  congr 1
  apply filter_congr
  intro e _
  exact h e.row

end Mail

/-- What may happen to the rows between two pages: rows are added, under greater cursors, and those that
are there may get stamps but stay selected or not selected. -/
structure Later {Who ID : Type} [DecidableEq Who] (owner : Who) (q : MessageQuery Who) (m m' : Mail Who ID) :
    Prop where
  rows : ∃ f new, m'.entries = m.entries.map f ++ new ∧ (∀ e, (f e).seq = e.seq) ∧
    ∀ e ∈ m.entries, q.selects owner (f e).row = q.selects owner e.row

namespace Later

variable {Who ID : Type} [DecidableEq Who] {owner : Who} {q : MessageQuery Who} {m m' : Mail Who ID}

theorem of_added (new : List (Entry Who ID)) (h : m'.entries = m.entries ++ new) :
    Later owner q m m' := by
  refine ⟨id, new, ?_, fun _ => rfl, fun _ _ => rfl⟩
  rw [map_id]
  exact h

/-- The cursors of the rows that are selected: there may be more. -/
theorem cursors_grow (h : Later owner q m m') : m.cursors owner q <+: m'.cursors owner q := by
  obtain ⟨f, new, hrows, hseq, hsel⟩ := h.rows
  refine ⟨(new.filter fun e => q.selects owner e.row).map Entry.seq, ?_⟩
  rw [Mail.cursors, Mail.cursors, hrows, filter_append, map_append, filter_map, map_map]
  congr 1
  have hfilter : m.entries.filter ((fun e => q.selects owner e.row) ∘ f) =
      m.entries.filter fun e => q.selects owner e.row := by
    apply filter_congr
    intro e he
    exact hsel e he
  rw [hfilter]
  apply map_congr_left
  intro e _
  exact (hseq e).symm

end Later

end Astrald.Messaging
