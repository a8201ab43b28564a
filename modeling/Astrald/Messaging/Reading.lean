import Mathlib
import Astrald.Lib.Budget
import Astrald.Lib.Fallible
import Astrald.Messaging.Store

/-!
# Reading messages

The model of `reading.go`, of `noteFetched` in `receipts.go` and of the statements of
`db_messages.go` that a read runs. A read names messages by box and id, and answers them with
their direct replies; the bodies of one answer are bounded. A read that is not silent records on
the row that its body was handed out, and tells its sender.

* `Still`: a read changes nothing that a later statement of it selects or orders by;
* `readValid_ok`: the bodies are charged in the order message, its replies, next message, and each is
  carried if the charges up to it fit;
* `readMessages_priority`: what an answer carries, provided that the replies leave room for the
  messages that were named;
* `reply_before_named`: without that, a reply's body is carried and a named message's is not.
-/

namespace Astrald.Messaging

open Fallible List

/-! ## Requests -/

def Box.text : Box → String
  | .inbox => "inbox"
  | .outbox => "outbox"

def Box.ofText (text : String) : Option Box :=
  if text = "inbox" then some .inbox else if text = "outbox" then some .outbox else none

theorem Box.text_of_ofText {text : String} {box : Box} (h : Box.ofText text = some box) :
    box.text = text := by
  unfold Box.ofText at h
  split_ifs at h with hin hout <;> cases h
  · exact hin.symm
  · exact hout.symm

structure MessageRef (ID : Type) where
  box : String
  id : ID
  deriving DecidableEq, Repr

/-- How much of the replies an answer carries. -/
inductive Children
  | none
  | envelopes
  | full
  deriving DecidableEq, Repr

/-- The mode that a request names; it defaults to the envelopes. -/
def Children.ofText (text : String) : Option Children :=
  if text = "" ∨ text = "envelopes" then some .envelopes
  else if text = "none" then some .none
  else if text = "full" then some .full
  else Option.none

structure ReadRequest (ID : Type) where
  refs : List (MessageRef ID)
  children : String
  maxChildren : ℤ
  silent : Bool

/-- A request once `validate` has passed it. -/
structure ValidRequest (ID : Type) where
  refs : List (MessageRef ID)
  children : Children
  maxChildren : ℕ
  silent : Bool

inductive ReadErr
  | nothingNamed
  | tooMany (limit : ℕ)
  | noSuchBox (box : String)
  | noSuchMode (mode : String)
  | database (text : String)
  deriving DecidableEq, Repr

def ReadErr.text : ReadErr → String
  | .nothingNamed => "name at least one message to read"
  | .tooMany limit => s!"name at most {limit} messages in one read"
  | .noSuchBox box => s!"box is inbox or outbox, not {box}"
  | .noSuchMode mode => s!"children is none, envelopes or full, not {mode}"
  | .database text => text

/-- `messaging.MaxReadRefs`, `messaging.MaxChildren` and `Config.MaxReadBytes`. -/
structure ReadLimits where
  maxReadRefs : ℕ
  maxChildren : ℕ
  maxReadBytes : ℤ

section

variable {α : Type} [DecidableEq α]

/-- The loop of `distinctRefs`. -/
def keepFirst (seen : List α) : List α → List α
  | [] => []
  | a :: as => if a ∈ seen then keepFirst seen as else a :: keepFirst (a :: seen) as

theorem mem_keepFirst {seen l : List α} {a : α} : a ∈ keepFirst seen l ↔ a ∈ l ∧ a ∉ seen := by
  induction l generalizing seen with
  | nil => simp [keepFirst]
  | cons b l ih =>
    unfold keepFirst
    split
    · rename_i hb
      rw [ih, mem_cons]
      constructor
      · rintro ⟨hmem, hseen⟩
        exact ⟨.inr hmem, hseen⟩
      · rintro ⟨rfl | hmem, hseen⟩
        · exact absurd hb hseen
        · exact ⟨hmem, hseen⟩
    · rename_i hb
      rw [mem_cons, ih, mem_cons, mem_cons, not_or]
      constructor
      · rintro (rfl | ⟨hmem, -, hseen⟩)
        · exact ⟨.inl rfl, hb⟩
        · exact ⟨.inr hmem, hseen⟩
      · rintro ⟨rfl | hmem, hseen⟩
        · exact .inl rfl
        · by_cases hab : a = b
          · exact .inl hab
          · exact .inr ⟨hmem, hab, hseen⟩

theorem nodup_keepFirst (seen l : List α) : (keepFirst seen l).Nodup := by
  induction l generalizing seen with
  | nil => exact nodup_nil
  | cons b l ih =>
    unfold keepFirst
    split
    · exact ih seen
    · refine nodup_cons.mpr ⟨fun hmem => ?_, ih (b :: seen)⟩
      exact (mem_keepFirst.mp hmem).2 mem_cons_self

end

variable {Who ID : Type} [DecidableEq Who] [DecidableEq ID]

def distinctRefs (refs : List (MessageRef ID)) : List (MessageRef ID) := keepFirst [] refs

def ReadRequest.childLimit (limits : ReadLimits) (req : ReadRequest ID) : ℕ :=
  if req.maxChildren ≤ 0 then limits.maxChildren else min req.maxChildren.toNat limits.maxChildren

/-- `validate`, which also fills in what the caller left out. -/
def ReadRequest.validate (limits : ReadLimits) (req : ReadRequest ID) : Except ReadErr (ValidRequest ID) :=
  let refs := distinctRefs req.refs
  if refs.length = 0 then .error .nothingNamed
  else if refs.length > limits.maxReadRefs then .error (.tooMany limits.maxReadRefs)
  else
    match refs.find? fun ref => (Box.ofText ref.box).isNone with
    | some ref => .error (.noSuchBox ref.box)
    | none =>
      match Children.ofText req.children with
      | none => .error (.noSuchMode req.children)
      | some children =>
        .ok { refs, children, maxChildren := req.childLimit limits, silent := req.silent }

theorem ReadRequest.validate_ok {limits : ReadLimits} {req : ReadRequest ID} {v : ValidRequest ID}
    (h : req.validate limits = .ok v) : v.refs = distinctRefs req.refs ∧ v.silent = req.silent := by
  unfold ReadRequest.validate at h
  simp only at h
  split_ifs at h
  split at h
  · cases h
  · split at h
    · cases h
    · cases h
      exact ⟨rfl, rfl⟩

/-! ## What a read selects -/

def Row.size (r : Row Who ID) : ℕ := r.content.utf8ByteSize

def Row.ref (r : Row Who ID) : MessageRef ID := ⟨r.box.text, r.id⟩

namespace Store

/-- The predicate of `childrenOf`: not archived, and of the two rows of a message that a participant
sent itself the inbox row only. -/
def isChild (s : Store Who ID) (owner : Who) (parent : ID) (r : Row Who ID) : Bool :=
  r.owner = owner && r.parentID = parent && (r.stamps .archived).isNone &&
    !(r.box = .outbox && s.rows.any fun self => self.key = (r.owner, .inbox, r.id))

/-- `childrenOf`, in the order of `created_at`. -/
def childrenOf (s : Store Who ID) (owner : Who) (parent : ID) : List (Row Who ID) :=
  (s.rows.filter (s.isChild owner parent)).insertionSort fun a b => a.createdAt ≤ b.createdAt

def named (s : Store Who ID) (owner : Who) (ref : MessageRef ID) : Option (Row Who ID) :=
  (Box.ofText ref.box).bind fun box => s.find owner box ref.id

theorem named_some {s : Store Who ID} {owner : Who} {ref : MessageRef ID} {r : Row Who ID}
    (h : s.named owner ref = some r) : r ∈ s.rows ∧ r.owner = owner ∧ r.ref = ref := by
  obtain ⟨box, hbox, hfind⟩ := Option.bind_eq_some_iff.mp h
  obtain ⟨hmem, hkey⟩ := find_some hfind
  simp only [Row.key, Prod.mk.injEq] at hkey
  refine ⟨hmem, hkey.1, ?_⟩
  rw [Row.ref, hkey.2.1, hkey.2.2, Box.text_of_ofText hbox]

end Store

/-! ## The read -/

structure ReadMessage (Who ID : Type) where
  row : Row Who ID
  childIDs : List ID
  withoutBody : Bool
  truncated : Bool

/-- The content of the answer, as `readMessagesOf` renders it. -/
def ReadMessage.content (m : ReadMessage Who ID) : Option String :=
  if m.withoutBody then none else some m.row.content

structure ReadResult (Who ID : Type) where
  messages : List (ReadMessage Who ID)
  replies : List (ReadMessage Who ID)
  notFound : List (MessageRef ID)

inductive Statement (Who ID : Type)
  | find (ref : MessageRef ID)
  | markRead (id : ID)
  | stampFetched (sender : Who) (id : ID)
  | markReceiptDue (id : ID)
  | childIDs (parent : ID)
  | children (parent : ID)

/-- What a read takes from the module: the limits, which mailboxes the node hosts, the statements
that the database fails to run, and the time. -/
structure ReadEnv (Who ID : Type) where
  limits : ReadLimits
  hosts : Who → Bool
  faults : Statement Who ID → Option String
  now : ℕ

/-- The store, the receipts that were launched (recipient, sender, id), and what is left of the
answer. -/
structure ReadState (Who ID : Type) where
  store : Store Who ID
  receipts : List (Who × Who × ID)
  left : ℤ

abbrev Read (Who ID α : Type) := Fallible ReadErr (ReadState Who ID) α

section

variable (env : ReadEnv Who ID)

/-- A statement that only selects. -/
def select {α : Type} (stmt : Statement Who ID) (f : Store Who ID → α) : Read Who ID α :=
  of fun s =>
    match env.faults stmt with
    | some text => (.error (.database text), s)
    | none => (.ok (f s.store), s)

/-- `FindMany`: the rows found and the refs not found. -/
def findMany (owner : Who) : List (MessageRef ID) → Read Who ID (List (Row Who ID) × List (MessageRef ID))
  | [] => pure ([], [])
  | ref :: refs => do
    let row ← select env (.find ref) (·.named owner ref)
    let (list, missing) ← findMany owner refs
    match row with
    | none => pure (list, ref :: missing)
    | some row => pure (row :: list, missing)

/-- `MarkRead`: the row as it is in memory afterwards. -/
def markRead (owner : Who) (row : Row Who ID) : Read Who ID (Row Who ID) :=
  of fun s =>
    if row.box ≠ .inbox ∨ row.stamps .read ≠ none then (.ok row, s)
    else
      match env.faults (.markRead row.id) with
      | some text => (.error (.database text), s)
      | none =>
        (.ok { row with stamps := Function.update row.stamps .read (some env.now) },
          { s with store := s.store.markRead owner row.id env.now })

/-- `noteFetched`, whose failures are logged only. The receipt to a remote sender is launched by the
read that first owes it. -/
def noteFetched (m : Row Who ID) (s : ReadState Who ID) : ReadState Who ID :=
  if m.box ≠ .inbox then s
  else if env.hosts m.sender then
    match env.faults (.stampFetched m.sender m.id) with
    | some _ => s
    | none => { s with store := s.store.stampFetched m.sender m.id env.now }
  else
    match env.faults (.markReceiptDue m.id) with
    | some _ => s
    | none =>
      if (s.store.find m.recipient .inbox m.id).any fun row => row.stamps .receiptDue = none then
        { s with
          store := s.store.markReceiptDue m.recipient m.id env.now
          receipts := s.receipts ++ [(m.recipient, m.sender, m.id)] }
      else s

def handOut (owner : Who) (silent : Bool) (row : Row Who ID) : Read Who ID (Row Who ID) :=
  if silent then pure row
  else do
    let row ← markRead env owner row
    of fun s => (.ok row, noteFetched env row s)

def spend (n : ℕ) : Read Who ID Bool :=
  of fun s => (.ok (Budget.spend s.left n).2, { s with left := (Budget.spend s.left n).1 })

def readReply (owner : Who) (req : ValidRequest ID) (row : Row Who ID) : Read Who ID (ReadMessage Who ID) :=
  if req.children = .envelopes then
    pure { row, childIDs := [], withoutBody := true, truncated := false }
  else do
    let row ← handOut env owner req.silent row
    let fits ← spend row.size
    pure { row, childIDs := [], withoutBody := !fits, truncated := !fits }

def readReplies (owner : Who) (parent : ID) (req : ValidRequest ID) :
    Read Who ID (List (ReadMessage Who ID)) := do
  let rows ← select env (.children parent) fun s => (s.childrenOf owner parent).take req.maxChildren
  rows.mapM (readReply env owner req)

def repliesTo (owner : Who) (parent : ID) (req : ValidRequest ID) : Read Who ID (List (ReadMessage Who ID)) :=
  if req.children = .none then pure [] else readReplies env owner parent req

/-- One message that was named, with the replies that the answer carries of it. -/
def readNamed (owner : Who) (req : ValidRequest ID) (row : Row Who ID) :
    Read Who ID (ReadMessage Who ID × List (ReadMessage Who ID)) := do
  let fits ← spend row.size
  let childIDs ← select env (.childIDs row.id) fun s => (s.childrenOf owner row.id).map Row.id
  let replies ← repliesTo env owner row.id req
  pure ({ row, childIDs, withoutBody := !fits, truncated := !fits }, replies)

/-- `readMessages`, once the request is validated. -/
def readValid (owner : Who) (req : ValidRequest ID) : Read Who ID (ReadResult Who ID) := do
  let (rows, missing) ← findMany env owner req.refs
  let rows ← rows.mapM (handOut env owner req.silent)
  of fun s => (.ok (), { s with left := env.limits.maxReadBytes })
  let pairs ← rows.mapM (readNamed env owner req)
  pure { messages := pairs.map Prod.fst, replies := pairs.flatMap Prod.snd, notFound := missing }

def readMessages (owner : Who) (req : ReadRequest ID) : Read Who ID (ReadResult Who ID) :=
  match req.validate env.limits with
  | .error e => of fun s => (.error e, s)
  | .ok v => readValid env owner v

end

/-! ## What a read leaves alone -/

/-- A row without the stamps that a read writes. -/
def Row.face (r : Row Who ID) : Row Who ID :=
  { r with stamps := fun c => if c = .archived then r.stamps c else none }

omit [DecidableEq Who] [DecidableEq ID] in
theorem Row.body_of_face {r q : Row Who ID} (h : r.face = q.face) : r.body = q.body := by
  have hbody : r.face.body = q.face.body := congrArg Row.body h
  exact hbody

def Store.faces (s : Store Who ID) : List (Row Who ID) := s.rows.map Row.face

namespace Store

theorem face_mark {column : Stamp} (hne : column ≠ .archived) (owner : Who) (box : Box) (id : ID) (now : ℕ)
    (r : Row Who ID) : (mark column owner box id now r).face = r.face := by
  unfold mark
  split
  · unfold Row.face
    congr 1
    funext c
    split
    · rename_i hc
      rw [hc]
      exact Function.update_of_ne hne.symm _ _
    · rfl
  · rfl

theorem faces_stamp {column : Stamp} (hne : column ≠ .archived) (s : Store Who ID) (owner : Who) (box : Box)
    (id : ID) (now : ℕ) : (s.stamp column owner box id now).faces = s.faces :=
  map_map_of_keeps (face_mark hne owner box id now) s.rows

variable {s s' : Store Who ID}

theorem isChild_of_faces (h : s'.faces = s.faces) (owner : Who) (parent : ID) :
    s'.isChild owner parent = s.isChild owner parent := by
  have hany : ∀ (t : Store Who ID) (k : Who × Box × ID),
      (t.rows.any fun self => self.key = k) = t.faces.any fun self => self.key = k := by
    intro t k
    rw [faces, any_map]
    rfl
  funext r
  unfold isChild
  rw [hany s', hany s, h]

/-- The replies are selected and ordered by what a read leaves alone. -/
theorem childrenOf_of_faces (h : s'.faces = s.faces) (owner : Who) (parent : ID) :
    (s'.childrenOf owner parent).map Row.face = (s.childrenOf owner parent).map Row.face := by
  have hsort : ∀ t : Store Who ID, (t.childrenOf owner parent).map Row.face =
      (t.faces.filter (t.isChild owner parent)).insertionSort fun a b => a.createdAt ≤ b.createdAt := by
    intro t
    have hmap := map_insertionSort (fun a b : Row Who ID => a.createdAt ≤ b.createdAt)
      (fun a b : Row Who ID => a.createdAt ≤ b.createdAt) Row.face (t.rows.filter (t.isChild owner parent))
      fun a _ b _ => Iff.rfl
    rw [childrenOf, hmap, faces, filter_map]
    rfl
  rw [hsort s', hsort s, h, isChild_of_faces h]

end Store

/-- The statements of a read change no face, and only `spend` what is left. -/
def Still (s s' : ReadState Who ID) : Prop := s'.store.faces = s.store.faces ∧ s'.left = s.left

section

omit [DecidableEq Who] [DecidableEq ID]

theorem Still.refl (s : ReadState Who ID) : Still s s := ⟨rfl, rfl⟩

theorem Still.trans (a b c : ReadState Who ID) (hab : Still a b) (hbc : Still b c) : Still a c :=
  ⟨hbc.1.trans hab.1, hbc.2.trans hab.2⟩

end

section

variable (env : ReadEnv Who ID)

theorem still_noteFetched (m : Row Who ID) (s : ReadState Who ID) : Still s (noteFetched env m s) := by
  unfold noteFetched
  split
  · exact Still.refl s
  · split
    · split
      · exact Still.refl s
      · exact ⟨Store.faces_stamp (by decide) _ _ _ _ _, rfl⟩
    · split
      · exact Still.refl s
      · split
        · exact ⟨Store.faces_stamp (by decide) _ _ _ _ _, rfl⟩
        · exact Still.refl s

theorem markRead_cases (owner : Who) (row : Row Who ID) (s : ReadState Who ID) :
    Still s ((markRead env owner row).exec s).2 ∧
      ∀ row', ((markRead env owner row).exec s).1 = .ok row' → row'.face = row.face := by
  rw [markRead, exec_of]
  split
  · refine ⟨Still.refl s, fun row' h => ?_⟩
    cases h
    rfl
  · split
    · exact ⟨Still.refl s, fun row' h => by cases h⟩
    · refine ⟨⟨Store.faces_stamp (by decide) _ _ _ _ _, rfl⟩, fun row' h => ?_⟩
      cases h
      unfold Row.face
      congr 1
      funext c
      split
      · rename_i hc
        subst hc
        rfl
      · rfl

theorem handOut_cases (owner : Who) (silent : Bool) (row : Row Who ID) (s : ReadState Who ID) :
    Still s ((handOut env owner silent row).exec s).2 ∧
      ∀ row', ((handOut env owner silent row).exec s).1 = .ok row' → row'.face = row.face := by
  unfold handOut
  split
  · refine ⟨Still.refl s, fun row' h => ?_⟩
    cases h
    rfl
  · obtain ⟨hstill, hface⟩ := markRead_cases env owner row s
    rw [exec_bind]
    rcases hmark : (markRead env owner row).exec s with ⟨e | row₁, s₁⟩
    · rw [hmark] at hstill
      exact ⟨hstill, fun row' h => by cases h⟩
    · rw [hmark] at hstill hface
      refine ⟨Still.trans _ _ _ hstill (still_noteFetched env row₁ s₁), fun row' h => ?_⟩
      cases h
      exact hface row₁ rfl

/-- What is left may fall. -/
def SameFaces (s s' : ReadState Who ID) : Prop := s'.store.faces = s.store.faces

variable {s s' : ReadState Who ID} {rows rows' : List (Row Who ID)} {row : Row Who ID} {t : Store Who ID}
  {ms : List (ReadMessage Who ID)} {p : ReadMessage Who ID × List (ReadMessage Who ID)}
  {pairs : List (ReadMessage Who ID × List (ReadMessage Who ID))}

theorem handOut_ok {owner : Who} {silent : Bool} {row' : Row Who ID}
    (h : (handOut env owner silent row).exec s = (.ok row', s')) : row'.face = row.face ∧ Still s s' := by
  obtain ⟨hstill, hface⟩ := handOut_cases env owner silent row s
  rw [h] at hstill hface
  exact ⟨hface row' rfl, hstill⟩

omit [DecidableEq Who] [DecidableEq ID] in
theorem select_ok {α : Type} {stmt : Statement Who ID} {f : Store Who ID → α} {a : α}
    (h : (select env stmt f).exec s = (.ok a, s')) : a = f s.store ∧ s' = s := by
  rw [select, exec_of] at h
  split at h
  · cases h
  · cases h
    exact ⟨rfl, rfl⟩

theorem findMany_ok {owner : Who} {refs : List (MessageRef ID)} {out : List (Row Who ID) × List (MessageRef ID)}
    (h : (findMany env owner refs).exec s = (.ok out, s')) :
    out.1 = refs.filterMap (s.store.named owner) ∧ s' = s := by
  induction refs generalizing out s' with
  | nil =>
    cases h
    exact ⟨rfl, rfl⟩
  | cons ref refs ih =>
    obtain ⟨row, s₁, hrow, h⟩ := ok_bind h
    obtain ⟨rfl, rfl⟩ := select_ok env hrow
    obtain ⟨⟨list, missing⟩, s₂, hrest, h⟩ := ok_bind h
    obtain ⟨hlist, rfl⟩ := ih hrest
    rw [filterMap_cons]
    cases hnamed : s₂.store.named owner ref with
    | none =>
      rw [hnamed] at h
      cases h
      exact ⟨hlist, rfl⟩
    | some row =>
      rw [hnamed] at h
      cases h
      exact ⟨by rw [← hlist], rfl⟩

/-! ## Charges -/

/-- A message with whether its body is carried. -/
def ReadMessage.charge (m : ReadMessage Who ID) : Row Who ID × Bool := (m.row.face, !m.withoutBody)

/-- The rows whose bodies are charged for one message that was named. -/
def chargesOf (s : Store Who ID) (owner : Who) (req : ValidRequest ID) (row : Row Who ID) :
    List (Row Who ID) :=
  row :: if req.children = .full then (s.childrenOf owner row.id).take req.maxChildren else []

/-- The rows whose bodies a read charges, in order. -/
def charges (s : Store Who ID) (owner : Who) (req : ValidRequest ID) : List (Row Who ID) :=
  (req.refs.filterMap (s.named owner)).flatMap (chargesOf s owner req)

/-- The messages of the answer whose bodies are charged, in order. -/
def charged (req : ValidRequest ID) (pairs : List (ReadMessage Who ID × List (ReadMessage Who ID))) :
    List (ReadMessage Who ID) :=
  pairs.flatMap fun p => p.1 :: if req.children = .full then p.2 else []

variable {env} {owner : Who} {req : ValidRequest ID}

/-- Where the mode is `full`, a reply is charged as a message is. -/
theorem replies_charged (hfull : req.children = .full)
    (h : Runs (readReply env owner req) s rows ms s') :
    ms.map ReadMessage.charge = Budget.fits Row.size s.left (rows.map Row.face) ∧
      (∀ m ∈ ms, m.truncated = m.withoutBody) ∧ s'.left = Budget.after Row.size s.left (rows.map Row.face) ∧
      SameFaces s s' := by
  induction h with
  | nil s => exact ⟨rfl, fun m hm => (not_mem_nil hm).elim, by simp [Budget.after, Budget.total], rfl⟩
  | @cons s s₁ s₂ row rows m ms hhead _ ih =>
    obtain ⟨hms, hbound, hleft, hsame⟩ := ih
    rw [readReply, if_neg (by rw [hfull]; decide)] at hhead
    obtain ⟨row', s₃, hout, hhead⟩ := ok_bind hhead
    obtain ⟨hface, hstill⟩ := handOut_ok env hout
    cases hhead
    have hsize : row'.face.size = row.face.size := congrArg Row.size hface
    have hspend : Budget.spend s₃.left row'.size = Budget.spend s.left row.face.size := by
      rw [hstill.2, ← hsize]
      rfl
    rw [hspend] at hms hleft
    refine ⟨?_, ?_, ?_, hsame.trans hstill.1⟩
    · rw [map_cons, map_cons, Budget.fits, hms, ReadMessage.charge, hface, hspend, Bool.not_not]
    · intro m hm
      rcases mem_cons.mp hm with rfl | hm
      · rfl
      · exact hbound m hm
    · rw [map_cons, Budget.after_cons]
      exact hleft

/-- In the other modes that read replies, a reply is an envelope and costs nothing. -/
theorem replies_envelopes (hmode : req.children = .envelopes)
    (h : Runs (readReply env owner req) s rows ms s') :
    (∀ m ∈ ms, m.withoutBody = true ∧ m.truncated = false) ∧ s' = s := by
  induction h with
  | nil s => exact ⟨fun m hm => (not_mem_nil hm).elim, rfl⟩
  | cons hhead _ ih =>
    obtain ⟨hms, rfl⟩ := ih
    rw [readReply, if_pos hmode] at hhead
    cases hhead
    refine ⟨fun m hm => ?_, rfl⟩
    rcases mem_cons.mp hm with rfl | hm
    · exact ⟨rfl, rfl⟩
    · exact hms m hm

/-- One named message, read: the message, and its replies by mode. -/
theorem readNamed_ok (h : (readNamed env owner req row).exec s = (.ok p, s')) :
    let spent := { s with left := (Budget.spend s.left row.size).1 }
    let fits := (Budget.spend s.left row.size).2
    ∃ childIDs replies, p = ({ row, childIDs, withoutBody := !fits, truncated := !fits }, replies) ∧
      (req.children = .full ∧ Runs (readReply env owner req) spent
          ((s.store.childrenOf owner row.id).take req.maxChildren) replies s' ∨
        req.children ≠ .full ∧ s' = spent ∧
          ∀ m ∈ replies, m.withoutBody = true ∧ m.truncated = false ∧ req.children = .envelopes) := by
  obtain ⟨fits, s₁, hspend, h⟩ := ok_bind h
  cases hspend
  obtain ⟨childIDs, s₂, hids, h⟩ := ok_bind h
  obtain ⟨-, rfl⟩ := select_ok env hids
  obtain ⟨replies, s₃, hreplies, h⟩ := ok_bind h
  cases h
  refine ⟨childIDs, replies, rfl, ?_⟩
  unfold repliesTo at hreplies
  cases hmode : req.children with
  | none =>
    rw [if_pos hmode] at hreplies
    cases hreplies
    exact .inr ⟨by decide, rfl, fun m hm => (not_mem_nil hm).elim⟩
  | envelopes =>
    rw [if_neg (by rw [hmode]; decide)] at hreplies
    obtain ⟨rows, s₄, hrows, hreplies⟩ := ok_bind hreplies
    obtain ⟨rfl, rfl⟩ := select_ok env hrows
    obtain ⟨hms, rfl⟩ := replies_envelopes hmode (ok_mapM hreplies)
    exact .inr ⟨by decide, rfl, fun m hm => ⟨(hms m hm).1, (hms m hm).2, rfl⟩⟩
  | full =>
    rw [if_neg (by rw [hmode]; decide)] at hreplies
    obtain ⟨rows, s₄, hrows, hreplies⟩ := ok_bind hreplies
    obtain ⟨rfl, rfl⟩ := select_ok env hrows
    exact .inl ⟨rfl, ok_mapM hreplies⟩

/-- What reading one named message answers, with `left` left before it and with the replies that
the store `t` holds. -/
structure Serves (t : Store Who ID) (owner : Who) (req : ValidRequest ID) (left : ℤ) (row : Row Who ID)
    (p : ReadMessage Who ID × List (ReadMessage Who ID)) : Prop where
  named : p.1.row.face = row.face
  bound : p.1.truncated = p.1.withoutBody
  charged : (charged req [p]).map ReadMessage.charge =
    Budget.fits Row.size left ((chargesOf t owner req row).map Row.face)
  full : req.children = .full → ∀ m ∈ p.2, m.truncated = m.withoutBody
  envelope : req.children ≠ .full → ∀ m ∈ p.2,
    m.withoutBody = true ∧ m.truncated = false ∧ req.children = .envelopes

theorem serves_readNamed (hfaces : s.store.faces = t.faces)
    (h : (readNamed env owner req row).exec s = (.ok p, s')) :
    Serves t owner req s.left row p ∧ s'.store.faces = t.faces ∧
      s'.left = Budget.after Row.size s.left ((chargesOf t owner req row).map Row.face) := by
  obtain ⟨childIDs, replies, rfl, ⟨hfull, hruns⟩ | ⟨hmode, rfl, hms⟩⟩ := readNamed_ok h
  · obtain ⟨hms, hbound, hleft, hsame⟩ := replies_charged hfull hruns
    have hchildren : ((s.store.childrenOf owner row.id).take req.maxChildren).map Row.face =
        ((t.childrenOf owner row.id).take req.maxChildren).map Row.face := by
      rw [map_take, map_take, Store.childrenOf_of_faces hfaces]
    rw [hchildren] at hms hleft
    refine ⟨⟨rfl, rfl, ?_, fun _ => hbound, fun h => absurd hfull h⟩, hsame.trans hfaces, ?_⟩
    · simp only [charged, chargesOf, hfull, if_true, flatMap_cons, flatMap_nil, append_nil,
        map_cons, hms, Budget.fits]
      simp [ReadMessage.charge, Row.size, Row.face]
    · simp only [chargesOf, hfull, if_true, map_cons, Budget.after_cons]
      exact hleft
  · refine ⟨⟨rfl, rfl, ?_, fun hfull => absurd hfull hmode, fun _ => hms⟩, hfaces, ?_⟩
    · simp [charged, chargesOf, hmode, ReadMessage.charge, Budget.fits, Row.size, Row.face]
    · simp [chargesOf, hmode, Budget.after, Budget.total, Budget.spend, Row.size, Row.face]

inductive ServesAll (t : Store Who ID) (owner : Who) (req : ValidRequest ID) :
    ℤ → List (Row Who ID) → List (ReadMessage Who ID × List (ReadMessage Who ID)) → Prop
  | nil (left : ℤ) : ServesAll t owner req left [] []
  | cons {left : ℤ} {row : Row Who ID} {rows : List (Row Who ID)}
      {p : ReadMessage Who ID × List (ReadMessage Who ID)}
      {pairs : List (ReadMessage Who ID × List (ReadMessage Who ID))} (hhead : Serves t owner req left row p)
      (htail : ServesAll t owner req
        (Budget.after Row.size left ((chargesOf t owner req row).map Row.face)) rows pairs) :
      ServesAll t owner req left (row :: rows) (p :: pairs)

omit [DecidableEq Who] [DecidableEq ID] in
theorem face_eq_cases (h : (row :: rows).map Row.face = rows'.map Row.face) :
    ∃ q qs, rows' = q :: qs ∧ row.face = q.face ∧ rows.map Row.face = qs.map Row.face := by
  cases rows' with
  | nil => cases h
  | cons q qs =>
    obtain ⟨hhead, htail⟩ := List.cons.inj h
    exact ⟨q, qs, rfl, hhead, htail⟩

/-- The answer is about the rows as they were before the read stamped them. -/
theorem ServesAll.of_faces {left : ℤ} (h : ServesAll t owner req left rows pairs)
    (hfaces : rows.map Row.face = rows'.map Row.face) : ServesAll t owner req left rows' pairs := by
  induction h generalizing rows' with
  | nil left =>
    obtain rfl : rows' = [] := map_eq_nil_iff.mp hfaces.symm
    exact ServesAll.nil left
  | @cons left row rows p pairs hhead _ ih =>
    obtain ⟨q, qs, rfl, hq, hqs⟩ := face_eq_cases hfaces
    have hid : row.id = q.id := by
      have hbody := Row.body_of_face hq
      simp only [Row.body, Prod.mk.injEq] at hbody
      exact hbody.2.1
    have hcharges : (chargesOf t owner req row).map Row.face = (chargesOf t owner req q).map Row.face := by
      rw [chargesOf, chargesOf, map_cons, map_cons, hq, hid]
    refine ServesAll.cons { hhead with named := hhead.named.trans hq, charged := ?_ } ?_
    · rw [← hcharges]
      exact hhead.charged
    · rw [← hcharges]
      exact ih hqs

theorem servesAll_runs (h : Runs (readNamed env owner req) s rows pairs s')
    (hfaces : s.store.faces = t.faces) : ServesAll t owner req s.left rows pairs := by
  induction h with
  | nil s => exact ServesAll.nil s.left
  | cons hhead _ ih =>
    obtain ⟨hserves, hfaces', hleft⟩ := serves_readNamed hfaces hhead
    refine ServesAll.cons hserves ?_
    rw [← hleft]
    exact ih hfaces'

/-- What `handOut` gives back are the same rows. -/
theorem faces_handOuts {silent : Bool} (h : Runs (handOut env owner silent) s rows rows' s') :
    rows'.map Row.face = rows.map Row.face ∧ s'.store.faces = s.store.faces := by
  induction h with
  | nil s => exact ⟨rfl, rfl⟩
  | cons hhead _ ih =>
    obtain ⟨hface, hstill⟩ := handOut_ok env hhead
    exact ⟨by rw [map_cons, map_cons, hface, ih.1], ih.2.trans hstill.1⟩

/-- An answer, message by message. -/
theorem readValid_ok {res : ReadResult Who ID} (h : (readValid env owner req).exec s = (.ok res, s')) :
    ∃ pairs, res.messages = pairs.map Prod.fst ∧ res.replies = pairs.flatMap Prod.snd ∧
      ServesAll s.store owner req env.limits.maxReadBytes
        (req.refs.filterMap (s.store.named owner)) pairs := by
  obtain ⟨⟨found, missing⟩, s₁, hfind, hrest⟩ := ok_bind h
  obtain ⟨hfound, rfl⟩ := findMany_ok env hfind
  obtain ⟨rows, s₂, hrows, hrest⟩ := ok_bind hrest
  obtain ⟨hface, hsame⟩ := faces_handOuts (ok_mapM hrows)
  obtain ⟨_, s₃, hset, hrest⟩ := ok_bind hrest
  cases hset
  obtain ⟨pairs, s₄, hpairs, hrest⟩ := ok_bind hrest
  cases hrest
  refine ⟨pairs, rfl, rfl, (servesAll_runs (ok_mapM hpairs) hsame).of_faces ?_⟩
  rw [hface, ← hfound]

/-! ## What an answer carries -/

section

variable {t : Store Who ID} {left : ℤ} {rows : List (Row Who ID)}
  {pairs : List (ReadMessage Who ID × List (ReadMessage Who ID))}

section

variable (h : ServesAll t owner req left rows pairs)
include h

theorem ServesAll.refs : (pairs.map Prod.fst).map (fun m => m.row.ref) = rows.map Row.ref := by
  induction h with
  | nil => rfl
  | cons hhead _ ih =>
    have href := congrArg Row.ref hhead.named
    rw [map_cons, map_cons, ih, map_cons]
    exact congrArg (· :: _) href

theorem ServesAll.bound : ∀ p ∈ pairs, p.1.truncated = p.1.withoutBody ∧
      (req.children = .full → ∀ m ∈ p.2, m.truncated = m.withoutBody) ∧
      (req.children ≠ .full → ∀ m ∈ p.2,
        m.withoutBody = true ∧ m.truncated = false ∧ req.children = .envelopes) := by
  induction h with
  | nil => exact fun p hp => (not_mem_nil hp).elim
  | cons hhead _ ih =>
    intro p hp
    rcases mem_cons.mp hp with rfl | hp
    · exact ⟨hhead.bound, hhead.full, hhead.envelope⟩
    · exact ih p hp

theorem ServesAll.charged : (charged req pairs).map ReadMessage.charge =
      Budget.fits Row.size left ((rows.flatMap (chargesOf t owner req)).map Row.face) := by
  induction h with
  | nil => rfl
  | cons hhead _ ih =>
    have hsingle := hhead.charged
    rw [Messaging.charged, flatMap_cons, map_append, flatMap_cons, map_append, Budget.fits_append]
    rw [Messaging.charged, flatMap_cons, flatMap_nil, append_nil] at hsingle
    rw [hsingle]
    exact congrArg _ ih

end

omit [DecidableEq Who] [DecidableEq ID] in
theorem none_carried {ms : List (ReadMessage Who ID)} (h : Budget.kept (ms.map ReadMessage.charge) = []) :
    ∀ m ∈ ms, m.withoutBody = true := by
  intro m hm
  by_contra hbody
  have hkept : m.row.face ∈ Budget.kept (ms.map ReadMessage.charge) := by
    refine mem_map.mpr ⟨m.charge, mem_filter.mpr ⟨mem_map_of_mem hm, ?_⟩, rfl⟩
    simpa [ReadMessage.charge] using hbody
  rw [h] at hkept
  exact not_mem_nil hkept

/-- Once nothing is left, no body is carried. -/
theorem ServesAll.spent (h : ServesAll t owner req left rows pairs) (hleft : left < 0) :
    ∀ p ∈ pairs, p.1.withoutBody = true ∧ ∀ m ∈ p.2, m.withoutBody = true := by
  have hnone : ∀ m ∈ Messaging.charged req pairs, m.withoutBody = true := by
    refine none_carried ?_
    rw [h.charged, Budget.kept_of_spent Row.size hleft]
  intro p hp
  refine ⟨hnone _ (mem_flatMap.mpr ⟨p, hp, mem_cons_self⟩), fun m hm => ?_⟩
  by_cases hfull : req.children = .full
  · refine hnone m (mem_flatMap.mpr ⟨p, hp, mem_cons_of_mem _ ?_⟩)
    rw [if_pos hfull]
    exact hm
  · exact ((h.bound p hp).2.2 hfull m hm).1

end

/-- The charges up to the last message that was named. -/
def throughNamed (t : Store Who ID) (owner : Who) (req : ValidRequest ID) :
    List (Row Who ID) → List (Row Who ID)
  | [] => []
  | [row] => [row]
  | row :: rows => chargesOf t owner req row ++ throughNamed t owner req rows

/-- The charges up to the first reply, if there is a reply. -/
def throughReply (t : Store Who ID) (owner : Who) (req : ValidRequest ID) :
    List (Row Who ID) → Option (List (Row Who ID))
  | [] => none
  | row :: rows =>
    match (chargesOf t owner req row).tail with
    | [] => (throughReply t owner req rows).map (row :: ·)
    | reply :: _ => some [row, reply]

/-- The messages that were named fit in the bound with the replies that are charged before them, or
not even the first reply does. -/
def RoomForNamed (env : ReadEnv Who ID) (t : Store Who ID) (owner : Who) (req : ValidRequest ID) : Prop :=
  let rows := req.refs.filterMap (t.named owner)
  (Budget.total Row.size (throughNamed t owner req rows) : ℤ) ≤ env.limits.maxReadBytes ∨
    ∀ l, throughReply t owner req rows = some l → env.limits.maxReadBytes < Budget.total Row.size l

theorem Serves.carried {left : ℤ} (h : Serves t owner req left row p) :
    p.1.withoutBody = !decide (0 ≤ left - row.size) := by
  have hcharged := h.charged
  have hflag : (!p.1.withoutBody) = decide (0 ≤ left - row.face.size) :=
    congrArg Prod.snd (List.cons.inj hcharged).1
  rw [← Bool.not_not p.1.withoutBody, hflag]
  rfl

section

variable {t : Store Who ID} {left : ℤ} {rows : List (Row Who ID)}
  {pairs : List (ReadMessage Who ID × List (ReadMessage Who ID))}

omit [DecidableEq Who] [DecidableEq ID] in
theorem total_faces (l : List (Row Who ID)) :
    Budget.total Row.size (l.map Row.face) = Budget.total Row.size l := by
  rw [Budget.total, map_map]
  rfl

/-- The messages that were named are all carried where the charges up to the last one fit. -/
theorem ServesAll.named_iff (h : ServesAll t owner req left rows pairs) : (∀ p ∈ pairs, p.1.withoutBody = false) ↔
    rows = [] ∨ (Budget.total Row.size (throughNamed t owner req rows) : ℤ) ≤ left := by
  induction h with
  | nil => simp
  | @cons left row rows p pairs hhead htail ih =>
    rw [forall_mem_cons, hhead.carried, Bool.not_eq_false', decide_eq_true_iff, ih, or_iff_right (cons_ne_nil _ _)]
    cases htail with
    | nil => simp [throughNamed, Budget.total_cons, Budget.total_nil]
    | @cons _ row' rows' _ _ _ _ =>
      have hsplit : throughNamed t owner req (row :: row' :: rows') =
          chargesOf t owner req row ++ throughNamed t owner req (row' :: rows') := rfl
      have hfirst : row.size ≤ Budget.total Row.size (chargesOf t owner req row) := by
        rw [chargesOf, Budget.total_cons]
        exact Nat.le_add_right _ _
      rw [hsplit, Budget.total_append, Budget.after, total_faces, or_iff_right (cons_ne_nil _ _)]
      omega

/-- No reply is carried where the charges up to the first one do not fit. -/
theorem ServesAll.replies_iff (h : ServesAll t owner req left rows pairs) :
    (∀ p ∈ pairs, ∀ m ∈ p.2, m.withoutBody = true) ↔
      ∀ l, throughReply t owner req rows = some l → left < Budget.total Row.size l := by
  induction h with
  | nil => simp [throughReply]
  | @cons left row rows p pairs hhead htail ih =>
    obtain ⟨replies, hcharges⟩ : ∃ replies, chargesOf t owner req row = row :: replies := ⟨_, rfl⟩
    have hcharged : req.children = .full → p.2.map ReadMessage.charge =
        Budget.fits Row.size (left - row.size) (replies.map Row.face) := by
      intro hfull
      have hcharged := hhead.charged
      rw [Messaging.charged, flatMap_cons, flatMap_nil, append_nil, if_pos hfull, hcharges] at hcharged
      exact (List.cons.inj hcharged).2
    rw [throughReply, hcharges, tail_cons, forall_mem_cons]
    rw [hcharges] at htail ih
    cases replies with
    | nil =>
      have hnone : ∀ m ∈ p.2, m.withoutBody = true := by
        intro m hm
        by_cases hfull : req.children = .full
        · rw [map_eq_nil_iff.mp (hcharged hfull)] at hm
          exact (not_mem_nil hm).elim
        · exact (hhead.envelope hfull m hm).1
      rw [and_iff_right hnone, ih]
      simp only [Budget.after, total_faces, Budget.total_cons, Budget.total_nil, Option.map_eq_some_iff,
        forall_exists_index, and_imp, forall_apply_eq_imp_iff₂]
      exact forall₂_congr fun l _ => by omega
    | cons reply replies =>
      have hfull : req.children = .full := by
        by_contra hmode
        simp [chargesOf, hmode] at hcharges
      obtain ⟨m, ms, hm, hcharge, -⟩ := map_eq_cons_iff.mp (hcharged hfull)
      have hflag : (!m.withoutBody) = decide (0 ≤ left - row.size - reply.size) := congrArg Prod.snd hcharge
      constructor
      · rintro ⟨hdropped, -⟩ l ⟨⟩
        rw [hdropped m (hm ▸ mem_cons_self), Bool.not_true, eq_comm, decide_eq_false_iff_not] at hflag
        simp only [Budget.total_cons, Budget.total_nil]
        omega
      · intro hover
        have hrow := hover [row, reply] rfl
        simp only [Budget.total_cons, Budget.total_nil] at hrow
        refine ⟨none_carried ?_, fun q hq => (htail.spent ?_ q hq).2⟩
        · rw [hcharged hfull, map_cons]
          refine Budget.kept_of_over Row.size ?_ _
          show left - (row.size : ℤ) < reply.size
          omega
        · simp only [Budget.after, total_faces, Budget.total_cons]
          omega

end

/-- The bytes of the bodies that some messages of an answer carry. -/
def carriedBytes (ms : List (ReadMessage Who ID)) : ℕ :=
  ((ms.filterMap ReadMessage.content).map String.utf8ByteSize).sum

section

omit [DecidableEq Who] [DecidableEq ID]

theorem carriedBytes_append (ms ns : List (ReadMessage Who ID)) :
    carriedBytes (ms ++ ns) = carriedBytes ms + carriedBytes ns := by
  simp [carriedBytes, filterMap_append]

theorem carriedBytes_eq (ms : List (ReadMessage Who ID)) :
    carriedBytes ms = Budget.total Row.size (Budget.kept (ms.map ReadMessage.charge)) := by
  induction ms with
  | nil => rfl
  | cons m ms ih =>
    have hone : carriedBytes [m] = Budget.total Row.size (Budget.kept ([m].map ReadMessage.charge)) := by
      cases hbody : m.withoutBody <;>
        simp [carriedBytes, ReadMessage.content, Budget.kept, Budget.total, ReadMessage.charge, hbody,
          Row.size,
          Row.face]
    rw [show m :: ms = [m] ++ ms from rfl, carriedBytes_append, map_append, Budget.kept_append,
      Budget.total_append, hone, ih]

theorem carriedBytes_none (h : ∀ m ∈ ms, m.withoutBody = true) : carriedBytes ms = 0 := by
  have hnone : ms.filterMap ReadMessage.content = [] := by
    refine filterMap_eq_nil_iff.mpr fun m hm => ?_
    rw [ReadMessage.content, if_pos (h m hm)]
  rw [carriedBytes, hnone]
  rfl

end

/-- The answer carries what was charged and fitted. -/
theorem ServesAll.carriedBytes {left : ℤ} (h : ServesAll t owner req left rows pairs) :
    carriedBytes (pairs.map Prod.fst ++ pairs.flatMap Prod.snd) =
      Messaging.carriedBytes (Messaging.charged req pairs) := by
  induction h with
  | nil => rfl
  | @cons left row rows p pairs hhead _ ih =>
    have hreplies : Messaging.carriedBytes (if req.children = .full then p.2 else []) =
        Messaging.carriedBytes p.2 := by
      split
      · rfl
      · rename_i hfull
        rw [carriedBytes_none fun m hm => (hhead.envelope hfull m hm).1]
        rfl
    have hcons : ∀ (m : ReadMessage Who ID) ms,
        Messaging.carriedBytes (m :: ms) = Messaging.carriedBytes [m] + Messaging.carriedBytes ms :=
      fun m ms => carriedBytes_append [m] ms
    rw [carriedBytes_append] at ih
    rw [Messaging.charged] at ih ⊢
    rw [map_cons, flatMap_cons, flatMap_cons, carriedBytes_append, carriedBytes_append,
      carriedBytes_append, hcons p.1 (pairs.map Prod.fst), hcons p.1
        (if req.children = .full then p.2 else []),
      hreplies, ← ih]
    omega

theorem refs_named (t : Store Who ID) (owner : Who) (refs : List (MessageRef ID)) :
    (refs.filterMap (t.named owner)).map Row.ref = refs.filter fun ref => (t.named owner ref).isSome := by
  induction refs with
  | nil => rfl
  | cons ref refs ih =>
    cases hnamed : t.named owner ref with
    | none => rw [filterMap_cons_none hnamed, filter_cons_of_neg (by simp [hnamed]), ih]
    | some row =>
      rw [filterMap_cons_some hnamed, filter_cons_of_pos (by simp [hnamed]), map_cons, ih,
        (Store.named_some hnamed).2.2]

/-- **Read budget.** An answer carries at most `MaxReadBytes`; the messages that were named and
found stand in it in order, each once; a body that is left out for the bound is marked; and a reply is
carried only if they are exactly where the replies leave room for them, or no reply fits. -/
theorem readMessages_priority (env : ReadEnv Who ID) (owner : Who) (request : ReadRequest ID)
    (v : ValidRequest ID)
    (s s' : ReadState Who ID) (res : ReadResult Who ID) (hvalid : request.validate env.limits = .ok v)
    (hread : (readMessages env owner request).exec s = (.ok res, s')) :
    (Messaging.carriedBytes (res.messages ++ res.replies) : ℤ) ≤ max 0 env.limits.maxReadBytes ∧
      res.messages.map (fun m => m.row.ref) =
        (distinctRefs request.refs).filter (fun ref => (s.store.named owner ref).isSome) ∧
      (res.messages.map fun m => m.row.ref).Nodup ∧
      (∀ m ∈ res.messages, m.withoutBody = true → m.truncated = true) ∧
      (∀ m ∈ res.replies, m.withoutBody = true → v.children ≠ .envelopes → m.truncated = true) ∧
      (RoomForNamed env s.store owner v ↔
        ∀ m ∈ res.replies, m.withoutBody = false → ∀ n ∈ res.messages, n.withoutBody = false) := by
  rw [readMessages, hvalid] at hread
  obtain ⟨pairs, hmessages, hreplies, hserves⟩ := readValid_ok hread
  have hrefs : res.messages.map (fun m => m.row.ref) =
      (distinctRefs request.refs).filter fun ref => (s.store.named owner ref).isSome := by
    rw [hmessages, hserves.refs, refs_named, (ReadRequest.validate_ok hvalid).1]
  refine ⟨?_, hrefs, ?_, ?_, ?_, ?_⟩
  · rw [hmessages, hreplies, hserves.carriedBytes, carriedBytes_eq, hserves.charged]
    exact Budget.total_kept_le Row.size _ _
  · rw [hrefs]
    exact (nodup_keepFirst [] request.refs).filter _
  · intro m hm hbody
    rw [hmessages] at hm
    obtain ⟨p, hp, rfl⟩ := mem_map.mp hm
    rw [(hserves.bound p hp).1, hbody]
  · intro m hm hbody hmode
    rw [hreplies] at hm
    obtain ⟨p, hp, hm⟩ := mem_flatMap.mp hm
    obtain ⟨-, hfull, henvelope⟩ := hserves.bound p hp
    by_cases hmodeFull : v.children = .full
    · rw [hfull hmodeFull m hm, hbody]
    · exact absurd (henvelope hmodeFull m hm).2.2 hmode
  · have hroom : RoomForNamed env s.store owner v ↔
        (∀ p ∈ pairs, p.1.withoutBody = false) ∨ ∀ p ∈ pairs, ∀ m ∈ p.2, m.withoutBody = true := by
      rw [hserves.named_iff, hserves.replies_iff, RoomForNamed]
      constructor
      · exact Or.imp_left .inr
      · rintro ((hnil | hnamed) | hreply)
        · exact .inr (by simp [hnil, throughReply])
        · exact .inl hnamed
        · exact .inr hreply
    rw [hroom, hreplies, hmessages]
    constructor
    · rintro (hnamed | hnone) m hm hbody n hn
      · obtain ⟨q, hq, rfl⟩ := mem_map.mp hn
        exact hnamed q hq
      · obtain ⟨p, hp, hm⟩ := mem_flatMap.mp hm
        rw [hnone p hp m hm] at hbody
        cases hbody
    · intro hpriority
      refine or_iff_not_imp_right.mpr fun hsome q hq => ?_
      push Not at hsome
      obtain ⟨p, hp, m, hm, hcarried⟩ := hsome
      exact hpriority m (mem_flatMap.mpr ⟨p, hp, hm⟩) (by simpa using hcarried) q.1 (mem_map_of_mem hq)

end

/-- The inbox of identity 2: messages 5 and 7 from identity 1, and message 6, which answers 5. -/
def threadStore : Store ℕ ℕ :=
  let first := (storeMessage 100 Faults.none Store.empty 1 2 ⟨5, "ask", 0⟩ 10).2
  let second := (storeMessage 100 Faults.none first 1 2 ⟨6, "more", 5⟩ 11).2
  (storeMessage 100 Faults.none second 1 2 ⟨7, "last", 0⟩ 12).2

def threadEnv (maxReadBytes : ℤ) : ReadEnv ℕ ℕ :=
  { limits := ⟨20, 50, maxReadBytes⟩, hosts := fun who => who == 2, faults := fun _ => none, now := 20 }

def threadRequest : ReadRequest ℕ :=
  { refs := [⟨"inbox", 5⟩, ⟨"inbox", 7⟩], children := "full", maxChildren := 0, silent := false }

theorem readMessages_priority_thread :
    ∃ res s', (readMessages (threadEnv 11) 2 threadRequest).exec ⟨threadStore, [], 0⟩ = (.ok res, s') ∧
      (∃ m ∈ res.replies, m.withoutBody = false) ∧ ∀ n ∈ res.messages, n.withoutBody = false := by
  obtain ⟨v, hvalid⟩ : ∃ v, threadRequest.validate (threadEnv 11).limits = .ok v := ⟨_, rfl⟩
  obtain ⟨res, s', hread⟩ :
      ∃ res s', (readMessages (threadEnv 11) 2 threadRequest).exec ⟨threadStore, [], 0⟩ =
        (.ok res, s') := ⟨_, _, rfl⟩
  have hreply : ∃ m ∈ res.replies, m.withoutBody = false := by
    cases hread
    decide
  have hroom : RoomForNamed (threadEnv 11) threadStore 2 v := by
    cases hvalid
    exact .inl (by decide)
  obtain ⟨m, hm, hbody⟩ := hreply
  exact ⟨res, s', hread, ⟨m, hm, hbody⟩,
    (readMessages_priority (threadEnv 11) 2 threadRequest v _ s' res hvalid hread).2.2.2.2.2.mp hroom m hm hbody⟩

/-- With room for ten bytes, the reply to message 5 is carried and message 7, which was named, is
not. -/
theorem reply_before_named :
    ∃ res s', (readMessages (threadEnv 10) 2 threadRequest).exec ⟨threadStore, [], 0⟩ = (.ok res, s') ∧
      res.messages.map (fun m => (m.row.id, m.content)) = [(5, some "ask"), (7, none)] ∧
      res.replies.map (fun m => (m.row.id, m.content)) = [(6, some "more")] :=
  ⟨_, _, rfl, by decide, by decide⟩

end Astrald.Messaging
