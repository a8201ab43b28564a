import Astrald.Lib.Wire

/-!
# The frames of a link on the wire

The model of `nodes/frames`: for every kind of frame its fields, its `WriteTo` and its `ReadFrom`.
The opcode in front of a frame is not part of either. The byte order and the encoding of an
identity come from another module: an identity is 33 bytes, of which it reads back what it writes.

* `trip_query`, `trip_relayQuery` and so on: one trip for each kind;
* `frame_round_trip`: what a frame writes is read back as that frame, whatever follows it, both
  sides report the bytes written, and a proper prefix is an error.
-/

namespace Astrald.Nodes.Frames

open Wire

/-- What the frames use of `astral.Identity`. -/
structure IdentityCodec (Identity : Type) where
  zero : Identity
  encode : Identity → List UInt8
  decode : List UInt8 → Option Identity
  length_encode : ∀ i, (encode i).length = 33
  decode_encode : ∀ i, decode (encode i) = some i

/-! ## Fields -/

section

variable (order : ByteOrder)

def putUInt64 (x : UInt64) : Enc := putUInt order 8 x.toNat

def putUInt32 (x : UInt32) : Enc := putUInt order 4 x.toNat

def putUInt8 (x : UInt8) : Enc := putUInt order 1 x.toNat

/-- `binary.Write` of a `uint16`. -/
def putLength (n : ℕ) : Enc := putUInt order 2 (n % 2 ^ 16)

def putBool (b : Bool) : Enc := putFixed 1 [if b then 1 else 0]

def readUInt64 : Dec UInt64 := do
  let x ← readUInt order 8
  pure (UInt64.ofNat x)

def readUInt32 : Dec UInt32 := do
  let x ← readUInt order 4
  pure (UInt32.ofNat x)

def readUInt8 : Dec UInt8 := do
  let x ← readUInt order 1
  pure (UInt8.ofNat x)

def readLength : Dec ℕ := readUInt order 2

def readBool : Dec Bool := do
  let bs ← readFixed 1
  pure (bs.any fun b => b ≠ 0)

theorem trip_uint64 (x : UInt64) : Trip (putUInt64 order x) (readUInt64 order) x := by
  have htrip := (trip_uint order (k := 8) x.toNat_lt).map UInt64.ofNat
  rw [UInt64.ofNat_toNat] at htrip
  exact htrip

theorem trip_uint32 (x : UInt32) : Trip (putUInt32 order x) (readUInt32 order) x := by
  have htrip := (trip_uint order (k := 4) x.toNat_lt).map UInt32.ofNat
  rw [UInt32.ofNat_toNat] at htrip
  exact htrip

theorem trip_uint8 (x : UInt8) : Trip (putUInt8 order x) (readUInt8 order) x := by
  have htrip := (trip_uint order (k := 1) x.toNat_lt).map UInt8.ofNat
  rw [UInt8.ofNat_toNat] at htrip
  exact htrip

theorem trip_length {n : ℕ} (h : n ≤ 65535) : Trip (putLength order n) (readLength order) n := by
  have hmod : n % 2 ^ 16 = n := Nat.mod_eq_of_lt (by omega)
  rw [putLength, hmod]
  exact trip_uint order (by omega)

theorem trip_bool (b : Bool) : Trip (putBool b) readBool b := by
  have hfixed : Trip (putBool b) (readFixed 1) [if b then 1 else 0] := trip_fixed rfl
  have htrip := hfixed.map fun bs => bs.any fun b => b ≠ 0
  have hback : ([if b then 1 else 0] : List UInt8).any (fun b => b ≠ 0) = b := by cases b <;> rfl
  rw [hback] at htrip
  exact htrip

end

section

variable {Identity : Type} (ids : IdentityCodec Identity)

/-- A nil identity is written as the zero identity. -/
def putIdentity (i : Option Identity) : Enc := putBytes (ids.encode (i.getD ids.zero))

def parseIdentity (bs : List UInt8) : Dec Identity :=
  match ids.decode bs with
  | some i => pure i
  | none => Fallible.of fun s => (.error .other, s)

def readIdentity : Dec Identity := do
  let bs ← readBytes 33
  parseIdentity ids bs

theorem trip_identity (i : Option Identity) :
    Trip (putIdentity ids i) (readIdentity ids) (i.getD ids.zero) := by
  have hbytes := trip_bytes (ids.encode (i.getD ids.zero))
  rw [ids.length_encode] at hbytes
  have hparse : Trip id (parseIdentity ids (ids.encode (i.getD ids.zero))) (i.getD ids.zero) := by
    rw [parseIdentity, ids.decode_encode]
    exact Trip.pure _
  have hread : Trip ((putIdentity ids i).andThen id) (readIdentity ids) (i.getD ids.zero) :=
    hbytes.bind hparse
  exact hread

end

/-! ## The frames -/

structure Ping where
  nonce : UInt64
  pong : Bool
  deriving DecidableEq, Repr

structure Query where
  nonce : UInt64
  buffer : UInt32
  query : List UInt8
  deriving DecidableEq, Repr

structure RelayQuery (Identity : Type) where
  callerID : Option Identity
  targetID : Option Identity
  query : Query
  deriving DecidableEq, Repr

structure Response where
  nonce : UInt64
  errCode : UInt8
  buffer : UInt32
  deriving DecidableEq, Repr

structure Read where
  nonce : UInt64
  len : UInt32
  deriving DecidableEq, Repr

structure Data where
  nonce : UInt64
  payload : List UInt8
  deriving DecidableEq, Repr

structure Migrate where
  nonce : UInt64
  deriving DecidableEq, Repr

structure Reset where
  nonce : UInt64
  deriving DecidableEq, Repr

section

variable (order : ByteOrder)

def Ping.writeTo (f : Ping) : Enc := (putUInt64 order f.nonce).andThen (putBool f.pong)

def Ping.readFrom : Dec Ping := do
  let nonce ← readUInt64 order
  let pong ← readBool
  pure { nonce, pong }

def Query.writeTo (f : Query) : Enc :=
  (putUInt64 order f.nonce).andThen <| (putUInt32 order f.buffer).andThen <|
    (putLength order f.query.length).andThen (putBytes f.query)

def Query.readFrom : Dec Query := do
  let nonce ← readUInt64 order
  let buffer ← readUInt32 order
  let plen ← readLength order
  let query ← readBytes plen
  pure { nonce, buffer, query }

def RelayQuery.writeTo {Identity : Type} (ids : IdentityCodec Identity) (f : RelayQuery Identity) : Enc :=
  (putIdentity ids f.callerID).andThen <| (putIdentity ids f.targetID).andThen (f.query.writeTo order)

def RelayQuery.readFrom {Identity : Type} (ids : IdentityCodec Identity) : Dec (RelayQuery Identity) := do
  let callerID ← readIdentity ids
  let targetID ← readIdentity ids
  let query ← Query.readFrom order
  pure { callerID := some callerID, targetID := some targetID, query }

def Response.writeTo (f : Response) : Enc :=
  (putUInt64 order f.nonce).andThen <| (putUInt8 order f.errCode).andThen (putUInt32 order f.buffer)

def Response.readFrom : Dec Response := do
  let nonce ← readUInt64 order
  let errCode ← readUInt8 order
  let buffer ← readUInt32 order
  pure { nonce, errCode, buffer }

def Read.writeTo (f : Read) : Enc := (putUInt64 order f.nonce).andThen (putUInt32 order f.len)

def Read.readFrom : Dec Read := do
  let nonce ← readUInt64 order
  let len ← readUInt32 order
  pure { nonce, len }

def Data.writeTo (f : Data) : Enc :=
  (putUInt64 order f.nonce).andThen <| (putLength order f.payload.length).andThen (putBytes f.payload)

def Data.readFrom : Dec Data := do
  let nonce ← readUInt64 order
  let plen ← readLength order
  let payload ← readBytes plen
  pure { nonce, payload }

def Migrate.writeTo (f : Migrate) : Enc := putUInt64 order f.nonce

def Migrate.readFrom : Dec Migrate := do
  let nonce ← readUInt64 order
  pure { nonce }

def Reset.writeTo (f : Reset) : Enc := putUInt64 order f.nonce

def Reset.readFrom : Dec Reset := do
  let nonce ← readUInt64 order
  pure { nonce }

theorem trip_ping (f : Ping) : Trip (f.writeTo order) (Ping.readFrom order) f :=
  (trip_uint64 order f.nonce).bind ((trip_bool f.pong).map _)

theorem trip_query (f : Query) (h : f.query.length ≤ 65535) :
    Trip (f.writeTo order) (Query.readFrom order) f := by
  refine (trip_uint64 order f.nonce).bind ((trip_uint32 order f.buffer).bind ?_)
  exact (trip_length order h).bind ((trip_bytes f.query).map _)

/-- The frame with its nil identities replaced by the zero identity. -/
def RelayQuery.filled {Identity : Type} (ids : IdentityCodec Identity) (f : RelayQuery Identity) :
    RelayQuery Identity :=
  { f with callerID := some (f.callerID.getD ids.zero), targetID := some (f.targetID.getD ids.zero) }

theorem trip_relayQuery {Identity : Type} (ids : IdentityCodec Identity) (f : RelayQuery Identity)
    (h : f.query.query.length ≤ 65535) :
    Trip (f.writeTo order ids) (RelayQuery.readFrom order ids) (f.filled ids) := by
  refine (trip_identity ids f.callerID).bind ((trip_identity ids f.targetID).bind ?_)
  exact (trip_query order f.query h).map _

theorem trip_response (f : Response) : Trip (f.writeTo order) (Response.readFrom order) f := by
  refine (trip_uint64 order f.nonce).bind ((trip_uint8 order f.errCode).bind ?_)
  exact (trip_uint32 order f.buffer).map _

theorem trip_read (f : Read) : Trip (f.writeTo order) (Read.readFrom order) f :=
  (trip_uint64 order f.nonce).bind ((trip_uint32 order f.len).map _)

theorem trip_data (f : Data) (h : f.payload.length ≤ 65535) :
    Trip (f.writeTo order) (Data.readFrom order) f := by
  refine (trip_uint64 order f.nonce).bind ?_
  exact (trip_length order h).bind ((trip_bytes f.payload).map _)

theorem trip_migrate (f : Migrate) : Trip (f.writeTo order) (Migrate.readFrom order) f :=
  (trip_uint64 order f.nonce).map _

theorem trip_reset (f : Reset) : Trip (f.writeTo order) (Reset.readFrom order) f :=
  (trip_uint64 order f.nonce).map _

end

/-! ## All kinds -/

inductive Kind
  | ping
  | query
  | relayQuery
  | read
  | response
  | data
  | migrate
  | reset
  deriving DecidableEq, Repr

inductive AnyFrame (Identity : Type)
  | ping (f : Ping)
  | query (f : Query)
  | relayQuery (f : RelayQuery Identity)
  | read (f : Read)
  | response (f : Response)
  | data (f : Data)
  | migrate (f : Migrate)
  | reset (f : Reset)
  deriving DecidableEq, Repr

namespace AnyFrame

variable {Identity : Type}

def kind : AnyFrame Identity → Kind
  | ping _ => .ping
  | query _ => .query
  | relayQuery _ => .relayQuery
  | read _ => .read
  | response _ => .response
  | data _ => .data
  | migrate _ => .migrate
  | reset _ => .reset

/-- Query strings and payloads have a length of two bytes. -/
def Fits : AnyFrame Identity → Prop
  | query f => f.query.length ≤ 65535
  | relayQuery f => f.query.query.length ≤ 65535
  | data f => f.payload.length ≤ 65535
  | _ => True

def filled (ids : IdentityCodec Identity) : AnyFrame Identity → AnyFrame Identity
  | relayQuery f => relayQuery (f.filled ids)
  | f => f

variable (order : ByteOrder) (ids : IdentityCodec Identity)

def writeTo : AnyFrame Identity → Enc
  | ping f => f.writeTo order
  | query f => f.writeTo order
  | relayQuery f => f.writeTo order ids
  | read f => f.writeTo order
  | response f => f.writeTo order
  | data f => f.writeTo order
  | migrate f => f.writeTo order
  | reset f => f.writeTo order

def readFrom : Kind → Dec (AnyFrame Identity)
  | .ping => do pure (ping (← Ping.readFrom order))
  | .query => do pure (query (← Query.readFrom order))
  | .relayQuery => do pure (relayQuery (← RelayQuery.readFrom order ids))
  | .read => do pure (read (← Read.readFrom order))
  | .response => do pure (response (← Response.readFrom order))
  | .data => do pure (data (← Data.readFrom order))
  | .migrate => do pure (migrate (← Migrate.readFrom order))
  | .reset => do pure (reset (← Reset.readFrom order))

theorem trip (f : AnyFrame Identity) (h : f.Fits) :
    Trip (f.writeTo order ids) (readFrom order ids f.kind) (f.filled ids) := by
  cases f with
  | ping f => exact (trip_ping order f).map _
  | query f => exact (trip_query order f h).map _
  | relayQuery f => exact (trip_relayQuery order ids f h).map _
  | read f => exact (trip_read order f).map _
  | response f => exact (trip_response order f).map _
  | data f => exact (trip_data order f h).map _
  | migrate f => exact (trip_migrate order f).map _
  | reset f => exact (trip_reset order f).map _

end AnyFrame

/-- **Frame round trip.** The bytes that a frame writes, followed by anything, are read back as that
frame and nothing more is read; both sides report the number of these bytes; and no proper prefix
of them is read. -/
theorem frame_round_trip {Identity : Type} (order : ByteOrder) (ids : IdentityCodec Identity)
    (f : AnyFrame Identity) (hfits : f.Fits) (rest : List UInt8) :
    let out := f.writeTo order ids ⟨[], 0⟩
    (AnyFrame.readFrom order ids f.kind).exec ⟨out.bytes ++ rest, 0⟩ = (.ok (f.filled ids), ⟨rest, out.n⟩) ∧
      out.n = out.bytes.length ∧
      ∀ p, p <+: out.bytes → p ≠ out.bytes →
        ∃ e s, (AnyFrame.readFrom order ids f.kind).exec ⟨p, 0⟩ = (.error e, s) :=
  (f.trip order ids hfits).whole rest

/-- Identities as 33 bytes of any content. -/
def rawIdentity : IdentityCodec { bs : List UInt8 // bs.length = 33 } where
  zero := ⟨List.replicate 33 0, rfl⟩
  encode := Subtype.val
  decode := fun bs => if h : bs.length = 33 then some ⟨bs, h⟩ else none
  length_encode := Subtype.property
  decode_encode := fun i => by rw [dif_pos i.property]

/-- A relayed query without identities is 80 bytes and the query string. -/
theorem frame_round_trip_relayed :
    let f : AnyFrame { bs : List UInt8 // bs.length = 33 } := .relayQuery ⟨none, none, ⟨7, 12345, [104, 105]⟩⟩
    let out := f.writeTo .bigEndian rawIdentity ⟨[], 0⟩
    (AnyFrame.readFrom .bigEndian rawIdentity f.kind).exec ⟨out.bytes ++ [9], 0⟩ =
        (.ok (f.filled rawIdentity), ⟨[9], out.n⟩) ∧ out.n = 82 := by
  intro f out
  exact ⟨(frame_round_trip .bigEndian rawIdentity f (by show 2 ≤ 65535; decide) [9]).1, rfl⟩

end Astrald.Nodes.Frames
