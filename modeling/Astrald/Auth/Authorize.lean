import Mathlib

/-!
# The auth module: contracts, handlers, external authorities and `Authorize`

The model of `mod/auth/src`: the contract index (`contracts.go`, `db.go`,
`contract_query.go`), the registered handlers (`module.go`), the external
authorities (`external_authorizer.go`) and the chain walk (`authorize.go`).

What the code takes from the astral-go library is the parameter `Api`; what it relies
on there is stated once, in `Api.Lawful`. The walk passes the action it mutates, its
visited set and the number of its reads of the database explicitly; each read may fail. It
recurses through the contract graph, so the model gives it fuel; `Delegation.lean` proves
that one more than the number of indexed contracts is always enough.

The database driver keeps a time as text, the wall clock and then the zone, and compares it as
text. `storeSignedContract` hands it the expiry in the zone that the contract carries, so whether a
contract is active is a question about texts; `Time.after_utc` says what it is for an expiry in UTC.
-/

namespace Astrald.Auth

/-! ## Times -/

/-- A time: nanoseconds since the epoch, and how far its zone is east of UTC. -/
structure Time where
  instant : ℤ
  offset : ℤ
  deriving DecidableEq, Repr

def minute : ℕ := 60 * 10 ^ 9

def Time.utc (now : ℕ) : Time := ⟨now, 0⟩

/-- The first instant of the year one. -/
def Time.zero : Time := ⟨-62135596800 * 10 ^ 9, 0⟩

def Time.wall (t : Time) : ℤ := t.instant + t.offset

def twoDigits (n : ℕ) : String := (if n < 10 then "0" else "") ++ toString n

def zoneText (offset : ℤ) : String :=
  let minutes := offset.natAbs / minute
  (if offset < 0 then "-" else "+") ++ twoDigits (minutes / 60) ++ ":" ++ twoDigits (minutes % 60)

/-- The text of `a` sorts after that of `b`. -/
def Time.after (a b : Time) : Bool :=
  b.wall < a.wall || (a.wall = b.wall && zoneText b.offset < zoneText a.offset)

theorem Time.after_utc {t : Time} (h : t.offset = 0) (now : ℕ) :
    t.after (Time.utc now) = decide ((now : ℤ) < t.instant) := by
  simp [Time.after, Time.wall, Time.utc, h]

/-! ## Contracts and actions -/

/-- A permit of a contract: what it permits, under which constraints, and how many
further hops its authority may travel. -/
structure Permit (C : Type) where
  action : String
  constraints : C
  delegation : UInt8

structure Contract (ID C : Type) where
  issuer : ID
  subject : ID
  expiresAt : Time
  permits : List (Permit C)

structure SignedContract (ID C Sig : Type) extends Contract ID C where
  issuerSig : Option Sig
  subjectSig : Option Sig

/-- An action object: its type, the identity that acts, and the rest of its fields. -/
structure Action (ID B : Type) where
  objectType : String
  actor : ID
  body : B

def Action.setActor {ID B : Type} (a : Action ID B) (id : ID) : Action ID B :=
  { a with actor := id }

section

variable {ID B : Type} (a : Action ID B)

@[simp] theorem setActor_setActor (x y : ID) : (a.setActor x).setActor y = a.setActor y := rfl

@[simp] theorem setActor_self : a.setActor a.actor = a := rfl

end

/-- The functions of astral-go that the module calls. `zero` is the identity `IsZero`
recognises (a nil identity counts as zero), `str` is `Identity.String`. -/
structure Api (ID C Sig B : Type) where
  zero : ID
  str : ID → String
  hasPermit : Contract ID C → String → List (Permit C)
  allows : Permit C → Action ID B → Bool
  verify : ID → Sig → Contract ID C → Except String Unit

variable {ID C Sig B : Type} [DecidableEq ID]

/-- What the module relies on in astral-go: identities print differently when they
differ, `HasPermit` selects the permits of one action type, and no signature verifies
for the zero identity, which has no key. -/
structure Api.Lawful (api : Api ID C Sig B) : Prop where
  str_injective : Function.Injective api.str
  mem_hasPermit : ∀ c t p, p ∈ api.hasPermit c t ↔ p ∈ c.permits ∧ p.action = t
  verify_zero : ∀ s c, api.verify api.zero s c ≠ .ok ()

/-! ## The contract index -/

/-- `VerifyIssuer` and `VerifySubject` are one check, of one party's signature. -/
def verifyParty (api : Api ID C Sig B) (party : String) (id : ID) (sig : Option Sig)
    (c : Contract ID C) : Except String Unit :=
  match sig with
  | none => .error (party ++ " signature is missing")
  | some s =>
    match api.verify id s c with
    | .error e => .error (party ++ " sig: " ++ e)
    | .ok () => .ok ()

def verifyIssuer (api : Api ID C Sig B) (sc : SignedContract ID C Sig) : Except String Unit :=
  verifyParty api "issuer" sc.issuer sc.issuerSig sc.toContract

def verifySubject (api : Api ID C Sig B) (sc : SignedContract ID C Sig) : Except String Unit :=
  verifyParty api "subject" sc.subject sc.subjectSig sc.toContract

def verifyContract (api : Api ID C Sig B) (sc : SignedContract ID C Sig) : Except String Unit :=
  match verifyIssuer api sc with
  | .error e => .error e
  | .ok () => verifySubject api sc

/-- The stored contracts. `IndexContract` is the only writer and stores nothing that
`VerifyContract` refuses. -/
structure Index (api : Api ID C Sig B) where
  rows : List (SignedContract ID C Sig)
  verified : ∀ sc ∈ rows, verifyContract api sc = .ok ()

structure ContractQuery (ID : Type) where
  issuer : Option ID
  subject : Option ID
  actions : List String

/-- `WithSubject`. A zero subject drops the filter. -/
def ContractQuery.withSubject (api : Api ID C Sig B) (q : ContractQuery ID) (id : ID) :
    ContractQuery ID :=
  { q with subject := if id = api.zero then none else some id }

def ContractQuery.withAction (q : ContractQuery ID) (a : Action ID B) : ContractQuery ID :=
  { q with actions := q.actions ++ [a.objectType] }

def passes (filter : Option ID) (id : ID) : Bool :=
  match filter with
  | none => true
  | some wanted => id = wanted

/-- The row filter of `findActiveContracts`. `storeSignedContract` leaves `starts_at` at
the zero time, so only the expiry decides whether a row is active. -/
def ContractQuery.selects (q : ContractQuery ID) (now : ℕ) (sc : SignedContract ID C Sig) : Bool :=
  sc.expiresAt.after (Time.utc now) && passes q.issuer sc.issuer && passes q.subject sc.subject &&
    (q.actions.isEmpty || sc.permits.any fun p => q.actions.contains p.action)

def ContractQuery.find {api : Api ID C Sig B} (q : ContractQuery ID) (now : ℕ) (ix : Index api) :
    List (SignedContract ID C Sig) :=
  ix.rows.filter (q.selects now)

/-! ## Handlers and external authorities -/

structure Handler (ID B : Type) where
  nodeLocal : Bool
  authorize : Action ID B → Bool

/-- The module's registries, and the contracts that are indexed. -/
structure Module (api : Api ID C Sig B) where
  handlers : String → List (Handler ID B)
  external : String → Option (Action ID B → Except String Bool)
  index : Index api
  /-- The error of the `n`th read of the database, if it fails. -/
  faults : ℕ → Option String

variable {api : Api ID C Sig B}

/-- A handler marked `NodeLocal` answers only for the caller itself. -/
def authorizeHandlers (mod : Module api) (a : Action ID B) (hopsBelow : ℕ) : Bool :=
  (mod.handlers a.objectType).any fun h =>
    if h.nodeLocal && 0 < hopsBelow then false else h.authorize a

def externalKey (api : Api ID C Sig B) (action : String) (actor : ID) : String :=
  if actor = api.zero then action else action ++ "/" ++ api.str actor

/-- The actor's own assignment when one names the action type, otherwise the action-wide one. -/
def externalFor (mod : Module api) (actor : ID) (actionType : String) :
    Option (Action ID B → Except String Bool) :=
  match mod.external (externalKey api actionType actor) with
  | some ask => some ask
  | none => mod.external actionType

/-- `ExternalAuthorizer.Authorize`: a question that could not be put permits nothing. -/
def askExternal (ask : Action ID B → Except String Bool) (a : Action ID B) : Bool :=
  match ask a with
  | .error _ => false
  | .ok allow => allow

def authorizeExternal (mod : Module api) (a : Action ID B) : Bool :=
  match externalFor mod a.actor a.objectType with
  | none => false
  | some ask => askExternal ask a

/-! ## The chain walk -/

/-- What a walk hands back: its verdict, the action, the visited set and the number of reads. -/
abbrev Outcome (ID B : Type) := Bool × Action ID B × Finset String × ℕ

abbrev Walk (ID B : Type) := Action ID B → ℕ → Finset String → ℕ → Option (Outcome ID B)

/-- The permit loop of one contract. `walk` is the recursive call, `actor` the actor this
level restores on the way out. -/
def tryPermits (api : Api ID C Sig B) (walk : Walk ID B) (actor issuer : ID) (hopsBelow : ℕ) :
    List (Permit C) → Action ID B → Finset String → ℕ → Option (Outcome ID B)
  | [], a, visited, reads => some (false, a, visited, reads)
  | p :: ps, a, visited, reads =>
    -- the link must permit the delegation that happened below it
    if p.delegation.toNat < hopsBelow then tryPermits api walk actor issuer hopsBelow ps a visited reads
    else if !api.allows p a then tryPermits api walk actor issuer hopsBelow ps a visited reads
    else
      match walk (a.setActor issuer) (hopsBelow + 1) (insert (api.str issuer) visited) reads with
      | none => none
      | some (allowed, a', visited', reads') =>
        let a'' := a'.setActor actor
        let visited'' := visited'.erase (api.str issuer)
        if allowed then some (true, a'', visited'', reads')
        else tryPermits api walk actor issuer hopsBelow ps a'' visited'' reads'

/-- The contract loop of one level: contracts whose issuer is on the path are skipped. -/
def tryContracts (api : Api ID C Sig B) (walk : Walk ID B) (actor : ID) (hopsBelow : ℕ) :
    List (SignedContract ID C Sig) → Action ID B → Finset String → ℕ → Option (Outcome ID B)
  | [], a, visited, reads => some (false, a, visited, reads)
  | sc :: scs, a, visited, reads =>
    if api.str sc.issuer ∈ visited then tryContracts api walk actor hopsBelow scs a visited reads
    else
      match tryPermits api walk actor sc.issuer hopsBelow
          (api.hasPermit sc.toContract a.objectType) a visited reads with
      | none => none
      | some (true, out) => some (true, out)
      | some (false, a', visited', reads') => tryContracts api walk actor hopsBelow scs a' visited' reads'

/-- The query of one level: the active contracts made out to the actor that name the action. -/
def levelQuery (api : Api ID C Sig B) (a : Action ID B) : ContractQuery ID :=
  ((⟨none, none, []⟩ : ContractQuery ID).withSubject api a.actor).withAction a

/-- One level of the walk, with `walk` for the levels above it: the handlers, then the
contracts, then the external authority. -/
def authorizeLevel (mod : Module api) (now : ℕ) (walk : Walk ID B) : Walk ID B := fun a hopsBelow visited reads =>
  if authorizeHandlers mod a hopsBelow then some (true, a, visited, reads)
  else
    match mod.faults reads with
    | some _ => some (false, a, visited, reads + 1)
    | none =>
      match tryContracts api walk a.actor hopsBelow ((levelQuery api a).find now mod.index) a visited
          (reads + 1) with
      | none => none
      | some (true, out) => some (true, out)
      | some (false, a', out) => some (authorizeExternal mod a', a', out)

/-- `authorize`, one level per unit of fuel. -/
def authorize (mod : Module api) (now : ℕ) : ℕ → Walk ID B
  | 0 => fun _ _ _ _ => none
  | fuel + 1 => authorizeLevel mod now (authorize mod now fuel)

/-- `Authorize`. The anonymous identity is not a party, so nothing grants it an action. -/
def Authorize (mod : Module api) (now fuel : ℕ) (a : Action ID B) : Option (Bool × Action ID B) :=
  if a.actor = api.zero then some (false, a)
  else (authorize mod now fuel a 0 {api.str a.actor} 0).map fun r => (r.1, r.2.1)

end Astrald.Auth
