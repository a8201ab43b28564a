import Astrald.Services.Stream
import Mathlib.Data.List.AList

/-!
# The services coordinator

The model of `mod/services/src/coordinator`: sources and their slots (`source.go`,
`source_messages.go`), obligations (`attempt.go`), swarm members (`remote.go`), and the
coordinator that ties them together (`coordinator.go`). Every method runs under the one
coordinator lock, so a run is a sequence of whole methods (`Op`, `step`, `exec`).

Pointers are numbers into the coordinator's tables. A slot is named by its source and
caller, a request by its source and id. The order in which Go ranges over a map matters
only where a source queues asks for several streams; there the order is an argument.
The random ids of `nextID` are the parameter `Draws`. Timers may fire at any time, also
after `Stop`: the guards of the callbacks decide.
-/

namespace Astrald.Services

structure Ask where
  requestID : ℕ
  callerID : String
  service : String
  deriving DecidableEq, Repr

structure Answer where
  requestID : ℕ
  update : Option Update

/-- `services.Change`; `valid` is what its `Valid` method answered. -/
structure Change where
  all : Bool
  callers : List String
  valid : Bool

/-- The gate of one source and caller. `initial` is the map from services to waiting
obligations, flattened: the obligations of a service are the pairs with its name. -/
structure Slot where
  active : Option ℕ := none
  initial : List (String × ℕ) := []
  dirty : Finset String := ∅

structure Request where
  caller : String := ""
  service : String := ""
  obls : List ℕ := []
  deriving Inhabited

inductive Sender
  | idle
  | waiting
  | sending (ask : Ask)
  | returned

/-- One provider lifetime. `reqs` holds every request ever made, `sent` is what the
transport took. -/
structure Source where
  provider : String
  names : List String
  asks : List Ask := []
  askWake : Bool := false
  issued : List ℕ := []
  reqs : ℕ → Request := fun _ => {}
  pending : List ℕ := []
  slots : AList (fun _ : String => Slot) := ∅
  closed : Bool := false
  sender : Sender := .idle
  sent : List Ask := []

instance : Inhabited Source := ⟨{ provider := "", names := [], closed := true }⟩

/-- Where an obligation belongs: a slot of a source, or a swarm member. -/
inductive Home
  | slot (src : ℕ) (caller : String)
  | remote (r : ℕ)
  deriving DecidableEq

structure Obligation where
  st : ℕ
  service : String
  home : Home
  req : Option ℕ := none

instance : Inhabited Obligation := ⟨{ st := 0, service := "", home := .remote 0 }⟩

structure Remote where
  st : ℕ
  member : String
  opened : AList (fun _ : String => ℕ) := ∅
  keys : List OfferingKey := []

instance : Inhabited Remote := ⟨{ st := 0, member := "" }⟩

structure Coordinator where
  owners : OfferingKey → Option ℕ
  byName : String → List ℕ
  byCaller : String → List ℕ
  sources : ℕ → Source
  nSources : ℕ
  streams : ℕ → Stream
  nStreams : ℕ
  remotes : ℕ → Remote
  nRemotes : ℕ
  obligations : ℕ → Obligation
  nObligations : ℕ

def Coordinator.new : Coordinator where
  owners _ := none
  byName _ := []
  byCaller _ := []
  sources _ := default
  nSources := 0
  streams _ := default
  nStreams := 0
  remotes _ := default
  nRemotes := 0
  obligations _ := default
  nObligations := 0

/-- The ids `nextID` draws: the `n`-th one of a source is never zero and was never issued
on that source before. -/
structure Draws where
  id : ℕ → ℕ → ℕ
  ne_zero : ∀ s n, id s n ≠ 0
  injective : ∀ s, Function.Injective (id s)

inductive Err
  | owned
  | malformed
  deriving DecidableEq

/-! ## Slots of one source -/

namespace Source

/-- `src.slot(caller)`: the slot, made on demand. -/
def slot (src : Source) (caller : String) : Source :=
  match src.slots.lookup caller with
  | some _ => src
  | none => { src with slots := src.slots.insert caller {} }

def modifySlot (src : Source) (caller : String) (f : Slot → Slot) : Source :=
  match src.slots.lookup caller with
  | none => src
  | some sl => { src with slots := src.slots.insert caller (f sl) }

def markDirty (src : Source) (caller name : String) : Source :=
  src.modifySlot caller fun sl => { sl with dirty := insert name sl.dirty }

def collect (src : Source) (caller : String) : Source :=
  match src.slots.lookup caller with
  | none => src
  | some sl =>
    if sl.active = none ∧ sl.initial = [] ∧ sl.dirty = ∅ then
      { src with slots := src.slots.erase caller }
    else src

end Source

def Slot.waiting (sl : Slot) (service : String) : List ℕ :=
  (sl.initial.filter (·.1 = service)).map (·.2)

/-- Initial work before refresh work, services in name order. -/
def Slot.next (sl : Slot) (names : List String) : Option String :=
  match names.find? fun name => !(sl.waiting name).isEmpty with
  | some name => some name
  | none => names.find? fun name => decide (name ∈ sl.dirty)

/-- The request for one service: it takes over the obligations waiting for the service. -/
def Source.issue (draw : ℕ → ℕ) (src : Source) (caller : String) (sl : Slot) (service : String) : Source :=
  let id := draw src.issued.length
  { src with
    issued := src.issued ++ [id]
    reqs := Function.update src.reqs id { caller, service, obls := sl.waiting service }
    pending := src.pending ++ [id]
    asks := src.asks ++ [⟨id, caller, service⟩]
    askWake := true
    slots := src.slots.insert caller
      { active := some id
        initial := sl.initial.filter (·.1 ≠ service)
        dirty := sl.dirty.erase service } }

/-- `schedule` issues the next ask of a free slot. The second component is the id of the
new request and the obligations it takes over. -/
def Source.schedule (draw : ℕ → ℕ) (src : Source) (caller : String) :
    Source × Option (ℕ × List ℕ) :=
  match src.slots.lookup caller with
  | none => (src, none)
  | some sl =>
    if src.closed || sl.active.isSome then (src, none)
    else
      match sl.next src.names with
      | none => (src.collect caller, none)
      | some service =>
        (src.issue draw caller sl service, some (draw src.issued.length, sl.waiting service))

def Source.retire (src : Source) (id : ℕ) : Source :=
  { src.modifySlot (src.reqs id).caller fun sl => { sl with active := none } with
    pending := src.pending.erase id }

namespace Coordinator

def modSource (c : Coordinator) (s : ℕ) (f : Source → Source) : Coordinator :=
  { c with sources := Function.update c.sources s (f (c.sources s)) }

def modStream (c : Coordinator) (i : ℕ) (f : Stream → Stream) : Coordinator :=
  { c with streams := Function.update c.streams i (f (c.streams i)) }

def modRemote (c : Coordinator) (r : ℕ) (f : Remote → Remote) : Coordinator :=
  { c with remotes := Function.update c.remotes r (f (c.remotes r)) }

def schedule (d : Draws) (c : Coordinator) (s : ℕ) (caller : String) : Coordinator :=
  match (c.sources s).schedule (d.id s) caller with
  | (src, none) => c.modSource s fun _ => src
  | (src, some (id, obls)) =>
    { c.modSource s fun _ => src with
      obligations := fun o =>
        if o ∈ obls then { c.obligations o with req := some id } else c.obligations o }

def collect (c : Coordinator) (s : ℕ) (caller : String) : Coordinator :=
  c.modSource s (·.collect caller)

/-! ## Obligations -/

def isOpen (c : Coordinator) (o : ℕ) : Prop :=
  o ∈ (c.streams (c.obligations o).st).attempt.opened

instance (c : Coordinator) (o : ℕ) : Decidable (c.isOpen o) :=
  inferInstanceAs (Decidable (o ∈ (c.streams (c.obligations o).st).attempt.opened))

/-- Remove `o` from its container: the member's open map, its request, or its slot. -/
def unlink (c : Coordinator) (o : ℕ) : Coordinator :=
  let ob := c.obligations o
  match ob.home, ob.req with
  | .remote r, _ => c.modRemote r fun rm => { rm with opened := rm.opened.erase ob.service }
  | .slot s _, some id =>
    c.modSource s fun src =>
      { src with
        reqs := Function.update src.reqs id
          { src.reqs id with obls := (src.reqs id).obls.erase o } }
  | .slot s caller, none =>
    c.modSource s (·.modifySlot caller fun sl =>
      { sl with initial := sl.initial.erase (ob.service, o) })

def detach (c : Coordinator) (o : ℕ) : Coordinator :=
  (c.unlink o).modStream (c.obligations o).st (·.deleteOpen o)

/-- `o.detach()` followed by `o.src.collect(o.slot)` when `o` has a slot. -/
def detachCollect (c : Coordinator) (o : ℕ) : Coordinator :=
  match (c.obligations o).home with
  | .remote _ => c.detach o
  | .slot s caller => (c.detach o).collect s caller

/-- `at.finish()` when the last open obligation has ended. -/
def settle (c : Coordinator) (i : ℕ) : Coordinator :=
  if (c.streams i).attempt.opened = [] ∧ (c.streams i).attempt.resolved = false then
    c.modStream i (·.finish)
  else c

/-- `end` closes `o`; the last one to end finishes the attempt. -/
def endObligation (c : Coordinator) (o : ℕ) : Coordinator :=
  if c.isOpen o then
    let ob := c.obligations o
    ((c.modStream ob.st (·.record (.ended o ob.service))).detach o).settle ob.st
  else c

def fail (c : Coordinator) (o : ℕ) : Coordinator :=
  if c.isOpen o then
    let ob := c.obligations o
    ((c.modStream ob.st fun st =>
      (st.record (.failed o ob.service)).markFailed ob.service).detach o).settle ob.st
  else c

/-- The body of the loop in `budgetExpired`. -/
def expire (c : Coordinator) (o : ℕ) : Coordinator :=
  let ob := c.obligations o
  (c.modStream ob.st fun st =>
    (st.record (.expired o ob.service)).markFailed ob.service).detachCollect o

def budgetExpired (c : Coordinator) (i : ℕ) : Coordinator :=
  if (c.streams i).attempt.resolved || (c.streams i).closed then c
  else ((c.streams i).attempt.opened.foldl expire c).modStream i (·.finish)

/-! ## Closing streams and sources -/

/-- `delete(c.byCaller[st.caller], st)`. -/
def unenroll (c : Coordinator) (i : ℕ) : Coordinator :=
  let ck := (c.streams i).caller
  { c with byCaller := Function.update c.byCaller ck ((c.byCaller ck).filter (· ≠ i)) }

/-- `Stream.closeLocked`. -/
def closeStream (c : Coordinator) (i : ℕ) : Coordinator :=
  if (c.streams i).closed then c
  else
    let c' := if (c.streams i).attemptNil then c.unenroll i
      else (c.streams i).attempt.opened.foldl detachCollect (c.unenroll i)
    c'.modStream i (·.shut)

/-- The obligations of the pending requests, and those waiting in slots. -/
def askedObligations (src : Source) : List ℕ :=
  src.pending.flatMap fun id => (src.reqs id).obls

def waitingObligations (src : Source) : List ℕ :=
  src.slots.entries.flatMap fun e => e.2.initial.map (·.2)

def enrolled (c : Coordinator) (i : ℕ) : Prop := i ∈ c.byCaller (c.streams i).caller

instance (c : Coordinator) (i : ℕ) : Decidable (c.enrolled i) :=
  inferInstanceAs (Decidable (i ∈ c.byCaller (c.streams i).caller))

/-- The end of `Source.closeLocked`: the offerings are released and every enrolled stream
loses them. -/
def releaseSource (c : Coordinator) (s : ℕ) : Coordinator :=
  let src := c.sources s
  { c with
    owners := fun k =>
      if k.provider = src.provider ∧ k.name ∈ src.names ∧ c.owners k = some s then none
      else c.owners k
    byName := fun name =>
      if name ∈ src.names then (c.byName name).filter (· ≠ s) else c.byName name
    streams := fun i =>
      if c.enrolled i then (c.streams i).lose src.provider src.names else c.streams i }

/-- `Source.closeLocked`. -/
def closeSource (c : Coordinator) (s : ℕ) : Coordinator :=
  let c₁ := c.modSource s fun src => { src with closed := true }
  let c₂ := (askedObligations (c₁.sources s)).foldl fail c₁
  let c₃ := c₂.modSource s fun src => { src with pending := [] }
  let c₄ := (waitingObligations (c₃.sources s)).foldl fail c₃
  let c₅ := c₄.modSource s fun src => { src with slots := ∅ }
  c₅.releaseSource s

/-! ## Registering and discovering -/

def refreshName (d : Draws) (s : ℕ) (caller : String) (c : Coordinator) (name : String) :
    Coordinator :=
  (c.modSource s fun src => (src.slot caller).markDirty caller name).schedule d s caller

/-- One stream of the loop in `markFollowersDirty`. -/
def followDirty (d : Draws) (s : ℕ) (c : Coordinator) (i : ℕ) : Coordinator :=
  if (c.streams i).follow then
    ((c.sources s).names.filter (· ∈ (c.streams i).services)).foldl
      (refreshName d s (c.streams i).caller) c
  else c

/-- The enrolled streams, the ones `markFollowersDirty` and `audience` range over. -/
def enrolledStreams (c : Coordinator) : List ℕ :=
  (List.range c.nStreams).filter fun i => c.enrolled i

/-- Some pair of the provider and a name has an owner. -/
def owned (c : Coordinator) (provider : String) (names : List String) : Bool :=
  names.any fun name => (c.owners (keyOf provider name)).isSome

def claim (c : Coordinator) (provider : String) (names : List String) : Coordinator :=
  { c with
    sources := Function.update c.sources c.nSources { provider, names }
    nSources := c.nSources + 1
    owners := fun k => if k.provider = provider ∧ k.name ∈ names then some c.nSources else c.owners k
    byName := fun name => if name ∈ names then c.byName name ++ [c.nSources] else c.byName name }

/-- `Register` claims every pair of provider and name for a new source, or none. `order` is
the order in which the streams are visited. -/
def register (d : Draws) (c : Coordinator) (provider : String) (names : List String)
    (order : List ℕ) : Coordinator × Option Err :=
  let sorted := names.insertionSort (· ≤ ·)
  if c.owned provider sorted then (c, some .owned)
  else (order.foldl (followDirty d c.nSources) (c.claim provider sorted), none)

def oblige (i : ℕ) (caller name : String) (c : Coordinator) (s : ℕ) : Coordinator :=
  let o := c.nObligations
  let c' := c.modSource s fun src =>
    (src.slot caller).modifySlot caller fun sl => { sl with initial := sl.initial ++ [(name, o)] }
  { c'.modStream i fun st =>
      { st with attempt := { st.attempt with opened := st.attempt.opened ++ [o] } } with
    obligations := Function.update c.obligations o { st := i, service := name, home := .slot s caller }
    nObligations := o + 1 }

def obligeRemote (i r : ℕ) (c : Coordinator) (name : String) : Coordinator :=
  let o := c.nObligations
  let c' := c.modRemote r fun rm => { rm with opened := rm.opened.insert name o }
  { c'.modStream i fun st =>
      { st with attempt := { st.attempt with opened := st.attempt.opened ++ [o] } } with
    obligations := Function.update c.obligations o { st := i, service := name, home := .remote r }
    nObligations := o + 1 }

def enrollMember (i : ℕ) (names : List String) (c : Coordinator) (member : String) : Coordinator :=
  let r := c.nRemotes
  let c' := { c with
    remotes := Function.update c.remotes r { st := i, member }
    nRemotes := r + 1 }
  (names.foldl (obligeRemote i r) c').modStream i fun st => { st with remotes := st.remotes ++ [r] }

/-- The sources a new stream's obligations touch, in the order they are made. -/
def touched (c : Coordinator) (names : List String) : List ℕ := names.flatMap c.byName

def enroll (c : Coordinator) (caller : String) (names : List String) (follow : Bool) : Coordinator :=
  { c with
    streams := Function.update c.streams c.nStreams { caller, services := names.toFinset, follow }
    nStreams := c.nStreams + 1
    byCaller := Function.update c.byCaller caller (c.byCaller caller ++ [c.nStreams]) }

def obligeName (i : ℕ) (caller : String) (c : Coordinator) (name : String) : Coordinator :=
  (c.byName name).foldl (oblige i caller name) c

/-- The obligations of a new stream: every source of each name, then every member. -/
def obligeAll (c : Coordinator) (i : ℕ) (caller : String) (names members : List String) : Coordinator :=
  members.foldl (enrollMember i names) (names.foldl (obligeName i caller) c)

def scheduleAll (d : Draws) (caller : String) (c : Coordinator) (srcs : List ℕ) : Coordinator :=
  srcs.foldl (fun c s => c.schedule d s caller) c

/-- `DiscoverSwarm` enrolls a stream and freezes its initial attempt. -/
def discoverSwarm (d : Draws) (c : Coordinator) (caller : String) (names : List String)
    (follow : Bool) (members : List String) : Coordinator :=
  let i := c.nStreams
  let c' := scheduleAll d caller ((c.enroll caller names follow).obligeAll i caller names members)
    (c.touched names)
  if (c'.streams i).attempt.opened = [] then c'.modStream i (·.finish) else c'

/-! ## What a provider sends -/

def acceptable (src : Source) (req : Request) (a : Answer) : Bool :=
  match a.update with
  | none => false
  | some u => u.name = req.service && (u.providerID = none || u.providerID = some src.provider)

/-- Some obligation of the request belongs to the stream. -/
def owes (c : Coordinator) (req : Request) (i : ℕ) : Bool :=
  req.obls.any fun o => (c.obligations o).st = i

/-- The streams `deliver` offers an answer to: those of the caller that requested the
service; a one-shot stream receives only answers to its own initial obligations. -/
def delivers (c : Coordinator) (req : Request) (i : ℕ) : Bool :=
  i ∈ c.byCaller req.caller && req.service ∈ (c.streams i).services && !(c.streams i).closed &&
    ((c.streams i).follow || c.owes req i)

def deliver (c : Coordinator) (s : ℕ) (req : Request) (u : Update) : Coordinator :=
  { c with
    streams := fun i =>
      if c.delivers req i then (c.streams i).offer (keyOf (c.sources s).provider req.service) u
      else c.streams i }

/-- `Source.Answer`. An answer for no outstanding ask is ignored, a malformed one closes
the source. -/
def answer (d : Draws) (c : Coordinator) (s : ℕ) (a : Answer) : Coordinator × Option Err :=
  let src := c.sources s
  let req := src.reqs a.requestID
  if src.closed || a.requestID ∉ src.pending then (c, none)
  else
    match a.update with
    | none => (c.closeSource s, some .malformed)
    | some upd =>
      if !acceptable src req a then (c.closeSource s, some .malformed)
      else
        let u := { upd with providerID := some src.provider }
        let c₁ := c.modSource s (·.retire a.requestID)
        let c₂ := c₁.deliver s req u
        let c₃ := req.obls.foldl endObligation c₂
        (c₃.schedule d s req.caller, none)

/-- The caller has an open follow stream requesting `name`. -/
def followsService (c : Coordinator) (ck name : String) : Bool :=
  (c.byCaller ck).any fun i =>
    name ∈ (c.streams i).services && (c.streams i).follow && !(c.streams i).closed

/-- Retain refresh work for every service of the source that the caller follows. -/
def refresh (d : Draws) (s : ℕ) (c : Coordinator) (caller : String) : Coordinator :=
  let followed := (c.sources s).names.filter (c.followsService caller)
  if followed = [] then c
  else
    (c.modSource s fun src =>
      followed.foldl (fun src name => src.markDirty caller name) (src.slot caller)).schedule d s caller

/-- The callers a change selects: of each caller with a stream, one head stands for it. `order` lists
the callers of a change to all in the order they are visited. -/
def audience (c : Coordinator) (ch : Change) (order : List String) : List String :=
  if ch.all then order else ch.callers.filter fun ck => !(c.byCaller ck).isEmpty

def change (d : Draws) (c : Coordinator) (s : ℕ) (ch : Change) (order : List String) :
    Coordinator × Option Err :=
  if (c.sources s).closed then (c, none)
  else if !ch.valid then (c.closeSource s, some .malformed)
  else ((c.audience ch order).foldl (refresh d s) c, none)

def requestExpired (d : Draws) (c : Coordinator) (s id : ℕ) : Coordinator :=
  let src := c.sources s
  let req := src.reqs id
  if id ∉ src.pending then c
  else (req.obls.foldl fail (c.modSource s (·.retire id))).schedule d s req.caller

/-! ## What a swarm member sends -/

/-- `Remote.Offer`. A view without a provider, or of a service nobody requested, is ignored. -/
def remoteOffer (c : Coordinator) (r : ℕ) (u : Update) : Coordinator :=
  let i := (c.remotes r).st
  match u.providerID with
  | none => c
  | some provider =>
    if (c.streams i).closed || u.name ∉ (c.streams i).services then c
    else
      let k := keyOf provider u.name
      (c.modRemote r fun rm => { rm with keys := rm.keys.insert k }).modStream i (·.offer k u)

/-- One key of `Remote.Remove`: only what the member contributed is retracted. -/
def removeKey (r : ℕ) (c : Coordinator) (k : OfferingKey) : Coordinator :=
  if k ∈ (c.remotes r).keys then
    (c.modRemote r fun rm => { rm with keys := rm.keys.filter (· ≠ k) }).modStream
      (c.remotes r).st (·.retract k)
  else c

def remoteRemove (c : Coordinator) (r : ℕ) (keys : List OfferingKey) : Coordinator :=
  let i := (c.remotes r).st
  if (c.streams i).closed then c
  else (keys.foldl (removeKey r) c).modStream i fun st => { st with wake := true }

def remoteObligations (rm : Remote) : List ℕ := rm.opened.entries.map (·.2)

/-- `Remote.Initial`: the services the member reported incomplete fail, the rest resolve. -/
def remoteInitial (c : Coordinator) (r : ℕ) (incomplete : List String) : Coordinator :=
  (remoteObligations (c.remotes r)).foldl
    (fun c o => if (c.obligations o).service ∈ incomplete then c.fail o else c.endObligation o) c

/-- `Remote.Lost`: unresolved initial work fails and every contributed offering is retracted. -/
def remoteLost (c : Coordinator) (r : ℕ) : Coordinator :=
  let i := (c.remotes r).st
  let c₁ := (remoteObligations (c.remotes r)).foldl fail c
  if (c₁.streams i).closed then c₁
  else
    let c₂ := (c.remotes r).keys.foldl (fun c k => c.modStream i (·.retract k)) c₁
    (c₂.modRemote r fun rm => { rm with keys := [] }).modStream i fun st => { st with wake := true }

end Coordinator

end Astrald.Services
