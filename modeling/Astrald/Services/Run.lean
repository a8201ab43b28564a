import Astrald.Lib.Trace
import Astrald.Services.Coordinator

/-!
# Runs of the coordinator

`Op` lists everything that takes the coordinator lock: the methods callers invoke, the two
timer callbacks, and the lock sections of the writers `Stream.Run` and `Source.sendLoop`.
`step` performs one; an operation that is not enabled (a stream that does not exist, a
writer that is elsewhere, an impossible visiting order) changes nothing. `exec` performs a
list of them, the latest first.
-/

namespace Astrald.Services

inductive Op
  | register (provider : String) (names : List String) (order : List ℕ)
  | discover (caller : String) (names : List String) (follow : Bool) (members : List String)
  | answer (s : ℕ) (a : Answer)
  | change (s : ℕ) (ch : Change) (order : List String)
  | closeSource (s : ℕ)
  | closeStream (i : ℕ)
  | run (i : ℕ)
  | awake (i : ℕ)
  | wrote (i : ℕ)
  | writeFailed (i : ℕ)
  | send (s : ℕ)
  | sendAwake (s : ℕ)
  | sendOk (s : ℕ)
  | sendFailed (s : ℕ)
  | remoteOffer (r : ℕ) (u : Update)
  | remoteRemove (r : ℕ) (keys : List OfferingKey)
  | remoteInitial (r : ℕ) (incomplete : List String)
  | remoteLost (r : ℕ)
  | requestExpired (s id : ℕ)
  | budgetExpired (i : ℕ)

namespace Coordinator

def callers (c : Coordinator) : List String :=
  (c.enrolledStreams.map fun i => (c.streams i).caller).dedup

/-- The lock section of `Run` after a sink call that succeeded. -/
def wrote (c : Coordinator) (i : ℕ) : Coordinator :=
  match (c.streams i).writer with
  | .writing out =>
    let c' := c.modStream i fun st => { st.sent out with writer := .idle }
    -- a one-shot stream ends with its boundary
    if out.isBoundary ∧ (c.streams i).follow = false then
      (c'.closeStream i).modStream i fun st => { st with writer := .returned }
    else c'
  | _ => c

/-- The lock section of `Run` after a sink call that failed. -/
def writeFailed (c : Coordinator) (i : ℕ) : Coordinator :=
  match (c.streams i).writer with
  | .writing _ => (c.closeStream i).modStream i fun st => { st with writer := .returned }
  | _ => c

/-- One turn of `sendLoop` up to its transport call. -/
def sendTurn (src : Source) : Source :=
  if src.closed then { src with sender := .returned }
  else
    match src.asks with
    | [] => { src with sender := .waiting }
    | ask :: rest => { src with asks := rest, sender := .sending ask }

/-- `Source.Close`, also the end of a `sendLoop` whose transport failed. -/
def closeOnce (c : Coordinator) (s : ℕ) : Coordinator :=
  if (c.sources s).closed then c else c.closeSource s

def sendOk (c : Coordinator) (s : ℕ) : Coordinator :=
  match (c.sources s).sender with
  | .sending ask => c.modSource s fun src => { src with sent := src.sent ++ [ask], sender := .idle }
  | _ => c

def sendFailed (c : Coordinator) (s : ℕ) : Coordinator :=
  match (c.sources s).sender with
  | .sending _ => (c.closeOnce s).modSource s fun src => { src with sender := .returned }
  | _ => c

def step (d : Draws) (c : Coordinator) : Op → Coordinator
  | .register provider names order =>
    if order.isPerm c.enrolledStreams then (c.register d provider names order).1 else c
  | .discover caller names follow members => c.discoverSwarm d caller names follow members
  | .answer s a => if s < c.nSources then (c.answer d s a).1 else c
  | .change s ch order =>
    if s < c.nSources ∧ order.isPerm c.callers then (c.change d s ch order).1 else c
  | .closeSource s => if s < c.nSources then c.closeOnce s else c
  | .closeStream i => if i < c.nStreams then c.closeStream i else c
  | .run i =>
    if i < c.nStreams ∧ (c.streams i).writer = .idle then c.modStream i (·.runTurn) else c
  | .awake i =>
    if i < c.nStreams ∧ (c.streams i).writer = .waiting ∧ (c.streams i).wake then
      c.modStream i fun st => { st with writer := .idle, wake := false }
    else c
  | .wrote i => if i < c.nStreams then c.wrote i else c
  | .writeFailed i => if i < c.nStreams then c.writeFailed i else c
  | .send s =>
    match (c.sources s).sender with
    | .idle => if s < c.nSources then c.modSource s sendTurn else c
    | _ => c
  | .sendAwake s =>
    match (c.sources s).sender with
    | .waiting =>
      if s < c.nSources ∧ ((c.sources s).askWake ∨ (c.sources s).closed) then
        c.modSource s fun src => { src with sender := .idle, askWake := false }
      else c
    | _ => c
  | .sendOk s => if s < c.nSources then c.sendOk s else c
  | .sendFailed s => if s < c.nSources then c.sendFailed s else c
  | .remoteOffer r u => if r < c.nRemotes then c.remoteOffer r u else c
  | .remoteRemove r keys => if r < c.nRemotes then c.remoteRemove r keys else c
  | .remoteInitial r incomplete => if r < c.nRemotes then c.remoteInitial r incomplete else c
  | .remoteLost r => if r < c.nRemotes then c.remoteLost r else c
  | .requestExpired s id => if s < c.nSources then c.requestExpired d s id else c
  | .budgetExpired i => if i < c.nStreams then c.budgetExpired i else c

def exec (d : Draws) (ops : List Op) : Coordinator :=
  Trace.exec (step d) .new ops

/-- Every operation of the run meets `P` in the state it finds. -/
abbrev Along (d : Draws) (P : Coordinator → Op → Prop) (ops : List Op) : Prop :=
  Trace.Along (fun ops op => P (exec d ops) op) ops

end Coordinator

end Astrald.Services
