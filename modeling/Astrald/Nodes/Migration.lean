import Astrald.Nodes.Session
import Astrald.Lib.Trace

/-!
# Two endpoints migrating one session

The model of `session_migrator.go`, `migrate_session.go` and `op_migrate_session.go`, and of the
system they are part of: two nodes, two links with in-order lossless delivery, and one signalling
channel for the migration that is running.

`initiateMigration` and `acceptMigration` with `respondMigration` are cut where another goroutine
can get in: `Point` is the call an endpoint's migration makes next, `Role.next` the order of the
calls. `Endpoint.run` makes the call, `Endpoint.abort` makes it return an error; the deferred
`session.Close` is there from `Begin` on.

A step of the system is one such call, a turn of an application's `Read` or `Write`, a `Data`
frame of a `Write` going out, the handling of one frame, or the loss of a signal. Migrations run
one after another: `start` needs both endpoints to be done with the previous one. The code does not
see to that: it asks only that the session is open, and a session that `Complete` has opened again
can be migrated while the last migration has still to call `Grow` and `Resume`. Such an overlap is not
part of the model.
-/

namespace Astrald.Nodes

inductive Role
  | initiator
  | responder
  deriving DecidableEq, Repr

/-- The call that the migration running at an endpoint makes next. -/
inductive Point
  | idle
  | awaitReady
  | begin
  | pause
  | takeBuf
  | swapBuf
  | setNextBuffer
  | sendReady
  | awaitSwitched
  | sendMigrate
  | sendSwitched
  | waitClosed
  | sendResume
  | awaitResume
  | awaitDone
  | removeSession
  | addSession
  | setState
  | grow
  | resume
  | sendDone
  deriving DecidableEq, Repr

/-- The calls in the order of `initiateMigration`, and of `acceptMigration` with
`respondMigration`. -/
def Role.next : Role → Point → Point
  | .responder, .awaitReady => .begin
  | _, .begin => .pause
  | _, .pause => .takeBuf
  | _, .takeBuf => .swapBuf
  | _, .swapBuf => .setNextBuffer
  | .initiator, .setNextBuffer => .sendReady
  | .initiator, .sendReady => .awaitSwitched
  | .initiator, .awaitSwitched => .sendMigrate
  | .initiator, .sendMigrate => .waitClosed
  | .initiator, .waitClosed => .sendResume
  | .initiator, .sendResume => .awaitDone
  | .initiator, .awaitDone => .removeSession
  | .responder, .setNextBuffer => .sendMigrate
  | .responder, .sendMigrate => .sendSwitched
  | .responder, .sendSwitched => .waitClosed
  | .responder, .waitClosed => .awaitResume
  | .responder, .awaitResume => .removeSession
  | _, .removeSession => .addSession
  | _, .addSession => .setState
  | _, .setState => .grow
  | _, .grow => .resume
  | .responder, .resume => .sendDone
  | _, _ => .idle

inductive Signal
  | ready (buffer : ℕ)
  | switched (buffer : ℕ)
  | resume
  | done
  deriving DecidableEq, Repr

/-- `SessionMigrator` and the progress of the function that drives it. -/
structure Migrator where
  role : Role
  point : Point
  peerBuffer : ℕ
  oldLink : Option LinkID
  newLink : LinkID
  oldInputBuffer : Option ℕ
  deriving DecidableEq, Repr

def Migrator.new (role : Role) (target : LinkID) : Migrator where
  role
  point := match role with
    | .initiator => .begin
    | .responder => .awaitReady
  peerBuffer := 0
  oldLink := none
  newLink := target
  oldInputBuffer := none

structure Endpoint where
  session : Session
  migrator : Migrator

/-- What a call leaves: the endpoint, the frame and the signal it sends, and the signals it has not
taken. -/
structure Outcome where
  self : Endpoint
  frame : Option (LinkID × Frame)
  signal : Option Signal
  inbox : List Signal

namespace Endpoint

def goto (e : Endpoint) (p : Point) : Endpoint := { e with migrator := { e.migrator with point := p } }

def advance (e : Endpoint) : Endpoint := e.goto (e.migrator.role.next e.migrator.point)

def setSession (e : Endpoint) (s : Session) : Endpoint := { e with session := s }

/-- The function returns an error with `defer session.Close()` in force. -/
def closing (e : Endpoint) : Endpoint × Option (LinkID × Frame) :=
  ((e.setSession e.session.close.1).goto .idle, e.session.close.2)

/-- The call at the endpoint's point returns an error: a signal that does not arrive or is not the
one expected, a failed send, a timeout, a session that is not where `Complete` looks for it. The
other calls return none. Before `Begin` has succeeded there is no deferred close. -/
def abort (e : Endpoint) : Endpoint × Option (LinkID × Frame) :=
  match e.migrator.point with
  | .awaitReady => (e.goto .idle, none)
  | .sendReady | .awaitSwitched | .sendMigrate | .sendSwitched | .waitClosed | .sendResume
  | .awaitResume | .awaitDone | .removeSession | .addSession | .sendDone =>
    if e.session.writer.locked then (e, none) else e.closing
  | .idle | .begin | .pause | .takeBuf | .swapBuf | .setNextBuffer | .setState | .grow | .resume =>
    (e, none)

def alone (e : Endpoint) (inbox : List Signal) : Outcome := ⟨e, none, none, inbox⟩

def tell (e : Endpoint) (sig : Signal) (inbox : List Signal) : Outcome :=
  ⟨e.advance, none, some sig, inbox⟩

/-- `ExpectMigrateSignal`: waits for a signal and fails on any but the one expected, which gives
`e'`. -/
def expect (e : Endpoint) (inbox : List Signal) (want : Signal → Option Endpoint) : Outcome :=
  match inbox with
  | [] => e.alone []
  | sig :: rest =>
    match want sig with
    | some e' => e'.advance.alone rest
    | none => ⟨e.abort.1, e.abort.2, none, rest⟩

def setPeerBuffer (e : Endpoint) (n : ℕ) : Endpoint :=
  { e with migrator := { e.migrator with peerBuffer := n } }

def whenUnlocked (e : Endpoint) (inbox : List Signal) (e' : Endpoint) : Outcome :=
  if e.session.writer.locked then e.alone inbox else e'.alone inbox

/-- The first step of `Begin`: the session must be open, and the link it is on is noted. -/
def begin (e : Endpoint) : Endpoint :=
  if e.session.state = .open then
    ({ session := { e.session with state := .migrating }
       migrator := { e.migrator with oldLink := e.session.registered } } : Endpoint).advance
  else e.goto .idle

def setWriter (e : Endpoint) (w : Writer) : Endpoint := e.setSession { e.session with writer := w }

def swapBuf (e : Endpoint) : Endpoint :=
  e.setWriter (e.session.writer.swapBuf (OutputBuffer.new e.migrator.newLink) e.migrator.newLink)

def setNextBuffer (e : Endpoint) : Endpoint :=
  e.setSession { e.session with
    reader := e.session.reader.setNextBuffer (InputBuffer.new defaultBufferSize e.migrator.newLink) }

def shut (e : Endpoint) : Bool :=
  e.migrator.oldInputBuffer.elim false fun k => (e.session.reader.inputs k).closed

def moves (e : Endpoint) : Bool :=
  e.migrator.oldLink.elim false fun l => l ≠ e.migrator.newLink

def removeSession (e : Endpoint) (inbox : List Signal) : Outcome :=
  if e.moves then
    if e.session.registered = e.migrator.oldLink then
      (e.setSession { e.session with registered := none }).advance.alone inbox
    else ⟨e.abort.1, e.abort.2, none, inbox⟩
  else (e.goto .setState).alone inbox

def addSession (e : Endpoint) (inbox : List Signal) : Outcome :=
  if e.session.registered = some e.migrator.newLink then ⟨e.abort.1, e.abort.2, none, inbox⟩
  else
    (e.setSession { e.session with
      registered := some e.migrator.newLink
      onClose := e.migrator.newLink }).advance.alone inbox

def run (e : Endpoint) (inbox : List Signal) : Outcome :=
  match e.migrator.point with
  | .idle => e.alone inbox
  | .awaitReady => e.expect inbox fun
    | .ready n => some (e.setPeerBuffer n)
    | _ => none
  | .begin => e.begin.alone inbox
  | .pause => e.whenUnlocked inbox (e.setWriter e.session.writer.pause).advance
  | .takeBuf =>
    { e with migrator := { e.migrator with
        oldInputBuffer := some e.session.reader.buf } }.advance.alone inbox
  | .swapBuf => e.whenUnlocked inbox e.swapBuf.advance
  | .setNextBuffer => e.setNextBuffer.advance.alone inbox
  | .sendReady => e.tell (.ready defaultBufferSize) inbox
  | .awaitSwitched => e.expect inbox fun
    | .switched n => some (e.setPeerBuffer n)
    | _ => none
  | .sendMigrate => ⟨e.advance, e.migrator.oldLink.map (·, .migrate), none, inbox⟩
  | .sendSwitched => e.tell (.switched defaultBufferSize) inbox
  | .waitClosed => if e.shut then e.advance.alone inbox else e.alone inbox
  | .sendResume => e.tell .resume inbox
  | .awaitResume => e.expect inbox fun
    | .resume => some e
    | _ => none
  | .awaitDone => e.expect inbox fun
    | .done => some e
    | _ => none
  | .removeSession => e.removeSession inbox
  | .addSession => e.addSession inbox
  | .setState => (e.setSession { e.session with state := .open }).advance.alone inbox
  | .grow => e.whenUnlocked inbox (e.setWriter (e.session.writer.grow e.migrator.peerBuffer)).advance
  | .resume => e.whenUnlocked inbox (e.setWriter e.session.writer.resume).advance
  | .sendDone => e.tell .done inbox

end Endpoint

/-! ## The system -/

inductive Side
  | a
  | b
  deriving DecidableEq, Repr

def Side.peer : Side → Side
  | .a => .b
  | .b => .a

/-- `wire x l` and `signals x` are what side `x` has sent, on link `l` and on the signalling
channel, and the other side has not handled. -/
structure System where
  ends : Side → Endpoint
  wire : Side → LinkID → List Frame
  signals : Side → List Signal

inductive Op
  /-- `x` starts to migrate the session to `target`. -/
  | start (x : Side) (target : LinkID)
  /-- The migration at `x` makes its next call. -/
  | run (x : Side)
  | abort (x : Side)
  /-- The oldest signal of `x` is lost. -/
  | lose (x : Side)
  /-- The mux of link `l` at `x` handles the oldest frame. -/
  | deliver (x : Side) (l : LinkID)
  | write (x : Side) (p : List Byte)
  | transmit (x : Side)
  | read (x : Side) (n : ℕ)
  /-- The application at `x` closes the session. -/
  | close (x : Side)
  deriving DecidableEq, Repr

def sentOn (frame : Option (LinkID × Frame)) (l : LinkID) : List Frame :=
  match frame with
  | none => []
  | some (k, f) => if k = l then [f] else []

namespace System

def put (s : System) (x : Side) (e : Endpoint) (frame : Option (LinkID × Frame)) : System :=
  { s with
    ends := Function.update s.ends x e
    wire := Function.update s.wire x fun l => s.wire x l ++ sentOn frame l }

def putSession (s : System) (x : Side) (r : Session × Option (LinkID × Frame)) : System :=
  s.put x ((s.ends x).setSession r.1) r.2

def setWire (s : System) (x : Side) (l : LinkID) (w : List Frame) : System :=
  { s with wire := Function.update s.wire x (Function.update (s.wire x) l w) }

/-- The checks of `OpMigrateSession`, which hold for the session that the initiator picks too, and
that the last migration of the endpoint has returned, which the code does not check. -/
def movable (s : System) (x : Side) (target : LinkID) : Bool :=
  (s.ends x).migrator.point = .idle ∧ (s.ends x).session.state = .open ∧
    (s.ends x).session.registered = some target.other

def start (s : System) (x : Side) (target : LinkID) : System :=
  if s.movable x target && s.movable x.peer target then
    { s with
      ends := fun y => { s.ends y with
        migrator := Migrator.new (if y = x then .initiator else .responder) target }
      signals := fun _ => [] }
  else s

def runAt (s : System) (x : Side) : System :=
  let o := (s.ends x).run (s.signals x.peer)
  { s.put x o.self o.frame with
    signals := Function.update (Function.update s.signals x.peer o.inbox) x
      (s.signals x ++ o.signal.toList) }

def deliver (s : System) (x : Side) (l : LinkID) : System :=
  match s.wire x.peer l with
  | [] => s
  | f :: rest =>
    match (s.ends x).session.handle l f with
    | none => s
    | some r => (s.setWire x.peer l rest).putSession x r

/-- One step. A step that is not enabled changes nothing. -/
def step (s : System) : Op → System
  | .start x target => s.start x target
  | .run x => s.runAt x
  | .abort x => s.put x (s.ends x).abort.1 (s.ends x).abort.2
  | .lose x => { s with signals := Function.update s.signals x (s.signals x).tail }
  | .deliver x l => s.deliver x l
  | .write x p => s.putSession x ((s.ends x).session.write p, none)
  | .transmit x => s.putSession x (s.ends x).session.transmit
  | .read x n => s.putSession x ((s.ends x).session.read n)
  | .close x =>
    if (s.ends x).session.writer.locked then s else s.putSession x (s.ends x).session.close

def opened : System where
  ends _ := { session := Session.opened .first, migrator := { Migrator.new .initiator .first with point
    := .idle } }
  wire _ _ := []
  signals _ := []

def exec (ops : List Op) : System := Trace.exec step opened ops

end System

end Astrald.Nodes
