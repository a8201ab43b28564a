import Mathlib
import Astrald.Lib.Trace

/-!
# The gateway's handoff of an idle connection

A registered node keeps idle connections open to its gateway. Both ends run `eventLoop`: they ping
when the connection has been silent, and when the gateway claims the connection it sends `Handoff`,
the client answers `HandoffAck`, and each loop ends with the raw stream left to its next owner. The
stream is in order and lossless, and is modelled frame by frame; a loop's steps are its sends, its
receives and the checks between them, at any time and in any interleaving.

* `Orderly`: what the two loops and the frames in flight are to each other at any moment;
* `Orderly.apply`: every step keeps it;
* `Quiet.apply`: loops that are not held up do not ping, neither the client's nor the gateway's after its
  `Handoff`: `Receive` runs into its deadline first, and the loop ends;
* `handoff_clean`: readiness is never one-sided, and in every run whose loops are not held up the next
  readers see application bytes only;
* `pong_left_behind`: a client that is held up pings, and a `Ping` that crosses `Handoff` leaves its `Pong` in
  the client's stream.
-/

namespace Astrald.Gateway

open List

inductive Role
  | client
  | gateway
  deriving DecidableEq, Repr

inductive Frame
  | ping (pong : Bool)
  | handoff
  | handoffAck
  /-- A byte that the connection's next owner wrote. -/
  | app (b : UInt8)
  deriving DecidableEq, Repr

/-! ## The event loop -/

def second : ℕ := 10 ^ 9

def pingInterval : ℕ := 30 * second

def pingTimeout : ℕ := 60 * second

def handoffPollInterval : ℕ := second

inductive Phase
  | top
  /-- Past the handoff check of an iteration. -/
  | checked (now : ℕ)
  | receiving
  /-- A `Ping` came in. -/
  | ponging
  /-- A `Handoff` came in. -/
  | acking
  | ended
  deriving DecidableEq, Repr

structure IdleConn where
  role : Role
  phase : Phase := .top
  lastActivity : ℕ
  /-- The zero time before the first ping. -/
  lastPing : Option ℕ := none
  /-- When `Receive` gives up. -/
  deadline : ℕ := 0
  /-- When `Receive` returned last, or the loop began. -/
  woke : ℕ
  handoffDone : Bool := false
  handoffSuccess : Bool := false
  /-- `handoffCh` is closed; the gateway's only. -/
  claimed : Bool := false
  confirmed : Bool := false
  ready : Bool := false
  closed : Bool := false
  /-- What the next owner wrote, and what it read. -/
  sent : List UInt8 := []
  got : List Frame := []
  deriving DecidableEq, Repr

/-- The two ends and the frames on their way to each. -/
structure System where
  client : IdleConn
  gateway : IdleConn
  toClient : List Frame := []
  toGateway : List Frame := []
  deriving DecidableEq, Repr

def init (start : Role → ℕ) : System where
  client := { role := .client, lastActivity := start .client, woke := start .client }
  gateway := { role := .gateway, lastActivity := start .gateway, woke := start .gateway }

def System.conn (s : System) : Role → IdleConn
  | .client => s.client
  | .gateway => s.gateway

def System.incoming (s : System) : Role → List Frame
  | .client => s.toClient
  | .gateway => s.toGateway

def System.set (s : System) (r : Role) (conn : IdleConn) : System :=
  match r with
  | .client => { s with client := conn }
  | .gateway => { s with gateway := conn }

def System.send (s : System) (r : Role) (frame : Frame) : System :=
  match r with
  | .client => { s with toGateway := s.toGateway ++ [frame] }
  | .gateway => { s with toClient := s.toClient ++ [frame] }

def System.drop (s : System) (r : Role) : System :=
  match r with
  | .client => { s with toClient := s.toClient.tail }
  | .gateway => { s with toGateway := s.toGateway.tail }

/-- The loop returns without success: its deferred function closes the connection. -/
def IdleConn.fail (conn : IdleConn) : IdleConn := { conn with phase := .ended, closed := true }

def IdleConn.succeed (conn : IdleConn) : IdleConn :=
  { conn with phase := .ended, handoffSuccess := true, ready := true }

def IdleConn.offers (conn : IdleConn) : Bool := conn.role = .gateway && !conn.handoffDone && conn.claimed

/-- `Ping` is due in an iteration that started at `now`. -/
def IdleConn.pingDue (conn : IdleConn) (now : ℕ) : Bool :=
  pingInterval ≤ now - conn.lastActivity && conn.lastPing.all fun last => pingInterval ≤ now - last

/-- The head of the loop, up to the handoff check. -/
def check (s : System) (r : Role) (now : ℕ) : System :=
  let conn := s.conn r
  if conn.offers then
    (s.send r .handoff).set r
      { conn with phase := .checked now, handoffDone := true, lastActivity := now, lastPing := some now }
  else s.set r { conn with phase := .checked now }

def IdleConn.readWait (conn : IdleConn) : ℕ :=
  if conn.role = .gateway && !conn.handoffDone then handoffPollInterval else pingTimeout

/-- The rest of an iteration that started at `now`, up to `Receive`. -/
def ping (s : System) (r : Role) (now : ℕ) : System :=
  let conn := s.conn r
  if conn.pingDue now then
    (s.send r (.ping false)).set r
      { conn with phase := .receiving, lastPing := some now, deadline := now + conn.readWait }
  else s.set r { conn with phase := .receiving, deadline := now + conn.readWait }

/-- `Receive` gives a frame; what it leads to is the phase after it. -/
def receive (s : System) (r : Role) (now : ℕ) : System :=
  let conn := { s.conn r with lastActivity := now, confirmed := true, woke := now }
  match s.incoming r with
  | [] => s
  | .ping false :: _ => (s.drop r).set r { conn with phase := .ponging }
  | .ping true :: _ => (s.drop r).set r { conn with phase := .top }
  | .handoff :: _ => (s.drop r).set r { conn with phase := .acking }
  | .handoffAck :: _ => (s.drop r).set r conn.succeed
  | .app _ :: _ => (s.drop r).set r conn.fail

/-- `Receive` runs into its deadline. -/
def timeout (s : System) (r : Role) (now : ℕ) : System :=
  let conn := s.conn r
  if pingTimeout ≤ now - conn.lastActivity then s.set r conn.fail
  else s.set r { conn with phase := .top, woke := now }

inductive Op
  /-- `claimConn` or `activate` closes `handoffCh`. -/
  | claim
  /-- One step of a loop; the time is what the step reads from the clock, if it does. -/
  | run (r : Role) (now : ℕ)
  | timeout (r : Role) (now : ℕ)
  | fail (r : Role)
  /-- `Close` from outside of the loop. -/
  | close (r : Role)
  /-- The next owner writes a byte, or reads. -/
  | write (r : Role) (b : UInt8)
  | read (r : Role)
  deriving DecidableEq, Repr

/-- A step of `eventLoop` that sends, receives or checks; on a closed connection it fails. -/
def runLoop (s : System) (r : Role) (now : ℕ) : System :=
  let conn := s.conn r
  if conn.phase ≠ .ended ∧ conn.closed then s.set r conn.fail
  else
    match conn.phase with
    | .top => check s r now
    | .checked started => ping s r started
    | .receiving => receive s r now
    | .ponging => (s.send r (.ping true)).set r { conn with phase := .top }
    | .acking => (s.send r .handoffAck).set r conn.succeed
    | .ended => s

def owned (s : System) (r : Role) : Bool := (s.conn r).ready && !(s.conn r).closed

def step (s : System) : Op → System
  | .claim => { s with gateway := { s.gateway with claimed := true } }
  | .run r now => runLoop s r now
  | .timeout r now => if (s.conn r).phase = .receiving ∧ (s.conn r).deadline ≤ now then timeout s r now else s
  | .fail r => if (s.conn r).phase = .ended then s else s.set r (s.conn r).fail
  | .close r => s.set r { s.conn r with closed := true }
  | .write r b =>
    if owned s r then (s.send r (.app b)).set r { s.conn r with sent := (s.conn r).sent ++ [b] } else s
  | .read r =>
    match s.incoming r with
    | [] => s
    | frame :: _ =>
      if owned s r then (s.drop r).set r { s.conn r with got := (s.conn r).got ++ [frame] } else s

def exec (start : Role → ℕ) : List Op → System := Trace.exec step (init start)

/-! ## The frames to one end -/

def Frame.isPing : Frame → Bool
  | .ping _ => true
  | _ => false

/-- What the loop of one end and then its next owner get from the other: pings up to the marker with which
the loop ends, and `tail` after it. The marker may have been sent, and then it may have been taken. -/
inductive Flow (marker : Frame) : Bool → Bool → List Frame → List Frame → Prop
  | before {l : List Frame} (hpings : ∀ f ∈ l, f.isPing = true) : Flow marker false false [] l
  | crossing {pre : List Frame} (hpings : ∀ f ∈ pre, f.isPing = true) (tail : List Frame) :
      Flow marker true false tail (pre ++ marker :: tail)
  | after (tail : List Frame) : Flow marker true true tail tail

namespace Flow

variable {marker f : Frame} {sent took : Bool} {tail l : List Frame}

theorem ping (h : Flow marker sent took tail l) (hsent : sent = false) (pong : Bool) :
    Flow marker sent took tail (l ++ [.ping pong]) := by
  cases h with
  | before hpings => exact .before (forall_mem_append.mpr ⟨hpings, by simp [Frame.isPing]⟩)
  | crossing | after => cases hsent

theorem mark (h : Flow marker sent took tail l) (hsent : sent = false) : Flow marker true took tail (l ++ [marker]) := by
  cases h with
  | before hpings => exact .crossing hpings []
  | crossing | after => cases hsent

theorem extend (h : Flow marker sent took tail l) (hsent : sent = true) (f : Frame) :
    Flow marker sent took (tail ++ [f]) (l ++ [f]) := by
  cases h with
  | before => cases hsent
  | crossing hpings =>
    rw [append_assoc, cons_append]
    exact .crossing hpings _
  | after => exact .after _

/-- A loop receives a ping, or its marker and has `tail` to come. -/
theorem receive (h : Flow marker sent false tail (f :: l)) :
    (∃ pong, f = .ping pong) ∧ Flow marker sent false tail l ∨ f = marker ∧ Flow marker sent true tail l := by
  have hping : f.isPing = true → ∃ pong, f = .ping pong := by
    intro hf
    cases f with
    | ping pong => exact ⟨pong, rfl⟩
    | handoff | handoffAck | app b => cases hf
  generalize hstream : f :: l = stream at h
  cases h with
  | before hpings =>
    subst hstream
    exact .inl ⟨hping (hpings f mem_cons_self), .before fun g hg => hpings g (mem_cons_of_mem f hg)⟩
  | @crossing pre hpings =>
    cases pre with
    | nil =>
      cases hstream
      exact .inr ⟨rfl, .after _⟩
    | cons g pre =>
      cases hstream
      exact .inl ⟨hping (hpings f mem_cons_self), .crossing (fun g hg => hpings g (mem_cons_of_mem f hg)) _⟩

theorem taken (h : Flow marker sent true tail l) : sent = true ∧ l = tail := by
  cases h
  exact ⟨rfl, rfl⟩

theorem marker_mem (h : Flow marker true false tail l) : marker ∈ l := by
  cases h
  exact mem_append_right _ mem_cons_self

end Flow

/-! ## The two loops -/

namespace Role

def other : Role → Role
  | .client => .gateway
  | .gateway => .client

/-- What ends the loop of either end. -/
def marker : Role → Frame
  | .client => .handoff
  | .gateway => .handoffAck

/-- `post` is what the gateway writes after its `Handoff`; the client writes no frame after its answer. -/
def stray (post : List Frame) : Role → List Frame
  | .client => post
  | .gateway => []

@[simp] theorem other_other (r : Role) : r.other.other = r := by cases r <;> rfl

theorem eq_or_other (r r' : Role) : r' = r ∨ r' = r.other := by cases r <;> cases r' <;> simp [other]

end Role

namespace System

variable (s : System) (r : Role) (conn : IdleConn) (frame : Frame)

@[simp] theorem conn_set : (s.set r conn).conn r = conn := by cases r <;> rfl

@[simp] theorem conn_set_other : (s.set r conn).conn r.other = s.conn r.other := by cases r <;> rfl

@[simp] theorem incoming_set (r' : Role) : (s.set r conn).incoming r' = s.incoming r' := by cases r <;> rfl

@[simp] theorem conn_send (r' : Role) : (s.send r frame).conn r' = s.conn r' := by cases r <;> rfl

@[simp] theorem incoming_send : (s.send r frame).incoming r = s.incoming r := by cases r <;> rfl

@[simp] theorem incoming_send_other : (s.send r frame).incoming r.other = s.incoming r.other ++ [frame] := by
  cases r <;> rfl

@[simp] theorem conn_drop (r' : Role) : (s.drop r).conn r' = s.conn r' := by cases r <;> rfl

@[simp] theorem incoming_drop : (s.drop r).incoming r = (s.incoming r).tail := by cases r <;> rfl

@[simp] theorem incoming_drop_other : (s.drop r).incoming r.other = s.incoming r.other := by cases r <;> rfl

end System

namespace IdleConn

/-- The loop has sent what ends the other one. -/
def handed (conn : IdleConn) : Bool :=
  match conn.role with
  | .client => conn.handoffSuccess
  | .gateway => conn.handoffDone

/-- The loop has received what ends it. -/
def took (conn : IdleConn) : Bool := conn.handoffSuccess || conn.phase = .acking

def Failed (conn : IdleConn) : Prop := conn.phase = .ended ∧ conn.handoffSuccess = false

/-- The loop is not about to send a `Ping` or a `Pong`. -/
def Mute (conn : IdleConn) : Prop :=
  (∀ now, conn.phase = .checked now → conn.pingDue now = false) ∧ conn.phase ≠ .ponging

end IdleConn

structure Local (conn : IdleConn) : Prop where
  ready : conn.ready = conn.handoffSuccess
  ended : conn.phase = .ended → conn.handoffSuccess = true ∨ conn.closed = true
  success : conn.handoffSuccess = true → conn.phase = .ended
  idle : conn.handoffSuccess = false → conn.sent = [] ∧ conn.got = []
  acks : conn.phase = .acking → conn.role = .client

namespace Local

variable {conn : IdleConn} (h : Local conn)
include h

theorem running (hphase : conn.phase ≠ .ended) : conn.handoffSuccess = false := by
  by_contra hsuccess
  exact hphase (h.success (by simpa using hsuccess))

/-- A loop that runs has not received what ends it, and its next owner has done nothing. -/
theorem took (hrun : conn.phase ≠ .acking ∧ conn.phase ≠ .ended) :
    conn.took = false ∧ ¬ conn.Failed ∧ conn.sent = [] ∧ conn.got = [] :=
  ⟨by simp [IdleConn.took, h.running hrun.2, hrun.1], fun hf => hrun.2 hf.1, h.idle (h.running hrun.2)⟩

end Local

theorem Local.succeed (conn : IdleConn) : Local conn.succeed :=
  ⟨rfl, fun _ => .inl rfl, fun _ => rfl, fun hs => absurd hs (by simp [IdleConn.succeed]), nofun⟩

/-- A loop moves on without a frame that changes where the two ends are to each other. -/
structure Alike (conn conn' : IdleConn) : Prop where
  role : conn'.role = conn.role
  handoffDone : conn'.handoffDone = conn.handoffDone
  handoffSuccess : conn'.handoffSuccess = conn.handoffSuccess
  ready : conn'.ready = conn.ready
  sent : conn'.sent = conn.sent
  got : conn'.got = conn.got
  phase : conn'.phase = conn.phase ∨ conn'.phase = .ended ∨
    conn.phase ≠ .acking ∧ conn.phase ≠ .ended ∧ conn'.phase ≠ .acking
  atEnd : conn'.phase = .ended → conn'.handoffSuccess = true ∨ conn'.closed = true

namespace Alike

variable {conn conn' : IdleConn}

theorem keeps_local (ha : Alike conn conn') (h : Local conn) : Local conn' where
  ready := by rw [ha.ready, ha.handoffSuccess, h.ready]
  ended := ha.atEnd
  success := by
    intro hsuccess
    have hended := h.success (ha.handoffSuccess.symm.trans hsuccess)
    rcases ha.phase with hphase | hphase | ⟨-, hlive, -⟩
    · exact hphase.trans hended
    · exact hphase
    · exact absurd hended hlive
  idle := by
    rw [ha.handoffSuccess, ha.sent, ha.got]
    exact h.idle
  acks := by
    intro hacking
    rw [ha.role]
    rcases ha.phase with hphase | hphase | ⟨-, -, hnot⟩
    · exact h.acks (hphase.symm.trans hacking)
    · cases hphase.symm.trans hacking
    · exact absurd hacking hnot

theorem handed (ha : Alike conn conn') : conn'.handed = conn.handed := by
  rw [IdleConn.handed, IdleConn.handed, ha.role, ha.handoffDone, ha.handoffSuccess]

theorem took (ha : Alike conn conn') (hlive : ¬ conn'.Failed) : ¬ conn.Failed ∧ conn'.took = conn.took := by
  have hsuccess := ha.handoffSuccess
  have hphase := ha.phase
  simp only [IdleConn.Failed, IdleConn.took] at hlive ⊢
  grind

/-- A loop that runs goes on with another phase; its times do not matter. -/
theorem turn {phase : Phase} (hrun : conn.phase ≠ .acking ∧ conn.phase ≠ .ended)
    (hto : phase ≠ .acking ∧ phase ≠ .ended) (lastActivity : ℕ) (lastPing : Option ℕ) (deadline woke : ℕ)
    (confirmed : Bool) : Alike conn { conn with phase, lastActivity, lastPing, deadline, woke, confirmed } :=
  ⟨rfl, rfl, rfl, rfl, rfl, rfl, .inr (.inr ⟨hrun.1, hrun.2, hto.1⟩), fun hended => absurd hended hto.2⟩

theorem fail (conn : IdleConn) : Alike conn conn.fail :=
  ⟨rfl, rfl, rfl, rfl, rfl, rfl, .inr (.inl rfl), fun _ => .inr rfl⟩

theorem close (conn : IdleConn) : Alike conn { conn with closed := true } :=
  ⟨rfl, rfl, rfl, rfl, rfl, rfl, .inl rfl, fun _ => .inr rfl⟩

end Alike

/-- Where the two loops are to each other. Nothing is said of the frames to a loop that has failed. -/
structure Orderly (s : System) (post : List Frame) : Prop where
  role : ∀ r, (s.conn r).role = r
  loops : ∀ r, Local (s.conn r)
  flow : ∀ r, ¬ (s.conn r).Failed → Flow r.marker (s.conn r.other).handed (s.conn r).took
    (r.stray post ++ (s.conn r.other).sent.map .app) ((s.conn r).got ++ s.incoming r)

namespace Orderly

variable {s : System} {post : List Frame} {r : Role} {conn : IdleConn} (h : Orderly s post)
include h

/-- What a step of one end does to the frames of either direction. -/
theorem goes {s' : System} {post' : List Frame} (hother : s'.conn r.other = s.conn r.other)
    (hrole : (s'.conn r).role = r) (hlocal : Local (s'.conn r))
    (hin : ¬ (s'.conn r).Failed → Flow r.marker (s.conn r.other).handed (s'.conn r).took
      (r.stray post' ++ (s.conn r.other).sent.map .app) ((s'.conn r).got ++ s'.incoming r))
    (hout : ¬ (s.conn r.other).Failed → Flow r.other.marker (s'.conn r).handed (s.conn r.other).took
      (r.other.stray post' ++ (s'.conn r).sent.map .app) ((s.conn r.other).got ++ s'.incoming r.other)) :
    Orderly s' post' := by
  refine ⟨fun r' => ?_, fun r' => ?_, fun r' => ?_⟩ <;> obtain rfl | rfl := r.eq_or_other r'
  · exact hrole
  · rw [hother]
    exact h.role _
  · exact hlocal
  · rw [hother]
    exact h.loops _
  · rw [hother]
    exact hin
  · rw [hother, Role.other_other]
    exact hout

/-- The frames from `r`, as the other direction has them. -/
theorem flow_other (hlive : ¬ (s.conn r.other).Failed) : Flow r.other.marker (s.conn r).handed (s.conn r.other).took
    (r.other.stray post ++ (s.conn r).sent.map .app) ((s.conn r.other).got ++ s.incoming r.other) := by
  have hflow := h.flow r.other hlive
  rwa [Role.other_other] at hflow

/-- A loop that goes on without a frame. -/
theorem moves (r : Role) (ha : Alike (s.conn r) conn) : Orderly (s.set r conn) post := by
  refine h.goes (r := r) ?_ ?_ ?_ ?_ ?_ <;> simp only [System.conn_set, System.conn_set_other, System.incoming_set]
  · exact ha.role.trans (h.role r)
  · exact ha.keeps_local (h.loops r)
  · intro hlive
    obtain ⟨hlive', htook⟩ := ha.took hlive
    rw [htook, ha.got]
    exact h.flow r hlive'
  · rw [ha.handed, ha.sent]
    exact h.flow_other

/-- A loop sends what ends the other one. -/
theorem marks (hrun : (s.conn r).phase ≠ .ended) (hhanded : (s.conn r).handed = false)
    (hconn : conn.role = r ∧ conn.handed = true ∧ conn.took = (s.conn r).took ∧ conn.sent = (s.conn r).sent ∧
      conn.got = (s.conn r).got) (hlocal : Local conn) :
    Orderly ((s.send r r.other.marker).set r conn) post := by
  obtain ⟨hrole, hgives, htook, hsent, hgot⟩ := hconn
  refine h.goes (r := r) ?_ ?_ ?_ ?_ ?_ <;> simp only [System.conn_set, System.conn_set_other, System.conn_send,
    System.incoming_set, System.incoming_send, System.incoming_send_other]
  · exact hrole
  · exact hlocal
  · intro _
    rw [htook, hgot]
    exact h.flow r fun hf => hrun hf.1
  · intro hlive
    rw [hgives, hsent, ← append_assoc]
    exact (h.flow_other hlive).mark hhanded

/-- A `Ping` or a `Pong`: the other loop reads it, unless it is the gateway's and comes after its `Handoff`. -/
theorem pings (r : Role) (pong : Bool) (hrun : (s.conn r).phase ≠ .ended) :
    ∃ post', Orderly (s.send r (.ping pong)) post' ∧ ((s.conn r).handed = false → post' = post) := by
  have hsent := ((h.loops r).idle ((h.loops r).running hrun)).1
  have hin := h.flow r fun hf => hrun hf.1
  cases hhanded : (s.conn r).handed with
  | false =>
    refine ⟨post, h.goes (r := r) ?_ ?_ ?_ ?_ ?_, fun _ => rfl⟩ <;> simp only [System.conn_send, System.incoming_send,
      System.incoming_send_other]
    · exact h.role r
    · exact h.loops r
    · exact fun _ => hin
    · intro hlive
      rw [← append_assoc]
      exact (h.flow_other hlive).ping hhanded pong
  | true =>
    have hgateway : r = .gateway := by
      cases r with
      | client =>
        rw [IdleConn.handed, h.role, (h.loops _).running hrun] at hhanded
        cases hhanded
      | gateway => rfl
    subst hgateway
    refine ⟨post ++ [.ping pong], h.goes (r := .gateway) ?_ ?_ ?_ ?_ ?_, nofun⟩ <;> simp only [System.conn_send,
      System.incoming_send, System.incoming_send_other]
    · exact h.role _
    · exact h.loops _
    · exact fun _ => hin
    · intro hlive
      have hflow := (h.flow_other hlive).extend hhanded (.ping pong)
      rw [hsent, map_nil, append_nil] at hflow ⊢
      rw [← append_assoc]
      exact hflow

/-- A loop has received a frame. -/
theorem gets (hrole : conn.role = r) (hlocal : Local conn)
    (hconn : conn.handed = (s.conn r).handed ∧ conn.sent = (s.conn r).sent ∧ conn.got = [])
    (hflow : Flow r.marker (s.conn r.other).handed conn.took (r.stray post ++ (s.conn r.other).sent.map .app)
      (s.incoming r).tail) : Orderly ((s.drop r).set r conn) post := by
  refine h.goes (r := r) ?_ ?_ ?_ ?_ ?_ <;> simp only [System.conn_set, System.conn_set_other, System.conn_drop,
    System.incoming_set, System.incoming_drop, System.incoming_drop_other]
  · exact hrole
  · exact hlocal
  · rw [hconn.2.2]
    exact fun _ => hflow
  · rw [hconn.1, hconn.2.1]
    exact h.flow_other

/-! ### The next owners -/

/-- A loop has ended with success: the other one has sent what ends it, and what came after that is its next
owner's. -/
theorem taken (hsuccess : (s.conn r).handoffSuccess = true) : (s.conn r.other).handed = true ∧
    (s.conn r).got ++ s.incoming r = r.stray post ++ (s.conn r.other).sent.map .app := by
  have hflow := h.flow r (by simp [IdleConn.Failed, hsuccess])
  rw [show (s.conn r).took = true by simp [IdleConn.took, hsuccess]] at hflow
  exact hflow.taken

theorem handed_client : (s.conn .client).handed = (s.conn .client).handoffSuccess := by rw [IdleConn.handed, h.role]

theorem handed_of_success (hsuccess : (s.conn r).handoffSuccess = true) : (s.conn r).handed = true := by
  cases r with
  | client => exact h.handed_client.trans hsuccess
  | gateway => exact (h.taken (r := .client) (h.handed_client.symm.trans (h.taken hsuccess).1)).1

theorem writes (hsuccess : (s.conn r).handoffSuccess = true) (b : UInt8) :
    Orderly ((s.send r (.app b)).set r { s.conn r with sent := (s.conn r).sent ++ [b] }) post := by
  refine h.goes (r := r) ?_ ?_ ?_ ?_ ?_ <;> simp only [System.conn_set, System.conn_set_other, System.conn_send,
    System.incoming_set, System.incoming_send, System.incoming_send_other]
  · exact h.role r
  · exact { h.loops r with idle := by simp [hsuccess] }
  · exact h.flow r
  · intro hlive
    rw [map_append, ← append_assoc, ← append_assoc]
    exact (h.flow_other hlive).extend (h.handed_of_success hsuccess) (.app b)

theorem reads (hsuccess : (s.conn r).handoffSuccess = true) {frame : Frame} {rest : List Frame}
    (hframe : s.incoming r = frame :: rest) :
    Orderly ((s.drop r).set r { s.conn r with got := (s.conn r).got ++ [frame] }) post := by
  refine h.goes (r := r) ?_ ?_ ?_ ?_ ?_ <;> simp only [System.conn_set, System.conn_set_other, System.conn_drop,
    System.incoming_set, System.incoming_drop, System.incoming_drop_other]
  · exact h.role r
  · exact { h.loops r with idle := by simp [hsuccess] }
  · intro hlive
    have hflow := h.flow r hlive
    rw [hframe] at hflow
    rwa [hframe, tail_cons, append_assoc]
  · exact h.flow_other

/-! ### Every step -/

theorem check (hphase : (s.conn r).phase = .top) (now : ℕ) : Orderly (check s r now) post := by
  rw [Gateway.check]
  split
  · rename_i hoffers
    simp only [IdleConn.offers, Bool.and_eq_true, decide_eq_true_eq, Bool.not_eq_true'] at hoffers
    obtain ⟨⟨hrole, hdone⟩, -⟩ := hoffers
    obtain rfl : r = .gateway := (h.role r).symm.trans hrole
    have hnot := (h.loops .gateway).running (by simp [hphase])
    refine h.marks (r := .gateway) (by simp [hphase]) (by rw [IdleConn.handed, hrole, hdone])
      ⟨hrole, by simp [IdleConn.handed, hrole], by simp [IdleConn.took, hphase], rfl, rfl⟩ ?_
    exact { h.loops .gateway with ended := nofun, success := by simp [hnot], acks := nofun }
  · exact h.moves r (.turn (by simp [hphase]) (by simp) ..)

theorem ping {now : ℕ} (hphase : (s.conn r).phase = .checked now) : ∃ post', Orderly (ping s r now) post' ∧
    (((s.conn r).handed = true → (s.conn r).pingDue now = false) → post' = post) := by
  rw [Gateway.ping]
  split
  · rename_i hdue
    obtain ⟨post', hpings, hsame⟩ := h.pings r false (by simp [hphase])
    refine ⟨post', hpings.moves r ?_, fun hsilent => hsame ?_⟩
    · rw [System.conn_send]
      exact .turn (by simp [hphase]) (by simp) ..
    · by_contra hhanded
      exact absurd hdue (by simp [hsilent (by simpa using hhanded)])
  · exact ⟨post, h.moves r (.turn (by simp [hphase]) (by simp) ..), fun _ => rfl⟩

theorem receive (hphase : (s.conn r).phase = .receiving) (now : ℕ) : Orderly (receive s r now) post := by
  have hnot := (h.loops r).running (by simp [hphase])
  obtain ⟨htook, hlive, hsent, hgot⟩ := (h.loops r).took (by simp [hphase])
  have hflow := h.flow r hlive
  rw [htook, hgot, nil_append] at hflow
  cases hin : s.incoming r with
  | nil =>
    simp only [Gateway.receive, hin]
    exact h
  | cons f rest =>
    have htail : (s.incoming r).tail = rest := by rw [hin, tail_cons]
    rw [hin] at hflow
    rcases hflow.receive with ⟨⟨pong, rfl⟩, hrest⟩ | ⟨rfl, hrest⟩
    · have hheard : ∀ phase, phase ≠ .acking ∧ phase ≠ .ended → Orderly ((s.drop r).set r { s.conn r with
          phase, lastActivity := now, confirmed := true, woke := now }) post := by
        intro phase hto
        have ha : Alike (s.conn r) { s.conn r with phase, lastActivity := now, confirmed := true, woke := now } :=
          .turn (by simp [hphase]) hto ..
        refine h.gets (ha.role.trans (h.role r)) (ha.keeps_local (h.loops r)) ⟨ha.handed, rfl, hgot⟩ ?_
        rw [(ha.took fun hf => hto.2 hf.1).2, htook, htail]
        exact hrest
      cases pong with
      | false => simpa only [Gateway.receive, hin] using hheard .ponging (by simp)
      | true => simpa only [Gateway.receive, hin] using hheard .top (by simp)
    · rw [← htail] at hrest
      cases r with
      | client =>
        simp only [Gateway.receive, hin, Role.marker]
        refine h.gets (h.role _) ?_ ⟨rfl, rfl, hgot⟩ (by simpa [IdleConn.took] using hrest)
        exact { h.loops .client with ended := nofun, success := by simp [hnot], acks := fun _ => h.role .client }
      | gateway =>
        simp only [Gateway.receive, hin, Role.marker]
        refine h.gets (h.role _) (Local.succeed _) ⟨?_, rfl, hgot⟩ hrest
        simp [IdleConn.handed, IdleConn.succeed, h.role]

/-- What the gateway writes after its `Handoff` is what it has left to answer and its own pings. -/
theorem run (r : Role) (now : ℕ) : ∃ post', Orderly (runLoop s r now) post' ∧
    (((s.conn r).handed = true → (s.conn r).Mute) → post' = post) := by
  rw [runLoop]
  split
  · exact ⟨post, h.moves r (Alike.fail _), fun _ => rfl⟩
  · cases hphase : (s.conn r).phase with
    | top => exact ⟨post, h.check hphase now, fun _ => rfl⟩
    | checked started =>
      obtain ⟨post', hping, hsame⟩ := h.ping hphase
      exact ⟨post', hping, fun hmute => hsame fun hhanded => (hmute hhanded).1 started hphase⟩
    | receiving => exact ⟨post, h.receive hphase now, fun _ => rfl⟩
    | ponging =>
      obtain ⟨post', hpings, hsame⟩ := h.pings r true (by simp [hphase])
      refine ⟨post', hpings.moves r ?_, fun hmute => hsame ?_⟩
      · rw [System.conn_send]
        exact .turn (by simp [hphase]) (by simp) ..
      · by_contra hhanded
        exact (hmute (by simpa using hhanded)).2 hphase
    | acking =>
      obtain rfl : r = .client := (h.role r).symm.trans ((h.loops r).acks hphase)
      have hnot := (h.loops .client).running (by simp [hphase])
      refine ⟨post, h.marks (r := .client) (by simp [hphase]) (h.handed_client.trans hnot) ?_ (Local.succeed _),
        fun _ => rfl⟩
      exact ⟨h.role _, by simp [IdleConn.handed, IdleConn.succeed, h.role],
        by simp [IdleConn.took, IdleConn.succeed, hphase], rfl, rfl⟩
    | ended => exact ⟨post, h, fun _ => rfl⟩

theorem success_of_owned (howned : owned s r = true) : (s.conn r).handoffSuccess = true := by
  rw [owned, Bool.and_eq_true] at howned
  exact (h.loops r).ready.symm.trans howned.1

theorem apply (op : Op) : ∃ post', Orderly (step s op) post' ∧
    ((∀ r, (s.conn r).handed = true → (s.conn r).Mute) → post' = post) := by
  -- every other step leaves `post` as it is
  suffices hsame : (∃ r now, op = .run r now) ∨ Orderly (step s op) post by
    rcases hsame with ⟨r, now, rfl⟩ | hsame
    · obtain ⟨post', hrun, hsame⟩ := h.run r now
      exact ⟨post', hrun, fun hmute => hsame (hmute r)⟩
    · exact ⟨post, hsame, fun _ => rfl⟩
  cases op with
  | claim => exact .inr (h.moves .gateway ⟨rfl, rfl, rfl, rfl, rfl, rfl, .inl rfl, (h.loops .gateway).ended⟩)
  | run r now => exact .inl ⟨r, now, rfl⟩
  | timeout r now =>
    refine .inr (Trace.when_keeps (P := (Orderly · post)) h fun hcan => ?_)
    rw [timeout]
    split
    · exact h.moves r (Alike.fail _)
    · exact h.moves r (.turn (by simp [hcan.1]) (by simp) ..)
  | fail r => exact .inr (Trace.unless_keeps (P := (Orderly · post)) h fun _ => h.moves r (Alike.fail _))
  | close r => exact .inr (h.moves r (Alike.close _))
  | write r b =>
    exact .inr (Trace.when_keeps (P := (Orderly · post)) h fun howned => h.writes (h.success_of_owned howned) b)
  | read r =>
    refine .inr ?_
    rw [step]
    split
    · exact h
    · rename_i frame rest hframe
      exact Trace.when_keeps (P := (Orderly · post)) h fun howned => h.reads (h.success_of_owned howned) hframe

end Orderly

theorem orderly_init (start : Role → ℕ) : Orderly (init start) [] where
  role := fun r => by cases r <;> rfl
  loops := fun r => by
    cases r <;> exact ⟨rfl, nofun, fun hs => absurd hs Bool.false_ne_true, fun _ => ⟨rfl, rfl⟩, nofun⟩
  flow := fun r _ => by cases r <;> exact .before (l := []) (by simp)

/-! ## Loops that are not held up -/

/-- A loop reads the clock, which does not go back, less than `pingInterval` after `Receive` has returned or the
loop has begun; in between it answers what it received. -/
def Prompt (s : System) : Op → Prop
  | .run r now => (s.conn r).phase = .top → (s.conn r).woke ≤ now ∧ now < (s.conn r).woke + pingInterval
  | _ => True

instance (s : System) : (op : Op) → Decidable (Prompt s op)
  | .run _ _ => inferInstanceAs (Decidable (_ → _))
  | .claim | .timeout _ _ | .fail _ | .close _ | .write _ _ | .read _ => instDecidableTrue

/-- The loop of the client, and that of the gateway after its `Handoff`. -/
def Waits (conn : IdleConn) : Prop := conn.role = .gateway → conn.handoffDone = true

/-- A loop that waits for `pingTimeout` was active when it last woke up, and is not when `Receive` gives up. Only
the client has a `Ping` to answer. -/
def Silent (conn : IdleConn) : Prop :=
  Waits conn →
    match conn.phase with
    | .top => conn.lastActivity = conn.woke
    | .checked now => conn.lastActivity ≤ now ∧ now < conn.lastActivity + pingInterval
    | .receiving => conn.lastActivity + pingTimeout ≤ conn.deadline
    | .ponging => conn.role = .client ∧ conn.lastActivity = conn.woke
    | .acking | .ended => True

theorem Waits.readWait {conn : IdleConn} (h : Waits conn) : conn.readWait = pingTimeout := by
  refine if_neg fun hpolls => ?_
  rw [Bool.and_eq_true, decide_eq_true_eq, Bool.not_eq_true'] at hpolls
  exact absurd (h hpolls.1) (by simp [hpolls.2])

theorem Silent.pingDue {conn : IdleConn} (h : Silent conn) (hwaits : Waits conn) {now : ℕ}
    (hphase : conn.phase = .checked now) : conn.pingDue now = false := by
  have hnow := h hwaits
  rw [hphase] at hnow
  have hdue : ¬ pingInterval ≤ now - conn.lastActivity := by
    have := hnow.2
    omega
  simp [IdleConn.pingDue, hdue]

/-- No loop that waits has a `Ping` to send, and the gateway has none to answer. -/
structure Quiet (s : System) : Prop where
  client : Silent s.client
  gateway : Silent s.gateway
  pings : .ping false ∉ s.toGateway

namespace Quiet

variable {s : System} (h : Quiet s)
include h

theorem loops (r : Role) : Silent (s.conn r) := by
  cases r with
  | client => exact h.client
  | gateway => exact h.gateway

/-- A loop that has sent what ends the other one is about to send nothing more. -/
theorem mute {post : List Frame} (ho : Orderly s post) (r : Role) (hhanded : (s.conn r).handed = true) :
    (s.conn r).Mute := by
  have hwaits : Waits (s.conn r) := fun hgateway => by simpa [IdleConn.handed, hgateway] using hhanded
  refine ⟨fun now hphase => (h.loops r).pingDue hwaits hphase, fun hphase => ?_⟩
  have hponging := h.loops r hwaits
  rw [hphase] at hponging
  -- the client has sent it only when its loop has ended
  rw [IdleConn.handed, hponging.1] at hhanded
  cases hphase.symm.trans ((ho.loops r).success hhanded)

theorem moves (r : Role) {conn : IdleConn} (hconn : Silent conn) : Quiet (s.set r conn) := by
  cases r with
  | client => exact { h with client := hconn }
  | gateway => exact { h with gateway := hconn }

theorem sends (r : Role) {frame : Frame} (hframe : r = .client → frame ≠ .ping false) : Quiet (s.send r frame) := by
  cases r with
  | client =>
    refine { h with pings := fun hping => ?_ }
    rcases mem_append.mp hping with hping | hping
    · exact h.pings hping
    · exact hframe rfl (mem_singleton.mp hping).symm
  | gateway => exact { h with }

theorem drops (r : Role) : Quiet (s.drop r) := by
  cases r with
  | client => exact { h with }
  | gateway => exact { h with pings := fun hping => h.pings (mem_of_mem_tail hping) }

theorem check {r : Role} {now : ℕ} (hphase : (s.conn r).phase = .top) (hprompt : Prompt s (.run r now)) :
    Quiet (check s r now) := by
  obtain ⟨hle, hlt⟩ := hprompt hphase
  rw [Gateway.check]
  split
  · refine (h.sends r fun _ => by simp).moves r fun _ => ?_
    exact ⟨le_refl now, Nat.lt_add_of_pos_right (by decide)⟩
  · refine h.moves r fun hwaits => ?_
    have hactive := h.loops r hwaits
    rw [hphase] at hactive
    show (s.conn r).lastActivity ≤ now ∧ now < (s.conn r).lastActivity + pingInterval
    rw [show (s.conn r).lastActivity = (s.conn r).woke from hactive]
    exact ⟨hle, hlt⟩

/-- A loop that waits and runs into its deadline ends. -/
theorem timeout {r : Role} {now : ℕ} (hphase : (s.conn r).phase = .receiving) (hnow : (s.conn r).deadline ≤ now) :
    Quiet (timeout s r now) := by
  rw [Gateway.timeout]
  split
  · exact h.moves r fun _ => trivial
  · rename_i hactive
    refine h.moves r fun hwaits => ?_
    have hdeadline := h.loops r hwaits
    rw [hphase] at hdeadline
    have hdeadline : (s.conn r).lastActivity + pingTimeout ≤ (s.conn r).deadline := hdeadline
    exact absurd (by omega) hactive

section

variable {r : Role} {now : ℕ} (hrole : (s.conn r).role = r)
include hrole

theorem ping (hphase : (s.conn r).phase = .checked now) : Quiet (ping s r now) := by
  have hdeadline : Waits (s.conn r) → (s.conn r).lastActivity + pingTimeout ≤ now + (s.conn r).readWait := by
    intro hwaits
    have hactive := h.loops r hwaits
    rw [hphase] at hactive
    rw [hwaits.readWait]
    exact Nat.add_le_add_right hactive.1 _
  rw [Gateway.ping]
  split
  · rename_i hdue
    refine (h.sends r fun hclient => ?_).moves r hdeadline
    have hwaits : Waits (s.conn r) := fun hgateway => by simp [hrole.symm.trans hgateway] at hclient
    exact absurd hdue (by simp [(h.loops r).pingDue hwaits hphase])
  · exact h.moves r hdeadline

theorem receive : Quiet (receive s r now) := by
  rw [Gateway.receive]
  split
  · exact h
  · rename_i hping
    refine (h.drops r).moves r fun _ => ⟨hrole.trans ?_, rfl⟩
    cases r with
    | client => rfl
    | gateway =>
      refine absurd ?_ h.pings
      rw [show s.toGateway = _ from hping]
      exact mem_cons_self
  · exact (h.drops r).moves r fun _ => rfl
  · exact (h.drops r).moves r fun _ => trivial
  · exact (h.drops r).moves r fun _ => trivial
  · exact (h.drops r).moves r fun _ => trivial

theorem run (hprompt : Prompt s (.run r now)) : Quiet (runLoop s r now) := by
  rw [runLoop]
  split
  · exact h.moves r fun _ => trivial
  · cases hphase : (s.conn r).phase with
    | top => exact h.check hphase hprompt
    | checked started => exact h.ping hrole hphase
    | receiving => exact h.receive hrole
    | ponging =>
      refine (h.sends r fun _ => by simp).moves r fun hwaits => ?_
      have hactive := h.loops r hwaits
      rw [hphase] at hactive
      exact hactive.2
    | acking => exact (h.sends r fun _ => by simp).moves r fun _ => trivial
    | ended => exact h

end

theorem apply {op : Op} (hprompt : Prompt s op) (hrole : ∀ r, (s.conn r).role = r) : Quiet (step s op) := by
  cases op with
  | claim => exact h.moves .gateway h.gateway
  | run r now => exact h.run (hrole r) hprompt
  | timeout r now => exact Trace.when_keeps h fun hcan => h.timeout hcan.1 hcan.2
  | fail r => exact Trace.unless_keeps h fun _ => h.moves r fun _ => trivial
  | close r => exact h.moves r (h.loops r)
  | write r b => exact Trace.when_keeps h fun _ => (h.sends r fun _ => by simp).moves r (h.loops r)
  | read r =>
    rw [step]
    split
    · exact h
    · exact Trace.when_keeps h fun _ => (h.drops r).moves r (h.loops r)

end Quiet

/-! ## Whole runs -/

/-- No loop is held up in the run. -/
def Timely (start : Role → ℕ) (ops : List Op) : Prop :=
  Trace.Along (fun past op => Prompt (exec start past) op) ops

instance (start : Role → ℕ) (ops : List Op) : Decidable (Timely start ops) :=
  inferInstanceAs (Decidable (Trace.Along _ ops))

theorem orderly_exec (start : Role → ℕ) (ops : List Op) :
    ∃ post, Orderly (exec start ops) post ∧ (Timely start ops → Quiet (exec start ops) ∧ post = []) := by
  induction ops with
  | nil => exact ⟨[], orderly_init start, fun _ => ⟨⟨fun _ => rfl, fun _ => rfl, not_mem_nil⟩, rfl⟩⟩
  | cons op past ih =>
    obtain ⟨post, h, hquiet⟩ := ih
    obtain ⟨post', h', hsame⟩ := h.apply op
    refine ⟨post', h', fun htimely => ?_⟩
    obtain ⟨hq, hpost⟩ := hquiet htimely.2
    exact ⟨hq.apply htimely.1 h.role, (hsame (hq.mute h)).trans hpost⟩

/-- With both loops ended by the handoff, what each next owner has read and will read is what the
other side's next owner wrote. -/
def HandedOver (s : System) : Prop :=
  s.client.handoffSuccess = true → s.gateway.handoffSuccess = true →
    s.client.got ++ s.toClient = s.gateway.sent.map .app ∧
      s.gateway.got ++ s.toGateway = s.client.sent.map .app

/-- The gateway is ready only when the client is; the client only when the gateway is, or has the
acknowledgement on its way to a loop that runs, or its connection failed. -/
def ReadyTogether (s : System) : Prop :=
  (s.gateway.ready = true → s.client.ready = true) ∧
    (s.client.ready = true → s.gateway.ready = true ∨ s.gateway.closed = true ∨
      s.gateway.phase ≠ .ended ∧ .handoffAck ∈ s.toGateway)

instance (s : System) : Decidable (HandedOver s) := inferInstanceAs (Decidable (_ → _ → _ ∧ _))

theorem Orderly.readyTogether {s : System} {post : List Frame} (h : Orderly s post) : ReadyTogether s := by
  have hclient : s.client.ready = s.client.handoffSuccess := (h.loops .client).ready
  have hgateway : s.gateway.ready = s.gateway.handoffSuccess := (h.loops .gateway).ready
  rw [ReadyTogether, hclient, hgateway]
  constructor
  · exact fun hsuccess => h.handed_client.symm.trans (h.taken (r := .gateway) hsuccess).1
  · intro hsuccess
    by_cases hdone : s.gateway.handoffSuccess = true
    · exact .inl hdone
    · by_cases hended : s.gateway.phase = .ended
      · exact .inr (.inl (((h.loops .gateway).ended hended).resolve_left hdone))
      · have hacking : s.gateway.phase ≠ .acking := fun hacking =>
          absurd ((h.role .gateway).symm.trans ((h.loops .gateway).acks hacking)) (by decide)
        obtain ⟨htook, hlive, -, hgot⟩ := (h.loops .gateway).took ⟨hacking, hended⟩
        have hflow := h.flow .gateway hlive
        rw [htook, hgot, show (s.conn Role.gateway.other).handed = true from h.handed_client.trans hsuccess] at hflow
        exact .inr (.inr ⟨hended, hflow.marker_mem⟩)

/-- **Handoff.** Over every timing and interleaving of the two loops readiness is never one-sided unless the
connection fails; and in every run in which no loop is held up, both ends hand over a stream without a control
frame. -/
theorem handoff_clean (start : Role → ℕ) (ops : List Op) :
    ReadyTogether (exec start ops) ∧ (Timely start ops → HandedOver (exec start ops)) := by
  obtain ⟨post, h, hquiet⟩ := orderly_exec start ops
  refine ⟨h.readyTogether, fun htimely hclient hgateway => ⟨?_, (h.taken (r := .gateway) hgateway).2⟩⟩
  obtain ⟨-, rfl⟩ := hquiet htimely
  exact (h.taken (r := .client) hclient).2

/-- The gateway's loop from second `first` on: `n` reads run into their deadline. -/
def polls (first n : ℕ) : List Op :=
  (List.range n).reverse.flatMap fun i =>
    [.timeout .gateway ((first + i + 1) * second), .run .gateway ((first + i) * second),
      .run .gateway ((first + i) * second)]

/-- The gateway pings, is answered, and the connection is handed over; each next owner writes. -/
theorem handoff_clean_pinged :
    ∃ (start : Role → ℕ) (ops : List Op),
      (exec start ops).client.handoffSuccess = true ∧ (exec start ops).gateway.handoffSuccess = true ∧
        (exec start ops).client.sent = [7] ∧ HandedOver (exec start ops) := by
  let now := 30 * second
  refine ⟨fun _ => 0,
    [.read .gateway, .write .client 7, .write .gateway 9,
      .run .gateway now, .run .client now, .run .client now, .run .gateway now, .run .gateway now, .claim,
      .run .gateway now, .run .client now, .run .client now, .run .client now, .run .client now,
      .run .gateway now, .run .gateway now] ++ polls 0 30 ++ [.run .client 0, .run .client 0],
    by decide +kernel, by decide +kernel, by decide +kernel, ?_⟩
  exact (handoff_clean _ _).2 (by decide +kernel)

/-- The client's loop is held up for 31 seconds after it has begun, and pings. Its `Ping` is on its way when the
gateway, which is never held up, sends `Handoff`. Both loops end with success, and the gateway's `Pong` is the
first thing that the client's next owner reads. -/
theorem pong_left_behind :
    ∃ (start : Role → ℕ) (ops : List Op), ¬ HandedOver (exec start ops) ∧
      (exec start ops).client.handoffSuccess = true ∧ (exec start ops).gateway.handoffSuccess = true ∧
      (exec start ops).client.got = [.ping true] := by
  let now := 31 * second
  refine ⟨fun r => if r = .client then 0 else 2 * second,
    [.read .client, .run .gateway now, .run .gateway now, .run .gateway now,
      .run .client now, .run .client now,
      .run .gateway now, .run .gateway now, .run .gateway now, .run .gateway now, .claim,
      .run .client now, .run .client now] ++ polls 2 29,
    by decide +kernel, by decide +kernel, by decide +kernel, by decide +kernel⟩

end Astrald.Gateway
