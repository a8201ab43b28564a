import Mathlib
import Astrald.Lib.Trace
import Astrald.Nodes.Registry

/-!
# One query between two nodes

The model of one query over one link: `RouteQuery` and `handleResponse` at the node that asks,
`handleInboundQuery` at the node that answers, and at both the session of the query with
`handleData`, `handleRead`, `handleReset` and the steps of `Close`. The link delivers the frames of
each direction in order; the nonce is not in use at the node that answers.

* `Half`: the session of the query at one node, with the steps of its `Close`;
* `Half.Quiet`, `Half.Shy`, `Half.Fresh`: what a session cannot have sent yet, by how far it is;
* `System.step`: one step of either node, or the delivery of a frame.

Flow control is left out: `Write` may send at any time once the session is open, and `ok` says
whether `Push` accepted a payload. The identities that `handleResponse` checks are those of the two
nodes.
-/

namespace Astrald.Nodes.Query

open Registry (Verdict Stage codeRejected)

inductive Frame
  | query
  | response (code : ℕ)
  | data (len : ℕ)
  | read (len : ℕ)
  | reset
  deriving DecidableEq, Repr

def Frame.code : Frame → Option ℕ
  | .response code => some code
  | _ => none

/-- What is left of a `Close`: `onClose`, `writer.Close` up to the sending of the `Reset`, the
sending, `reader.Close`. It knows whether there was an `onClose` when it set the flag. -/
inductive Closing
  | live
  | marked (onClose : Bool)
  | unhooked
  | resetting
  | draining
  | done
  deriving DecidableEq, Repr

structure Half where
  registered : Bool
  /-- `createSession` has set `onClose`. -/
  hooked : Bool
  /-- `Setup` has set the reader and the writer. -/
  ready : Bool
  state : SessionState
  closed : Bool
  paused : Bool
  writerClosed : Bool
  closing : Closing
  received : ℕ
  deriving DecidableEq, Repr

inductive Move
  | close
  | unhook
  | shut
  | emit
  | drain
  | write (len : ℕ)
  | read (len : ℕ)
  deriving DecidableEq, Repr

namespace Half

/-- `Close` up to its unlocking. -/
def close (h : Half) : Half :=
  if h.closed then h else { h with state := .closed, closed := true, closing := .marked h.hooked }

/-- `PeerClose`, if there is a writer. -/
def peerClose (h : Half) : Half := { h with writerClosed := h.writerClosed || h.ready }

def move (h : Half) : Move → Half × List Frame
  | .close => (h.close, [])
  | .unhook =>
    match h.closing with
    | .marked onClose => ({ h with registered := h.registered && !onClose, closing := .unhooked }, [])
    | _ => (h, [])
  | .shut =>
    if h.closing = .unhooked then
      if h.ready ∧ h.writerClosed = false then ({ h with writerClosed := true, closing := .resetting }, [])
      else ({ h with closing := .draining }, [])
    else (h, [])
  | .emit => if h.closing = .resetting then ({ h with closing := .draining }, [.reset]) else (h, [])
  | .drain => if h.closing = .draining then ({ h with closing := .done }, []) else (h, [])
  | .write len =>
    if h.ready ∧ h.paused = false ∧ h.closed = false ∧ h.writerClosed = false ∧ 0 < len then (h, [.data len])
    else (h, [])
  | .read len =>
    if (h.paused = false ∨ h.closed) ∧ 0 < len ∧ len ≤ h.received then
      ({ h with received := h.received - len }, if h.closing = .done then [] else [.read len])
    else (h, [])

/-- `handleData`, `handleRead` and `handleReset`, and the frames they send. -/
def handle (h : Half) (ok : Bool) : Frame → Half × List Frame
  | .data len =>
    if h.registered = false then (h, [.reset])
    else if h.state = .open ∨ h.state = .migrating then
      if h.ready = false then (h, [])
      else if ok then ({ h with received := h.received + len }, [])
      else (h.close, [])
    else (h, [.reset])
  | .read _ => if h.registered then (h, []) else (h, [.reset])
  | .reset => if h.registered then (h.peerClose.close, []) else (h, [])
  | _ => (h, [])

end Half

inductive Side
  | callee
  | caller
  deriving DecidableEq, Repr

/-- What `RouteQuery` returned to its caller; `gaveUp` is the end of its context. -/
inductive Outcome
  | accepted
  | rejected (code : ℕ)
  | gaveUp
  deriving DecidableEq, Repr

structure System where
  callee : Half
  caller : Half
  /-- The read loop of the callee has started `handleInboundQuery`. -/
  asked : Bool
  /-- Where `handleInboundQuery` is, from the first step of `createSession` on. -/
  stage : Option Stage
  verdict : Option Verdict
  /-- What was put into the channel `routingResult`. -/
  routingResult : Option ℕ
  outcome : Option Outcome
  toCallee : List Frame
  toCaller : List Frame
  sent : List Frame

/-- The steps: the read loops, then those of `handleInboundQuery`, then those of `RouteQuery`, then
those of the goroutines that use the session. -/
inductive Op
  | deliver (x : Side) (ok : Bool)
  | create
  | hook
  | setup
  | route (v : Verdict)
  | setOpen
  | respond
  | resume
  | drop
  | take
  | giveUp
  | session (x : Side) (m : Move)

namespace System

/-- `RouteQuery` has created its session and sent the `Query`. -/
def start : System where
  callee := ⟨false, false, false, .routing, false, true, false, .live, 0⟩
  caller := ⟨true, true, true, .routing, false, true, false, .live, 0⟩
  asked := false
  stage := none
  verdict := none
  routingResult := none
  outcome := none
  toCallee := [.query]
  toCaller := []
  sent := []

/-- The session of `x` changes and frames are sent from there. -/
def put (s : System) (x : Side) (r : Half × List Frame) : System :=
  match x with
  | .callee => { s with callee := r.1, toCaller := s.toCaller ++ r.2, sent := s.sent ++ r.2 }
  | .caller => { s with caller := r.1, toCallee := s.toCallee ++ r.2 }

def toward (s : System) (stage : Stage) : System := { s with stage := some stage }

def handleResponse (s : System) (code : ℕ) : System :=
  if s.caller.registered ∧ s.caller.state = .routing then
    if code ≠ 0 then { s with caller := { s.caller with state := .closed }, routingResult := some code }
    else { s with caller := { s.caller with state := .open, paused := false }, routingResult := some 0 }
  else s

def deliver (s : System) (ok : Bool) : Side → System
  | .callee =>
    match s.toCallee with
    | [] => s
    | .query :: fs => { s with toCallee := fs, asked := true }
    | f :: fs => { s with toCallee := fs }.put .callee (s.callee.handle ok f)
  | .caller =>
    match s.toCaller with
    | [] => s
    | .response code :: fs => { s with toCaller := fs }.handleResponse code
    | f :: fs => { s with toCaller := fs }.put .caller (s.caller.handle ok f)

/-- The end of `createSession`: a session closed by then is taken out of the map, and
`handleInboundQuery` returns. -/
def setup (s : System) : System :=
  if s.callee.closed then { s with callee := { s.callee with registered := false }, stage := some .failed }
  else { s with callee := { s.callee with ready := true }, stage := some .routing }

def respond (s : System) : System :=
  match s.stage with
  | some .opened => (s.put .callee (s.callee, [.response 0])).toward .answered
  | some (.refused code) => (s.put .callee (s.callee, [.response code])).toward .refusing
  | _ => s

def take (s : System) : System :=
  match s.routingResult with
  | none => s
  | some code =>
    if code ≠ 0 then { s with caller := s.caller.peerClose.close, outcome := some (.rejected code) }
    else { s with outcome := some .accepted }

/-- A goroutine uses a session that it has: at the callee any, once there is one, at the caller
that which `RouteQuery` has returned or is closing. -/
def uses (s : System) (x : Side) (m : Move) : Bool :=
  match x with
  | .callee => s.stage.isSome
  | .caller => s.outcome.isSome || m ≠ .close

def step (s : System) : Op → System
  | .deliver x ok => s.deliver ok x
  | .create =>
    if s.asked ∧ s.stage = none then
      { s with callee := { s.callee with registered := true }, stage := some .stored }
    else s
  | .hook =>
    if s.stage = some .stored then { s with callee := { s.callee with hooked := true }, stage := some .hooked }
    else s
  | .setup => if s.stage = some .hooked then s.setup else s
  | .route v =>
    if s.stage = some .routing then { s with stage := some (Registry.Conn.routed v), verdict := some v } else s
  | .setOpen =>
    if s.stage = some .accepted then { s with callee := { s.callee with state := .open }, stage := some .opened }
    else s
  | .respond => s.respond
  | .resume =>
    if s.stage = some .answered then { s with callee := { s.callee with paused := false }, stage := some .served }
    else s
  | .drop => if s.stage = some .refusing then { s with callee := s.callee.close, stage := some .dropped } else s
  | .take => if s.outcome = none then s.take else s
  | .giveUp => if s.outcome = none then { s with caller := s.caller.close, outcome := some .gaveUp } else s
  | .session x m =>
    if s.uses x m then
      s.put x (match x with
        | .callee => s.callee.move m
        | .caller => s.caller.move m)
    else s

def exec : List Op → System := Trace.exec step start

end System

/-! ## The session of one node -/

namespace Half

@[simp] theorem paused_close (h : Half) : h.close.paused = h.paused := by
  unfold close
  split <;> rfl

@[simp] theorem received_close (h : Half) : h.close.received = h.received := by
  unfold close
  split <;> rfl

variable {h : Half}

theorem close_of_closed (hc : h.closed = true) : h.close = h := by
  unfold close
  rw [if_pos hc]

theorem close_of_open (hc : h.closed = false) :
    h.close = { h with state := .closed, closed := true, closing := .marked h.hooked } := by
  unfold close
  rw [if_neg (by rw [hc]; decide)]

/-- A session does not send a `Response`. -/
theorem code_move (h : Half) (m : Move) : ∀ f ∈ (h.move m).2, f.code = none := by
  intro f hf
  cases m <;> simp only [move] at hf <;> grind [Frame.code]

theorem code_handle (h : Half) (ok : Bool) (g : Frame) : ∀ f ∈ (h.handle ok g).2, f.code = none := by
  intro f hf
  cases g <;> simp only [handle] at hf <;> grind [Frame.code]

/-- The session has sent nothing and is not about to. -/
structure Quiet (h : Half) : Prop where
  paused : h.paused = true
  received : h.received = 0
  closing : h.closing ≠ .resetting

theorem Quiet.close (hq : h.Quiet) : h.close.Quiet := by
  refine ⟨by rw [paused_close, hq.paused], by rw [received_close, hq.received], ?_⟩
  cases hc : h.closed with
  | true => rw [close_of_closed hc]; exact hq.closing
  | false => rw [close_of_open hc]; exact Closing.noConfusion

theorem Quiet.move (hq : h.Quiet) {m : Move}
    (hm : m = .shut → h.closing ≠ .unhooked ∨ h.writerClosed = true) :
    (h.move m).2 = [] ∧ (h.move m).1.Quiet := by
  obtain ⟨hp, hr, hc⟩ := hq
  cases m with
  | close => exact ⟨rfl, Quiet.close ⟨hp, hr, hc⟩⟩
  | shut =>
    have hm := hm rfl
    simp only [Half.move]
    split
    · rename_i hun
      have hw : h.writerClosed = true := hm.resolve_left fun hne => hne hun
      rw [if_neg (by rw [hw]; simp)]
      exact ⟨rfl, hp, hr, Closing.noConfusion⟩
    · exact ⟨rfl, hp, hr, hc⟩
  | unhook | drain =>
    simp only [Half.move]
    split
    · exact ⟨rfl, hp, hr, Closing.noConfusion⟩
    · exact ⟨rfl, hp, hr, hc⟩
  | emit =>
    simp only [Half.move]
    rw [if_neg hc]
    exact ⟨rfl, hp, hr, hc⟩
  | write len =>
    simp only [Half.move]
    rw [if_neg (by rw [hp]; simp)]
    exact ⟨rfl, hp, hr, hc⟩
  | read len =>
    simp only [Half.move]
    rw [if_neg (by rw [hr]; omega)]
    exact ⟨rfl, hp, hr, hc⟩

/-- The session has not been opened. -/
structure Shy (h : Half) : Prop where
  paused : h.paused = true
  received : h.received = 0
  unopened : h.state ≠ .open ∧ h.state ≠ .migrating

theorem Shy.close (hs : h.Shy) : h.close.Shy := by
  refine ⟨by rw [paused_close, hs.paused], by rw [received_close, hs.received], ?_⟩
  cases hc : h.closed with
  | true => rw [close_of_closed hc]; exact hs.unopened
  | false => rw [close_of_open hc]; exact ⟨SessionState.noConfusion, SessionState.noConfusion⟩

theorem Shy.peerClose (hs : h.Shy) : h.peerClose.Shy := { hs with }

theorem Shy.move (hs : h.Shy) (m : Move) :
    (∀ f ∈ (h.move m).2, f = .reset) ∧ (h.move m).1.Shy := by
  obtain ⟨hp, hr, hu⟩ := hs
  have hsame : (∀ f ∈ (h, ([] : List Frame)).2, f = Frame.reset) ∧ (h, ([] : List Frame)).1.Shy :=
    ⟨fun _ hf => absurd hf List.not_mem_nil, hp, hr, hu⟩
  cases m with
  | close => exact ⟨hsame.1, Shy.close ⟨hp, hr, hu⟩⟩
  | unhook | drain =>
    simp only [Half.move]
    split
    · exact ⟨hsame.1, hp, hr, hu⟩
    · exact hsame
  | shut =>
    simp only [Half.move]
    split
    · split <;> exact ⟨hsame.1, hp, hr, hu⟩
    · exact hsame
  | emit =>
    simp only [Half.move]
    split
    · exact ⟨fun f hf => List.mem_singleton.mp hf, hp, hr, hu⟩
    · exact hsame
  | write len =>
    simp only [Half.move]
    rw [if_neg (by rw [hp]; simp)]
    exact hsame
  | read len =>
    simp only [Half.move]
    rw [if_neg (by rw [hr]; omega)]
    exact hsame

theorem Shy.handle (hs : h.Shy) (ok : Bool) (f : Frame) :
    (∀ g ∈ (h.handle ok f).2, g = .reset) ∧ (h.handle ok f).1.Shy := by
  have hnone : ∀ g ∈ ([] : List Frame), g = Frame.reset := fun _ hg => absurd hg List.not_mem_nil
  have hone : ∀ g ∈ [Frame.reset], g = Frame.reset := fun g hg => List.mem_singleton.mp hg
  cases f with
  | data len =>
    simp only [Half.handle]
    split
    · exact ⟨hone, hs⟩
    · rw [if_neg (not_or.mpr hs.unopened)]
      exact ⟨hone, hs⟩
  | read len =>
    simp only [Half.handle]
    split
    · exact ⟨hnone, hs⟩
    · exact ⟨hone, hs⟩
  | reset =>
    simp only [Half.handle]
    split
    · exact ⟨hnone, hs.peerClose.close⟩
    · exact ⟨hnone, hs⟩
  | query | response => exact ⟨hnone, hs⟩

/-- The session waits for its `Response`. -/
structure Fresh (h : Half) : Prop where
  registered : h.registered = true
  routing : h.state = .routing
  unclosed : h.closed = false
  live : h.closing = .live

/-- A session that waits is left alone by all but `Close`. -/
theorem Fresh.move (hf : h.Fresh) (hs : h.Shy) {m : Move} (hm : m ≠ .close) :
    h.move m = (h, []) := by
  have hl := hf.live
  cases m with
  | close => exact absurd rfl hm
  | unhook => simp only [Half.move, hl]
  | shut | emit | drain => simp only [Half.move, hl, reduceCtorEq, if_false]
  | write len => simp only [Half.move, hs.paused]; simp
  | read len =>
    simp only [Half.move]
    rw [if_neg (by rw [hs.received]; omega)]

theorem closed_move (h : Half) {m : Move} (hm : m ≠ .close) : (h.move m).1.closed = h.closed := by
  cases m with
  | close => exact absurd rfl hm
  | unhook | emit | drain | write | read => simp only [move]; split <;> rfl
  | shut =>
    simp only [move]
    split
    · split <;> rfl
    · rfl

theorem state_close_ne (hn : h.state ≠ .routing) : h.close.state ≠ .routing := by
  cases hc : h.closed with
  | true => rw [close_of_closed hc]; exact hn
  | false => rw [close_of_open hc]; exact SessionState.noConfusion

theorem state_move_ne (hn : h.state ≠ .routing) (m : Move) : (h.move m).1.state ≠ .routing := by
  cases m with
  | close => exact state_close_ne hn
  | unhook | emit | drain | write | read => simp only [move]; split <;> exact hn
  | shut =>
    simp only [move]
    split
    · split <;> exact hn
    · exact hn

theorem state_handle_ne (hn : h.state ≠ .routing) (ok : Bool) (f : Frame) :
    (h.handle ok f).1.state ≠ .routing := by
  cases f with
  | data len =>
    simp only [handle]
    split
    · exact hn
    split
    · split
      · exact hn
      split
      · exact hn
      · exact state_close_ne hn
    · exact hn
  | read len => simp only [handle]; split <;> exact hn
  | reset =>
    simp only [handle]
    split
    · exact state_close_ne hn
    · exact hn
  | query | response => exact hn

end Half

end Astrald.Nodes.Query
