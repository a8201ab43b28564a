import Astrald.Lib.Trace
import Mathlib.Logic.Function.Basic

/-!
# Connections donated to a query

`ServiceHandler.RouteQuery` lists a query, announces it, and waits for a connection, a reject, the timeout or
the end of the context. `onAttachQueryMsg` of a guest that has found the query acknowledges it, marks the
connection donated and sends it into a channel of capacity one, whether the channel is still read or not.

* `one_owner`: when connections are sent to a `RouteQuery` that goes on to receive them, one is attached at
  most, and every other one is closed;
* `owned_by_nobody`: the timeout comes between the `Ack` and the send.
-/

namespace Astrald.Apphost

/-- Where `RouteQuery` is; it leaves the `select` with the connection that it returns, if any. -/
inductive Route (Conn : Type)
  | announcing
  | selecting
  | left (conn : Option Conn)
  deriving DecidableEq

/-- Where `onAttachQueryMsg` is. The connection is marked donated at `donating` and `sent`. -/
inductive Stage
  | idle
  | found
  | acked
  | donating
  | sent
  | failed
  deriving DecidableEq

/-- `listed` is whether `pendingInboundQueries` has the query, `ended` the connections whose `Serve` has
returned. -/
structure Pending (Conn : Type) where
  listed : Bool
  attach : Option Conn
  reject : Option UInt8
  route : Route Conn
  guest : Conn → Stage
  ended : List Conn
  closed : List Conn

inductive Op (Conn : Type)
  /-- `RouteQuery` sends `IncomingQueryMsg`, or finds its handler gone. -/
  | announce (ok : Bool)
  /-- The cases of its `select`. -/
  | receive
  | rejected
  | timeout
  | done
  /-- The deferred `Delete`. -/
  | delete
  /-- `RejectIncomingMsg` of a guest that has found the query and is the notified one or another. -/
  | reject (notified : Bool) (code : UInt8)
  /-- The calls of `onAttachQueryMsg`, up to its `select`. -/
  | get (c : Conn)
  | ack (c : Conn) (ok : Bool)
  | donate (c : Conn)
  | send (c : Conn)
  | cancel (c : Conn)
  /-- `Serve` returns: the worker closes the connection, and so does the WebSocket server unless it is
  donated. -/
  | exit (c : Conn)

namespace Pending

variable {Conn : Type} [DecidableEq Conn] (ws : Conn → Bool) (s : Pending Conn)

def init : Pending Conn := ⟨true, none, none, .announcing, fun _ => .idle, [], []⟩

def leave : Pending Conn := if s.route = .selecting then { s with route := .left none } else s

def move (c : Conn) (here next : Stage) : Pending Conn :=
  if s.guest c = here then { s with guest := Function.update s.guest c next } else s

def step : Op Conn → Pending Conn
  | .announce ok =>
    if s.route = .announcing then { s with route := if ok then .selecting else .left none } else s
  | .receive =>
    if s.route = .selecting then
      s.attach.elim s fun c => { s with attach := none, route := .left (some c) }
    else s
  | .rejected => if s.reject.isSome then s.leave else s
  | .timeout | .done => s.leave
  | .delete => if s.route = .announcing ∨ s.route = .selecting then s else { s with listed := false }
  | .reject notified code => if notified then { s with reject := s.reject.or (some code) } else s
  | .get c => if s.listed then s.move c .idle .found else s
  | .ack c ok => s.move c .found (if ok then .acked else .failed)
  | .donate c => s.move c .acked .donating
  | .send c =>
    if s.guest c = .donating ∧ s.attach = none then
      { s with attach := some c, guest := Function.update s.guest c .sent }
    else s
  | .cancel c => s.move c .donating .failed
  | .exit c =>
    if s.guest c = .sent ∨ s.guest c = .failed then
      { s with
        ended := c :: s.ended
        closed := if s.guest c = .sent ∧ ws c then s.closed else c :: s.closed }
    else s

def exec : List (Op Conn) → Pending Conn := Trace.exec (step ws) init

/-- The connection that `RouteQuery` has returned, or finds in the channel. -/
def attached : Option Conn :=
  match s.route with
  | .left conn => conn
  | _ => s.attach

/-- One connection was sent at most, and a connection that its guest has left is with `RouteQuery` or closed. -/
structure Owned : Prop where
  one : ∀ c c', s.guest c = .sent → s.guest c' = .sent → c = c'
  ended : ∀ c ∈ s.ended, s.attached = some c ∨ c ∈ s.closed

/-- A connection is sent before `RouteQuery` leaves, which does not leave it in the channel. -/
def Undisturbed : Op Conn → Prop
  | .send _ => s.route = .announcing ∨ s.route = .selecting
  | .announce false | .rejected | .timeout | .done => s.attach = none
  | _ => True

structure Sound : Prop where
  sent : ∀ c, s.guest c = .sent → s.attached = some c
  ended : ∀ c ∈ s.ended, s.guest c = .sent ∨ c ∈ s.closed

variable {s} (h : s.Sound) {c : Conn}
include h

omit [DecidableEq Conn] in
theorem Sound.routes {attach : Option Conn} {route : Route Conn}
    (hsame : attached { s with attach, route } = s.attached) : Sound { s with attach, route } :=
  { h with sent := fun c hc => hsame.trans (h.sent c hc) }

theorem Sound.leave (hnone : s.attach = none) : s.leave.Sound :=
  Trace.when_keeps h fun hroute => h.routes (by simp [attached, hroute, hnone])

theorem Sound.move {here next : Stage} (hhere : here ≠ .sent) (hnext : next ≠ .sent) :
    (s.move c here next).Sound := by
  refine Trace.when_keeps h fun hc => ⟨fun x hx => ?_, fun x hx => ?_⟩
  · by_cases hxc : x = c
    · subst hxc
      exact absurd ((Function.update_self x next s.guest).symm.trans hx) hnext
    · exact h.sent x ((Function.update_of_ne hxc next s.guest).symm.trans hx)
  · refine (h.ended x hx).imp_left fun hsent => ?_
    have hxc : x ≠ c := by
      rintro rfl
      exact hhere (hc.symm.trans hsent)
    exact (Function.update_of_ne hxc next s.guest).trans hsent

theorem Sound.send (hnone : s.attach = none) (hroute : s.route = .announcing ∨ s.route = .selecting) :
    Sound { s with attach := some c, guest := Function.update s.guest c .sent } := by
  -- a channel that is read and empty: no connection has been sent
  have hfree : ∀ x, s.guest x ≠ .sent := by
    intro x hx
    have hatt := h.sent x hx
    rcases hroute with hroute | hroute <;> simp [attached, hroute, hnone] at hatt
  refine ⟨fun x hx => ?_, fun x hx => .inr ((h.ended x hx).resolve_left (hfree x))⟩
  have hxc : x = c := by
    by_contra hne
    exact hfree x ((Function.update_of_ne hne _ s.guest).symm.trans hx)
  rcases hroute with hroute | hroute <;> simp [attached, hroute, hxc]

theorem Sound.step (op : Op Conn) (hop : s.Undisturbed op) : (s.step ws op).Sound := by
  cases op with
  | announce ok =>
    refine Trace.when_keeps h fun hroute => h.routes ?_
    cases ok with
    | true => simp [attached, hroute]
    | false => simpa [attached, hroute] using hop.symm
  | receive =>
    refine Trace.when_keeps h fun hroute => Trace.elim_keeps h _ _ fun c hc => h.routes ?_
    simp [attached, hroute, hc]
  | rejected => exact Trace.when_keeps h fun _ => h.leave hop
  | timeout | done => exact h.leave hop
  | delete => exact Trace.unless_keeps h fun _ => { h with }
  | reject notified code => exact Trace.when_keeps h fun _ => { h with }
  | get c => exact Trace.when_keeps h fun _ => h.move nofun nofun
  | ack c ok => cases ok <;> exact h.move nofun nofun
  | donate c | cancel c => exact h.move nofun nofun
  | send c => exact Trace.when_keeps h fun ⟨_, hnone⟩ => h.send hnone hop
  | exit c =>
    refine Trace.when_keeps h fun _ => { h with ended := fun x hx => ?_ }
    split
    · rename_i hsent
      rcases List.mem_cons.mp hx with rfl | hx
      · exact .inl hsent.1
      · exact h.ended x hx
    · rw [List.mem_cons]
      rcases List.mem_cons.mp hx with hxc | hx
      · exact .inr (.inl hxc)
      · exact (h.ended x hx).imp_right .inr

omit h

/-- While every connection is sent to a `RouteQuery` that receives it, donated connections have one owner. -/
theorem one_owner (ops : List (Op Conn))
    (h : Trace.Along (fun ops => Undisturbed (exec ws ops)) ops) : (exec ws ops).Owned := by
  have hsound : (exec ws ops).Sound :=
    h.invariant ⟨nofun, nofun⟩ fun op _ hop ih => ih.step ws op hop
  refine ⟨fun c c' hc hc' => ?_, fun c hc => (hsound.ended c hc).imp_left (hsound.sent c)⟩
  exact Option.some.inj ((hsound.sent c hc).symm.trans (hsound.sent c' hc'))

theorem one_owner_attached : (exec (fun _ => true) [.exit 7, .delete, .receive, .send 7, .donate 7, .ack 7 true,
    .get 7, .announce true]).Owned :=
  one_owner _ _ ⟨trivial, trivial, trivial, .inr rfl, trivial, trivial, trivial, trivial, trivial⟩

/-- The query times out between the `Ack` and the send: the connection stays open in the channel. -/
theorem owned_by_nobody : ¬ (exec (fun _ => true) [.exit 7, .send 7, .donate 7, .delete, .timeout, .ack 7 true,
    .get 7, .announce true]).Owned := fun h =>
  absurd (h.ended 7 (by decide)) (by decide)

end Pending

end Astrald.Apphost
