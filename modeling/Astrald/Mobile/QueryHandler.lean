import Astrald.Lib.Trace

/-!
# Queries to a mobile handler

`handlerRouter.RouteQuery` starts the handler and waits for its response, the end of the context or the
timeout. `Accept` and `Reject` of any thread, the return of the handler and a router that gives up compete
for the flag `resolved`; only the first of them answers.

* `router_agrees`: when no `Accept` has won before the router gives up, a connection is given to the handler
  exactly when `RouteQuery` returns its other end;
* `accepted_and_rejected`: the `select` takes the ended context although the query was accepted.
-/

namespace Astrald.Mobile

inductive Code
  | default
  | internalError
  | canceled
  | timeout

inductive Response (Conn : Type)
  | accepted (conn : Conn)
  | rejected (code : Code)

/-- Where `RouteQuery` is. -/
inductive Route (Conn : Type)
  | waiting
  /-- The `select` took the context or the timeout. -/
  | givingUp (code : Code)
  | returned (res : Response Conn)

/-- `resolved` is the answer of the call that set the flag, `response` the channel. -/
structure InboundQuery (Conn : Type) where
  resolved : Option (Response Conn)
  response : Option (Response Conn)
  route : Route Conn

inductive Op (Conn : Type)
  /-- `Accept` makes a new connection, which it returns if it resolves the query. -/
  | accept (conn : Conn)
  | reject
  /-- `HandleQuery` returns, and the deferred call rejects. -/
  | handled
  /-- The call that has resolved the query sends its response. -/
  | respond
  | receive
  | cancel
  | timeout
  /-- The router that has left the `select` rejects and returns. -/
  | giveUp

namespace InboundQuery

variable {Conn : Type} (iq : InboundQuery Conn)

/-- The query that is resolved stays as it is. -/
def resolve (res : Response Conn) : InboundQuery Conn := { iq with resolved := iq.resolved.or (some res) }

def leave (code : Code) : InboundQuery Conn :=
  match iq.route with
  | .waiting => { iq with route := .givingUp code }
  | _ => iq

def step : Op Conn → InboundQuery Conn
  | .accept conn => iq.resolve (.accepted conn)
  | .reject => iq.resolve (.rejected .default)
  | .handled => iq.resolve (.rejected .internalError)
  | .respond => { iq with response := iq.resolved }
  | .receive =>
    match iq.route, iq.response with
    | .waiting, some res => { iq with route := .returned res }
    | _, _ => iq
  | .cancel => iq.leave .canceled
  | .timeout => iq.leave .timeout
  | .giveUp =>
    match iq.route with
    | .givingUp code => { iq.resolve (.rejected code) with route := .returned (.rejected code) }
    | _ => iq

/-- The handler has a connection exactly when `RouteQuery` returned its other end. -/
def Agrees : Prop :=
  ∀ res, iq.route = .returned res → ∀ conn, iq.resolved = some (.accepted conn) ↔ res = .accepted conn

/-- A router that gives up finds that no `Accept` has won. -/
def Undisturbed : Op Conn → Prop
  | .giveUp => ∀ conn, iq.resolved ≠ some (.accepted conn)
  | _ => True

structure Sound : Prop where
  agrees : iq.Agrees
  response : ∀ res, iq.response = some res → iq.resolved = some res
  returned : ∀ res, iq.route = .returned res → iq.resolved ≠ none

variable {iq} (h : iq.Sound)
include h

theorem Sound.resolve (res : Response Conn) : (iq.resolve res).Sound := by
  cases hresolved : iq.resolved with
  | none =>
    refine ⟨fun r hr => ?_, fun r hr => ?_, fun r hr => ?_⟩
    · exact absurd hresolved (h.returned r hr)
    · exact absurd ((h.response r hr).symm.trans hresolved) (by simp)
    · exact absurd hresolved (h.returned r hr)
  | some r =>
    have hsame : iq.resolve res = iq := by rw [InboundQuery.resolve, hresolved, Option.some_or, ← hresolved]
    rw [hsame]
    exact h

theorem Sound.leave (code : Code) : (iq.leave code).Sound := by
  rw [InboundQuery.leave]
  split
  · exact ⟨nofun, h.response, nofun⟩
  · exact h

theorem Sound.step (op : Op Conn) (hop : iq.Undisturbed op) : (iq.step op).Sound := by
  cases op with
  | accept | reject | handled => exact h.resolve _
  | respond => exact { h with response := fun res hres => hres }
  | receive =>
    rw [InboundQuery.step]
    split
    · rename_i res _ hres
      have hresolved := h.response res hres
      refine ⟨fun r hr conn => ?_, h.response, fun r _ => by simp [hresolved]⟩
      obtain rfl : res = r := by simpa using hr
      simp [hresolved]
    · exact h
  | cancel | timeout => exact h.leave _
  | giveUp =>
    rw [InboundQuery.step]
    split
    · rename_i code hroute
      refine ⟨fun r hr conn => ?_, (h.resolve _).response, fun r _ => by simp [InboundQuery.resolve]⟩
      obtain rfl : .rejected code = r := by simpa using hr
      cases hresolved : iq.resolved with
      | none => simp [InboundQuery.resolve, hresolved]
      | some res =>
        have hnot : res ≠ .accepted conn := fun hres => hop conn (hres ▸ hresolved)
        simp [InboundQuery.resolve, hresolved, hnot]
    · exact h

omit h

def exec : List (Op Conn) → InboundQuery Conn := Trace.exec step ⟨none, none, .waiting⟩

theorem router_agrees (ops : List (Op Conn)) (h : Trace.Along (fun ops => Undisturbed (exec ops)) ops) :
    (exec ops).Agrees := by
  have hsound : (exec ops).Sound := h.invariant ⟨nofun, nofun, nofun⟩ fun op _ hop ih => ih.step op hop
  exact hsound.agrees

theorem router_agrees_accepted : (exec [.receive, .respond, .reject, .accept ()]).route = .returned (.accepted ()) ∧
    (exec [.receive, .respond, .reject, .accept ()]).Agrees :=
  ⟨rfl, router_agrees _ ⟨trivial, trivial, trivial, trivial, trivial⟩⟩

/-- The handler has accepted when the context ends. -/
theorem accepted_and_rejected : ¬ (exec [.giveUp, .cancel, .respond, .accept ()]).Agrees :=
  fun h => nomatch (h _ rfl ()).mp rfl

end InboundQuery

end Astrald.Mobile
