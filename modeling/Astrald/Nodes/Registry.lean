import Mathlib
import Astrald.Lib.Trace
import Astrald.Nodes.Session

/-!
# The sessions of a node

The model of the `sessions` maps of a node's muxes: `mux_sessions.go`, `handleInboundQuery`,
`handleResponse` and `handleData` of `mux.go`, the state word and `Close` of `session.go`, and the
parts of `session_migrator.go` that move a session from one map to another. There are any number
of muxes, sessions and migrators; the peers send what they like.

A step is what a goroutine does between two points at which another can come in: `createSession`
is three steps, `Close` two, `Complete` five. `Close` sets the state word and the flag in one step:
a write to the state word that falls between the two leaves what one after both leaves. What the
reader and the writer do is not part of this model, nor is the flag `paused`.

The map is a `sig.Map`: its `Set` stores under a free key only and reports whether it did.
-/

namespace Astrald.Nodes.Registry

/-- What the router returned: no error, an `ErrRejected` with its code, or another error. -/
inductive Verdict
  | accept
  | reject (code : ℕ)
  | fail
  deriving DecidableEq, Repr

def codeRejected : ℕ := 1

/-- Where `createSession` is with a session, and then, for an inbound one, `handleInboundQuery`. -/
inductive Stage
  | stored
  | hooked
  | failed
  | routing
  | accepted
  | opened
  | answered
  | served
  | refused (code : ℕ)
  | refusing
  | dropped
  deriving DecidableEq, Repr

def Stage.creating (st : Stage) : Bool := st = .stored || st = .hooked

def Stage.ready (st : Stage) : Bool := !st.creating && st ≠ .failed

def Stage.admitted (st : Stage) : Bool := st = .accepted || st = .opened || st = .answered || st = .served

/-- What is left of a `Close`: it took `onClose` when it set the flag. -/
inductive Closing (M K : Type)
  | live
  | marked (onClose : Option (M × K))
  | done
  deriving DecidableEq, Repr

def Closing.settled {M K : Type} : Closing M K → Bool
  | .marked _ => false
  | _ => true

/-- `session`, with the mux and the key that `createSession` registered it under. -/
structure Conn (M Who K : Type) where
  home : M
  key : K
  nonce : K
  remoteIdentity : Who
  sourceIdentity : Option Who
  outbound : Bool
  stage : Stage
  state : SessionState
  closed : Bool
  onClose : Option (M × K)
  closing : Closing M K
  routingResult : Option ℕ
  received : ℕ
  deriving DecidableEq, Repr

/-- Where a `SessionMigrator` is, from the swap of the state word in `Begin` on. -/
inductive Moving (M : Type)
  | begun
  | located (old : M)
  | removed (session : ℕ)
  | added (session : ℕ)
  | attached
  | completed
  | failed
  deriving DecidableEq, Repr

structure Migrator (M : Type) where
  session : ℕ
  target : M
  moving : Moving M
  deriving DecidableEq, Repr

/-- `Complete` is between the two maps, or has not told the session which one it is in. -/
def Migrator.carries {M : Type} (g : Migrator M) : Bool :=
  match g.moving with
  | .removed _ => true
  | .added _ => true
  | _ => false

/-- `Complete` has the session, and has not set its state. -/
def Migrator.holds {M : Type} (g : Migrator M) : Bool :=
  match g.moving with
  | .removed _ => true
  | .added _ => true
  | .attached => true
  | _ => false

/-- Sessions are named by their place in the list of all that were created. -/
structure Node (M Who K : Type) where
  sessions : M → K → Option ℕ
  conns : List (Conn M Who K)
  migrators : List (Migrator M)
  /-- The payload that a read loop is about to push. -/
  pushing : M → Option (ℕ × ℕ)

/-- The steps of the goroutines of one session. `close` is a call of `Close`: by the application, by
`handleReset`, by `handleData`, by `RouteQuery`, by `closeAllSessions` or by a migration that
failed; `unhook` is the rest of it. -/
inductive ConnOp (M : Type)
  | hook
  | setup
  | route (v : Verdict)
  | setOpen
  | respond
  | resume
  | drop
  | close
  | unhook
  | begin (target : M)

/-- The steps of a migrator: the end of `Begin`, then those of `Complete`. -/
inductive MigratorOp (M : Type)
  | locate (old : M)
  | remove
  | add
  | adopt
  | reopen

inductive Op (M Who K : Type)
  /-- `createSession`, by `handleInboundQuery` or by `RouteQuery`; `drawn` is the nonce that
  `newSession` draws if it is given none. -/
  | create (m : M) (nonce drawn : K) (remote : Who) (source : Option Who) (outbound : Bool)
  | response (m : M) (nonce : K) (code : ℕ)
  | data (m : M) (nonce : K) (len : ℕ)
  | push (m : M) (ok : Bool)
  | conn (s : ℕ) (op : ConnOp M)
  | migrator (j : ℕ) (op : MigratorOp M)

variable {M Who K : Type}

namespace Conn

/-- `Close` up to its unlocking. -/
def close (c : Conn M Who K) : Conn M Who K :=
  if c.closed then c else { c with state := .closed, closed := true, closing := .marked c.onClose }

variable (c : Conn M Who K) (op : ConnOp M)

@[simp] theorem closed_close : c.close.closed = true := by
  unfold close
  split
  · assumption
  · rfl

theorem close_fields :
    c.close.home = c.home ∧ c.close.key = c.key ∧ c.close.nonce = c.nonce ∧ c.close.outbound = c.outbound ∧
      c.close.stage = c.stage ∧ c.close.onClose = c.onClose ∧ c.close.received = c.received := by
  unfold close
  split <;> exact ⟨rfl, rfl, rfl, rfl, rfl, rfl, rfl⟩

def swapState (c : Conn M Who K) (old new : SessionState) : Option (Conn M Who K) :=
  if c.state = old then some { c with state := new } else none

/-- The `Response` comes from the peer that the session expects it from. -/
def expects [DecidableEq Who] (c : Conn M Who K) (peer : Who) : Bool :=
  match c.sourceIdentity with
  | some source => source = peer
  | none => c.remoteIdentity = peer

def handleResponse [DecidableEq Who] (c : Conn M Who K) (peer : Who) (code : ℕ) : Conn M Who K :=
  if c.expects peer then
    match c.swapState .routing (if code = 0 then .open else .closed) with
    | some c' => { c' with routingResult := some code }
    | none => c
  else c

/-- What `handleResponse` does to a session: it changes the state word, from routing. -/
theorem handleResponse_cases [DecidableEq Who] (p : Who) (code : ℕ) :
    c.handleResponse p code = c ∨ c.expects p = true ∧ c.state = .routing ∧ c.handleResponse p code =
      { c with state := if code = 0 then .open else .closed, routingResult := some code } := by
  unfold handleResponse swapState
  by_cases hexp : c.expects p = true
  · rw [if_pos hexp]
    by_cases hst : c.state = .routing
    · rw [if_pos hst]
      exact .inr ⟨hexp, hst, rfl⟩
    · rw [if_neg hst]
      exact .inl rfl
  · rw [if_neg hexp]
    exact .inl rfl

/-- The stage after `router.RouteQuery` has returned. -/
def routed : Verdict → Stage
  | .accept => .accepted
  | .reject code => .refused code
  | .fail => .refused codeRejected

def step (c : Conn M Who K) : ConnOp M → Conn M Who K
  | .hook => if c.stage = .stored then { c with onClose := some (c.home, c.key), stage := .hooked } else c
  | .setup => if c.stage = .hooked then { c with stage := if c.closed then .failed else .routing } else c
  | .route v => if c.stage = .routing ∧ c.outbound = false then { c with stage := routed v } else c
  | .setOpen => if c.stage = .accepted then { c with state := .open, stage := .opened } else c
  | .respond =>
    match c.stage with
    | .opened => { c with stage := .answered }
    | .refused _ => { c with stage := .refusing }
    | _ => c
  | .resume => if c.stage = .answered then { c with stage := .served } else c
  | .drop => if c.stage = .refusing then { c.close with stage := .dropped } else c
  | .close => c.close
  | .unhook =>
    match c.closing with
    | .marked _ => { c with closing := .done }
    | _ => c
  | .begin _ => if c.stage.ready ∧ c.state = .open then { c with state := .migrating } else c

theorem key_step : (c.step op).key = c.key := by
  have hclose := c.close_fields.2.1
  cases op <;> simp only [step] <;> first | exact hclose | (split <;> first | rfl | exact hclose)

theorem nonce_step : (c.step op).nonce = c.nonce := by
  have hclose := c.close_fields.2.2.1
  cases op <;> simp only [step] <;> first | exact hclose | (split <;> first | rfl | exact hclose)

theorem outbound_step : (c.step op).outbound = c.outbound := by
  have hclose := c.close_fields.2.2.2.1
  cases op <;> simp only [step] <;> first | exact hclose | (split <;> first | rfl | exact hclose)

theorem home_step : (c.step op).home = c.home := by
  have hclose := c.close_fields.1
  cases op <;> simp only [step] <;> first | exact hclose | (split <;> first | rfl | exact hclose)

theorem closed_step_of_closed {c : Conn M Who K} (h : c.closed = true) : (c.step op).closed = true := by
  cases op <;> simp only [step] <;> try split
  all_goals first | exact h | exact c.closed_close

theorem creating_step {c : Conn M Who K} (h : c.stage.creating = false) : (c.step op).stage.creating = false := by
  have hclose := c.close_fields.2.2.2.2.1
  cases op with
  | hook =>
    simp only [step]
    split
    · rename_i hst
      rw [hst] at h
      cases h
    · exact h
  | setup =>
    simp only [step]
    split
    · cases c.closed <;> rfl
    · exact h
  | route v =>
    simp only [step]
    split
    · cases v <;> rfl
    · exact h
  | close =>
    show c.close.stage.creating = false
    rw [hclose]
    exact h
  | setOpen | respond | resume | drop | unhook | begin => simp only [step]; split <;> first | rfl | exact h

/-- The entry that a step deletes: `createSession` that of a session closed before its `Setup`, and
`Close` that of its `onClose`. -/
def erases (c : Conn M Who K) : ConnOp M → Option (M × K)
  | .setup => if c.stage = .hooked ∧ c.closed then some (c.home, c.key) else none
  | .unhook =>
    match c.closing with
    | .marked onClose => onClose
    | _ => none
  | _ => none

def begins (c : Conn M Who K) (s : ℕ) : ConnOp M → List (Migrator M)
  | .begin target => if c.stage.ready ∧ c.state = .open then [⟨s, target, .begun⟩] else []
  | _ => []

end Conn

namespace Node

variable [DecidableEq M] [DecidableEq Who] [DecidableEq K]

def start : Node M Who K := ⟨fun _ _ => none, [], [], fun _ => none⟩

def setEntry (r : Node M Who K) (m : M) (k : K) (e : Option ℕ) : Node M Who K :=
  { r with sessions := Function.update r.sessions m (Function.update (r.sessions m) k e) }

def setConn (r : Node M Who K) (s : ℕ) (c : Conn M Who K) :
    Node M Who K := { r with conns := r.conns.set s c }

def setMigrator (r : Node M Who K) (j : ℕ) (g : Migrator M) : Node M Who K :=
  { r with migrators := r.migrators.set j g }

/-- The first step of `createSession`. -/
def create [Zero K] (r : Node M Who K) (m : M) (nonce drawn : K) (remote : Who) (source : Option Who)
    (outbound : Bool) : Node M Who K :=
  match r.sessions m nonce with
  | some _ => r
  | none =>
    { r.setEntry m nonce (some r.conns.length) with
      conns := r.conns ++ [{
        home := m
        key := nonce
        nonce := if nonce = 0 then drawn else nonce
        remoteIdentity := remote
        sourceIdentity := source
        outbound
        stage := .stored
        state := .routing
        closed := false
        onClose := none
        closing := .live
        routingResult := none
        received := 0 }] }

def erase (r : Node M Who K) : Option (M × K) → Node M Who K
  | none => r
  | some (m, k) => r.setEntry m k none

omit [DecidableEq Who] in
@[simp] theorem conns_erase (r : Node M Who K) (e : Option (M × K)) : (r.erase e).conns = r.conns := by
  rcases e with _ | ⟨m, k⟩ <;> rfl

omit [DecidableEq Who] in
@[simp] theorem migrators_erase (r : Node M Who K) (e : Option (M × K)) :
    (r.erase e).migrators = r.migrators := by
  rcases e with _ | ⟨m, k⟩ <;> rfl

def spawn (r : Node M Who K) (gs : List (Migrator M)) :
    Node M Who K := { r with migrators := r.migrators ++ gs }

def conn (r : Node M Who K) (s : ℕ) (c : Conn M Who K) (op : ConnOp M) : Node M Who K :=
  ((r.erase (c.erases op)).setConn s (c.step op)).spawn (c.begins s op)

omit [DecidableEq M] [DecidableEq Who] [DecidableEq K] in
/-- `Begin` leaves a migrator of an open session, other steps none. -/
theorem begins_cases (c : Conn M Who K) (s : ℕ) (op : ConnOp M) :
    c.begins s op = [] ∨ ∃ target, c.begins s op = [⟨s, target, .begun⟩] ∧ c.stage.creating = false ∧
      c.state = .open := by
  cases op with
  | begin target =>
    simp only [Conn.begins]
    split
    · rename_i h
      have hready := h.1
      simp only [Stage.ready, Bool.and_eq_true, Bool.not_eq_true'] at hready
      exact .inr ⟨target, rfl, hready.1, h.2⟩
    · exact .inl rfl
  | _ => exact .inl rfl

def migrate (r : Node M Who K) (j : ℕ) (g : Migrator M) (c : Conn M Who K) : MigratorOp M → Node M Who K
  | .locate old =>
    if g.moving = .begun ∧
      (r.sessions old c.nonce).isSome then r.setMigrator j { g with moving := .located old } else r
  | .remove =>
    match g.moving with
    | .located old =>
      if old = g.target then r.setMigrator j { g with moving := .attached }
      else
        match r.sessions old c.nonce with
        | none => r.setMigrator j { g with moving := .failed }
        | some x => (r.setEntry old c.nonce none).setMigrator j { g with moving := .removed x }
    | _ => r
  | .add =>
    match g.moving with
    | .removed x =>
      match r.conns[x]? with
      | none => r
      | some d =>
        match r.sessions g.target d.nonce with
        | some _ => r.setMigrator j { g with moving := .failed }
        | none => (r.setEntry g.target d.nonce (some x)).setMigrator j { g with moving := .added x }
    | _ => r
  | .adopt =>
    match g.moving with
    | .added x =>
      match r.conns[x]? with
      | none => r
      | some d =>
        (r.setConn x { d with onClose := some (g.target, d.nonce) }).setMigrator j
        { g with moving := .attached }
    | _ => r
  | .reopen =>
    if g.moving = .attached then
      (r.setConn g.session { c with state := .open }).setMigrator j { g with moving := .completed }
    else r

/-- The check of `handleData`. -/
def data (r : Node M Who K) (m : M) (nonce : K) (len : ℕ) : Node M Who K :=
  if r.pushing m = none then
    match r.sessions m nonce with
    | none => r
    | some s =>
      match r.conns[s]? with
      | none => r
      | some c =>
        if c.state = .open ∨ c.state = .migrating then
          { r with pushing := Function.update r.pushing m (some (s, len)) }
        else r
  else r

/-- The push of `handleData`: there may be no reader yet, and a reader can refuse. -/
def push (r : Node M Who K) (m : M) (ok : Bool) : Node M Who K :=
  match r.pushing m with
  | none => r
  | some (s, len) =>
    match r.conns[s]? with
    | none => r
    | some c =>
      { (if ok && c.stage.ready then r.setConn s { c with received := c.received + len } else r) with
        pushing := Function.update r.pushing m none }

def handleResponse (peer : M → Who) (r : Node M Who K) (m : M) (nonce : K) (code : ℕ) : Node M Who K :=
  match r.sessions m nonce with
  | none => r
  | some s =>
    match r.conns[s]? with
    | none => r
    | some c => r.setConn s (c.handleResponse (peer m) code)

/-- `peer m` is the identity at the other end of the link of `m`. -/
def step [Zero K] (peer : M → Who) (r : Node M Who K) : Op M Who K → Node M Who K
  | .create m nonce drawn remote source outbound => r.create m nonce drawn remote source outbound
  | .response m nonce code => r.handleResponse peer m nonce code
  | .data m nonce len => r.data m nonce len
  | .push m ok => r.push m ok
  | .conn s op =>
    match r.conns[s]? with
    | none => r
    | some c => r.conn s c op
  | .migrator j op =>
    match r.migrators[j]? with
    | none => r
    | some g =>
      match r.conns[g.session]? with
      | none => r
      | some c => r.migrate j g c op

def exec [Zero K] (peer : M → Who) : List (Op M Who K) → Node M Who K := Trace.exec (step peer) start

omit [DecidableEq Who] in
theorem sessions_setEntry (r : Node M Who K) (m : M) (k : K) (e : Option ℕ) (m' : M) (k' : K) :
    (r.setEntry m k e).sessions m' k' = if m' = m ∧ k' = k then e else r.sessions m' k' := by
  show Function.update r.sessions m (Function.update (r.sessions m) k e) m' k' = _
  by_cases hm : m' = m
  · subst hm
    rw [Function.update_self, Function.update_apply]
    simp
  · rw [Function.update_of_ne hm, if_neg fun h => hm h.1]

omit [DecidableEq M] [DecidableEq Who] [DecidableEq K] in
theorem conns_setConn {r : Node M Who K} {s : ℕ} {c : Conn M Who K} (hs : r.conns[s]? = some c)
    (c' : Conn M Who K) (t : ℕ) : (r.setConn s c').conns[t]? = if t = s then some c' else r.conns[t]? := by
  show (r.conns.set s c')[t]? = _
  obtain ⟨hlt, -⟩ := List.getElem?_eq_some_iff.mp hs
  rw [List.getElem?_set, if_pos hlt]
  by_cases h : t = s
  · rw [if_pos h, if_pos h.symm]
  · rw [if_neg h, if_neg (Ne.symm h)]

/-! ## What becomes of the sessions -/

/-- The sessions of `r` are in `r'`, with the homes they had, and closed if they were. -/
def Carries (r r' : Node M Who K) : Prop :=
  ∀ (s : ℕ) (c : Conn M Who K), r.conns[s]? = some c →
    ∃ c', r'.conns[s]? = some c' ∧ c'.home = c.home ∧ (c.closed = true → c'.closed = true)

variable {r r' : Node M Who K} {c c' : Conn M Who K} {s : ℕ}

section

omit [DecidableEq M] [DecidableEq Who] [DecidableEq K]

theorem Carries.refl (r : Node M Who K) : Carries r r := fun _ c hs => ⟨c, hs, rfl, id⟩

theorem Carries.trans {r'' : Node M Who K} (h : Carries r r') (h' : Carries r' r'') : Carries r r'' := by
  intro s c hs
  obtain ⟨c', hs', hhome, hc⟩ := h s c hs
  obtain ⟨c'', hs'', hhome', hc'⟩ := h' s c' hs'
  exact ⟨c'', hs'', hhome'.trans hhome, fun hcl => hc' (hc hcl)⟩

theorem carries_append (hr' : r'.conns = r.conns ++ [c']) : Carries r r' := by
  intro s c hs
  rw [hr', List.getElem?_append_left (List.getElem?_eq_some_iff.mp hs).1]
  exact ⟨c, hs, rfl, id⟩

theorem carries_setConn (hs : r.conns[s]? = some c) (hr' : r'.conns = (r.setConn s c').conns)
    (hhome : c'.home = c.home) (hc : c.closed = true → c'.closed = true) : Carries r r' := by
  intro t e he
  rw [hr', conns_setConn hs]
  by_cases hts : t = s
  · subst hts
    obtain rfl : c = e := Option.some.inj (hs.symm.trans he)
    exact ⟨c', if_pos rfl, hhome, hc⟩
  · exact ⟨e, (if_neg hts).trans he, rfl, id⟩

end

omit [DecidableEq Who] in
theorem carries_conn (hs : r.conns[s]? = some c) (op : ConnOp M) : Carries r (r.conn s c op) := by
  refine carries_setConn hs ?_ (c.home_step op) fun hc => Conn.closed_step_of_closed op hc
  show ((r.erase (c.erases op)).conns.set s (c.step op)) = r.conns.set s (c.step op)
  rw [conns_erase]

omit [DecidableEq Who] in
theorem carries_migrate {g : Migrator M} (hs : r.conns[g.session]? = some c) (j : ℕ) (op : MigratorOp M) :
    Carries r (r.migrate j g c op) := by
  cases op with
  | locate old =>
    dsimp only [Node.migrate]
    split <;> exact Carries.refl r
  | remove | add =>
    dsimp only [Node.migrate]
    split
    · split
      · exact Carries.refl r
      · split <;> exact Carries.refl r
    · exact Carries.refl r
  | adopt =>
    dsimp only [Node.migrate]
    split
    · split
      · exact Carries.refl r
      · rename_i d hd
        exact carries_setConn hd rfl rfl id
    · exact Carries.refl r
  | reopen =>
    refine Trace.when_keeps (Carries.refl r) fun _ => ?_
    exact carries_setConn hs rfl rfl id

theorem carries_step [Zero K] (peer : M → Who) (r : Node M Who K) (op : Op M Who K) :
    Carries r (r.step peer op) := by
  cases op with
  | create m nonce drawn remote source outbound =>
    dsimp only [Node.step, Node.create]
    split
    · exact Carries.refl r
    · exact carries_append rfl
  | response m nonce code =>
    dsimp only [Node.step, Node.handleResponse]
    split
    · exact Carries.refl r
    · split
      · exact Carries.refl r
      · rename_i c hs
        rcases c.handleResponse_cases (peer m) code with heq | ⟨-, -, heq⟩
        · rw [heq]
          exact carries_setConn hs rfl rfl id
        · rw [heq]
          exact carries_setConn hs rfl rfl id
  | data m nonce len =>
    refine Trace.when_keeps (Carries.refl r) fun _ => ?_
    split
    · exact Carries.refl r
    · split
      · exact Carries.refl r
      · split <;> exact Carries.refl r
  | push m ok =>
    dsimp only [Node.step, Node.push]
    split
    · exact Carries.refl r
    · split
      · exact Carries.refl r
      · rename_i c hs
        split
        · exact carries_setConn hs rfl rfl id
        · exact Carries.refl r
  | conn s op =>
    dsimp only [Node.step]
    split
    · exact Carries.refl r
    · exact carries_conn ‹_› op
  | migrator j op =>
    dsimp only [Node.step]
    split
    · exact Carries.refl r
    · split
      · exact Carries.refl r
      · exact carries_migrate ‹_› j op

end Node

end Astrald.Nodes.Registry
