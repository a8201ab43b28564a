import Mathlib
import Astrald.Lib.Trace
import Astrald.Nodes.Registry
import Astrald.Nodes.Migration

/-!
# The peer of a session

The model of `OpMigrateSession` over the session maps of a node, with the links that its lookups
go through and the mux that the writer of each session sends on. There are any number of links,
sessions and requests; a request runs its calls one at a time, between any other steps of the
node. The order of the calls is `Role.next`; whether a signal comes, whether a send fails and when
the old input buffer is closed is up to the peer and the application.

* `Node.Kept`: what is registered on a mux, is being pushed by it or is about to be moved to it has
  been opened with the node at the other end of it;
* `State.Runs`: what a call of a request does;
* `transport_peer`: a session stays with the node that it was opened with, if `Begin` is given a
  link to that node and finds the session on one;
* `transport_peer_moved`: a session that is moved between two links to one node;
* `transport_peer_changed`: what happens otherwise.
-/

namespace Astrald.Nodes.Peers

open List

open Registry (Node Conn)

/-! ## Requests -/

/-- Where a run of `OpMigrateSession` is: the lookups of the op, the query or the signal before
`Begin`, the calls of migrator `j`. -/
inductive Stage (M : Type)
  | called
  | found (s : ℕ)
  | linked (s : ℕ) (link : M)
  | opened (s : ℕ) (link : M)
  | targeted (s : ℕ) (target : M)
  | ready (s : ℕ) (target : M)
  | migrating (j : ℕ) (point : Point)
  | ended
  deriving DecidableEq, Repr

/-- `opMigrateSessionArgs` with the caller. -/
structure Request (M Who K : Type) where
  caller : Who
  sessionID : K
  linkID : K
  start : Bool
  stage : Stage M
  deriving DecidableEq, Repr

/-- The links of a node, each with its mux, and what `Authorize` answers to `AdminNetworkAction`. -/
structure Setting (M Who K : Type) where
  remoteIdentity : M → Who
  id : M → K
  authorize : Who → Bool

/-- `swapped s` is the mux of the last `SwapBuf`; `sent` and `accepted` are the `Data` frames, with
their sessions and the muxes that they went through. -/
structure State (M Who K : Type) where
  node : Node M Who K
  pool : List M
  requests : List (Request M Who K)
  paused : ℕ → Bool
  swapped : ℕ → Option M
  sent : List (ℕ × M)
  accepted : List (ℕ × M)

inductive Op (M Who K : Type)
  | link (m : M)
  | unlink (m : M)
  | node (op : Registry.Op M Who K)
  | write (s : ℕ)
  | call (caller : Who) (sessionID linkID : K) (start : Bool)
  | run (i : ℕ) (ok : Bool)

variable {M Who K : Type}

def Request.role (q : Request M Who K) : Role := if q.start then .initiator else .responder

/-- The point after a call of `Complete` that has left its migrator at `moving`; none if it has
returned an error. -/
def after (moving : Registry.Moving M) : Point → Option Point
  | .removeSession =>
    match moving with
    | .failed => none
    | .attached => some .setState
    | _ => some .addSession
  | _ =>
    match moving with
    | .failed => none
    | .added _ => some .addSession
    | _ => some .setState

namespace State

def start : State M Who K := ⟨Node.start, [], [], fun _ => false, fun _ => none, [], []⟩

def setStage (st : State M Who K) (i : ℕ) (q : Request M Who K) (stage : Stage M) : State M Who K :=
  { st with requests := st.requests.set i { q with stage } }

variable [DecidableEq M] [DecidableEq K]

def getSession (st : State M Who K) (nonce : K) : Option ℕ :=
  st.pool.findSome? fun m => st.node.sessions m nonce

def getSessionLink (st : State M Who K) (nonce : K) : Option M :=
  st.pool.find? fun m => (st.node.sessions m nonce).isSome

def getLinkByID (e : Setting M Who K) (st : State M Who K) (id : K) : Option M :=
  st.pool.find? fun m => e.id m = id

def advance (st : State M Who K) (i : ℕ) (q : Request M Who K) (j : ℕ) (point : Point) : State M Who K :=
  st.setStage i q (if q.role.next point = .idle then .ended else .migrating j (q.role.next point))

/-- The deferred `session.Close` of a migration that fails. -/
def abort (st : State M Who K) (i : ℕ) (q : Request M Who K) (s : ℕ) (c : Conn M Who K) : State M Who K :=
  { st with node := st.node.conn s c .close }.setStage i q .ended

/-- A call of `Complete` on the session maps. -/
def complete (st : State M Who K) (i : ℕ) (q : Request M Who K) (j : ℕ) (point : Point)
    (node : Node M Who K) : State M Who K :=
  match node.migrators[j]? with
  | none => st
  | some g =>
    match after g.moving point with
    | some p => { st with node }.setStage i q (.migrating j p)
    | none =>
      match node.conns[g.session]? with
      | none => st
      | some c => { st with node }.abort i q g.session c

/-- The call of a request that has begun to migrate. `Begin` looks for the link of the session
before it pauses the writer; if there is none its last line dereferences nil. -/
def migrate (st : State M Who K) (i : ℕ) (q : Request M Who K) (j : ℕ) (g : Registry.Migrator M)
    (c : Conn M Who K) (ok : Bool) (point : Point) : State M Who K :=
  match point with
  | .pause =>
    match st.getSessionLink c.nonce with
    | some old =>
      { st with
        node := st.node.migrate j g c (.locate old)
        paused := Function.update st.paused g.session true }.advance i q j point
    | none => st.setStage i q .ended
  | .swapBuf =>
    { st with swapped := Function.update st.swapped g.session (some g.target) }.advance i q j point
  | .removeSession => st.complete i q j point (st.node.migrate j g c .remove)
  | .addSession =>
    match g.moving with
    | .added _ => st.complete i q j point (st.node.migrate j g c .adopt)
    | _ => st.complete i q j point (st.node.migrate j g c .add)
  | .setState => { st with node := st.node.migrate j g c .reopen }.advance i q j point
  | .resume => { st with paused := Function.update st.paused g.session false }.advance i q j point
  | .takeBuf | .setNextBuffer | .grow => st.advance i q j point
  | .idle | .awaitReady | .begin => st
  | _ => if ok then st.advance i q j point else st.abort i q g.session c

def run [DecidableEq Who] (e : Setting M Who K) (st : State M Who K) (i : ℕ) (q : Request M Who K)
    (ok : Bool) : State M Who K :=
  match q.stage with
  | .called =>
    if e.authorize q.caller then
      match st.getSession q.sessionID with
      | some s => st.setStage i q (.found s)
      | none => st.setStage i q .ended
    else st.setStage i q .ended
  | .found s =>
    match st.node.conns[s]?.bind fun c => st.getSessionLink c.nonce with
    | some link =>
      st.setStage i q
        (if q.start = false ∧ q.caller ≠ e.remoteIdentity link then .ended else .linked s link)
    | none => st.setStage i q .ended
  | .linked s link =>
    st.setStage i q
      (if (st.node.conns[s]?.map fun c => c.state) = some .open then .opened s link else .ended)
  | .opened s link =>
    match st.getLinkByID e q.linkID with
    | some target => st.setStage i q (if e.id link = e.id target then .ended else .targeted s target)
    | none => st.setStage i q .ended
  | .targeted s target => st.setStage i q (if ok then .ready s target else .ended)
  | .ready s target =>
    match st.node.conns[s]? with
    | none => st
    | some c =>
      if c.stage.ready ∧ c.state = .open then
        { st with node := st.node.conn s c (.begin target) }.setStage i q
          (.migrating st.node.migrators.length .pause)
      else st.setStage i q .ended
  | .migrating j point =>
    match st.node.migrators[j]? with
    | none => st
    | some g =>
      match st.node.conns[g.session]? with
      | none => st
      | some c => st.migrate i q j g c ok point
  | .ended => st

/-- The mux that the writer of a session sends on. -/
def output (st : State M Who K) (s : ℕ) (c : Conn M Who K) : M := (st.swapped s).getD c.home

def pushed (r : Node M Who K) : Registry.Op M Who K → List (ℕ × M)
  | .push m ok =>
    match r.pushing m with
    | none => []
    | some (s, _) =>
      match r.conns[s]? with
      | none => []
      | some c => if ok && c.stage.ready then [(s, m)] else []
  | _ => []

/-- The steps of the session maps that are not those of a request. -/
def outside : Registry.Op M Who K → Bool
  | .conn _ (.begin _) => false
  | .migrator _ _ => false
  | _ => true

def step [DecidableEq Who] [Zero K] (e : Setting M Who K) (st : State M Who K) : Op M Who K → State M Who K
  | .link m => { st with pool := st.pool ++ [m] }
  | .unlink m => { st with pool := st.pool.erase m }
  | .node op =>
    if outside op then
      { st with node := st.node.step e.remoteIdentity op, accepted := st.accepted ++ pushed st.node op }
    else st
  | .write s =>
    match st.node.conns[s]? with
    | none => st
    | some c =>
      if c.stage.ready ∧ c.closed = false ∧ st.paused s = false then
        { st with sent := st.sent ++ [(s, st.output s c)] }
      else st
  | .call caller sessionID linkID start =>
    { st with requests := st.requests ++ [⟨caller, sessionID, linkID, start, .called⟩] }
  | .run i ok =>
    match st.requests[i]? with
    | none => st
    | some q => st.run e i q ok

def exec [DecidableEq Who] [Zero K] (e : Setting M Who K) : List (Op M Who K) → State M Who K :=
  Trace.exec (step e) start

/-! ## What a call does -/

/-- What a call of request `q` does to the session maps and to the writers. -/
inductive Runs (st : State M Who K) (q : Request M Who K) : Node M Who K → (ℕ → Option M) → Prop
  | looks : Runs st q st.node st.swapped
  | begins {s : ℕ} {target : M} {c : Conn M Who K} (hstage : q.stage = .ready s target)
      (hs : st.node.conns[s]? = some c) (hready : c.stage.ready = true) (hopen : c.state = .open) :
      Runs st q (st.node.conn s c (.begin target)) st.swapped
  | locates {j : ℕ} {g : Registry.Migrator M} {c : Conn M Who K} {old : M}
      (hstage : q.stage = .migrating j .pause) (hj : st.node.migrators[j]? = some g)
      (hc : st.node.conns[g.session]? = some c) (hold : st.getSessionLink c.nonce = some old) :
      Runs st q (st.node.migrate j g c (.locate old)) st.swapped
  | swaps {j : ℕ} {g : Registry.Migrator M} (hj : st.node.migrators[j]? = some g) :
      Runs st q st.node (Function.update st.swapped g.session (some g.target))
  | completes {j : ℕ} {g : Registry.Migrator M} {c : Conn M Who K} {op : Registry.MigratorOp M}
      (hj : st.node.migrators[j]? = some g) (hc : st.node.conns[g.session]? = some c)
      (hop : ∀ old, op ≠ .locate old) : Runs st q (st.node.migrate j g c op) st.swapped
  | closes {s : ℕ} {c : Conn M Who K} (hs : st.node.conns[s]? = some c) :
      Runs st q (st.node.conn s c .close) st.swapped
  | fails {j s : ℕ} {g : Registry.Migrator M} {c d : Conn M Who K} {op : Registry.MigratorOp M}
      (hj : st.node.migrators[j]? = some g) (hc : st.node.conns[g.session]? = some c)
      (hop : ∀ old, op ≠ .locate old) (hs : (st.node.migrate j g c op).conns[s]? = some d) :
      Runs st q ((st.node.migrate j g c op).conn s d .close) st.swapped

structure Leaves (st : State M Who K) (q : Request M Who K) (st' : State M Who K) : Prop where
  runs : Runs st q st'.node st'.swapped
  sent : st'.sent = st.sent
  accepted : st'.accepted = st.accepted

section

variable {st : State M Who K} {q : Request M Who K} {j : ℕ} {g : Registry.Migrator M} {c : Conn M Who K}

theorem Leaves.complete (hj : st.node.migrators[j]? = some g) (hc : st.node.conns[g.session]? = some c)
    (i : ℕ) (point : Point) {op : Registry.MigratorOp M} (hop : ∀ old, op ≠ .locate old) :
    Leaves st q (st.complete i q j point (st.node.migrate j g c op)) := by
  unfold State.complete
  split
  · exact ⟨.looks, rfl, rfl⟩
  · split
    · exact ⟨.completes hj hc hop, rfl, rfl⟩
    · split
      · exact ⟨.looks, rfl, rfl⟩
      · rename_i d hd
        exact ⟨.fails hj hc hop hd, rfl, rfl⟩

theorem Leaves.migrate {point : Point} (hstage : q.stage = .migrating j point)
    (hj : st.node.migrators[j]? = some g) (hc : st.node.conns[g.session]? = some c) (i : ℕ) (ok : Bool) :
    Leaves st q (st.migrate i q j g c ok point) := by
  have hlooks : ∀ p, Leaves st q (st.advance i q j p) := fun _ => ⟨.looks, rfl, rfl⟩
  have hsend : ∀ p, Leaves st q (if ok then st.advance i q j p else st.abort i q g.session c) := by
    intro p
    split
    · exact hlooks p
    · exact ⟨.closes hc, rfl, rfl⟩
  cases point with
  | pause =>
    simp only [State.migrate]
    split
    · rename_i old hold
      exact ⟨.locates hstage hj hc hold, rfl, rfl⟩
    · exact ⟨.looks, rfl, rfl⟩
  | swapBuf => exact ⟨.swaps hj, rfl, rfl⟩
  | removeSession => exact Leaves.complete hj hc i _ nofun
  | addSession =>
    simp only [State.migrate]
    split
    · exact Leaves.complete hj hc i _ nofun
    · exact Leaves.complete hj hc i _ nofun
  | setState =>
    have hop : ∀ old : M, Registry.MigratorOp.reopen ≠ .locate old := nofun
    exact ⟨.completes hj hc hop, rfl, rfl⟩
  | resume | idle | awaitReady | begin => exact ⟨.looks, rfl, rfl⟩
  | takeBuf | setNextBuffer | grow => exact hlooks _
  | sendReady | awaitSwitched | sendMigrate | sendSwitched | waitClosed | sendResume | awaitResume | awaitDone | sendDone => exact hsend _

end

theorem leaves_run [DecidableEq Who] (e : Setting M Who K) (st : State M Who K) (i : ℕ)
    (q : Request M Who K) (ok : Bool) :
    Leaves st q (st.run e i q ok) := by
  have hstays : ∀ stage, Leaves st q (st.setStage i q stage) := fun _ => ⟨.looks, rfl, rfl⟩
  unfold State.run
  cases hstage : q.stage with
  | called =>
    dsimp only
    split
    · split <;> exact hstays _
    · exact hstays _
  | found s | opened s link =>
    dsimp only
    split <;> exact hstays _
  | linked s link | targeted s target => exact hstays _
  | ready s target =>
    dsimp only
    split
    · exact ⟨.looks, rfl, rfl⟩
    · rename_i c hs
      split
      · rename_i h
        exact ⟨.begins hstage hs h.1 h.2, rfl, rfl⟩
      · exact hstays _
  | migrating j point =>
    dsimp only
    split
    · exact ⟨.looks, rfl, rfl⟩
    · rename_i g hj
      split
      · exact ⟨.looks, rfl, rfl⟩
      · rename_i c hc
        exact Leaves.migrate hstage hj hc i ok
  | ended => exact ⟨.looks, rfl, rfl⟩

end State

open State

/-! ## What the session maps keep -/

def met (peer : M → Who) (r : Node M Who K) (s : ℕ) : Option Who := r.conns[s]?.map fun c => peer c.home

variable {r r' : Node M Who K} {peer : M → Who} {s : ℕ} {c c' : Conn M Who K} {g : Registry.Migrator M}
  (e : Setting M Who K) {st : State M Who K}

theorem met_of_conn (hs : r.conns[s]? = some c) : met peer r s = some (peer c.home) := by
  rw [met, hs]
  rfl

theorem met_setConn (peer : M → Who) (hs : r.conns[s]? = some c) (hhome : c'.home = c.home) :
    met peer (r.setConn s c') = met peer r := by
  funext t
  simp only [met]
  rw [Node.conns_setConn hs]
  split
  · rename_i hts
    rw [hts, hs]
    exact congrArg (fun m => some (peer m)) hhome
  · rfl

/-- A session that is carried on stays with the node that it was opened with. -/
theorem met_carries {p : Who} (h : Node.Carries r r') (hs : met peer r s = some p) : met peer r' s = some p := by
  obtain ⟨c, hc, hp⟩ := Option.map_eq_some_iff.mp hs
  obtain ⟨c', hc', hhome, -⟩ := h s c hc
  rw [met_of_conn hc', hhome, hp]

/-- A migrator moves a session to a link to the node that the session was opened with. -/
structure Straight (peer : M → Who) (r : Node M Who K) (g : Registry.Migrator M) : Prop where
  session : met peer r g.session = some (peer g.target)
  located : ∀ old, g.moving = .located old → peer old = peer g.target
  carried : ∀ x, g.moving = .removed x ∨ g.moving = .added x → met peer r x = some (peer g.target)

/-- What is registered on a mux, is being pushed by its read loop or is to be moved to it was opened
with the node at the other end. -/
structure Kept (peer : M → Who) (r : Node M Who K) : Prop where
  entry : ∀ m k s, r.sessions m k = some s → met peer r s = some (peer m)
  pushing : ∀ m s len, r.pushing m = some (s, len) → met peer r s = some (peer m)
  migrator : ∀ g ∈ r.migrators, Straight peer r g

theorem Straight.mono (h : Straight peer r g) (hmet : ∀ s p, met peer r s = some p → met peer r' s = some p) :
    Straight peer r' g :=
  ⟨hmet _ _ h.session, h.located, fun x hx => hmet _ _ (h.carried x hx)⟩

theorem Straight.setConn (h : Straight peer r g) (hs : r.conns[s]? = some c) (hhome : c'.home = c.home) :
    Straight peer (r.setConn s c') g := by
  apply h.mono
  intro t p ht
  rw [met_setConn peer hs hhome]
  exact ht

/-- What a step has to be asked: which entries, pushes and migrators are new. -/
theorem Kept.of_new (h : Kept peer r) (hmet : ∀ s p, met peer r s = some p → met peer r' s = some p)
    (hentry : ∀ m k s, r'.sessions m k = some s → r.sessions m k = some s ∨ met peer r' s = some (peer m))
    (hpush : ∀ m s len, r'.pushing m = some (s, len) → r.pushing m = some (s, len) ∨ met peer r' s = some (peer m))
    (hmigrator : ∀ g ∈ r'.migrators, g ∈ r.migrators ∨ Straight peer r' g) : Kept peer r' where
  entry m k s hs := (hentry m k s hs).elim (fun h' => hmet _ _ (h.entry m k s h')) id
  pushing m s len hs := (hpush m s len hs).elim (fun h' => hmet _ _ (h.pushing m s len h')) id
  migrator g hg := (hmigrator g hg).elim (fun h' => (h.migrator g h').mono hmet) id

theorem Kept.setConn (h : Kept peer r) (hs : r.conns[s]? = some c) (hhome : c'.home = c.home) :
    Kept peer (r.setConn s c') := by
  apply h.of_new
  · intro t p ht
    rw [met_setConn peer hs hhome]
    exact ht
  · exact fun _ _ _ => .inl
  · exact fun _ _ _ => .inl
  · exact fun _ => .inl

theorem Kept.setMigrator (h : Kept peer r) {j : ℕ} (hg : Straight peer r g) : Kept peer (r.setMigrator j g) := by
  apply h.of_new
  · exact fun _ _ => id
  · exact fun _ _ _ => .inl
  · exact fun _ _ _ => .inl
  · intro g' hg'
    rcases mem_or_eq_of_mem_set hg' with hmem | rfl
    · exact .inl hmem
    · exact .inr (hg.mono fun _ _ => id)

/-- A migrator that goes on with nothing in its hands. -/
theorem Straight.goes (h : Straight peer r g) {moving : Registry.Moving M}
    (hlocated : ∀ old, moving ≠ .located old) (hremoved : ∀ x, moving ≠ .removed x)
    (hadded : ∀ x, moving ≠ .added x) : Straight peer r { g with moving } :=
  ⟨h.session, fun old hold => absurd hold (hlocated old),
    fun x hx => hx.elim (fun h => absurd h (hremoved x)) fun h => absurd h (hadded x)⟩

theorem Kept.handleResponse [DecidableEq Who] (h : Kept peer r) (m : M) (nonce : K) (code : ℕ) :
    Kept peer (r.handleResponse peer m nonce code) := by
  unfold Node.handleResponse
  split
  · exact h
  · split
    · exact h
    · rename_i c hs
      apply h.setConn hs
      rcases c.handleResponse_cases (peer m) code with heq | ⟨-, -, heq⟩
      · rw [heq]
      · rw [heq]

variable [DecidableEq M]

theorem Kept.setPushing (h : Kept peer r) {m : M} {x : Option (ℕ × ℕ)}
    (hx : ∀ s len, x = some (s, len) → met peer r s = some (peer m)) :
    Kept peer { r with pushing := Function.update r.pushing m x } := by
  apply h.of_new
  · exact fun _ _ => id
  · exact fun _ _ _ => .inl
  · intro m' s len hs
    dsimp only at hs
    rw [Function.update_apply] at hs
    split at hs
    · rename_i heq
      rw [heq]
      exact .inr (hx s len hs)
    · exact .inl hs
  · exact fun _ => .inl

theorem Kept.data (h : Kept peer r) (m : M) (nonce : K) (len : ℕ) : Kept peer (r.data m nonce len) := by
  refine Trace.when_keeps h fun _ => ?_
  split
  · exact h
  · rename_i s hs
    split
    · exact h
    · split
      · apply h.setPushing
        rintro s' len' ⟨⟩
        exact h.entry m nonce s hs
      · exact h

theorem Kept.push (h : Kept peer r) (m : M) (ok : Bool) : Kept peer (r.push m ok) := by
  unfold Node.push
  split
  · exact h
  · split
    · exact h
    · rename_i s len _ _ c hs
      split
      · have hset : Kept peer (r.setConn s { c with received := c.received + len }) := h.setConn hs rfl
        exact hset.setPushing nofun
      · exact h.setPushing nofun

variable [DecidableEq K]

section

variable (h : Kept peer r)
include h

theorem Kept.setEntry {m : M} {x : Option ℕ}
    (hx : ∀ s, x = some s → met peer r s = some (peer m)) (k : K) : Kept peer (r.setEntry m k x) := by
  apply h.of_new
  · exact fun _ _ => id
  · intro m' k' s hs
    rw [Node.sessions_setEntry] at hs
    split at hs
    · rename_i heq
      rw [heq.1]
      exact .inr (hx s hs)
    · exact .inl hs
  · exact fun _ _ _ => .inl
  · exact fun _ => .inl

theorem Kept.delete (m : M) (k : K) : Kept peer (r.setEntry m k none) := h.setEntry (by rintro _ ⟨⟩) k

theorem Kept.create [Zero K] (m : M) (nonce drawn : K) (remote : Who) (source : Option Who)
    (outbound : Bool) : Kept peer (r.create m nonce drawn remote source outbound) := by
  unfold Node.create
  split
  · exact h
  · apply h.of_new
    · exact fun s p => met_carries (Node.carries_append rfl)
    · intro m' k s hs
      rw [Node.sessions_setEntry] at hs
      split at hs
      · rename_i heq
        cases hs
        rw [heq.1]
        simp [met]
      · exact .inl hs
    · exact fun _ _ _ => .inl
    · exact fun _ => .inl

/-- A step of one session other than `Begin`. -/
theorem Kept.conn (hs : r.conns[s]? = some c) {op : Registry.ConnOp M}
    (hop : ∀ target, op ≠ .begin target) : Kept peer (r.conn s c op) := by
  have herase : Kept peer (r.erase (c.erases op)) := by
    rcases c.erases op with _ | ⟨m, k⟩
    · exact h
    · exact h.delete m k
  have hset : Kept peer ((r.erase (c.erases op)).setConn s (c.step op)) := by
    apply herase.setConn (c := c)
    · rw [Node.conns_erase]
      exact hs
    · exact c.home_step op
  have hbegins : c.begins s op = [] := by
    cases op with
    | begin target => exact absurd rfl (hop target)
    | _ => rfl
  simp only [Node.conn, Node.spawn, hbegins, append_nil]
  exact hset

/-- `Begin`, for a link to the node that the session was opened with. -/
theorem Kept.begin (hs : r.conns[s]? = some c) {target : M}
    (htarget : peer target = peer c.home) : Kept peer (r.conn s c (.begin target)) := by
  have hset : Kept peer (r.setConn s (c.step (.begin target))) := h.setConn hs (c.home_step _)
  have hmet : met peer (r.setConn s (c.step (.begin target))) s = some (peer target) := by
    rw [met_setConn peer hs (c.home_step _), met_of_conn hs, htarget]
  apply hset.of_new
  · exact fun _ _ => id
  · exact fun _ _ _ => .inl
  · exact fun _ _ _ => .inl
  · intro g hg
    rcases mem_append.mp hg with hold | hnew
    · exact .inl hold
    · simp only [Conn.begins] at hnew
      split at hnew
      · rw [mem_singleton.mp hnew]
        exact .inr ⟨hmet, by rintro _ ⟨⟩, by rintro _ (⟨⟨⟩⟩ | ⟨⟨⟩⟩)⟩
      · cases hnew

/-- The steps of a migrator; what `Begin` has found must be a link to the right node. -/
theorem Kept.migrate {j : ℕ} (hj : r.migrators[j]? = some g) (hc : r.conns[g.session]? = some c)
    {op : Registry.MigratorOp M} (hlocate : ∀ old, op = .locate old → peer old = peer c.home) :
    Kept peer (r.migrate j g c op) := by
  have hg : Straight peer r g := h.migrator g (mem_of_getElem? hj)
  have hfail : Kept peer (r.setMigrator j { g with moving := .failed }) :=
    h.setMigrator (hg.goes nofun nofun nofun)
  have hattach : Straight peer r { g with moving := .attached } :=
    hg.goes nofun nofun nofun
  have htarget : peer c.home = peer g.target :=
    Option.some.inj ((met_of_conn hc).symm.trans hg.session)
  cases op with
  | locate old =>
    refine Trace.when_keeps h fun _ => ?_
    refine h.setMigrator ⟨hg.session, ?_, by rintro _ (⟨⟨⟩⟩ | ⟨⟨⟩⟩)⟩
    rintro old' ⟨⟩
    exact (hlocate old rfl).trans htarget
  | remove =>
    simp only [Node.migrate]
    split
    · rename_i old hloc
      split
      · exact h.setMigrator hattach
      · split
        · exact hfail
        · rename_i x hx
          have hmet : met peer r x = some (peer g.target) := by
            rw [h.entry old c.nonce x hx, hg.located old hloc]
          refine (h.delete old c.nonce).setMigrator ⟨hg.session, nofun, ?_⟩
          rintro x' (⟨⟨⟩⟩ | ⟨⟨⟩⟩)
          exact hmet
    · exact h
  | add =>
    simp only [Node.migrate]
    split
    · rename_i x hrem
      have hmet := hg.carried x (.inl hrem)
      split
      · exact h
      · split
        · exact hfail
        · refine (h.setEntry ?_ _).setMigrator ⟨hg.session, nofun, ?_⟩
          · rintro s ⟨⟩
            exact hmet
          · rintro x' (⟨⟨⟩⟩ | ⟨⟨⟩⟩)
            exact hmet
    · exact h
  | adopt =>
    simp only [Node.migrate]
    split
    · split
      · exact h
      · rename_i d hd
        apply Kept.setMigrator
        · exact h.setConn hd rfl
        · exact hattach.setConn hd rfl
    · exact h
  | reopen =>
    refine Trace.when_keeps h fun _ => ?_
    apply Kept.setMigrator
    · exact h.setConn hc rfl
    · exact Straight.setConn (hg.goes nofun nofun nofun) hc rfl

theorem Kept.step [DecidableEq Who] [Zero K] {op : Registry.Op M Who K}
    (hop : outside op = true) : Kept peer (r.step peer op) := by
  cases op with
  | create m nonce drawn remote source outbound => exact h.create m nonce drawn remote source outbound
  | response m nonce code => exact h.handleResponse m nonce code
  | data m nonce len => exact h.data m nonce len
  | push m ok => exact h.push m ok
  | conn s op =>
    simp only [Node.step]
    split
    · exact h
    · rename_i c hs
      apply h.conn hs
      rintro target rfl
      cases hop
  | migrator j op => cases hop

end

/-- A call of a request carries every session on. -/
theorem carries_runs {q : Request M Who K} {node : Node M Who K} {swapped : ℕ → Option M}
    (h : State.Runs st q node swapped) : Node.Carries st.node node := by
  cases h with
  | looks | swaps => exact Node.Carries.refl _
  | begins hstage hs | closes hs => exact Node.carries_conn hs _
  | locates hstage hj hc | completes hj hc => exact Node.carries_migrate hc _ _
  | fails hj hc hop hs => exact (Node.carries_migrate hc _ _).trans (Node.carries_conn hs _)

/-! ## Whole runs -/

/-- The `Data` frames of a session went to and came from the node that it was opened with. -/
structure Loyal (e : Setting M Who K) (st : State M Who K) : Prop where
  node : Kept e.remoteIdentity st.node
  swapped : ∀ s m, st.swapped s = some m → met e.remoteIdentity st.node s = some (e.remoteIdentity m)
  sent : ∀ s m, (s, m) ∈ st.sent → met e.remoteIdentity st.node s = some (e.remoteIdentity m)
  accepted : ∀ s m, (s, m) ∈ st.accepted → met e.remoteIdentity st.node s = some (e.remoteIdentity m)

/-- `Begin` is given a link to the node that the session was opened with, and the link that it finds
under the nonce of the session is one to that node. -/
def State.suits [DecidableEq Who] (e : Setting M Who K) (st : State M Who K) : Op M Who K → Bool
  | .run i _ => st.requests[i]?.elim true fun q =>
    match q.stage with
    | .ready s target => st.node.conns[s]?.elim true fun c =>
      !(c.stage.ready && c.state = .open) || e.remoteIdentity target = e.remoteIdentity c.home
    | .migrating j .pause => st.node.migrators[j]?.elim true fun g =>
      st.node.conns[g.session]?.elim true fun c =>
        (st.getSessionLink c.nonce).elim true fun old => e.remoteIdentity old = e.remoteIdentity c.home
    | _ => true
  | _ => true

theorem Loyal.run [DecidableEq Who] {e : Setting M Who K} {st' : State M Who K} (h : Loyal e st) {i : ℕ}
    {ok : Bool} {q : Request M Who K} (hq : st.requests[i]? = some q) (hsuits : st.suits e (.run i ok) = true)
    (hleaves : State.Leaves st q st') : Loyal e st' := by
  obtain ⟨hruns, hsent, haccepted⟩ := hleaves
  obtain ⟨node, pool, requests, paused, swapped, sent, accepted⟩ := st'
  dsimp only at hruns hsent haccepted
  subst hsent haccepted
  simp only [suits, hq, Option.elim_some] at hsuits
  have hcarries := carries_runs hruns
  suffices hkept : Kept e.remoteIdentity node ∧
      ∀ s m, swapped s = some m → met e.remoteIdentity st.node s = some (e.remoteIdentity m) by
    exact ⟨hkept.1, fun s m hs => met_carries hcarries (hkept.2 s m hs),
      fun s m hs => met_carries hcarries (h.sent s m hs), fun s m hs => met_carries hcarries (h.accepted s m hs)⟩
  cases hruns with
  | looks => exact ⟨h.node, h.swapped⟩
  | begins hstage hs hready hopen =>
    rw [hstage] at hsuits
    simp only [hs, hready, hopen, Option.elim_some, Bool.and_self, decide_true, Bool.not_true, Bool.false_or,
      decide_eq_true_eq] at hsuits
    exact ⟨h.node.begin hs hsuits, h.swapped⟩
  | locates hstage hj hc hold =>
    rw [hstage] at hsuits
    simp only [hj, hc, hold, Option.elim_some, decide_eq_true_eq] at hsuits
    refine ⟨h.node.migrate hj hc ?_, h.swapped⟩
    rintro old ⟨⟩
    exact hsuits
  | swaps hj =>
    rename_i j g
    refine ⟨h.node, ?_⟩
    intro s m hs
    rw [Function.update_apply] at hs
    split at hs
    · rename_i heq
      cases hs
      rw [heq]
      exact (h.node.migrator g (mem_of_getElem? hj)).session
    · exact h.swapped s m hs
  | completes hj hc hop =>
    exact ⟨h.node.migrate hj hc fun old hold => absurd hold (hop old), h.swapped⟩
  | closes hs => exact ⟨h.node.conn hs nofun, h.swapped⟩
  | fails hj hc hop hs =>
    have hmoved := h.node.migrate hj hc fun old hold => absurd hold (hop old)
    exact ⟨hmoved.conn hs nofun, h.swapped⟩

omit [DecidableEq M] [DecidableEq K] in
/-- A push puts the frame into a session that was opened with the node it comes from. -/
theorem Kept.pushed (h : Kept peer r) {op : Registry.Op M Who K} {m : M} (hmem : (s, m) ∈ State.pushed r op) :
    met peer r s = some (peer m) := by
  cases op with
  | push m' ok =>
    simp only [State.pushed] at hmem
    split at hmem
    · cases hmem
    · rename_i t len hpush
      split at hmem
      · cases hmem
      · split at hmem
        · obtain ⟨rfl, rfl⟩ := Prod.mk.inj (mem_singleton.mp hmem)
          exact h.pushing m s len hpush
        · cases hmem
  | create | response | data | conn | migrator => cases hmem

variable [DecidableEq Who] [Zero K]

theorem Loyal.step {e : Setting M Who K} (h : Loyal e st) {op : Op M Who K} (hsuits : st.suits e op = true) :
    Loyal e (st.step e op) := by
  cases op with
  | link m | unlink m | call caller sessionID linkID start => exact { h with }
  | node op =>
    refine Trace.when_keeps h fun hout => ?_
    have hmet : ∀ s m, met e.remoteIdentity st.node s = some (e.remoteIdentity m) →
        met e.remoteIdentity (st.node.step e.remoteIdentity op) s = some (e.remoteIdentity m) :=
      fun s m => met_carries (Node.carries_step e.remoteIdentity st.node op)
    refine ⟨h.node.step hout, fun s m hs => hmet s m (h.swapped s m hs),
      fun s m hs => hmet s m (h.sent s m hs), ?_⟩
    intro s m hs
    rcases mem_append.mp hs with hold | hnew
    · exact hmet s m (h.accepted s m hold)
    · exact hmet s m (h.node.pushed hnew)
  | write s =>
    simp only [State.step]
    split
    · exact h
    · rename_i c hc
      split
      · refine { h with sent := ?_ }
        intro t m ht
        rcases mem_append.mp ht with hold | hnew
        · exact h.sent t m hold
        · obtain ⟨rfl, rfl⟩ := Prod.mk.inj (mem_singleton.mp hnew)
          cases hswap : st.swapped t with
          | none =>
            rw [output, hswap]
            exact met_of_conn hc
          | some m =>
            rw [output, hswap]
            exact h.swapped t m hswap
      · exact h
  | run i ok =>
    simp only [State.step]
    split
    · exact h
    · rename_i q hq
      exact h.run hq hsuits (leaves_run e st i q ok)

omit [DecidableEq M] [DecidableEq K] [DecidableEq Who] [Zero K] in
theorem loyal_start : Loyal e start where
  node := ⟨nofun, nofun, nofun⟩
  swapped := nofun
  sent := nofun
  accepted := nofun

/-- Every step of the run gives `Begin` the right link, and lets it find the right one. -/
def Suited (e : Setting M Who K) : List (Op M Who K) → Prop :=
  Trace.Along fun earlier op => (exec e earlier).suits e op = true

instance (e : Setting M Who K) (ops : List (Op M Who K)) : Decidable (Suited e ops) :=
  Trace.decidableAlong _ ops

theorem loyal_exec {ops : List (Op M Who K)} (hops : Suited e ops) : Loyal e (exec e ops) :=
  Trace.Along.invariant hops (loyal_start e) fun _ _ hop ih => ih.step hop

theorem met_state_step (st : State M Who K) (op : Op M Who K) {p : Who}
    (hs : met e.remoteIdentity st.node s = some p) : met e.remoteIdentity (st.step e op).node s = some p := by
  cases op with
  | link | unlink | call => exact hs
  | node op =>
    simp only [State.step]
    split
    · exact met_carries (Node.carries_step e.remoteIdentity st.node op) hs
    · exact hs
  | write t =>
    simp only [State.step]
    split
    · exact hs
    · split <;> exact hs
  | run i ok =>
    simp only [State.step]
    split
    · exact hs
    · rename_i q hq
      exact met_carries (carries_runs (leaves_run e st i q ok).runs) hs

/-- The node that a session was opened with is settled when it is opened. -/
theorem met_exec (later : List (Op M Who K)) {earlier : List (Op M Who K)} {p : Who}
    (hs : met e.remoteIdentity (exec e earlier).node s = some p) :
    met e.remoteIdentity (exec e (later ++ earlier)).node s = some p := by
  induction later with
  | nil => exact hs
  | cons op later ih => exact met_state_step e (exec e (later ++ earlier)) op ih

/-- **Transport peer.** In every run in which `Begin` is given a link to the node that the session was
opened with and finds the session on one, a session that was registered on a mux is later registered on
muxes of the same remote identity only, and its `Data` frames go to and come from the node that it was
opened with. -/
theorem transport_peer (e : Setting M Who K) (later earlier : List (Op M Who K))
    (hops : Suited e (later ++ earlier)) :
    (∀ m k s, (exec e earlier).node.sessions m k = some s →
      ∀ m' k', (exec e (later ++ earlier)).node.sessions m' k' = some s →
        e.remoteIdentity m' = e.remoteIdentity m) ∧
    (∀ s m, (s, m) ∈ (exec e (later ++ earlier)).sent →
      met e.remoteIdentity (exec e (later ++ earlier)).node s = some (e.remoteIdentity m)) ∧
    ∀ s m, (s, m) ∈ (exec e (later ++ earlier)).accepted →
      met e.remoteIdentity (exec e (later ++ earlier)).node s = some (e.remoteIdentity m) := by
  have hbefore : Suited e earlier := by
    induction later with
    | nil => exact hops
    | cons op later ih => exact ih hops.2
  have hlater := loyal_exec e hops
  have hearlier := loyal_exec e hbefore
  refine ⟨?_, hlater.sent, hlater.accepted⟩
  intro m k s hs m' k' hs'
  have hopened := met_exec e later (hearlier.node.entry m k s hs)
  have hmoved := hlater.node.entry m' k' s hs'
  rw [hmoved] at hopened
  exact Option.some.inj hopened

/-! ## Runs -/

/-- Links 0 and 2 lead to node 10, link 1 to node 20. -/
def threeLinks : Setting ℕ ℕ ℕ where
  remoteIdentity m := if m = 1 then 20 else 10
  id m := m + 100
  authorize _ := true

/-- A session that node `p` opens on link `m`, and the router accepts. -/
def admitted (m p s : ℕ) : List (Op ℕ ℕ ℕ) :=
  [.node (.create m 7 0 p none false), .node (.conn s .hook), .node (.conn s .setup),
    .node (.conn s (.route .accept)), .node (.conn s .setOpen), .node (.conn s .respond),
    .node (.conn s .resume)]

def calls (n : ℕ) : List (Op ℕ ℕ ℕ) := List.replicate n (.run 0 true)

def script (parts : List (List (Op ℕ ℕ ℕ))) : List (Op ℕ ℕ ℕ) := parts.flatten.reverse

def opened : List (Op ℕ ℕ ℕ) := script [[.link 1, .link 0, .link 2], admitted 0 10 0]

/-- Node 10 asks for its session to be moved to link `m`; then there are frames on that link. -/
def moved (m : ℕ) : List (Op ℕ ℕ ℕ) :=
  script [[.call 10 7 (m + 100) false], calls 21, [.write 0, .node (.data m 7 5), .node (.push m true)]]

/-- A session that its node moves to its other link. -/
theorem transport_peer_moved :
    (exec threeLinks opened).node.sessions 0 7 = some 0 ∧
    (exec threeLinks (moved 2 ++ opened)).node.sessions 2 7 = some 0 ∧
    (exec threeLinks (moved 2 ++ opened)).sent = [(0, 2)] ∧
    (exec threeLinks (moved 2 ++ opened)).accepted = [(0, 2)] ∧
    threeLinks.remoteIdentity 2 = threeLinks.remoteIdentity 0 := by
  have hopened : (exec threeLinks opened).node.sessions 0 7 = some 0 := by decide
  have hmoved : (exec threeLinks (moved 2 ++ opened)).node.sessions 2 7 = some 0 := by decide
  have hsuited : Suited threeLinks (moved 2 ++ opened) := by decide
  exact ⟨hopened, hmoved, by decide, by decide,
    (transport_peer threeLinks (moved 2) opened hsuited).1 0 7 0 hopened 2 7 hmoved⟩

/-- Node 10 moves its session to the link of node 20, which then gets its frames and sends it some.
And while a session of node 10 is moved between its links, node 20 opens one of the same nonce: `Begin`
finds that one, and `Complete` hands it to node 10. -/
theorem transport_peer_changed :
    (∃ ops, (exec threeLinks opened).node.sessions 0 7 = some 0 ∧
      (exec threeLinks (ops ++ opened)).node.sessions 1 7 = some 0 ∧
      (exec threeLinks (ops ++ opened)).sent = [(0, 1)] ∧
      (exec threeLinks (ops ++ opened)).accepted = [(0, 1)] ∧
      met threeLinks.remoteIdentity (exec threeLinks (ops ++ opened)).node 0 = some 10 ∧
      threeLinks.remoteIdentity 1 = 20) ∧
    ∃ ops, (exec threeLinks ops).node.sessions 2 7 = some 1 ∧
      (exec threeLinks ops).accepted = [(1, 2)] ∧
      met threeLinks.remoteIdentity (exec threeLinks ops).node 1 = some 20 ∧
      threeLinks.remoteIdentity 2 = 10 := by
  refine ⟨⟨moved 1, by decide, by decide, by decide, by decide, by decide, by decide⟩, ?_⟩
  exact ⟨script [[.call 10 7 102 false], calls 4, admitted 1 20 1, calls 17,
    [.node (.data 2 7 5), .node (.push 2 true)]] ++ opened, by decide, by decide, by decide, by decide⟩

end Astrald.Nodes.Peers
