import Astrald.Nodes.Registry

/-!
# Who opens an inbound session

A session that a peer's query created is to be opened by this node's router, not by the peer.

* `Node.Proper.step`: every step keeps what is said of the sessions whose router has not accepted,
  unless it is a `Response` that opens one of them;
* `Node.opened_by_router`: without such a `Response`, an inbound session is open or migrating, and its
  reader has accepted a byte, only after the router accepted it, and a refused one is closed;
* `opened_by_peer`: a peer that answers its own query opens the session.
-/

namespace Astrald.Nodes.Registry

variable {M Who K : Type} [DecidableEq M] [DecidableEq Who] [DecidableEq K]

/-- A session that is not open and has received nothing. -/
structure Conn.Waiting (c : Conn M Who K) : Prop where
  shut : c.state = .routing ∨ c.state = .closed
  empty : c.received = 0
  marked : c.closed = true → c.state = .closed
  dropped : c.stage = .dropped → c.closed = true

/-- An inbound session waits until its router accepts. -/
def Conn.Proper (c : Conn M Who K) : Prop := c.outbound = false → c.stage.admitted = false → c.Waiting

namespace Conn

variable {c : Conn M Who K}

section

omit [DecidableEq M] [DecidableEq Who] [DecidableEq K]

theorem admitted_step (h : c.stage.admitted = true) (op : ConnOp M) : (c.step op).stage.admitted = true := by
  have hclose := c.close_fields
  cases op <;> simp only [step] <;> try split
  all_goals simp_all [Stage.admitted]

theorem Waiting.close (h : c.Waiting) : c.close.Waiting := by
  refine Trace.unless_keeps h fun _ => ?_
  exact ⟨.inr rfl, h.empty, fun _ => rfl, fun _ => rfl⟩

/-- A step that changes the stage, but not to the refused one. -/
theorem Waiting.setStage (h : c.Waiting) {st : Stage} (hst : st ≠ .dropped) :
    ({ c with stage := st } : Conn M Who K).Waiting :=
  { h with dropped := fun hd => absurd hd hst }

theorem Waiting.step (h : c.Waiting) (hadm : c.stage.admitted = false) (op : ConnOp M) : (c.step op).Waiting := by
  cases op with
  | hook =>
    refine Trace.when_keeps h fun _ => ?_
    exact { h with dropped := fun hd => by cases hd }
  | setup =>
    refine Trace.when_keeps h fun _ => ?_
    exact h.setStage (by cases c.closed <;> decide)
  | route v =>
    refine Trace.when_keeps h fun _ => ?_
    cases v <;> exact h.setStage (by simp [routed])
  | setOpen =>
    refine Trace.when_keeps h fun hstage => ?_
    rw [hstage] at hadm
    cases hadm
  | respond =>
    simp only [Conn.step]
    split
    · exact h.setStage (by decide)
    · exact h.setStage (by decide)
    · exact h
  | resume =>
    refine Trace.when_keeps h fun _ => ?_
    exact h.setStage (by decide)
  | drop =>
    refine Trace.when_keeps h fun _ => ?_
    exact ⟨h.close.shut, h.close.empty, h.close.marked, fun _ => c.closed_close⟩
  | close => exact h.close
  | unhook =>
    simp only [Conn.step]
    split
    · exact { h with }
    · exact h
  | begin target =>
    refine Trace.when_keeps h fun hopen => ?_
    rcases h.shut with hs | hs <;> rw [hs] at hopen <;> exact absurd hopen.2 (by decide)

theorem Proper.step (h : c.Proper) (op : ConnOp M) : (c.step op).Proper := by
  intro hout hadm
  rw [outbound_step] at hout
  cases hold : c.stage.admitted with
  | true => rw [admitted_step hold op] at hadm; cases hadm
  | false => exact (h hout hold).step hold op

end

end Conn

namespace Node

/-- The router has accepted the session, if it is an inbound one. -/
def Passed (r : Node M Who K) (s : ℕ) : Prop :=
  ∃ c, r.conns[s]? = some c ∧ (c.outbound = false → c.stage.admitted = true)

structure Proper (r : Node M Who K) : Prop where
  conns : ∀ (s : ℕ) (c : Conn M Who K), r.conns[s]? = some c → c.Proper
  migrators : ∀ g ∈ r.migrators, Passed r g.session
  pushing : ∀ m s len, r.pushing m = some (s, len) → Passed r s

variable {r : Node M Who K} {c : Conn M Who K}

omit [DecidableEq M] [DecidableEq Who] [DecidableEq K] in
/-- The step of one session that keeps it proper, and accepted if it was. -/
theorem Proper.setConn (h : r.Proper) {s : ℕ} {c' : Conn M Who K} (hs : r.conns[s]? = some c)
    (hout : c'.outbound = c.outbound) (hadm : c.stage.admitted = true → c'.stage.admitted = true)
    (hc' : c'.Proper) : (r.setConn s c').Proper := by
  have hpassed : ∀ t, Passed r t → Passed (r.setConn s c') t := by
    rintro t ⟨e, he, hpass⟩
    by_cases hts : t = s
    · subst hts
      obtain rfl : c = e := Option.some.inj (hs.symm.trans he)
      refine ⟨c', by rw [conns_setConn hs, if_pos rfl], fun ho => hadm (hpass (hout ▸ ho))⟩
    · exact ⟨e, by rw [conns_setConn hs, if_neg hts]; exact he, hpass⟩
  refine ⟨fun t e he => ?_, fun g hg => hpassed _ (h.migrators g hg),
    fun m t len hp => hpassed _ (h.pushing m t len hp)⟩
  rw [conns_setConn hs] at he
  by_cases hts : t = s
  · rw [if_pos hts] at he
    cases he
    exact hc'
  · rw [if_neg hts] at he
    exact h.conns t e he

omit [DecidableEq Who] in
theorem Proper.setEntry (h : r.Proper) (m : M) (k : K) (e : Option ℕ) : (r.setEntry m k e).Proper :=
  { h with }

omit [DecidableEq M] [DecidableEq Who] [DecidableEq K] in
theorem Proper.setMigrator (h : r.Proper) {j : ℕ} {g g' : Migrator M} (hj : r.migrators[j]? = some g)
    (hg : g'.session = g.session) : (r.setMigrator j g').Proper := by
  refine ⟨h.conns, fun q hq => ?_, h.pushing⟩
  rcases List.mem_or_eq_of_mem_set hq with hold | rfl
  · exact h.migrators q hold
  · rw [hg]
    exact h.migrators g (List.mem_of_getElem? hj)

omit [DecidableEq Who] in
theorem Proper.create [Zero K] (h : r.Proper) (m : M) (nonce drawn : K) (remote : Who) (source : Option Who)
    (outbound : Bool) : (r.create m nonce drawn remote source outbound).Proper := by
  unfold Node.create
  split
  · exact h
  · have hpassed : ∀ {t d}, Passed r t → Passed ⟨r.sessions, r.conns ++ [d], r.migrators, r.pushing⟩ t := by
      rintro t d ⟨e, he, hpass⟩
      exact ⟨e, List.getElem?_append_left (List.getElem?_eq_some_iff.mp he).1 ▸ he, hpass⟩
    refine ⟨fun s c hc => ?_, fun g hg => hpassed (h.migrators g hg),
      fun m s len hp => hpassed (h.pushing m s len hp)⟩
    rcases List.mem_append.mp (List.mem_of_getElem? hc) with hold | hnew
    · obtain ⟨t, ht⟩ := List.getElem?_of_mem hold
      exact h.conns t c ht
    · obtain rfl := List.mem_singleton.mp hnew
      exact fun _ _ => ⟨.inl rfl, rfl, fun hc => (by cases hc), fun hd => (by cases hd)⟩

omit [DecidableEq Who] in
theorem Proper.erase (h : r.Proper) (e : Option (M × K)) : (r.erase e).Proper := by
  rcases e with _ | ⟨m, k⟩
  · exact h
  · exact h.setEntry m k none

omit [DecidableEq M] [DecidableEq Who] [DecidableEq K] in
/-- An open session has been accepted by its router, if it is an inbound one. -/
theorem Proper.admitted_of_open (h : r.Proper) {s : ℕ} (hs : r.conns[s]? = some c)
    (hopen : c.state = .open ∨ c.state = .migrating) (hout : c.outbound = false) : c.stage.admitted = true := by
  cases hadm : c.stage.admitted with
  | true => rfl
  | false => rcases (h.conns s c hs hout hadm).shut with hst | hst <;> simp [hst] at hopen

omit [DecidableEq Who] in
/-- A step of a session keeps the node proper: only an open one begins to migrate. -/
theorem Proper.conn (h : r.Proper) {s : ℕ} (hs : r.conns[s]? = some c) (op : ConnOp M) :
    (r.conn s c op).Proper := by
  have hs' : (r.erase (c.erases op)).conns[s]? = some c := by rw [conns_erase]; exact hs
  have hset : ((r.erase (c.erases op)).setConn s (c.step op)).Proper :=
    (h.erase _).setConn hs' (c.outbound_step op) (fun hadm => Conn.admitted_step hadm op)
    ((h.conns s c hs).step op)
  refine { hset with migrators := fun g hg => ?_ }
  rcases List.mem_append.mp hg with hold | hnew
  · exact hset.migrators g hold
  · rcases begins_cases c s op with hnone | ⟨target, hone, -, hopen⟩
    · rw [hnone] at hnew
      cases hnew
    · rw [hone] at hnew
      obtain rfl := List.mem_singleton.mp hnew
      refine ⟨c.step op, (conns_setConn hs' _ s).trans (if_pos rfl), fun hout => ?_⟩
      rw [Conn.outbound_step] at hout
      exact Conn.admitted_step (h.admitted_of_open hs (.inl hopen) hout) op

/-- A `Response` that opens an inbound session which the router has not accepted. -/
def forged (peer : M → Who) (r : Node M Who K) : Op M Who K → Bool
  | .response m nonce code => code = 0 && (r.sessions m nonce).any fun s => r.conns[s]?.any fun c =>
      !c.outbound && !c.stage.admitted && c.state = .routing && c.expects (peer m)
  | _ => false

omit [DecidableEq M] [DecidableEq K] in
theorem Proper.handleResponse (h : r.Proper) {peer : M → Who} {m : M} {nonce : K} {code : ℕ}
    (hun : r.forged peer (.response m nonce code) = false) : (r.handleResponse peer m nonce code).Proper := by
  unfold Node.handleResponse
  split
  · exact h
  · rename_i s hentry
    split
    · exact h
    · rename_i c hs
      rcases c.handleResponse_cases (peer m) code with hsame | ⟨hexp, hst, heq⟩
      · rw [hsame]
        exact h.setConn hs rfl id (h.conns s c hs)
      · rw [heq]
        refine h.setConn hs rfl id fun hout hadm => ?_
        have hw := h.conns s c hs hout hadm
        have hcode : code ≠ 0 := by
          intro hzero
          simp only [forged, hentry, hzero, Option.any_some, hs] at hun
          have hout' : c.outbound = false := hout
          have hadm' : c.stage.admitted = false := hadm
          simp [hout', hadm', hst, hexp] at hun
        refine ⟨.inr (if_neg hcode), hw.empty, fun _ => if_neg hcode, hw.dropped⟩

section

omit [DecidableEq Who] [DecidableEq K]

/-- The check of `handleData` is passed by open sessions only. -/
theorem Proper.data (h : r.Proper) (m : M) (nonce : K) (len : ℕ) : (r.data m nonce len).Proper := by
  refine Trace.when_keeps h fun _ => ?_
  split
  · exact h
  · rename_i s _
    split
    · exact h
    · rename_i c hs
      refine Trace.when_keeps h fun hopen => ?_
      refine { h with pushing := fun n t l hp => ?_ }
      replace hp : Function.update r.pushing m (some (s, len)) n = some (t, l) := hp
      rw [Function.update_apply] at hp
      split at hp
      · cases hp
        exact ⟨c, hs, h.admitted_of_open hs hopen⟩
      · exact h.pushing n t l hp

theorem Proper.push (h : r.Proper) (m : M) (ok : Bool) : (r.push m ok).Proper := by
  unfold Node.push
  split
  · exact h
  · rename_i s len hpush
    split
    · exact h
    · rename_i c hs
      have hset : (if ok && c.stage.ready then r.setConn s { c with received := c.received + len } else
        r).Proper := by
        split
        · refine h.setConn hs rfl id fun hout hadm => ?_
          obtain ⟨e, he, hpass⟩ := h.pushing m s len hpush
          obtain rfl : c = e := Option.some.inj (hs.symm.trans he)
          exact absurd (hpass hout) (by rw [show c.stage.admitted = false from hadm]; decide)
        · exact h
      have hpushing : ∀ n, (if ok && c.stage.ready then r.setConn s { c with received := c.received +
        len } else r).pushing n
          = r.pushing n := by
        intro n
        split <;> rfl
      refine { hset with pushing := fun n t l hp => ?_ }
      replace hp : Function.update r.pushing m none n = some (t, l) := hp
      rw [Function.update_apply] at hp
      split at hp
      · cases hp
      · exact hset.pushing n t l (by rw [hpushing]; exact hp)

end

omit [DecidableEq Who] in
/-- A migrator sets no session open but one that was open when it began. -/
theorem Proper.migrate (h : r.Proper) {j : ℕ} {g : Migrator M} (hj : r.migrators[j]? = some g)
    (hs : r.conns[g.session]? = some c) (op : MigratorOp M) : (r.migrate j g c op).Proper := by
  cases op with
  | locate old =>
    refine Trace.when_keeps h fun _ => ?_
    exact h.setMigrator hj rfl
  | remove =>
    dsimp only [Node.migrate]
    split
    · split
      · exact h.setMigrator hj rfl
      · split
        · exact h.setMigrator hj rfl
        · exact (h.setEntry _ _ _).setMigrator hj rfl
    · exact h
  | add =>
    dsimp only [Node.migrate]
    split
    · split
      · exact h
      · split
        · exact h.setMigrator hj rfl
        · exact (h.setEntry _ _ _).setMigrator hj rfl
    · exact h
  | adopt =>
    dsimp only [Node.migrate]
    split
    · split
      · exact h
      · rename_i x _ _ d hx
        have hd : ({ d with onClose := some (g.target, d.nonce) } : Conn M Who K).Proper := fun hout hadm =>
          have hw := h.conns x d hx hout hadm
          { hw with }
        have hset : (r.setConn x { d with onClose := some (g.target, d.nonce) }).Proper := h.setConn hx
          rfl id hd
        exact hset.setMigrator hj rfl
    · exact h
  | reopen =>
    refine Trace.when_keeps h fun _ => ?_
    obtain ⟨e, he, hpass⟩ := h.migrators g (List.mem_of_getElem? hj)
    obtain rfl : c = e := Option.some.inj (hs.symm.trans he)
    have hc : ({ c with state := .open } : Conn M Who K).Proper := fun hout hadm =>
      absurd (hpass hout) (by rw [show c.stage.admitted = false from hadm]; decide)
    have hset : (r.setConn g.session { c with state := .open }).Proper := h.setConn hs rfl id hc
    exact hset.setMigrator hj rfl

variable [Zero K]

theorem Proper.step (h : r.Proper) {peer : M → Who} {op : Op M Who K} (hun : r.forged peer op = false) :
    (r.step peer op).Proper := by
  cases op with
  | create m nonce drawn remote source outbound => exact h.create m nonce drawn remote source outbound
  | response m nonce code => exact h.handleResponse hun
  | data m nonce len => exact h.data m nonce len
  | push m ok => exact h.push m ok
  | conn s op =>
    dsimp only [Node.step]
    split
    · exact h
    · exact h.conn ‹_› op
  | migrator j op =>
    dsimp only [Node.step]
    split
    · exact h
    · split
      · exact h
      · exact h.migrate ‹_› ‹_› op

theorem proper_exec (peer : M → Who) {ops : List (Op M Who K)}
    (hun : Trace.Along (fun before op => (exec peer before).forged peer op = false) ops) :
    (exec peer ops).Proper := by
  refine hun.invariant ?_ fun _ _ hop ih => ih.step hop
  exact ⟨fun s c hs => (by cases hs), fun g hg => absurd hg List.not_mem_nil,
    fun m s len hp => (by cases hp)⟩

/-- **The router opens an inbound session.** In every run in which no peer answers a query that this
node's router has not accepted, an inbound session is open or migrating, or has taken a byte into
its reader, only after the router accepted it; and one that was refused is closed. -/
theorem opened_by_router (peer : M → Who) (ops : List (Op M Who K))
    (hun : Trace.Along (fun before op => (exec peer before).forged peer op = false) ops) (s : ℕ)
    (c : Conn M Who K) (hs : (exec peer ops).conns[s]? = some c) (hin : c.outbound = false) :
    (c.state = .open ∨ c.state = .migrating → c.stage.admitted = true) ∧
      (0 < c.received → c.stage.admitted = true) ∧
      (c.stage = .dropped → c.closed = true ∧ c.state = .closed) := by
  have h := proper_exec peer hun
  refine ⟨fun hopen => h.admitted_of_open hs hopen hin, fun hrec => ?_, fun hdrop => ?_⟩
  · cases hadm : c.stage.admitted with
    | true => rfl
    | false => exact absurd (h.conns s c hs hin hadm).empty (Nat.ne_of_gt hrec)
  · have hw := h.conns s c hs hin (by rw [hdrop]; rfl)
    exact ⟨hw.dropped hdrop, hw.marked (hw.dropped hdrop)⟩

end Node

/-! ## Two runs -/

/-- A query of peer 7 under nonce 4, up to the router. -/
def queried : List (Op Unit ℕ ℕ) :=
  [.conn 0 .setup, .conn 0 .hook, .create () 4 0 7 none false]

/-- The router accepts it, and the peer sends a byte. -/
def served : List (Op Unit ℕ ℕ) :=
  [.push () true, .data () 4 1, .conn 0 .respond, .conn 0 .setOpen, .conn 0 (.route .accept)] ++ queried

/-- The peer answers its own query instead, and sends a byte. -/
def answeredByPeer : List (Op Unit ℕ ℕ) :=
  [.push () true, .data () 4 1, .response () 4 0] ++ queried

theorem opened_by_router_served :
    ∃ c, (Node.exec (fun _ => 7) served).conns[0]? = some c ∧ c.state = .open ∧ c.stage.admitted = true := by
  obtain ⟨c, hs, hin, hopen⟩ : ∃ c, (Node.exec (fun _ => 7) served).conns[0]? = some c ∧
      c.outbound = false ∧ c.state = .open := ⟨_, rfl, by decide, by decide⟩
  exact ⟨c, hs, hopen, (Node.opened_by_router (fun _ => 7) served (by decide) 0 c hs hin).1 (.inl hopen)⟩

/-- The session is open and has taken a byte while the router has not returned. -/
theorem opened_by_peer :
    ∃ c, (Node.exec (fun _ => 7) answeredByPeer).conns[0]? = some c ∧ c.outbound = false ∧
      c.stage = .routing ∧ c.state = .open ∧ c.received = 1 :=
  ⟨_, rfl, by decide⟩

end Astrald.Nodes.Registry
