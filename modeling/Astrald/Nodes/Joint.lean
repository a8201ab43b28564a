import Mathlib
import Astrald.Nodes.Credit

/-!
# Both endpoints over whole runs

The invariant of the system of `Migration`: as long as neither session is closed, both endpoints are
`Steady`, both directions keep their account (`Flows`) and the two migrations are at one of the
positions of `Phase`. Once a side has closed its session, what it has sent still fits the other's
buffer.

`Orderly` is what a step has to meet for that. The code does not see to it:

* `takeBuf` finds no buffer queued: the reader is through with the last migration;
* a `Read` frame is not handled between `SwapBuf` and the `Grow` of `Complete`;
* at that `Grow` no `Read` frame is left on the new link from an earlier time.

Main results:

* `Kept.step`, `kept`: the invariant, over one step and over a run;
* `credit_across_migrations`: in an orderly run credit, bytes on their way and bytes held fit the
  buffer, and no `Push` to an open session fails;
* `credit_twice`: a `Read` frame handled after `SwapBuf` is credit on top of the full buffer.
-/

namespace Astrald.Nodes

open List Function

/-! ## What a call sends and when it closes -/

variable {e : Endpoint} {inbox : List Signal}

/-- Only `sendMigrate` sends a `Migrate` frame. -/
theorem Call.migrates {o : Outcome} (h : Call e inbox o) {k : LinkID} (hframe : o.frame = some (k, .migrate)) :
    e.migrator.point = .sendMigrate ∧ o.self.migrator.point ≠ .sendMigrate := by
  cases h with
  | waits | moves | swaps | grows | rests => cases hframe
  | fails hfree rest =>
    have hreset := e.session.close_fields.2.2 _ hframe
    cases hreset
  | sends hp hsteady =>
    refine ⟨hp, ?_⟩
    show e.migrator.role.next e.migrator.point ≠ _
    rw [hp]
    cases e.migrator.role <;> decide

/-- A call that leaves the session open sends no other frame. -/
theorem Call.sends_migrate {o : Outcome} (h : Call e inbox o) (hopen : o.self.session.closed = false)
    {g : LinkID × Frame} (hframe : o.frame = some g) : g.2 = .migrate := by
  cases h with
  | fails =>
    rw [closed_closing] at hopen
    cases hopen
  | sends =>
    cases hframe
    rfl
  | waits | moves | swaps | grows | rests => cases hframe

/-- The ways in which a call can return an error. -/
theorem Endpoint.abort_cases (e : Endpoint) :
    e.abort = (e, none) ∨ (e.migrator.point = .awaitReady ∧ e.abort = (e.goto .idle, none)) ∨
      e.session.writer.locked = false ∧ e.abort = e.closing := by
  unfold Endpoint.abort
  split
  · rename_i hp
    exact .inr (.inl ⟨hp, rfl⟩)
  all_goals first
    | exact .inl rfl
    | split
      · exact .inl rfl
      · rename_i hfree
        exact .inr (.inr ⟨by simpa using hfree, rfl⟩)

/-- A migration begins at an endpoint that has none. -/
theorem Steady.begun (h : Steady e) (hidle : e.migrator.point = .idle) {target : LinkID}
    (hreg : e.session.registered = some target.other) (role : Role) :
    Steady { e with migrator := Migrator.new role target } := by
  obtain ⟨hwired, hgated, hbuffered⟩ := h.parts hidle
  have hlink : e.session.writer.buf.link = target.other := by
    have hhome := hwired.home rfl
    rw [hreg] at hhome
    exact (Option.some.inj hhome).symm
  -- both first calls come before all that `Steady` goes by
  obtain ⟨q, hq, hplays, hne, hlike⟩ : ∃ q, (Migrator.new role target).point = q ∧ role.has q = true ∧
      q ≠ .idle ∧ q.rank ≤ 2 := by
    cases role with
    | initiator => exact ⟨.begin, rfl, rfl, nofun, by decide⟩
    | responder => exact ⟨.awaitReady, rfl, rfl, nofun, by decide⟩
  have hearly : (q.migrating ↔ Point.idle.migrating) ∧ (q.paused ↔ Point.idle.paused) ∧
      (q.window → Point.idle.window) := by
    unfold Point.migrating Point.paused Point.window
    refine ⟨iff_of_false (by omega) (by decide), iff_of_false (by omega) (by decide), fun hc => ?_⟩
    omega
  refine ⟨h.live, ?_, ?_, ?_, ?_⟩
  · rw [hq]
    exact hplays
  · rw [hq]
    refine ⟨hwired.onClose, fun hidle => absurd hidle hne, fun _ => ?_, fun _ => ?_, fun hc => ?_⟩
    · rw [if_pos (by omega)]
      exact hlink
    · rw [if_pos (by omega)]
      exact hreg
    · omega
  · rw [hq]
    exact hgated.goto hearly
  · rw [hq]
    refine ⟨hbuffered.sound, fun hc => ?_, fun hc => ?_⟩
    · omega
    · unfold Point.watching at hc
      omega

/-- Without a migration there is no progress. -/
theorem Progress.started {rest : List Signal} {p : Point} {k : ℕ} {sig : Option Signal}
    (h : Progress e inbox p k sig rest) (hp : p ≠ .idle) : e.migrator.point ≠ .idle := by
  intro hidle
  cases h with
  | waits => exact hp hidle
  | goes _ hpoint | tells _ hpoint | hears _ hpoint =>
    rw [hidle] at hpoint
    cases hpoint
  | quits => exact hp rfl

theorem Phase.at_rest {FI FR : Prop} {m n : List Signal} (h : Phase FI FR .idle .idle m n) : ¬FI ∧ ¬FR := by
  cases h with
  | rest hI hR | opening hI hR | completing hI hR => exact ⟨hI, hR⟩
  | draining hp => simp at hp

namespace System

variable {s s' : System} {x y : Side}

/-! ## The joint position -/

def Flying (s : System) (x : Side) : Prop := ∃ l, .migrate ∈ s.wire x l

/-- `x` initiates the migration that is running, if there is one, and `y` responds. -/
structure Phased (s : System) (x y : Side) : Prop where
  initiator : (s.ends x).migrator.point ≠ .idle → (s.ends x).migrator.role = .initiator
  responder : (s.ends y).migrator.point ≠ .idle → (s.ends y).migrator.role = .responder
  target : (s.ends x).migrator.point ≠ .idle → (s.ends y).migrator.point ≠ .idle →
    (s.ends x).migrator.newLink = (s.ends y).migrator.newLink
  noted : 9 ≤ (s.ends x).migrator.point.rank → (s.ends x).migrator.peerBuffer = defaultBufferSize
  answered : 2 ≤ (s.ends y).migrator.point.rank → (s.ends y).migrator.peerBuffer = defaultBufferSize
  phase : Phase (s.Flying x) (s.Flying y) (s.ends x).migrator.point (s.ends y).migrator.point (s.signals x)
    (s.signals y)

/-- A step that leaves the migrations and their signals alone and sends no `Migrate` frame. -/
theorem Phased.keep (h : s.Phased x y) (hmig : ∀ z, (s'.ends z).migrator = (s.ends z).migrator)
    (hsig : s'.signals = s.signals) (hfly : ∀ z, s'.Flying z → s.Flying z) : s'.Phased x y where
  initiator := by
    rw [hmig]
    exact h.initiator
  responder := by
    rw [hmig]
    exact h.responder
  target := by
    rw [hmig, hmig]
    exact h.target
  noted := by
    rw [hmig]
    exact h.noted
  answered := by
    rw [hmig]
    exact h.answered
  phase := by
    rw [hmig, hmig, hsig]
    exact h.phase.mono (hfly x) (hfly y)

theorem ends_put (s : System) (x : Side) (e : Endpoint) (frame : Option (LinkID × Frame)) {P : Endpoint → Prop}
    (hself : P e) (hpeer : P (s.ends x.peer)) (z : Side) : P ((s.put x e frame).ends z) := by
  rcases x.eq_or_peer z with rfl | rfl
  · rwa [ends_put_self]
  · rwa [ends_put_peer]

theorem ends_putSession (s : System) (x : Side) (r : Session × Option (LinkID × Frame)) :
    (s.putSession x r).ends x = (s.ends x).setSession r.1 := ends_put_self ..

theorem ends_runAt_self (s : System) (x : Side) :
    (s.runAt x).ends x = ((s.ends x).run (s.signals x.peer)).self :=
  ends_put_self s x _ ((s.ends x).run (s.signals x.peer)).frame

theorem ends_runAt_peer (s : System) (x : Side) : (s.runAt x).ends x.peer = s.ends x.peer :=
  ends_put_peer s x _ ((s.ends x).run (s.signals x.peer)).frame

theorem migrator_putSession (s : System) (x : Side) (r : Session × Option (LinkID × Frame)) (z : Side) :
    ((s.putSession x r).ends z).migrator = (s.ends z).migrator := by
  rcases x.eq_or_peer z with rfl | rfl
  · rw [ends_putSession]
    rfl
  · exact congrArg Endpoint.migrator (ends_put_peer ..)

theorem idle_of_movable {target : LinkID} (h : (s.movable x target && s.movable x.peer target) = true)
    (z : Side) : (s.ends z).migrator.point = .idle ∧ (s.ends z).session.registered = some target.other := by
  simp only [movable, Bool.and_eq_true, decide_eq_true_eq] at h
  rcases x.eq_or_peer z with rfl | rfl
  · exact ⟨h.1.1, h.1.2.2⟩
  · exact ⟨h.2.1, h.2.2.2⟩

variable {frame : Option (LinkID × Frame)} {rest : List Frame} {l : LinkID} {e : Endpoint}

/-- What is on its way after a step of `x`: what was, and what the step sends. -/
theorem mem_wire_put {z : Side} {f : Frame} (h : f ∈ (s.put x e frame).wire z l) :
    f ∈ s.wire z l ∨ z = x ∧ frame = some (l, f) := by
  rcases x.eq_or_peer z with rfl | rfl
  · rw [wire_put_self, mem_append] at h
    refine h.imp_right fun hsent => ⟨rfl, ?_⟩
    cases frame with
    | none => cases hsent
    | some g =>
      obtain ⟨k, f'⟩ := g
      unfold sentOn at hsent
      dsimp only at hsent
      split at hsent
      · rename_i hk
        rw [mem_singleton] at hsent
        rw [hsent, hk]
      · cases hsent
  · rw [wire_put_peer] at h
    exact .inl h

theorem mem_wire_setWire {l k : LinkID} {f g : Frame} (hl : s.wire x l = f :: rest) {z : Side}
    (h : g ∈ (s.setWire x l rest).wire z k) : g ∈ s.wire z k := by
  rcases x.eq_or_peer z with rfl | rfl
  · rw [wire_setWire_self] at h
    by_cases hkl : k = l
    · rw [hkl, update_self] at h
      rw [hkl, hl]
      exact mem_cons_of_mem f h
    · rwa [update_of_ne hkl] at h
  · have hsame : (s.setWire x l rest).wire x.peer = s.wire x.peer := update_of_ne x.peer_ne ..
    rwa [hsame] at h

theorem flying_put {z : Side} (h : (s.put x e frame).Flying z) :
    s.Flying z ∨ z = x ∧ ∃ k, frame = some (k, .migrate) := by
  obtain ⟨l, hl⟩ := h
  rcases mem_wire_put hl with hl | ⟨hz, hframe⟩
  · exact .inl ⟨l, hl⟩
  · exact .inr ⟨hz, l, hframe⟩

theorem flying_setWire {f : Frame} (hl : s.wire x l = f :: rest) {z : Side}
    (h : (s.setWire x l rest).Flying z) : s.Flying z := by
  obtain ⟨k, hk⟩ := h
  exact ⟨k, mem_wire_setWire hl hk⟩

/-! ## The invariant -/

structure Joint (s : System) : Prop where
  steady : ∀ z, Steady (s.ends z)
  flows : s.Flows
  phased : ∃ z, s.Phased z z.peer

/-- A step of the system that is asked to come at another time. -/
def Orderly (s : System) : Op → Prop
  | .run x =>
    ((s.ends x).migrator.point = .takeBuf → (s.ends x).session.reader.nextBuffer = none) ∧
      ((s.ends x).migrator.point = .grow → readsOn (s.wire x.peer (s.ends x).session.writer.buf.link) = 0)
  | .deliver x l =>
    (s.ends x).session.registered = some l → (s.ends x).migrator.point.window →
      (s.wire x.peer l).head?.elim 0 Frame.granted = 0
  | _ => True

instance (s : System) : DecidablePred s.Orderly := fun op => by
  cases op <;> (unfold Orderly; infer_instance)

/-- A frame that is handled in the window brings no credit. -/
theorem Orderly.fresh {f : Frame} (h : s.Orderly (.deliver x l)) (hl : s.wire x.peer l = f :: rest)
    (hreg : (s.ends x).session.registered = some l) (hw : (s.ends x).migrator.point.window) : f.granted = 0 := by
  have hzero := h hreg hw
  rwa [hl] at hzero

namespace Joint

/-- The roles of the two sides, seen from `x`. -/
theorem roles (h : s.Joint) (x : Side) : s.Phased x x.peer ∨ s.Phased x.peer x := by
  obtain ⟨z, hz⟩ := h.phased
  rcases z.eq_or_peer x with rfl | rfl
  · exact .inl hz
  · rw [Side.peer_peer]
    exact .inr hz

theorem of_responder (h : s.Phased x.peer x) : ∃ z, s.Phased z z.peer := ⟨x.peer, by rwa [Side.peer_peer]⟩

variable (h : s.Joint)
include h

/-- A `Migrate` frame in flight finds the other side watching, on the link it was sent on. -/
theorem flying (hx : s.Flying x) : (s.ends x).migrator.point.window ∧ (s.ends x).migrator.point.sent ∧
      (s.ends x.peer).migrator.point.watching ∧
      (s.ends x).migrator.newLink = (s.ends x.peer).migrator.newLink := by
  have hne : ∀ {p q : Point}, p.window → q.watching → p ≠ .idle ∧ q ≠ .idle := by
    rintro p q hp hq
    refine ⟨?_, ?_⟩
    · rintro rfl
      exact absurd hp (by decide)
    · rintro rfl
      exact absurd hq (by decide)
  rcases h.roles x with hp | hp
  · obtain ⟨hwindow, hsent, hwatching⟩ := hp.phase.flying.1 hx
    exact ⟨hwindow, hsent, hwatching, hp.target (hne hwindow hwatching).1 (hne hwindow hwatching).2⟩
  · obtain ⟨hwindow, hsent, hwatching⟩ := hp.phase.flying.2 hx
    exact ⟨hwindow, hsent, hwatching, (hp.target (hne hwindow hwatching).2 (hne hwindow hwatching).1).symm⟩

theorem completed (hlate : 15 ≤ (s.ends x).migrator.point.rank) :
    ¬s.Flying x ∧ ¬(s.ends x.peer).migrator.point.watching := by
  rcases h.roles x with hp | hp
  · obtain ⟨hI, -, -, hwatching⟩ := hp.phase.completed (.inl hlate)
    exact ⟨hI, hwatching⟩
  · obtain ⟨-, hR, hwatching, -⟩ := hp.phase.completed (.inr hlate)
    exact ⟨hR, hwatching⟩

theorem peerBuffer (hlate : 9 ≤ (s.ends x).migrator.point.rank) :
    (s.ends x).migrator.peerBuffer = defaultBufferSize := by
  rcases h.roles x with hp | hp
  · exact hp.noted hlate
  · exact hp.answered (by omega)

/-- A closed old buffer tells that the peer's `Migrate` frame has been sent and handled. -/
theorem shut (hwatching : (s.ends x).migrator.point.watching) (hshut : (s.ends x).shut = true) :
    ¬s.Flying x.peer ∧ (s.ends x.peer).migrator.point.sent := by
  have hback : Flow _ _ _ _ _ _ := h.flows.back x
  obtain ⟨hsent, hnot⟩ := hback.seen ⟨hwatching, hshut⟩
  refine ⟨?_, hsent⟩
  rintro ⟨l, hl⟩
  rw [(hback.migrate l hl).1] at hl
  exact hnot hl

/-! ### The steps -/

theorem keep (hsteady : ∀ z, Steady (s'.ends z)) (hflows : s'.Flows)
    (hmig : ∀ z, (s'.ends z).migrator = (s.ends z).migrator)
    (hsig : s'.signals = s.signals) (hfly : ∀ z, s'.Flying z → s.Flying z) : s'.Joint := by
  obtain ⟨z, hz⟩ := h.phased
  exact ⟨hsteady, hflows, z, hz.keep hmig hsig hfly⟩

/-- A step of the session of `x` that takes no frame. -/
theorem putSession {r : Session × Option (LinkID × Frame)}
    (hsteady : Steady ((s.ends x).setSession r.1)) (hflows : (s.putSession x r).Flows)
    (hframe : ∀ g, r.2 = some g → g.2 ≠ .migrate) : (s.putSession x r).Joint := by
  refine h.keep (ends_put s x _ _ hsteady (h.steady x.peer)) hflows (s.migrator_putSession x r) rfl ?_
  intro z hz
  refine (flying_put hz).resolve_right ?_
  rintro ⟨-, k, hk⟩
  exact hframe _ hk rfl

theorem write (x : Side) (p : List Byte) : (s.putSession x ((s.ends x).session.write p, none)).Joint :=
  h.putSession ((h.steady x).write p) (h.flows.write (h.steady x) p) nofun

theorem transmit (x : Side) : (s.putSession x (s.ends x).session.transmit).Joint := by
  refine h.putSession (h.steady x).transmit (h.flows.transmit (h.steady x)) fun g hg => ?_
  have hg : (s.ends x).session.writer.transmit.2 = some g := hg
  unfold Writer.transmit at hg
  split at hg
  · cases hg
  · cases hg
    exact nofun

theorem read (x : Side) (n : ℕ) : (s.putSession x ((s.ends x).session.read n)).Joint := by
  refine h.putSession ((h.steady x).read n).1 (h.flows.read (h.steady x) n) fun g hg => ?_
  obtain ⟨g', -, rfl⟩ := Option.map_eq_some_iff.mp hg
  exact nofun

theorem lose (x : Side) : (s.step (.lose x)).Joint := by
  refine { h with phased := ?_ }
  have hx : (s.step (.lose x)).signals x = (s.signals x).tail := update_self ..
  have hpeer : (s.step (.lose x)).signals x.peer = s.signals x.peer := update_of_ne x.peer_ne ..
  rcases h.roles x with hp | hp
  · exact ⟨x, { hp with phase := by rw [hx, hpeer]; exact hp.phase.lose.1 }⟩
  · exact of_responder { hp with phase := by rw [hx, hpeer]; exact hp.phase.lose.2 }

theorem start (x : Side) (target : LinkID) : (s.start x target).Joint := by
  refine Trace.when_keeps h fun hmovable => ?_
  have hidle := idle_of_movable hmovable
  -- neither first call is in the window, has sent or watches anything
  have hfirst : ∀ r : Role, ¬(Migrator.new r target).point.window ∧ ¬(Migrator.new r target).point.sent ∧
      ¬(Migrator.new r target).point.watching := by
    intro r
    cases r
    · show ¬Point.begin.window ∧ ¬Point.begin.sent ∧ ¬Point.begin.watching
      decide
    · show ¬Point.awaitReady.window ∧ ¬Point.awaitReady.sent ∧ ¬Point.awaitReady.watching
      decide
  refine ⟨fun z => (h.steady z).begun (hidle z).1 (hidle z).2 _, fun z => ?_, x, ?_⟩
  · have hflow : Flow _ _ _ _ _ _ := h.flows z
    rw [(hidle z).1] at hflow
    refine (hflow.at_point ?_ ?_).relax (Nat.le_refl _) (fun l => Nat.le_refl _) fun hseen => ?_
    · exact iff_of_false (hfirst _).1 (by decide)
    · exact iff_of_false (hfirst _).2.1 (by decide)
    · exact absurd hseen.1 (hfirst _).2.2
  · have hrest : ¬s.Flying x ∧ ¬s.Flying x.peer := by
      rcases h.roles x with hp | hp
      · have hphase := hp.phase
        rw [(hidle x).1, (hidle x.peer).1] at hphase
        exact hphase.at_rest
      · have hphase := hp.phase
        rw [(hidle x).1, (hidle x.peer).1] at hphase
        exact hphase.at_rest.symm
    exact {
      initiator := fun _ => if_pos rfl
      responder := fun _ => if_neg x.peer_ne
      target := fun _ _ => rfl
      noted := fun hrank => by
        simp only [if_true] at hrank
        exact absurd hrank (by decide : ¬9 ≤ Point.begin.rank)
      answered := fun hrank => by
        simp only [if_neg x.peer_ne] at hrank
        exact absurd hrank (by decide : ¬2 ≤ Point.awaitReady.rank)
      phase := by
        simp only [if_true, if_neg x.peer_ne]
        exact .opening hrest.1 hrest.2 (by decide : 2 ≤ Point.begin.rank ∧ Point.begin.rank ≤ 7) (.inl rfl) }

theorem abort (x : Side) (hopen : (s.ends x).abort.1.session.closed = false) :
    (s.put x (s.ends x).abort.1 (s.ends x).abort.2).Joint := by
  rcases (s.ends x).abort_cases with hsame | ⟨hp, hgo⟩ | ⟨hfree, hclosing⟩
  · rw [hsame]
    exact h.putSession (r := ((s.ends x).session, none)) (h.steady x)
      (Flows.put_none (h.flows x) (h.flows.back x)) nofun
  · rw [hgo]
    have hout : Flow _ _ _ _ _ _ := h.flows x
    rw [hp] at hout
    have hsteady : Steady ((s.ends x).goto .idle) := (h.steady x).rest (.inr hp)
    refine ⟨ends_put s x _ _ hsteady (h.steady x.peer), Flows.put_none ?_ ?_, ?_⟩
    · show Flow .idle _ _ _ _ _
      exact hout.at_point (by decide) (by decide)
    · refine (h.flows.back x).relax (Nat.le_refl _) (fun l => Nat.le_refl _) fun hseen => ?_
      exact absurd hseen.1 (by decide : ¬Point.idle.watching)
    · -- only a responder waits for the first signal
      have hrole : (s.ends x).migrator.role = .responder := (h.steady x).isResponder hp rfl
      have hphased : s.Phased x.peer x := by
        refine (h.roles x).resolve_left fun hz => ?_
        have hinit := hz.initiator (by rw [hp]; exact nofun)
        rw [hrole] at hinit
        cases hinit
      have hfly : ∀ z, (s.put x ((s.ends x).goto .idle) none).Flying z → s.Flying z := fun z hz =>
        (flying_put hz).resolve_right fun hn => by
          obtain ⟨-, k, hk⟩ := hn
          cases hk
      refine of_responder (x := x) ⟨?_, ?_, ?_, ?_, ?_, ?_⟩
      · rw [ends_put_peer]
        exact hphased.initiator
      · rw [ends_put_self]
        exact fun hne => absurd rfl hne
      · rw [ends_put_self]
        exact fun _ hne => absurd rfl hne
      · rw [ends_put_peer]
        exact hphased.noted
      · rw [ends_put_self]
        exact fun hrank => absurd hrank (by decide : ¬2 ≤ Point.idle.rank)
      · rw [ends_put_self, ends_put_peer]
        have hphase := hphased.phase
        rw [hp] at hphase
        exact hphase.responder_gives_up.mono (hfly x.peer) (hfly x)
  · rw [hclosing, closed_closing] at hopen
    cases hopen

/-- What the handshake says of a `Migrate` frame that is handled. -/
theorem migrate (hl : .migrate ∈ s.wire x.peer l) :
    (s.ends x).session.registered = some l ∧ (s.ends x).session.state = .migrating ∧
      (s.ends x).session.reader.nextBuffer ≠ none ∧ (s.ends x).session.reader.current.closed = false ∧
      (s.ends x.peer).migrator.point.window := by
  obtain ⟨hwindow, hsent, hwatching, htarget⟩ := h.flying (x := x.peer) ⟨l, hl⟩
  rw [Side.peer_peer] at hwatching htarget
  have hback : Flow _ _ _ _ _ _ := h.flows.back x
  have hranks : 7 ≤ (s.ends x).migrator.point.rank ∧ (s.ends x).migrator.point.rank ≤ 11 := hwatching
  have hpeer : 6 ≤ (s.ends x.peer).migrator.point.rank ∧ (s.ends x.peer).migrator.point.rank ≤ 18 := hwindow
  have hidle : ∀ {p : Point}, 6 ≤ p.rank → p ≠ .idle := by
    rintro p hp rfl
    exact absurd hp (by decide)
  -- the frame is on the old link, where the session still is
  have hlink : l = (s.ends x).migrator.newLink.other := by
    rw [(hback.migrate l hl).1, (h.steady x.peer).wired.link (hidle hpeer.1), if_neg (by omega), htarget]
  obtain ⟨k, hold, hopen⟩ := (h.steady x).buffered.watched hwatching
  have hnot : ((s.ends x).session.reader.inputs k).closed = false := by
    by_contra hclosed
    have hshut : (s.ends x).shut = true := by
      unfold Endpoint.shut
      rw [hold]
      simpa using hclosed
    exact (h.shut hwatching hshut).1 ⟨l, hl⟩
  obtain ⟨hbuf, hnext⟩ := hopen hnot
  refine ⟨?_, ?_, hnext, ?_, hwindow⟩
  · rw [(h.steady x).wired.place (hidle (by omega)), if_pos (by omega), hlink]
  · rw [(h.steady x).gated.state, if_pos ⟨by omega, by omega⟩]
  · unfold Reader.current
    rw [hbuf]
    exact hnot

theorem deliver (hord : s.Orderly (.deliver x l))
    (hopen : ((s.deliver x l).ends x).session.closed = false) : (s.deliver x l).Joint := by
  unfold System.deliver at hopen ⊢
  cases hl : s.wire x.peer l with
  | nil => exact h
  | cons f rest =>
    rw [hl] at hopen
    dsimp only at hopen ⊢
    cases hr : (s.ends x).session.handle l f with
    | none => exact h
    | some r =>
      rw [hr] at hopen
      have hopen : r.1.closed = false := by
        rwa [ends_putSession] at hopen
      have hfresh := hord.fresh hl
      have hmigrate := fun hf : f = .migrate =>
        h.migrate (x := x) (l := l) (by rw [hl, hf]; exact mem_cons_self)
      have hsteady : Steady ((s.ends x).setSession r.1) := by
        rcases (h.steady x).lasts_handle hr hfresh with ⟨hclosed, -⟩ | ⟨hsteady, -⟩
        · have hclosed : r.1.closed = true := hclosed
          rw [hopen] at hclosed
          cases hclosed
        · exact hsteady
      refine h.keep ?_ (h.flows.deliver (h.steady x) hl hr hopen hfresh hmigrate) ?_ rfl ?_
      · exact ends_put (s.setWire x.peer l rest) x _ _ hsteady (h.steady x.peer)
      · exact migrator_putSession (s.setWire x.peer l rest) x r
      · intro z hz
        refine flying_setWire hl ((flying_put hz).resolve_right ?_)
        rintro ⟨-, k, hk⟩
        have hreset := Session.handle_reply hr hk
        cases hreset

theorem run (hord : s.Orderly (.run x))
    (hopen : ((s.runAt x).ends x).session.closed = false) : (s.runAt x).Joint := by
  have hself := s.ends_runAt_self x
  have hother := s.ends_runAt_peer x
  rw [hself] at hopen
  have hcall := (h.steady x).run (s.signals x.peer) hord.1
  obtain ⟨hprog, hrole, hlink⟩ := (h.steady x).progress (s.signals x.peer) hopen
  have hsteady : Steady ((s.ends x).run (s.signals x.peer)).self := by
    rcases (h.steady x).lasts_run (s.signals x.peer) hord.1 with ⟨hclosed, -⟩ | ⟨hsteady, -⟩
    · rw [hopen] at hclosed
      cases hclosed
    · exact hsteady
  have hflows := h.flows.call (h.steady x) hcall hopen
    (fun hlate => ⟨fun l hl => (h.completed hlate).1 ⟨l, hl⟩, (h.completed hlate).2⟩)
    (fun hp => ⟨h.peerBuffer (by rw [hp]; decide), hord.2 hp⟩)
  have hx : (s.runAt x).signals x = s.signals x ++ ((s.ends x).run (s.signals x.peer)).signal.toList :=
    update_self ..
  have hpeer : (s.runAt x).signals x.peer = ((s.ends x).run (s.signals x.peer)).inbox :=
    (update_of_ne x.peer_ne ..).trans (update_self ..)
  have hfly : (s.runAt x).Flying x → s.Flying x ∨ (s.ends x).migrator.point = .sendMigrate ∧
      ((s.ends x).run (s.signals x.peer)).self.migrator.point ≠ .sendMigrate := by
    intro hf
    refine (flying_put (e := ((s.ends x).run (s.signals x.peer)).self) hf).imp_right ?_
    rintro ⟨-, k, hk⟩
    exact hcall.migrates hk
  have hflyPeer : (s.runAt x).Flying x.peer → s.Flying x.peer := fun hf =>
    (flying_put (e := ((s.ends x).run (s.signals x.peer)).self) hf).resolve_right fun hn => x.peer_ne hn.1
  refine ⟨ends_put s x _ ((s.ends x).run (s.signals x.peer)).frame hsteady (h.steady x.peer), hflows, ?_⟩
  rcases h.roles x with hp | hp
  · obtain ⟨hphase, hnoted⟩ := hp.phase.initiator_progress hprog (h.steady x).plays hp.initiator hfly
      (fun hwait hshut => (h.shut (by rw [hwait]; decide) hshut).1) hp.noted
    refine ⟨x, ?_, ?_, ?_, ?_, ?_, ?_⟩
    · rw [hself, hrole]
      exact fun hne => hp.initiator (hprog.started hne)
    · rw [hother]
      exact hp.responder
    · rw [hself, hother, hlink]
      exact fun hne hne' => hp.target (hprog.started hne) hne'
    · rw [hself]
      exact hnoted
    · rw [hother]
      exact hp.answered
    · rw [hself, hother, hx, hpeer]
      exact hphase.mono id hflyPeer
  · obtain ⟨hphase, hanswered⟩ := hp.phase.responder_progress hprog (h.steady x).plays hp.responder hfly
      (fun hwait hshut => h.shut (by rw [hwait]; decide) hshut) hp.answered
    refine of_responder (x := x) ⟨?_, ?_, ?_, ?_, ?_, ?_⟩
    · rw [hother]
      exact hp.initiator
    · rw [hself, hrole]
      exact fun hne => hp.responder (hprog.started hne)
    · rw [hself, hother, hlink]
      exact fun hne' hne => hp.target hne' (hprog.started hne)
    · rw [hother]
      exact hp.noted
    · rw [hself]
      exact hanswered
    · rw [hself, hother, hx, hpeer]
      exact hphase.mono hflyPeer id

end Joint

/-! ## A side that has closed its session -/

def inFlight (s : System) (x : Side) : ℕ :=
  (dataOn (s.wire x .first)).length + (dataOn (s.wire x .second)).length

theorem dataOn_sentOn (h : sentData frame = []) (l : LinkID) : dataOn (sentOn frame l) = [] := by
  cases frame with
  | none => rfl
  | some g =>
    obtain ⟨k, f⟩ := g
    have hf : f.payload = [] := h
    unfold sentOn
    dsimp only
    split
    · rw [dataOn_cons, hf]
      rfl
    · rfl

theorem inFlight_put_self (h : sentData frame = []) :
    (s.put x e frame).inFlight x = s.inFlight x := by
  unfold inFlight
  rw [wire_put_self]
  simp only [dataOn_append, dataOn_sentOn h, append_nil]

theorem inFlight_put_peer (s : System) (x : Side) (e : Endpoint) (frame : Option (LinkID × Frame)) :
    (s.put x e frame).inFlight x.peer = s.inFlight x.peer := by
  unfold inFlight
  rw [wire_put_peer]

theorem inFlight_setWire {f : Frame} (hl : s.wire x l = f :: rest) :
    (s.setWire x l rest).inFlight x + f.payload.length = s.inFlight x := by
  unfold inFlight
  rw [wire_setWire_self]
  cases l with
  | first | second =>
    rw [update_self, update_of_ne (by decide), hl, dataOn_cons, length_append]
    omega

/-- What a step of `y` that takes the bytes `got` off the wire does to it, whether its session is
closed or not. -/
structure Acts (s : System) (y : Side) (s' : System) (got : List Byte) : Prop where
  other : s'.ends y.peer = s.ends y.peer
  closed : (s.ends y).session.closed = true → (s'.ends y).session.closed = true
  spent : (s.ends y).session.closed = true → (s.ends y).session.writer.sending = [] →
    (s'.ends y).session.writer.sending = []
  quiet : (s'.ends y).session.closed = true →
    ((s.ends y).session.closed = true → (s.ends y).session.writer.sending = []) → s'.inFlight y = s.inFlight y
  lasts : Steady (s.ends y) → Lasts (s.ends y) (s'.ends y) got
  taken : s'.inFlight y.peer + got.length = s.inFlight y.peer

namespace Acts

theorem refl (s : System) (y : Side) : s.Acts y s [] :=
  ⟨rfl, id, fun _ => id, fun _ _ => rfl, fun h => h.lasts_refl [], rfl⟩

theorem put {frame : Option (LinkID × Frame)} (hcalm : Calm (s.ends y) e frame)
    (hlasts : Steady (s.ends y) → Lasts (s.ends y) e []) : s.Acts y (s.put y e frame) [] where
  other := ends_put_peer ..
  closed := by
    rw [ends_put_self]
    exact hcalm.closed
  spent := by
    rw [ends_put_self, hcalm.sending]
    exact fun _ => id
  quiet := fun _ _ => inFlight_put_self hcalm.data
  lasts := by
    rw [ends_put_self]
    exact hlasts
  taken := inFlight_put_peer ..

theorem run (hord : s.Orderly (.run y)) : s.Acts y (s.runAt y) [] := by
  have hput := put (Calm.run (s.ends y) (s.signals y.peer)) fun h => h.lasts_run (s.signals y.peer) hord.1
  exact { hput with }

theorem close (hfree : (s.ends y).session.writer.locked = false) :
    s.Acts y (s.putSession y (s.ends y).session.close) [] :=
  put (Calm.close (s.ends y)) fun _ =>
    Steady.lasts_close (Calm.close (s.ends y)).sending (s.ends y).session.close_fields.1 hfree []

theorem read (s : System) (y : Side) (n : ℕ) : s.Acts y (s.putSession y ((s.ends y).session.read n)) [] := by
  refine put (Calm.read (s.ends y) n) fun h => .inr ⟨(h.read n).1, ?_⟩
  have hused := (h.read n).2.1
  show ((s.ends y).session.reader.read n).2.2.receiving.used ≤ _
  omega

/-- `Write` takes nothing once the session is closed. -/
theorem write (s : System) (y : Side) (p : List Byte) :
    s.Acts y (s.putSession y ((s.ends y).session.write p, none)) [] where
  other := ends_put_peer ..
  closed hclosed := by
    rw [ends_putSession]
    unfold Session.write
    rw [if_pos hclosed]
    exact hclosed
  spent hclosed hnil := by
    rw [ends_putSession]
    unfold Session.write
    rw [if_pos hclosed]
    exact hnil
  quiet _ _ := inFlight_put_self rfl
  lasts h := by
    rw [ends_putSession]
    refine .inr ⟨h.write p, ?_⟩
    unfold Session.write
    split <;> exact Nat.le_refl _
  taken := inFlight_put_peer ..

theorem transmit (s : System) (y : Side) : s.Acts y (s.putSession y (s.ends y).session.transmit) [] where
  other := ends_put_peer ..
  closed hclosed := by
    rw [ends_putSession]
    exact hclosed
  spent _ hnil := by
    rw [ends_putSession]
    show (s.ends y).session.writer.transmit.1.sending = []
    unfold Writer.transmit
    rw [if_pos hnil]
    exact hnil
  quiet hclosed hnil := by
    rw [ends_putSession] at hclosed
    refine inFlight_put_self ?_
    show sentData (s.ends y).session.writer.transmit.2 = []
    unfold Writer.transmit
    rw [if_pos (hnil hclosed)]
    rfl
  lasts h := by
    rw [ends_putSession]
    exact .inr ⟨h.transmit, Nat.le_refl _⟩
  taken := inFlight_put_peer ..

theorem deliver (hord : s.Orderly (.deliver y l)) : ∃ got, s.Acts y (s.deliver y l) got := by
  unfold System.deliver
  cases hl : s.wire y.peer l with
  | nil => exact ⟨[], refl s y⟩
  | cons f rest =>
    dsimp only
    cases hr : (s.ends y).session.handle l f with
    | none => exact ⟨[], refl s y⟩
    | some r =>
      have hcalm := Calm.handle (s.ends y) hr
      refine ⟨f.payload, ?_, ?_, ?_, ?_, ?_, ?_⟩
      · exact ends_put_peer ..
      · rw [ends_putSession]
        exact hcalm.closed
      · rw [ends_putSession]
        intro _ hnil
        exact hcalm.sending.trans hnil
      · intro _ _
        refine (inFlight_put_self hcalm.data).trans ?_
        unfold inFlight
        rw [wire_setWire_peer]
      · intro h
        rw [ends_putSession]
        exact h.lasts_handle hr (hord.fresh hl)
      · unfold putSession
        rw [inFlight_put_peer]
        exact inFlight_setWire hl

end Acts

/-- The session of `x` is closed and sends nothing more; what is on its way fits the buffer of a peer
that is not closed. -/
structure Left (s : System) (x : Side) : Prop where
  closed : (s.ends x).session.closed = true
  spent : (s.ends x).session.writer.sending = []
  peer : (s.ends x.peer).session.closed = true ∨
    Steady (s.ends x.peer) ∧ s.inFlight x + (s.ends x.peer).session.reader.receiving.used ≤ defaultBufferSize

namespace Left

theorem own {got : List Byte} (h : s.Left x) (ha : s.Acts x s' got) : s'.Left x where
  closed := ha.closed h.closed
  spent := ha.spent h.closed h.spent
  peer := by
    rw [ha.other, ha.quiet (ha.closed h.closed) fun _ => h.spent]
    exact h.peer

theorem other {got : List Byte} (h : s.Left x) (ha : s.Acts x.peer s' got) : s'.Left x := by
  have hself : s'.ends x = s.ends x := by
    have hother := ha.other
    rwa [Side.peer_peer] at hother
  have htaken := ha.taken
  rw [Side.peer_peer] at htaken
  refine ⟨by rw [hself]; exact h.closed, by rw [hself]; exact h.spent, ?_⟩
  rcases h.peer with hclosed | ⟨hsteady, hfits⟩
  · exact .inl (ha.closed hclosed)
  · rcases ha.lasts hsteady with ⟨hclosed, -⟩ | ⟨hsteady', hused⟩
    · exact .inl hclosed
    · exact .inr ⟨hsteady', by omega⟩

theorem start (h : s.Left x) (y : Side) (target : LinkID) : (s.start y target).Left x := by
  unfold System.start
  split
  · rename_i hmovable
    have hidle := idle_of_movable hmovable
    exact { h with peer := h.peer.imp_right fun hp =>
      ⟨hp.1.begun (hidle _).1 (hidle _).2 _, hp.2⟩ }
  · exact h

end Left

theorem Joint.left {got : List Byte} (h : s.Joint) (ha : s.Acts x s' got)
    (hclosed : (s'.ends x).session.closed = true) : s'.Left x := by
  have hflow : Flow _ _ _ _ _ _ := h.flows x
  refine ⟨hclosed, ?_, .inr ⟨?_, ?_⟩⟩
  · rcases ha.lasts (h.steady x) with ⟨-, hnil⟩ | ⟨hsteady, -⟩
    · exact hnil
    · rw [hsteady.live] at hclosed
      cases hclosed
  · rw [ha.other]
    exact h.steady x.peer
  · rw [ha.other, ha.quiet hclosed fun hc => by rw [(h.steady x).live] at hc; cases hc]
    exact hflow.fits

/-! ## Runs -/

def Kept (s : System) : Prop := s.Joint ∨ ∃ x, s.Left x

/-- A step of `y` closes its session, finds one closed or leads from `J` to `J'`; `J` is what is known of
a state in which neither is closed. -/
theorem step_or_left {J J' : Prop} {got : List Byte} (h : J ∨ ∃ x, s.Left x) (hJ : J → s.Joint)
    (ha : s.Acts y s' got) (hstep : J → (s'.ends y).session.closed = false → J') : J' ∨ ∃ x, s'.Left x := by
  rcases h with h | ⟨x, h⟩
  · by_cases hclosed : (s'.ends y).session.closed = true
    · exact .inr ⟨y, (hJ h).left ha hclosed⟩
    · exact .inl (hstep h (by simpa using hclosed))
  · refine .inr ⟨x, ?_⟩
    rcases x.eq_or_peer y with rfl | rfl
    · exact h.own ha
    · exact h.other ha

theorem Kept.act {got : List Byte} (h : s.Kept) (ha : s.Acts y s' got)
    (hjoint : s.Joint → (s'.ends y).session.closed = false → s'.Joint) : s'.Kept :=
  step_or_left h id ha hjoint

theorem Kept.step (h : s.Kept) {op : Op} (hord : s.Orderly op) : (s.step op).Kept := by
  cases op with
  | start x target =>
    rcases h with h | ⟨y, h⟩
    · exact .inl (h.start x target)
    · exact .inr ⟨y, h.start x target⟩
  | run x => exact h.act (Acts.run hord) fun hj hopen => hj.run hord hopen
  | abort x =>
    refine h.act (Acts.put (Calm.abort (s.ends x)) Steady.lasts_abort) fun hj hopen => hj.abort x ?_
    have hself : (s.step (.abort x)).ends x = (s.ends x).abort.1 := ends_put_self s x _ (s.ends x).abort.2
    rwa [hself] at hopen
  | lose x =>
    rcases h with h | ⟨y, h⟩
    · exact .inl (h.lose x)
    · exact .inr ⟨y, h.closed, h.spent, h.peer⟩
  | deliver x l =>
    obtain ⟨got, ha⟩ := Acts.deliver hord
    exact h.act ha fun hj hopen => hj.deliver hord hopen
  | write x p => exact h.act (Acts.write s x p) fun hj _ => hj.write x p
  | transmit x => exact h.act (Acts.transmit s x) fun hj _ => hj.transmit x
  | read x n => exact h.act (Acts.read s x n) fun hj _ => hj.read x n
  | close x =>
    refine Trace.unless_keeps h fun hfree => ?_
    refine h.act (Acts.close (by simpa using hfree)) fun _ hopen => ?_
    have hclosed : ((s.putSession x (s.ends x).session.close).ends x).session.closed = true := by
      rw [ends_putSession]
      exact (s.ends x).session.close_fields.1
    rw [hopen] at hclosed
    cases hclosed

theorem opened_joint : opened.Joint := by
  have hsteady : ∀ z, Steady (opened.ends z) := fun z => {
    live := rfl
    plays := rfl
    wired := ⟨.inr rfl, fun _ => rfl, fun hne => absurd rfl hne, fun hne => absurd rfl hne,
      fun hc => absurd hc (by decide : ¬3 ≤ Point.idle.rank)⟩
    gated := ⟨rfl, ⟨rfl, rfl⟩, iff_of_false Bool.false_ne_true (by decide : ¬Point.idle.paused), fun _ => rfl,
      fun hc => absurd hc (by decide : ¬Point.idle.window)⟩
    buffered := ⟨⟨fun _ => rfl, fun _ => rfl, nofun, nofun⟩,
      fun hc => absurd hc (by decide : ¬(5 ≤ Point.idle.rank ∧ Point.idle.rank ≤ 6)),
      fun hc => absurd hc (by decide : ¬Point.idle.watching)⟩ }
  have hwindow : ¬Point.idle.window := by decide
  have hnone : ∀ z, ¬opened.Flying z := fun z hz => by
    obtain ⟨l, hl⟩ := hz
    cases hl
  refine ⟨hsteady, fun z => ?_, .a, ?_⟩
  · exact {
      live := fun _ => by
        show 0 + defaultBufferSize + 0 + 0 + 0 + 0 ≤ defaultBufferSize
        omega
      settled := fun _ => rfl
      fresh := fun hw => absurd hw hwindow
      drain := fun hw => absurd hw hwindow
      handed := fun hw => absurd hw hwindow
      migrate := fun l hl => absurd hl not_mem_nil
      closing := fun l => trivial
      seen := fun hseen => absurd hseen.1 (by decide : ¬Point.idle.watching) }
  · exact {
      initiator := fun _ => rfl
      responder := fun hne => absurd rfl hne
      target := fun _ _ => rfl
      noted := fun hc => absurd hc (by decide : ¬9 ≤ Point.idle.rank)
      answered := fun hc => absurd hc (by decide : ¬2 ≤ Point.idle.rank)
      phase := .rest (hnone _) (hnone _) }

def OrderlyRun (ops : List Op) : Prop := Trace.Along (fun as op => (exec as).Orderly op) ops

instance (ops : List Op) : Decidable (OrderlyRun ops) :=
  inferInstanceAs (Decidable (Trace.Along (fun as op => (exec as).Orderly op) ops))

theorem kept {ops : List Op} (h : OrderlyRun ops) : (exec ops).Kept :=
  Trace.Along.invariant h (.inl opened_joint) fun _ _ hop ih => ih.step hop

/-! ## Credit -/

/-- The credit of `x`, its bytes on their way and the bytes held in the buffer that receives them. -/
def committed (s : System) (x : Side) : ℕ :=
  (s.ends x).session.writer.buf.wsize + (s.ends x).session.writer.sending.length + s.inFlight x +
    (s.ends x.peer).session.reader.receiving.used

theorem Joint.committed_le (h : s.Joint) (x : Side) : s.committed x ≤ defaultBufferSize := by
  have hflow : Flow _ _ _ _ _ _ := h.flows x
  by_cases hw : (s.ends x).migrator.point.window
  · -- no credit and nothing being sent: what is on its way is what was sent before
    have hfits := hflow.fits
    have hspent := (h.steady x).gated.spent hw
    have hquiet := (h.steady x).gated.quiet ⟨by have := hw.1; omega, by have := hw.2; omega⟩
    unfold committed inFlight
    rw [hspent, hquiet, length_nil]
    omega
  · have hlive := hflow.live hw
    have hsettled := hflow.settled hw
    have hsum : s.inFlight x = (dataOn (s.wire x (s.ends x).session.writer.buf.link)).length +
        (dataOn (s.wire x (s.ends x).session.writer.buf.link.other)).length := by
      cases (s.ends x).session.writer.buf.link with
      | first => rfl
      | second => exact Nat.add_comm _ _
    unfold committed
    rw [hsum, hsettled, length_nil]
    omega

/-- A `Data` frame that is next to be handled fits an open session. -/
theorem Kept.fits (h : s.Kept) (hopen : (s.ends x).session.closed = false) :
    Steady (s.ends x) ∧ s.inFlight x.peer + (s.ends x).session.reader.receiving.used ≤ defaultBufferSize := by
  rcases h with h | ⟨y, h⟩
  · have hback : Flow _ _ _ _ _ _ := h.flows.back x
    exact ⟨h.steady x, hback.fits⟩
  · rcases y.eq_or_peer x with rfl | rfl
    · rw [h.closed] at hopen
      cases hopen
    · rw [Side.peer_peer]
      rcases h.peer with hclosed | hfits
      · rw [hopen] at hclosed
        cases hclosed
      · exact hfits

/-- **Credit across migrations.** In an orderly run, while neither session is closed, the credit of
either side, its bytes on their way and the bytes held fit the other's buffer; and a `Data` frame
never finds the buffer of an open session too full, whether the sender has closed or not. -/
theorem credit_across_migrations (ops : List Op) (h : OrderlyRun ops) :
    ((∀ x, ((exec ops).ends x).session.closed = false) → ∀ x,
      ((exec ops).ends x.peer).session.reader.receiving.size = defaultBufferSize ∧
        (exec ops).committed x ≤ ((exec ops).ends x.peer).session.reader.receiving.size) ∧
    ∀ x l p rest, (exec ops).wire x.peer l = .data p :: rest → ((exec ops).ends x).session.closed = false →
      ∃ r, ((exec ops).ends x).session.reader.push p = .ok r := by
  have hkept := kept h
  refine ⟨fun hopen x => ?_, fun x l p rest hl hopen => ?_⟩
  · have hjoint : (exec ops).Joint := hkept.resolve_right fun ⟨y, hy⟩ => by
      have hclosed := hy.closed
      rw [hopen y] at hclosed
      cases hclosed
    have hsize : ((exec ops).ends x.peer).session.reader.receiving.size = defaultBufferSize :=
      (hjoint.steady x.peer).buffered.sound.size _
    exact ⟨hsize, by rw [hsize]; exact hjoint.committed_le x⟩
  · obtain ⟨hsteady, hfits⟩ := hkept.fits hopen
    have hlen := inFlight_setWire hl
    obtain ⟨r, hr, -⟩ := hsteady.buffered.sound.push (p := p) (by
      have hp : (Frame.data p).payload = p := rfl
      rw [hp] at hlen
      omega)
    exact ⟨r, hr⟩

/-- A run, written in the order of its steps. -/
def script (parts : List (List Op)) : List Op := parts.flatten.reverse

def calls (x : Side) (n : ℕ) : List Op := List.replicate n (.run x)

/-- Both sides talk on the first link and let the `Read` frames arrive, move to the second, and talk
again. -/
def moved : List Op :=
  script [[.write .a [1, 2], .transmit .a, .deliver .b .first, .read .b 2, .deliver .a .first, .start .a .second],
    calls .a 6, calls .b 8, calls .a 1, [.deliver .a .first], calls .a 1, [.deliver .b .first], calls .a 2,
    calls .b 8, calls .a 6, [.write .a [3], .transmit .a, .write .b [4, 5], .transmit .b]]

theorem credit_across_migrations_moved :
    (∀ x, ((exec moved).ends x).session.closed = false) ∧ (exec moved).committed .b = defaultBufferSize ∧
      (exec moved).wire .a .second = [.data [3]] ∧
      ∃ r, ((exec moved).ends .b).session.reader.push [3] = .ok r := by
  have hopen : ∀ x, ((exec moved).ends x).session.closed = false := by
    intro x
    cases x <;> decide +kernel
  have hwire : (exec moved).wire .a .second = [.data [3]] := by decide +kernel
  exact ⟨hopen, by decide +kernel, hwire,
    (credit_across_migrations moved (by decide +kernel)).2 .b .second [3] [] hwire (hopen .b)⟩

/-- `a` has written a byte that `b` has read when the migration begins; the `Read` frame is handled
after `SwapBuf`. -/
def stale : List Op :=
  script [[.write .a [7], .transmit .a, .deliver .b .first, .read .b 1, .start .a .second], calls .a 4,
    [.deliver .a .first], calls .a 2, calls .b 8, calls .a 1, [.deliver .a .first], calls .a 1,
    [.deliver .b .first], calls .a 2, calls .b 8, calls .a 5]

/-- **A defect of the migration.** The new `OutputBuffer` is given the credit of a `Read` frame that
answers bytes of the old buffer, and then the full new buffer on top. -/
theorem credit_twice :
    (∀ x, ((exec stale).ends x).session.closed = false) ∧
      ((exec stale).ends .b).session.reader.receiving.size = defaultBufferSize ∧
      ((exec stale).ends .a).session.writer.buf.wsize = defaultBufferSize + 1 ∧
      ¬(exec stale).committed .a ≤ ((exec stale).ends .b).session.reader.receiving.size := by
  refine ⟨?_, by decide +kernel, by decide +kernel, by decide +kernel⟩
  intro x
  cases x <;> decide +kernel

end System

end Astrald.Nodes
