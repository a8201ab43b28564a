import Mathlib
import Astrald.Nodes.Joint

/-!
# The stream across migrations

What one application reads is a prefix of what the other wrote, over any number of migrations: the
bytes read, the bytes held, the bytes on their way and the bytes being sent are, in this order, the
bytes written. At any time the `Data` frames of a side are on one link only, so the order between
the links does not matter.

Beside `Orderly` a run is asked that a `Data` or `Read` frame is handled by the mux that the session
is registered with (`Homed`): the responder writes on the new link as soon as it has completed, and
the initiator may not have moved its session there.

* `Streaming.step`, `streaming`: the invariant, over one step and over a run;
* `stream_intact`: the stream is a prefix, no session is closed and no `Reset` is sent;
* `early_data_resets`: a `Data` frame that is ahead of `Complete` is answered with a `Reset`.
-/

namespace Astrald.Nodes

open List

namespace System

variable {s s' : System} {x : Side}

/-- A `Data`, `Read` or `Reset` frame for an open session is handled by the mux that the session is
registered with. -/
def Homed (s : System) : Op → Prop
  | .deliver x l => (s.ends x).session.closed = false →
    ∀ f ∈ (s.wire x.peer l).head?, f ≠ .migrate → (s.ends x).session.registered = some l
  | _ => True

instance (s : System) : DecidablePred s.Homed
  | .deliver x l => inferInstanceAs (Decidable ((s.ends x).session.closed = false →
      ∀ f ∈ (s.wire x.peer l).head?, f ≠ .migrate → (s.ends x).session.registered = some l))
  | .start _ _ | .run _ | .abort _ | .lose _ | .write _ _ | .transmit _ | .read _ _ | .close _ => instDecidableTrue

/-! ## What a step does to the stream -/

/-- A signal that is there is the one awaited. -/
theorem Joint.expected (h : s.Joint) {sig : Signal} {rest : List Signal} (hin : s.signals x.peer = sig :: rest)
    (hp : (s.ends x).migrator.point.expecting) : (s.ends x).migrator.point.awaits sig = true := by
  have hplays := (h.steady x).plays
  rcases h.roles x with hz | hz
  · have hphase := hz.phase
    rw [hin] at hphase
    rcases hp with hp | hp | hp
    · rw [hp] at hphase ⊢
      rw [hphase.initiator_awaitSwitched.1]
      rfl
    · rw [hz.initiator (by rw [hp]; exact nofun), hp] at hplays
      cases hplays
    · rw [hp] at hphase ⊢
      rw [hphase.initiator_awaitDone.1]
      rfl
  · have hphase := hz.phase
    rw [hin] at hphase
    rcases hp with hp | hp | hp
    · rw [hz.responder (by rw [hp]; exact nofun), hp] at hplays
      cases hplays
    · rw [hp] at hphase ⊢
      rw [hphase.responder_awaitResume.1]
      rfl
    · rw [hz.responder (by rw [hp]; exact nofun), hp] at hplays
      cases hplays

/-- A frame that is handled where the session is registered gets no reply, and its bytes come last. -/
theorem Joint.handled (h : s.Joint) {l : LinkID} {f : Frame} {rest : List Frame}
    (hl : s.wire x.peer l = f :: rest) (hreset : f ≠ .reset)
    (hhome : f ≠ .migrate → (s.ends x).session.registered = some l) {r : Session × Option (LinkID × Frame)}
    (hr : (s.ends x).session.handle l f = some r) :
    r.2 = none ∧ r.1.closed = false ∧ r.1.written = (s.ends x).session.written ∧
      r.1.received = (s.ends x).session.received ∧
      r.1.reader.held = (s.ends x).session.reader.held ++ f.payload ∧
      r.1.writer.sending = (s.ends x).session.writer.sending := by
  have hlive := (h.steady x).live
  have hnil := (s.ends x).session.reader.held.append_nil.symm
  cases Session.handle_cases hr with
  | refused hf hno =>
    -- an open session is registered there, and in a state to take `Data`
    rcases hno with hno | ⟨hopen, hmigrating⟩
    · exact absurd (hhome hf.2) hno
    · have hstate := (h.steady x).gated.state
      split at hstate
      · exact absurd hstate hmigrating
      · exact absurd hstate hopen
  | ignored hf hno =>
    rcases hf with hf | rfl
    · exact absurd hf hreset
    · exact ⟨rfl, hlive, rfl, rfl, hnil, rfl⟩
  | pushed _ hpush => exact ⟨rfl, hlive, rfl, rfl, ((h.steady x).push hpush).2.2.1, rfl⟩
  | @overflows p _ _ hpush =>
    have hback : Flow _ _ _ _ _ _ := h.flows.back x
    have hlen : (s.setWire x.peer l rest).inFlight x.peer + p.length = s.inFlight x.peer := inFlight_setWire hl
    have hfits : s.inFlight x.peer + (s.ends x).session.reader.receiving.used ≤ defaultBufferSize := hback.fits
    obtain ⟨r, hok, -⟩ := (h.steady x).buffered.sound.push (p := p) (by omega)
    rw [hpush] at hok
    cases hok
  | grows => exact ⟨rfl, hlive, rfl, rfl, hnil, rfl⟩
  | ends => exact absurd rfl hreset
  | advances =>
    obtain ⟨-, -, -, -, hheld⟩ := (h.steady x).buffered.sound.advance_any
    exact ⟨rfl, hlive, rfl, rfl, hheld.trans hnil, rfl⟩

/-! ## The invariant -/

/-- The bytes of `x` that are on their way or being sent. -/
def underway (s : System) (x : Side) : List Byte :=
  dataOn (s.wire x .first) ++ (dataOn (s.wire x .second) ++ (s.ends x).session.writer.sending)

structure Streaming (s : System) : Prop where
  joint : s.Joint
  noReset : ∀ x l, .reset ∉ s.wire x l
  stream : ∀ x, (s.ends x).session.written =
    (s.ends x.peer).session.received ++ ((s.ends x.peer).session.reader.held ++ s.underway x)

variable {frame : Option (LinkID × Frame)}

theorem underway_put_self {e : Endpoint} (hdata : sentData frame = [])
    (hsending : e.session.writer.sending = (s.ends x).session.writer.sending) :
    (s.put x e frame).underway x = s.underway x := by
  unfold underway
  rw [ends_put_self, wire_put_self, hsending]
  simp only [dataOn_append, dataOn_sentOn hdata, append_nil]

theorem underway_put_peer (s : System) (x : Side) (e : Endpoint) (frame : Option (LinkID × Frame)) :
    (s.put x e frame).underway x.peer = s.underway x.peer := by
  unfold underway
  rw [ends_put_peer, wire_put_peer]

/-- The `Data` frames of a side are on one link. -/
theorem Joint.one_link (h : s.Joint) (x : Side) :
    dataOn (s.wire x .first) = [] ∨ dataOn (s.wire x .second) = [] := by
  have hflow : Flow _ _ _ _ _ _ := h.flows x
  have hone : dataOn (s.wire x (s.ends x).session.writer.buf.link) = [] ∨
      dataOn (s.wire x (s.ends x).session.writer.buf.link.other) = [] := by
    by_cases hw : (s.ends x).migrator.point.window
    · exact .inl (hflow.fresh hw)
    · exact .inr (hflow.settled hw)
  cases hlink : (s.ends x).session.writer.buf.link with
  | first =>
    rw [hlink] at hone
    exact hone
  | second =>
    rw [hlink] at hone
    exact hone.symm

/-- The first frame on a link holds the first bytes on their way. -/
theorem Joint.underway_setWire (h : s.Joint) {l : LinkID} {f : Frame} {rest : List Frame}
    (hl : s.wire x l = f :: rest) : s.underway x = f.payload ++ (s.setWire x l rest).underway x := by
  have hone := h.one_link x
  unfold underway
  rw [wire_setWire_self, ends_setWire]
  cases l with
  | first =>
    rw [Function.update_self, Function.update_of_ne (by decide), hl, dataOn_cons, append_assoc]
  | second =>
    rw [Function.update_self, Function.update_of_ne (by decide), hl, dataOn_cons]
    rcases hone with hnil | hnil
    · rw [hnil, nil_append, nil_append, append_assoc]
    · rw [hl, dataOn_cons, append_eq_nil_iff] at hnil
      rw [hnil.1, nil_append, nil_append]

namespace Streaming

section

variable {e : Endpoint} (hjoint : (s.put x e frame).Joint) (hreset : ∀ z l, .reset ∉ s.wire z l) (hframe : ∀ g, frame = some g → g.2 ≠ .reset)
include hjoint hreset hframe

/-- A step of `x` that may take a frame off the wire: both directions in the terms of what `x`
becomes. -/
theorem of_put (hout : e.session.written = (s.ends x.peer).session.received ++
      ((s.ends x.peer).session.reader.held ++ (s.put x e frame).underway x))
    (hback : (s.ends x.peer).session.written = e.session.received ++
      (e.session.reader.held ++ s.underway x.peer)) : (s.put x e frame).Streaming := by
  refine ⟨hjoint, fun z l hmem => ?_, fun z => ?_⟩
  · rcases mem_wire_put hmem with hmem | ⟨-, hsent⟩
    · exact hreset z l hmem
    · exact hframe _ hsent rfl
  · rcases x.eq_or_peer z with rfl | rfl
    · rw [ends_put_self, ends_put_peer]
      exact hout
    · rw [ends_put_peer, Side.peer_peer, ends_put_self, underway_put_peer]
      exact hback

/-- A step of `x` that writes and sends nothing. -/
theorem of_quiet
    (hdata : sentData frame = []) (hsending : e.session.writer.sending = (s.ends x).session.writer.sending)
    (hout : e.session.written = (s.ends x.peer).session.received ++
      ((s.ends x.peer).session.reader.held ++ s.underway x))
    (hback : (s.ends x.peer).session.written = e.session.received ++
      (e.session.reader.held ++ s.underway x.peer)) : (s.put x e frame).Streaming := by
  refine of_put hjoint hreset hframe ?_ hback
  rw [underway_put_self hdata hsending]
  exact hout

end

variable (h : s.Streaming)
include h

theorem back (x : Side) : (s.ends x.peer).session.written =
    (s.ends x).session.received ++ ((s.ends x).session.reader.held ++ s.underway x.peer) := by
  have hback := h.stream x.peer
  rwa [Side.peer_peer] at hback

theorem write (x : Side) (p : List Byte) : (s.putSession x ((s.ends x).session.write p, none)).Streaming := by
  have hwrite := (h.joint.steady x).write_eq p
  refine of_put (h.joint.write x p) h.noReset nofun ?_ ?_
  · unfold underway
    rw [ends_put_self, wire_put_self, append_none]
    show ((s.ends x).session.write p).written = _ ++ (_ ++ (_ ++ (_ ++ ((s.ends x).session.write p).writer.sending)))
    rw [hwrite]
    dsimp only
    rw [h.stream x]
    unfold underway
    rcases (s.ends x).session.writer.write_cases p with hsame | ⟨-, hfree, b, hw, -, -, -⟩
    · rw [hsame, append_nil]
    · have hnil : (s.ends x).session.writer.sending = [] := by simpa [Writer.locked] using hfree
      rw [hw, hnil]
      simp only [append_assoc, nil_append]
  · show _ = ((s.ends x).session.write p).received ++ (((s.ends x).session.write p).reader.held ++ _)
    rw [hwrite]
    exact h.back x

theorem transmit (x : Side) : (s.putSession x (s.ends x).session.transmit).Streaming := by
  have hflow : Flow _ _ _ _ _ _ := h.joint.flows x
  have hjoint := h.joint.transmit x
  have hsteady := h.joint.steady x
  unfold putSession Session.transmit Writer.transmit at hjoint ⊢
  split at hjoint
  · rename_i hnil
    rw [if_pos hnil]
    exact of_quiet hjoint h.noReset nofun rfl rfl (h.stream x) (h.back x)
  · rename_i hsending
    rw [if_neg hsending]
    have hsettled := hflow.settled fun hw =>
      hsending (hsteady.gated.quiet ⟨by have := hw.1; omega, by have := hw.2; omega⟩)
    refine of_put hjoint h.noReset (fun g hg => by cases hg; exact nofun) ?_ (h.back x)
    have hstream := h.stream x
    rw [show (s.ends x).session.written = _ from hstream]
    unfold underway
    rw [ends_put_self, wire_put_self]
    show _ ++ (_ ++ (_ ++ (_ ++ _))) = _ ++ (_ ++ (_ ++ (_ ++ (s.ends x).session.writer.sending.drop maxPayloadSize)))
    have hsplit := take_append_drop maxPayloadSize (s.ends x).session.writer.sending
    cases hlink : (s.ends x).session.writer.buf.link with
    | first =>
      rw [hlink] at hsettled
      have hsettled : dataOn (s.wire x .second) = [] := hsettled
      simp only [sentOn, if_true, reduceCtorEq, if_false, dataOn_append, dataOn_cons, dataOn_nil, append_nil,
        hsettled, nil_append, append_assoc]
      show _ = _ ++ (_ ++ (_ ++ ((s.ends x).session.writer.sending.take maxPayloadSize ++ _)))
      rw [hsplit]
    | second =>
      simp only [sentOn, if_true, reduceCtorEq, if_false, dataOn_append, dataOn_cons, dataOn_nil, append_nil,
        append_assoc]
      show _ = _ ++ (_ ++ (_ ++ (_ ++ ((s.ends x).session.writer.sending.take maxPayloadSize ++ _))))
      rw [hsplit]

theorem read (x : Side) (n : ℕ) : (s.putSession x ((s.ends x).session.read n)).Streaming := by
  obtain ⟨-, -, -, hheld⟩ := (h.joint.steady x).read n
  refine of_quiet (h.joint.read x n) h.noReset (fun g hg => ?_) (Calm.read (s.ends x) n).data rfl (h.stream x) ?_
  · obtain ⟨g', -, rfl⟩ := Option.map_eq_some_iff.mp hg
    exact nofun
  · show _ = ((s.ends x).session.received ++ ((s.ends x).session.reader.read n).1) ++
      (((s.ends x).session.reader.read n).2.2.held ++ _)
    rw [h.back x, hheld, append_assoc, append_assoc]

theorem run (hord : s.Orderly (.run x)) : (s.runAt x).Streaming := by
  have hsame := (h.joint.steady x).run_undisturbed (s.signals x.peer)
    fun sig rest hin hp => h.joint.expected hin hp
  have hcall := (h.joint.steady x).run (s.signals x.peer) hord.1
  have hself := s.ends_runAt_self x
  have hother := s.ends_runAt_peer x
  have hjoint : (s.runAt x).Joint := h.joint.run hord (by rw [hself]; exact hsame.live)
  refine ⟨hjoint, fun z l hmem => ?_, fun z => ?_⟩
  · rcases mem_wire_put (e := ((s.ends x).run (s.signals x.peer)).self) hmem with hmem | ⟨-, hsent⟩
    · exact h.noReset z l hmem
    · cases hcall.sends_migrate hsame.live hsent
  · have hself' : (s.runAt x).underway x = s.underway x :=
      underway_put_self (e := ((s.ends x).run (s.signals x.peer)).self)
        (Calm.run (s.ends x) (s.signals x.peer)).data hsame.sending
    have hother' : (s.runAt x).underway x.peer = s.underway x.peer :=
      underway_put_peer s x ((s.ends x).run (s.signals x.peer)).self ((s.ends x).run (s.signals x.peer)).frame
    rcases x.eq_or_peer z with rfl | rfl
    · rw [hself, hother, hself', hsame.written]
      exact h.stream z
    · rw [hother, Side.peer_peer, hself, hother', hsame.received, hsame.held]
      exact h.back x

theorem start (x : Side) (target : LinkID) : (s.start x target).Streaming := by
  have hjoint := h.joint.start x target
  unfold System.start at hjoint ⊢
  split
  · rename_i hmovable
    rw [if_pos hmovable] at hjoint
    exact { h with joint := hjoint }
  · exact h

theorem deliver {l : LinkID} (hord : s.Orderly (.deliver x l)) (hhome : s.Homed (.deliver x l)) :
    (s.deliver x l).Streaming := by
  have hjoint := h.joint.deliver hord
  unfold System.deliver at hjoint ⊢
  cases hl : s.wire x.peer l with
  | nil => exact h
  | cons f rest =>
    rw [hl] at hjoint
    dsimp only at hjoint ⊢
    cases hr : (s.ends x).session.handle l f with
    | none => exact h
    | some r =>
      rw [hr] at hjoint
      dsimp only at hjoint ⊢
      have hreset : f ≠ .reset := fun hf => h.noReset x.peer l (by rw [hl, hf]; exact mem_cons_self)
      obtain ⟨hreply, hlive, hwritten, hreceived, hheld, hsending⟩ := h.joint.handled hl hreset
        (hhome (h.joint.steady x).live f (by rw [hl]; rfl)) hr
      have hjoint := hjoint (by
        unfold putSession
        rw [ends_put_self]
        exact hlive)
      refine of_quiet hjoint ?_ ?_ (by rw [hreply]; rfl) hsending ?_ ?_
      · exact fun z k hmem => h.noReset z k (mem_wire_setWire hl hmem)
      · intro g hg
        rw [hreply] at hg
        cases hg
      · have hsame : (s.setWire x.peer l rest).underway x = s.underway x := by
          unfold underway
          rw [wire_setWire_peer, ends_setWire]
        rw [hsame]
        exact hwritten.trans (h.stream x)
      · show _ = r.1.received ++ (r.1.reader.held ++ _)
        rw [hreceived, hheld, append_assoc, ← h.joint.underway_setWire hl]
        exact h.back x

end Streaming

/-! ## Runs -/

/-- Neither application closes the session, no call fails and no signal is lost. -/
def plain : Op → Bool
  | .abort _ | .lose _ | .close _ => false
  | _ => true

theorem Streaming.step (h : s.Streaming) {op : Op} (hplain : plain op = true) (hord : s.Orderly op)
    (hhome : s.Homed op) :
    (s.step op).Streaming := by
  cases op with
  | start x target => exact h.start x target
  | run x => exact h.run hord
  | deliver x l => exact h.deliver hord hhome
  | write x p => exact h.write x p
  | transmit x => exact h.transmit x
  | read x n => exact h.read x n
  | abort x | lose x | close x => cases hplain

theorem opened_streaming : opened.Streaming :=
  ⟨opened_joint, fun _ _ => not_mem_nil, fun _ => rfl⟩

/-- A run without faults whose steps are orderly and find the session where they look for it. -/
def PlainRun (ops : List Op) : Prop :=
  Trace.Along (fun as op => plain op = true ∧ (exec as).Orderly op ∧ (exec as).Homed op) ops

instance (ops : List Op) : Decidable (PlainRun ops) :=
  inferInstanceAs (Decidable (Trace.Along (fun as op => plain op = true ∧ (exec as).Orderly op ∧
    (exec as).Homed op) ops))

theorem streaming {ops : List Op} (h : PlainRun ops) : (exec ops).Streaming :=
  Trace.Along.invariant h opened_streaming fun _ _ hop ih => ih.step hop.1 hop.2.1 hop.2.2

/-- **The stream across migrations.** After such a run, of any length and with any number of
migrations, what either application has read is a prefix of what the other has written, neither
session is closed and no `Reset` has been sent. -/
theorem stream_intact (ops : List Op) (h : PlainRun ops) :
    (∀ x, ((exec ops).ends x.peer).session.received <+: ((exec ops).ends x).session.written) ∧
      (∀ x, ((exec ops).ends x).session.closed = false) ∧ ∀ x l, .reset ∉ (exec ops).wire x l := by
  have hstreaming := streaming h
  exact ⟨fun x => ⟨_, (hstreaming.stream x).symm⟩, fun x => (hstreaming.joint.steady x).live, hstreaming.noReset⟩

/-- **The protocol of a migration.** In every orderly run, whatever signals are lost, while neither session is
closed: a `Migrate` frame is on the link that its sender has left, with no `Data` frame behind it, and the session
that it is for is registered there and migrating, has its next buffer queued and has not seen the end of the
current one; and no side that awaits a signal is sent another one. -/
theorem migration_in_step (ops : List Op) (h : OrderlyRun ops)
    (hopen : ∀ x, ((exec ops).ends x).session.closed = false) (x : Side) :
    let s := exec ops
    (∀ l, .migrate ∈ s.wire x l → l = (s.ends x).session.writer.buf.link.other ∧ Closing (s.wire x l) ∧
      (s.ends x.peer).session.registered = some l ∧ (s.ends x.peer).session.state = .migrating ∧
      (s.ends x.peer).session.reader.nextBuffer ≠ none ∧
      (s.ends x.peer).session.reader.current.closed = false) ∧
    ∀ sig rest, s.signals x.peer = sig :: rest → (s.ends x).migrator.point.expecting →
      (s.ends x).migrator.point.awaits sig = true := by
  intro s
  have hjoint : s.Joint := (kept h).resolve_right fun ⟨y, hy⟩ => absurd hy.closed (by simp [hopen y])
  have hflow : Flow _ _ _ _ _ _ := hjoint.flows x
  refine ⟨fun l hl => ?_, fun sig rest hin hp => hjoint.expected hin hp⟩
  obtain ⟨hplace, hstate, hnext, hlive, -⟩ := hjoint.migrate (x := x.peer) (l := l) (by rwa [Side.peer_peer])
  exact ⟨(hflow.migrate l hl).1, hflow.closing l, hplace, hstate, hnext, hlive⟩

/-- The frame of `a` is on the first link, and `b` has not handled it. -/
theorem migration_in_step_switching :
    let ops := script [[.start .a .second], calls .a 6, calls .b 8, calls .a 2]
    .migrate ∈ (exec ops).wire .a .first ∧ ((exec ops).ends .b).session.reader.nextBuffer ≠ none := by
  intro ops
  have hfrom : .migrate ∈ (exec ops).wire .a .first := by decide +kernel
  have hopen : ∀ x, ((exec ops).ends x).session.closed = false := by
    intro x
    cases x <;> decide +kernel
  obtain ⟨-, -, -, -, hnext, -⟩ := (migration_in_step ops (by decide +kernel) hopen .a).1 .first hfrom
  exact ⟨hfrom, hnext⟩

/-- One migration, from the first call to the last, started by `x`. -/
def migration (x : Side) (target : LinkID) : List (List Op) :=
  [[.start x target], calls x 6, calls x.peer 8, calls x 1, [.deliver x target.other], calls x 1,
    [.deliver x.peer target.other], calls x 2, calls x.peer 8, calls x 6]

/-- `x` writes `p` on link `l`, and the other side reads it. -/
def talk (x : Side) (l : LinkID) (p : List Byte) : List (List Op) :=
  [[.write x p, .transmit x, .deliver x.peer l, .read x.peer p.length, .deliver x l]]

def roundTrip : List Op :=
  script (talk .a .first [1, 2] ++ migration .a .second ++ talk .b .second [3] ++ migration .b .first ++
    talk .a .first [4])

theorem stream_intact_roundTrip :
    ((exec roundTrip).ends .a).session.written = [1, 2, 4] ∧
      ((exec roundTrip).ends .b).session.received = [1, 2, 4] ∧ ((exec roundTrip).ends .a).session.received = [3] ∧
      ((exec roundTrip).ends .a).session.closed = false := by
  have hplain : PlainRun roundTrip := by decide +kernel
  exact ⟨by decide +kernel, by decide +kernel, by decide +kernel, (stream_intact roundTrip hplain).2.1 .a⟩

/-- The responder has completed the migration and writes; the initiator is still waiting for `done`. -/
def early : List Op :=
  script [[.start .a .second], calls .a 6, calls .b 8, calls .a 1, [.deliver .a .first], calls .a 1,
    [.deliver .b .first], calls .a 2, calls .b 8, [.write .b [7], .transmit .b, .deliver .a .second]]

/-- **A defect of the migration.** A `Data` frame that arrives on the new link before the initiator has run
`Complete` is answered with a `Reset`, and the `Reset` closes the responder's session: nobody has
closed it and nothing has failed. -/
theorem early_data_resets :
    (∀ op ∈ early, plain op = true) ∧ ((exec early).ends .a).migrator.point = .awaitDone ∧
      (exec early).wire .a .second = [.reset] ∧
      ((exec (.deliver .b .second :: early)).ends .b).session.closed = true ∧
      ((exec (.deliver .b .second :: early)).ends .b).session.written = [7] ∧
      ((exec (.deliver .b .second :: early)).ends .a).session.closed = false := by
  decide +kernel

end System

end Astrald.Nodes
