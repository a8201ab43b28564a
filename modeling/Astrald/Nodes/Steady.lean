import Astrald.Nodes.Flow

/-!
# One endpoint through a migration

What holds at an endpoint whose session is not closed, by the point its migration has reached. It
has three parts, and a call of the migration touches one of them, seldom two:

* `Wired`: where the session is registered and which link its writer sends on;
* `Gated`: the state of the session, whether its writer is paused and what credit it has;
* `Buffered`: the buffers of its reader, and the one that `WaitClosed` waits for.

`Call` lists what a call can do, and `Steady.run` says that there is nothing else. `takeBuf` is
asked to find no buffer queued.
-/

namespace Astrald.Nodes

instance (p : Point) : Decidable p.watching := inferInstanceAs (Decidable (_ ∧ _))

instance (p : Point) : Decidable p.sent := inferInstanceAs (Decidable (_ ≤ _))

def Role.has : Role → Point → Bool
  | .initiator, .awaitReady | .initiator, .sendSwitched | .initiator, .awaitResume | .initiator, .sendDone => false
  | .responder, .sendReady | .responder, .awaitSwitched | .responder, .sendResume | .responder, .awaitDone => false
  | _, _ => true

/-! ## Links and registration -/

structure Wired (p : Point) (m : Migrator) (s : Session) : Prop where
  onClose : s.registered = none ∨ s.registered = some s.onClose
  home : p = .idle → s.registered = some s.writer.buf.link
  link : p ≠ .idle → s.writer.buf.link = if p.rank ≤ 5 then m.newLink.other else m.newLink
  place : p ≠ .idle → s.registered = if p.rank ≤ 15 then some m.newLink.other
    else if p.rank ≤ 16 then none else some m.newLink
  oldLink : 3 ≤ p.rank → m.oldLink = some m.newLink.other

namespace Wired

variable {p : Point} {m : Migrator} {s : Session}

/-- The points are on the same side of `Begin`, `SwapBuf`, `removeSession` and `addSession`. -/
abbrev Like (p q : Point) : Prop :=
  p ≠ .idle ∧ q ≠ .idle ∧ (3 ≤ q.rank → 3 ≤ p.rank) ∧ (q.rank ≤ 5 ↔ p.rank ≤ 5) ∧
    (q.rank ≤ 15 ↔ p.rank ≤ 15) ∧ (q.rank ≤ 16 ↔ p.rank ≤ 16)

theorem goto (h : Wired p m s) {q : Point} (hlike : Like p q) : Wired q m s := by
  obtain ⟨hp, hq, hold, hlink, hplace⟩ := hlike
  refine ⟨h.onClose, fun hidle => absurd hidle hq, fun _ => ?_, fun _ => ?_, fun hr => h.oldLink (hold hr)⟩
  · rw [h.link hp]
    simp only [hlink]
  · rw [h.place hp]
    simp only [hplace]

/-- Outside the window the session is registered with the link its writer sends on. -/
theorem registered (h : Wired p m s) (hwindow : ¬p.window) : s.registered = some s.writer.buf.link := by
  by_cases hidle : p = .idle
  · exact h.home hidle
  · rw [h.place hidle, h.link hidle]
    unfold Point.window at hwindow
    by_cases hearly : p.rank ≤ 5
    · rw [if_pos (by omega), if_pos hearly]
    · rw [if_neg (by omega), if_neg (by omega), if_neg hearly]

/-- An endpoint that is through with its migration, or has given it up. -/
theorem rest (h : Wired p m s) (hwindow : ¬p.window) : Wired .idle m s where
  onClose := h.onClose
  home _ := h.registered hwindow
  link hne := absurd rfl hne
  place hne := absurd rfl hne
  oldLink hc := absurd hc (by decide)

end Wired

/-! ## The writer and the state -/

structure Gated (p : Point) (s : Session) : Prop where
  state : s.state = if p.migrating then .migrating else .open
  writer : s.writer.closed = false ∧ s.writer.buf.closed = false
  paused : s.writer.paused = true ↔ p.paused
  quiet : p.paused → s.writer.sending = []
  spent : p.window → s.writer.buf.wsize = 0

namespace Gated

variable {p : Point} {s : Session}

abbrev Like (p q : Point) : Prop :=
  (q.migrating ↔ p.migrating) ∧ (q.paused ↔ p.paused) ∧ (q.window → p.window)

theorem goto (h : Gated p s) {q : Point} (hlike : Like p q) : Gated q s where
  state := by
    rw [h.state]
    simp only [hlike.1]
  writer := h.writer
  paused := h.paused.trans hlike.2.1.symm
  quiet hq := h.quiet (hlike.2.1.mp hq)
  spent hq := h.spent (hlike.2.2 hq)

theorem unlocked (h : Gated p s) (hp : p.paused) : s.writer.locked = false := by
  unfold Writer.locked
  rw [h.quiet hp]
  rfl

end Gated

/-! ## The reader -/

structure Buffered (p : Point) (m : Migrator) (r : Reader) : Prop where
  sound : r.Sound
  taken : 5 ≤ p.rank ∧ p.rank ≤ 6 → m.oldInputBuffer = some r.buf ∧ r.nextBuffer = none
  watched : p.watching → ∃ k, m.oldInputBuffer = some k ∧
    ((r.inputs k).closed = false → r.buf = k ∧ r.nextBuffer ≠ none)

namespace Buffered

variable {p : Point} {m : Migrator} {r : Reader}

abbrev Like (p q : Point) : Prop :=
  (5 ≤ q.rank ∧ q.rank ≤ 6 → 5 ≤ p.rank ∧ p.rank ≤ 6) ∧ (q.watching → p.watching)

theorem goto (h : Buffered p m r) {q : Point} (hlike : Like p q) : Buffered q m r where
  sound := h.sound
  taken hq := h.taken (hlike.1 hq)
  watched hq := h.watched (hlike.2 hq)

/-- A step of the reader that closes no buffer and leaves an open current one in its place. -/
theorem step (h : Buffered p m r) {r' : Reader} (hsound : r'.Sound)
    (hclosed : ∀ k, (r'.inputs k).closed = (r.inputs k).closed)
    (hopen : r.current.closed = false → r'.buf = r.buf ∧ r'.nextBuffer = r.nextBuffer) : Buffered p m r' where
  sound := hsound
  taken hp := by
    obtain ⟨hold, hnone⟩ := h.taken hp
    obtain ⟨hbuf, hnext⟩ := hopen (h.sound.receives hnone)
    exact ⟨by rw [hold, hbuf], by rw [hnext, hnone]⟩
  watched hp := by
    obtain ⟨k, hold, hwatch⟩ := h.watched hp
    refine ⟨k, hold, fun hk => ?_⟩
    rw [hclosed] at hk
    obtain ⟨hbuf, hnext⟩ := hwatch hk
    have hcur : r.current.closed = false := by
      unfold Reader.current
      rw [hbuf]
      exact hk
    rw [(hopen hcur).1, (hopen hcur).2]
    exact ⟨hbuf, hnext⟩

end Buffered

/-! ## The endpoint -/

structure Steady (e : Endpoint) : Prop where
  live : e.session.closed = false
  plays : e.migrator.role.has e.migrator.point = true
  wired : Wired e.migrator.point e.migrator e.session
  gated : Gated e.migrator.point e.session
  buffered : Buffered e.migrator.point e.migrator e.session.reader

/-- The receiver is watching an old buffer that is closed. -/
def Endpoint.seen (e : Endpoint) : Prop := e.migrator.point.watching ∧ e.shut = true

/-- What a call of the migration can do at a steady endpoint. -/
inductive Call (e : Endpoint) (inbox : List Signal) : Outcome → Prop
  | waits : Call e inbox (e.alone inbox)
  | fails (hfree : e.session.writer.locked = false) (rest : List Signal) :
      Call e inbox ⟨e.closing.1, e.closing.2, none, rest⟩
  /-- Nothing is sent but a signal, and neither the writer's account nor the reader's changes. -/
  | moves {e' : Endpoint} {sig : Option Signal} {rest : List Signal} (hsteady : Steady e')
      (hwindow : e'.migrator.point.window ↔ e.migrator.point.window)
      (hsent : e'.migrator.point.sent ↔ e.migrator.point.sent)
      (hbuf : e'.session.writer.buf = e.session.writer.buf)
      (hsending : e'.session.writer.sending = e.session.writer.sending)
      (hused : e'.session.reader.receiving.used = e.session.reader.receiving.used) (hseen : e'.seen → e.seen) :
      Call e inbox ⟨e', none, sig, rest⟩
  | swaps (hp : e.migrator.point = .swapBuf) (hsteady : Steady e.swapBuf.advance) :
      Call e inbox (e.swapBuf.advance.alone inbox)
  | sends (hp : e.migrator.point = .sendMigrate) (hsteady : Steady e.advance) :
      Call e inbox ⟨e.advance, some (e.session.writer.buf.link.other, .migrate), none, inbox⟩
  | grows (hp : e.migrator.point = .grow)
      (hsteady : Steady (e.setWriter (e.session.writer.grow e.migrator.peerBuffer)).advance) :
      Call e inbox ((e.setWriter (e.session.writer.grow e.migrator.peerBuffer)).advance.alone inbox)
  /-- The migration is over. -/
  | rests {e' : Endpoint} {sig : Option Signal} (hlate : 19 ≤ e.migrator.point.rank)
    (hidle : e'.migrator.point = .idle)
      (hsteady : Steady e') (hbuf : e'.session.writer.buf = e.session.writer.buf)
      (hsending : e'.session.writer.sending = e.session.writer.sending)
      (hreader : e'.session.reader = e.session.reader) : Call e inbox ⟨e', none, sig, inbox⟩

namespace Steady

variable {e : Endpoint}

/-- The writer's lock is free while a migration has it paused. -/
theorem unlocked (h : Steady e) (hp : e.migrator.point.paused) : e.session.writer.locked = false :=
  h.gated.unlocked hp

abbrev Alike (p q : Point) : Prop := Wired.Like p q ∧ Gated.Like p q ∧ Buffered.Like p q

variable {q : Point}

/-- The migration moves on, and nothing else changes. -/
theorem goto (h : Steady e) (hplays : e.migrator.role.has q = true) (hlike : Alike e.migrator.point q) :
    Steady (e.goto q) where
  live := h.live
  plays := hplays
  wired := { h.wired.goto hlike.1 with }
  gated := { h.gated.goto hlike.2.1 with }
  buffered := { h.buffered.goto hlike.2.2 with }

theorem moves (h : Steady e) (hplays : e.migrator.role.has q = true) (hlike : Alike e.migrator.point q)
    (hwindow : q.window ↔ e.migrator.point.window) (hsent : q.sent ↔ e.migrator.point.sent)
    (inbox rest : List Signal) (sig : Option Signal) : Call e inbox ⟨e.goto q, none, sig, rest⟩ :=
  .moves (h.goto hplays hlike) hwindow hsent rfl rfl rfl fun hseen => ⟨hlike.2.2.2 hseen.1, hseen.2⟩

theorem of_parts (hlive : e.session.closed = false) (hplays : e.migrator.role.has q = true)
    (hwired : Wired q e.migrator e.session) (hgated : Gated q e.session)
    (hbuffered : Buffered q e.migrator e.session.reader) : Steady (e.goto q) :=
  ⟨hlive, hplays, { hwired with }, { hgated with }, { hbuffered with }⟩

/-- Every role makes the calls that are common to both. -/
theorem has_of_common {r : Role} {p : Point} (h : Role.initiator.has p && Role.responder.has p) :
    r.has p = true := by
  rw [Bool.and_eq_true] at h
  cases r
  · exact h.1
  · exact h.2

theorem next_of_common {r : Role} {p : Point} (hi : Role.initiator.next p = q) (hr : Role.responder.next p = q) :
    r.next p = q := by
  cases r
  · exact hi
  · exact hr

theorem advance_eq {p : Point} (hp : e.migrator.point = p) {r : Role} (hr : e.migrator.role = r)
    (hnext : r.next p = q) : e.advance = e.goto q := by
  unfold Endpoint.advance
  rw [hp, hr, hnext]

theorem point_advance {p : Point} (hp : e.migrator.point = p) (hi : Role.initiator.next p = q)
    (hr : Role.responder.next p = q) : e.advance.migrator.point = q := by
  rw [advance_eq hp rfl (next_of_common hi hr)]
  rfl

section

variable (h : Steady e)
include h

theorem notes {p : Point} (hp : e.migrator.point = p) {r : Role} (hr : e.migrator.role = r)
    (hnext : r.next p = q) (n : ℕ) (hplays : r.has q = true) (hlike : Alike p q)
    (hwindow : q.window ↔ p.window) (hsent : q.sent ↔ p.sent) (inbox rest : List Signal) :
    Call e inbox ⟨(e.setPeerBuffer n).advance, none, none, rest⟩ := by
  rw [advance_eq (e := e.setPeerBuffer n) hp hr hnext]
  subst hp hr
  have hsteady : Steady (e.setPeerBuffer n) :=
    ⟨h.live, h.plays, { h.wired with }, { h.gated with }, { h.buffered with }⟩
  exact .moves (hsteady.goto hplays hlike) hwindow hsent rfl rfl rfl
    fun hseen => ⟨hlike.2.2.2 hseen.1, hseen.2⟩

theorem parts {p : Point} (hp : e.migrator.point = p) :
    Wired p e.migrator e.session ∧ Gated p e.session ∧ Buffered p e.migrator e.session.reader :=
  hp ▸ ⟨h.wired, h.gated, h.buffered⟩

/-! ### The calls of `Begin` -/

theorem begin (hp : e.migrator.point = .begin) :
    e.begin = ({ session := { e.session with state := .migrating }
                 migrator := { e.migrator with oldLink := e.session.registered } } : Endpoint).goto .pause ∧
    Steady (({ session := { e.session with state := .migrating }
               migrator := { e.migrator with oldLink := e.session.registered } } : Endpoint).goto .pause) := by
  obtain ⟨hwired, hgated, hbuffered⟩ := h.parts hp
  have hreg : e.session.registered = some e.migrator.newLink.other := hwired.place (by decide)
  refine ⟨?_, of_parts h.live (has_of_common (by decide)) ?_ ?_ ?_⟩
  · have hstate : e.session.state = .open := hgated.state
    unfold Endpoint.begin
    rw [if_pos hstate]
    exact advance_eq hp rfl (next_of_common rfl rfl)
  · exact {
      onClose := hwired.onClose
      home := nofun
      link := fun _ => hwired.link (by decide)
      place := fun _ => hreg
      oldLink := fun _ => hreg }
  · exact {
      state := rfl
      writer := hgated.writer
      paused := hgated.paused.trans (by decide)
      quiet := fun hc => absurd hc (by decide)
      spent := fun hc => absurd hc (by decide) }
  · exact { hbuffered.goto (q := .pause) (by decide) with }

theorem pause (hp : e.migrator.point = .pause) (hfree : e.session.writer.locked = false) :
    Steady ((e.setWriter e.session.writer.pause).goto .takeBuf) := by
  obtain ⟨hwired, hgated, hbuffered⟩ := h.parts hp
  have hnil : e.session.writer.sending = [] := by simpa [Writer.locked] using hfree
  refine of_parts h.live (has_of_common (by decide)) ?_ ?_ ?_
  · exact { hwired.goto (q := .takeBuf) (by decide) with }
  · exact { hgated with
      paused := iff_of_true rfl (by decide)
      quiet := fun _ => hnil
      spent := fun hc => absurd hc (by decide) }
  · exact { hbuffered.goto (q := .takeBuf) (by decide) with }

theorem takeBuf (hp : e.migrator.point = .takeBuf) (hnone : e.session.reader.nextBuffer = none) :
    Steady (({ e with migrator := { e.migrator with oldInputBuffer := some e.session.reader.buf } } :
      Endpoint).goto .swapBuf) := by
  obtain ⟨hwired, hgated, hbuffered⟩ := h.parts hp
  refine of_parts h.live (has_of_common (by decide)) ?_ ?_ ?_
  · exact { hwired.goto (q := .swapBuf) (by decide) with }
  · exact { hgated.goto (q := .swapBuf) (by decide) with }
  · exact {
      sound := hbuffered.sound
      taken := fun _ => ⟨rfl, hnone⟩
      watched := fun hc => absurd hc (by decide) }

theorem swapBuf (hp : e.migrator.point = .swapBuf) : Steady (e.swapBuf.goto .setNextBuffer) := by
  obtain ⟨hwired, hgated, hbuffered⟩ := h.parts hp
  refine of_parts h.live (has_of_common (by decide)) ?_ ?_ ?_
  · exact {
      onClose := hwired.onClose
      home := nofun
      link := fun _ => rfl
      place := fun _ => hwired.place (by decide)
      oldLink := fun _ => hwired.oldLink (by decide) }
  · exact {
      state := hgated.state
      writer := ⟨hgated.writer.1, rfl⟩
      paused := hgated.paused.trans (by decide)
      quiet := fun _ => hgated.quiet (by decide)
      spent := fun _ => rfl }
  · exact { hbuffered.goto (q := .setNextBuffer) (by decide) with }

/-- The new buffer is queued behind the one that is waited for, which is open. -/
theorem setNextBuffer (hp : e.migrator.point = .setNextBuffer)
    (hq : q = .sendReady ∨ q = .sendMigrate) (hplays : e.migrator.role.has q = true) :
    Steady (e.setNextBuffer.goto q) ∧
      e.setNextBuffer.session.reader.receiving = e.session.reader.receiving ∧
        e.setNextBuffer.shut = false := by
  obtain ⟨hwired, hgated, hbuffered⟩ := h.parts hp
  obtain ⟨hold, hnone⟩ := hbuffered.taken (by decide)
  obtain ⟨hsound, hbuf, hcur, hrecv, -, hnext⟩ := hbuffered.sound.setNextBuffer hnone e.migrator.newLink
  refine ⟨of_parts h.live hplays ?_ ?_ ?_, hrecv, ?_⟩
  · exact { hwired.goto (q := q) (by rcases hq with rfl | rfl <;> decide) with }
  · exact { hgated.goto (q := q) (by rcases hq with rfl | rfl <;> decide) with }
  · exact {
      sound := hsound
      taken := fun hc => absurd hc (by rcases hq with rfl | rfl <;> decide)
      watched := fun _ => ⟨_, hold, fun _ => ⟨hbuf, hnext⟩⟩ }
  · have hopen : e.session.reader.current.closed = false := hbuffered.sound.receives hnone
    have hsame : e.setNextBuffer.session.reader.current.closed = false := by
      show (e.session.reader.setNextBuffer _).current.closed = false
      rw [hcur]
      exact hopen
    show Option.elim e.migrator.oldInputBuffer false _ = false
    rw [hold]
    exact hsame

/-! ### The calls of `Complete` -/

theorem removeSession (hp : e.migrator.point = .removeSession) (inbox : List Signal) : e.removeSession inbox =
      ((e.setSession { e.session with registered := none }).goto .addSession).alone inbox ∧
      Steady ((e.setSession { e.session with registered := none }).goto .addSession) := by
  obtain ⟨hwired, hgated, hbuffered⟩ := h.parts hp
  have hold : e.migrator.oldLink = some e.migrator.newLink.other := hwired.oldLink (by decide)
  have hreg : e.session.registered = some e.migrator.newLink.other := hwired.place (by decide)
  refine ⟨?_, of_parts h.live (has_of_common (by decide)) ?_ ?_ ?_⟩
  · have hmoves : e.moves = true := by
      unfold Endpoint.moves
      rw [hold]
      exact decide_eq_true e.migrator.newLink.other_ne
    unfold Endpoint.removeSession
    rw [if_pos hmoves, if_pos (hreg.trans hold.symm)]
    exact congrArg (Endpoint.alone · inbox) (advance_eq hp rfl (next_of_common rfl rfl))
  · exact {
      onClose := .inl rfl
      home := nofun
      link := fun _ => hwired.link (by decide)
      place := fun _ => rfl
      oldLink := fun _ => hold }
  · exact { hgated.goto (q := .addSession) (by decide) with }
  · exact { hbuffered.goto (q := .addSession) (by decide) with }

theorem addSession (hp : e.migrator.point = .addSession) (inbox : List Signal) :
    e.addSession inbox = ((e.setSession { e.session with
      registered := some e.migrator.newLink
      onClose := e.migrator.newLink }).goto .setState).alone inbox ∧
    Steady ((e.setSession { e.session with
      registered := some e.migrator.newLink
      onClose := e.migrator.newLink }).goto .setState) := by
  obtain ⟨hwired, hgated, hbuffered⟩ := h.parts hp
  have hreg : e.session.registered = none := hwired.place (by decide)
  refine ⟨?_, of_parts h.live (has_of_common (by decide)) ?_ ?_ ?_⟩
  · unfold Endpoint.addSession
    rw [if_neg (by rw [hreg]; exact nofun)]
    exact congrArg (Endpoint.alone · inbox) (advance_eq hp rfl (next_of_common rfl rfl))
  · exact {
      onClose := .inr rfl
      home := nofun
      link := fun _ => hwired.link (by decide)
      place := fun _ => rfl
      oldLink := fun _ => hwired.oldLink (by decide) }
  · exact { hgated.goto (q := .setState) (by decide) with }
  · exact { hbuffered.goto (q := .setState) (by decide) with }

theorem setState (hp : e.migrator.point = .setState) :
    Steady ((e.setSession { e.session with state := .open }).goto .grow) := by
  obtain ⟨hwired, hgated, hbuffered⟩ := h.parts hp
  refine of_parts h.live (has_of_common (by decide)) ?_ ?_ ?_
  · exact { hwired.goto (q := .grow) (by decide) with }
  · exact { hgated with
      state := rfl
      paused := hgated.paused.trans (by decide)
      quiet := fun _ => hgated.quiet (by decide)
      spent := fun _ => hgated.spent (by decide) }
  · exact { hbuffered.goto (q := .grow) (by decide) with }

theorem grow (hp : e.migrator.point = .grow) (n : ℕ) :
    Steady ((e.setWriter (e.session.writer.grow n)).goto .resume) := by
  obtain ⟨hwired, hgated, hbuffered⟩ := h.parts hp
  refine of_parts h.live (has_of_common (by decide)) ?_ ?_ ?_
  · exact { hwired.goto (q := .resume) (by decide) with }
  · exact { hgated with
      paused := hgated.paused.trans (by decide)
      quiet := fun _ => hgated.quiet (by decide)
      spent := fun hc => absurd hc (by decide) }
  · exact { hbuffered.goto (q := .resume) (by decide) with }

theorem resume (hp : e.migrator.point = .resume) (hq : q = .idle ∨ q = .sendDone)
    (hplays : e.migrator.role.has q = true) : Steady ((e.setWriter e.session.writer.resume).goto q) := by
  obtain ⟨hwired, hgated, hbuffered⟩ := h.parts hp
  refine of_parts h.live hplays ?_ ?_ ?_
  · rcases hq with rfl | rfl
    · exact { hwired.rest (by decide) with }
    · exact { hwired.goto (q := .sendDone) (by decide) with }
  · exact {
      state := by
        have hstate : e.session.state = .open := hgated.state
        rcases hq with rfl | rfl
        · exact hstate
        · exact hstate
      writer := hgated.writer
      paused := iff_of_false Bool.false_ne_true (by rcases hq with rfl | rfl <;> decide)
      quiet := fun hc => absurd hc (by rcases hq with rfl | rfl <;> decide)
      spent := fun hc => absurd hc (by rcases hq with rfl | rfl <;> decide) }
  · exact { hbuffered.goto (q := q) (by rcases hq with rfl | rfl <;> decide) with }

/-- The last signal is sent, or the first one is not waited for any more. -/
theorem rest (hp : e.migrator.point = .sendDone ∨ e.migrator.point = .awaitReady) : Steady (e.goto .idle) := by
  obtain ⟨p, hpp, hp⟩ : ∃ p, e.migrator.point = p ∧ (p = .sendDone ∨ p = .awaitReady) := ⟨_, rfl, hp⟩
  obtain ⟨hwired, hgated, hbuffered⟩ := h.parts hpp
  refine of_parts h.live (has_of_common (by decide)) ?_ ?_ ?_
  · exact { hwired.rest (by rcases hp with rfl | rfl <;> decide) with }
  · exact { hgated.goto (q := .idle) (by rcases hp with rfl | rfl <;> decide) with }
  · exact { hbuffered.goto (q := .idle) (by rcases hp with rfl | rfl <;> decide) with }

end

/-! ### Every call -/

/-- A call to a point where no buffer is watched. -/
theorem call {p : Point} (hp : e.migrator.point = p) {e₁ : Endpoint} (hsteady : Steady (e₁.goto q))
    (hpq : (q.window ↔ p.window) ∧ (q.sent ↔ p.sent) ∧ ¬q.watching)
    (hbuf : e₁.session.writer.buf = e.session.writer.buf)
    (hsending : e₁.session.writer.sending = e.session.writer.sending)
    (hreader : e₁.session.reader = e.session.reader) (inbox rest : List Signal) (sig : Option Signal) :
    Call e inbox ⟨e₁.goto q, none, sig, rest⟩ := by
  refine .moves hsteady ?_ ?_ hbuf hsending ?_ fun hseen => absurd hseen.1 hpq.2.2
  · rw [hp]
    exact hpq.1
  · rw [hp]
    exact hpq.2.1
  · show e₁.session.reader.receiving.used = _
    rw [hreader]

variable (h : Steady e)
include h

theorem isInitiator {p : Point} (hp : e.migrator.point = p) (hnot : Role.responder.has p = false) :
    e.migrator.role = .initiator := by
  have hplays := hp ▸ h.plays
  cases hr : e.migrator.role with
  | initiator => rfl
  | responder =>
    rw [hr, hnot] at hplays
    cases hplays

theorem isResponder {p : Point} (hp : e.migrator.point = p) (hnot : Role.initiator.has p = false) :
    e.migrator.role = .responder := by
  have hplays := hp ▸ h.plays
  cases hr : e.migrator.role with
  | responder => rfl
  | initiator =>
    rw [hr, hnot] at hplays
    cases hplays

/-- A call that sends or takes a signal only moves the migration on. -/
theorem onward (hp : e.migrator.point ∈ [Point.sendReady, .sendSwitched, .waitClosed, .sendResume,
      .awaitResume, .awaitDone]) (inbox rest : List Signal) (sig : Option Signal) :
    Call e inbox ⟨e.advance, none, sig, rest⟩ := by
  have hplays := h.plays
  have hmoves := h.moves (q := e.migrator.role.next e.migrator.point)
  unfold Endpoint.advance
  generalize e.migrator.role = r at hplays hmoves ⊢
  generalize e.migrator.point = p at hp hplays hmoves ⊢
  simp only [List.mem_cons, List.not_mem_nil, or_false] at hp
  cases r <;> rcases hp with rfl | rfl | rfl | rfl | rfl | rfl <;>
    first | exact absurd hplays (by decide) | exact hmoves rfl (by decide) (by decide) (by decide) inbox rest sig

theorem aborts (hp : e.migrator.point = .awaitSwitched ∨ e.migrator.point = .awaitResume ∨
    e.migrator.point = .awaitDone) : e.session.writer.locked = false ∧ e.abort = e.closing := by
  have hfree : e.session.writer.locked = false := h.unlocked (by rcases hp with hp | hp | hp <;> rw [hp] <;> decide)
  refine ⟨hfree, ?_⟩
  unfold Endpoint.abort
  rcases hp with hp | hp | hp <;> rw [hp] <;> simp only [hfree, Bool.false_eq_true, if_false]

/-- A call that waits for a signal goes on with the one expected and fails on another. -/
theorem expects (hp : e.migrator.point = .awaitSwitched ∨ e.migrator.point = .awaitResume ∨
      e.migrator.point = .awaitDone) (inbox : List Signal) {want : Signal → Option Endpoint}
    (hwant : ∀ sig e' rest, want sig = some e' → Call e inbox ⟨e'.advance, none, none, rest⟩) :
    Call e inbox (e.expect inbox want) := by
  obtain ⟨hfree, habort⟩ := h.aborts hp
  unfold Endpoint.expect
  split
  · exact .waits
  · split
    · rename_i sig rest _ e' he'
      exact hwant _ e' _ he'
    · rw [habort]
      exact .fails hfree _

/-- **Every call** at a steady endpoint is one of those listed. -/
theorem run (inbox : List Signal) (htake : e.migrator.point = .takeBuf → e.session.reader.nextBuffer = none) :
    Call e inbox (e.run inbox) := by
  cases hp : e.migrator.point with
  | idle =>
    simp only [Endpoint.run, hp]
    exact .waits
  | awaitReady =>
    have hrole : e.migrator.role = .responder := h.isResponder hp rfl
    have habort : e.abort = (e.goto .idle, none) := by
      unfold Endpoint.abort
      rw [hp]
    simp only [Endpoint.run, hp, Endpoint.expect]
    split
    · exact .waits
    · split
      · rename_i rest e' hwant
        split at hwant
        · cases hwant
          exact h.notes (q := .begin) hp hrole rfl _ rfl (by decide) (by decide) (by decide) _ _
        · cases hwant
      · rw [habort]
        exact call hp (h.rest (.inr hp)) (by decide) rfl rfl rfl _ _ _
  | begin =>
    simp only [Endpoint.run, hp]
    obtain ⟨heq, hsteady⟩ := h.begin hp
    rw [heq]
    exact call hp hsteady (by decide) rfl rfl rfl _ _ _
  | pause =>
    simp only [Endpoint.run, hp, Endpoint.whenUnlocked]
    split
    · exact .waits
    · rename_i hfree
      rw [advance_eq (e := e.setWriter e.session.writer.pause) (q := .takeBuf) hp rfl (next_of_common rfl rfl)]
      exact call hp (h.pause hp (by simpa using hfree)) (by decide) rfl rfl rfl _ _ _
  | takeBuf =>
    have heq : e.run inbox = (({ e with migrator := { e.migrator with
        oldInputBuffer := some e.session.reader.buf } } : Endpoint).goto .swapBuf).alone inbox := by
      unfold Endpoint.run
      rw [hp]
      exact congrArg (Endpoint.alone · inbox) (advance_eq hp rfl (next_of_common rfl rfl))
    rw [heq]
    exact call hp (h.takeBuf hp (htake hp)) (by decide) rfl rfl rfl _ _ _
  | swapBuf =>
    have hsteady : Steady e.swapBuf.advance := by
      rw [advance_eq (e := e.swapBuf) (q := .setNextBuffer) hp rfl (next_of_common rfl rfl)]
      exact h.swapBuf hp
    simp only [Endpoint.run, hp, Endpoint.whenUnlocked, h.unlocked (by rw [hp]; decide), Bool.false_eq_true, if_false]
    exact .swaps hp hsteady
  | setNextBuffer =>
    obtain ⟨q, hnext, hq, hhas⟩ : ∃ q, e.migrator.role.next .setNextBuffer = q ∧
        (q = .sendReady ∨ q = .sendMigrate) ∧ e.migrator.role.has q = true := by
      cases e.migrator.role
      · exact ⟨_, rfl, .inl rfl, rfl⟩
      · exact ⟨_, rfl, .inr rfl, rfl⟩
    obtain ⟨hsteady, hrecv, hshut⟩ := h.setNextBuffer hp hq hhas
    simp only [Endpoint.run, hp]
    rw [advance_eq (e := e.setNextBuffer) hp rfl hnext]
    refine .moves hsteady ?_ ?_ rfl rfl (congrArg InputBuffer.used hrecv) fun hseen => ?_
    · show q.window ↔ _
      rw [hp]
      rcases hq with rfl | rfl <;> decide
    · show q.sent ↔ _
      rw [hp]
      rcases hq with rfl | rfl <;> decide
    · exact absurd (hshut.symm.trans hseen.2) Bool.false_ne_true
  | sendReady | sendSwitched | sendResume =>
    simp only [Endpoint.run, hp, Endpoint.tell]
    exact h.onward (by rw [hp]; decide) _ _ _
  | awaitSwitched =>
    have hr : e.migrator.role = .initiator := h.isInitiator hp rfl
    simp only [Endpoint.run, hp]
    refine h.expects (.inl hp) inbox fun sig e' rest hwant => ?_
    split at hwant
    · cases hwant
      exact h.notes (q := .sendMigrate) hp hr rfl _ rfl (by decide) (by decide) (by decide) _ _
    · cases hwant
  | sendMigrate =>
    have hold : e.migrator.oldLink = some e.session.writer.buf.link.other := by
      obtain ⟨hwired, -, -⟩ := h.parts hp
      have hlink : e.session.writer.buf.link = e.migrator.newLink := hwired.link (by decide)
      rw [hlink]
      exact hwired.oldLink (by decide)
    have hsteady : Steady e.advance := by
      cases hr : e.migrator.role with
      | initiator =>
        rw [advance_eq (q := .waitClosed) hp hr rfl]
        exact h.goto (has_of_common (by decide)) (by rw [hp]; decide)
      | responder =>
        rw [advance_eq (q := .sendSwitched) hp hr rfl]
        exact h.goto (by rw [hr]; rfl) (by rw [hp]; decide)
    simp only [Endpoint.run, hp, hold, Option.map_some]
    exact .sends hp hsteady
  | waitClosed =>
    simp only [Endpoint.run, hp]
    split
    · exact h.onward (by rw [hp]; decide) _ _ _
    · exact .waits
  | awaitResume =>
    simp only [Endpoint.run, hp]
    refine h.expects (.inr (.inl hp)) inbox fun sig e' rest hwant => ?_
    split at hwant <;> cases hwant
    exact h.onward (by rw [hp]; decide) _ _ _
  | awaitDone =>
    simp only [Endpoint.run, hp]
    refine h.expects (.inr (.inr hp)) inbox fun sig e' rest hwant => ?_
    split at hwant <;> cases hwant
    exact h.onward (by rw [hp]; decide) _ _ _
  | removeSession =>
    simp only [Endpoint.run, hp]
    obtain ⟨heq, hsteady⟩ := h.removeSession hp inbox
    rw [heq]
    exact call hp hsteady (by decide) rfl rfl rfl _ _ _
  | addSession =>
    simp only [Endpoint.run, hp]
    obtain ⟨heq, hsteady⟩ := h.addSession hp inbox
    rw [heq]
    exact call hp hsteady (by decide) rfl rfl rfl _ _ _
  | setState =>
    simp only [Endpoint.run, hp]
    rw [advance_eq (e := e.setSession { e.session with state := .open }) (q := .grow) hp rfl
      (next_of_common rfl rfl)]
    exact call hp (h.setState hp) (by decide) rfl rfl rfl _ _ _
  | grow =>
    have hsteady : Steady (e.setWriter (e.session.writer.grow e.migrator.peerBuffer)).advance := by
      rw [advance_eq (e := e.setWriter (e.session.writer.grow e.migrator.peerBuffer)) (q := .resume) hp rfl
        (next_of_common rfl rfl)]
      exact h.grow hp _
    simp only [Endpoint.run, hp, Endpoint.whenUnlocked, h.unlocked (by rw [hp]; decide), Bool.false_eq_true, if_false]
    exact .grows hp hsteady
  | resume =>
    simp only [Endpoint.run, hp, Endpoint.whenUnlocked, h.unlocked (by rw [hp]; decide), Bool.false_eq_true, if_false]
    cases hr : e.migrator.role with
    | initiator =>
      rw [advance_eq (e := e.setWriter e.session.writer.resume) (q := .idle) hp hr rfl]
      exact .rests (by rw [hp]; decide) rfl (h.resume hp (.inl rfl) (has_of_common (by decide))) rfl rfl rfl
    | responder =>
      rw [advance_eq (e := e.setWriter e.session.writer.resume) (q := .sendDone) hp hr rfl]
      exact call hp (h.resume hp (.inr rfl) (by rw [hr]; rfl)) (by decide) rfl rfl rfl _ _ _
  | sendDone =>
    have hr : e.migrator.role = .responder := h.isResponder hp rfl
    simp only [Endpoint.run, hp, Endpoint.tell]
    rw [advance_eq (q := .idle) hp hr rfl]
    exact .rests (by rw [hp]; decide) rfl (h.rest (.inl hp)) rfl rfl rfl

/-! ### The application -/

theorem write_eq (p : List Byte) : e.session.write p = { e.session with
    writer := (e.session.writer.write p).1
    written := e.session.written ++ (e.session.writer.write p).2 } := by
  unfold Session.write
  rw [if_neg (by rw [h.live]; exact Bool.false_ne_true)]

theorem write (p : List Byte) : Steady (e.setSession (e.session.write p)) := by
  rw [h.write_eq]
  rcases e.session.writer.write_cases p with hsame | ⟨hpaused, -, b, hw, -, hlink, hclosed⟩
  · rw [hsame]
    exact { h with wired := { h.wired with }, gated := { h.gated with } }
  · have hnot : ¬ e.migrator.point.paused := by
      rw [← h.gated.paused, hpaused]
      exact Bool.false_ne_true
    rw [hw]
    refine { h with wired := ?_, gated := ?_ }
    · exact { h.wired with
        home := fun hidle => by
          show e.session.registered = some b.link
          rw [hlink]
          exact h.wired.home hidle
        link := fun hne => by
          show b.link = _
          rw [hlink]
          exact h.wired.link hne }
    · exact { h.gated with
        writer := ⟨h.gated.writer.1, hclosed.trans h.gated.writer.2⟩
        quiet := fun hc => absurd hc hnot
        spent := fun hc => absurd (show e.migrator.point.paused from by
          have hc' : 6 ≤ e.migrator.point.rank ∧ e.migrator.point.rank ≤ 18 := hc
          exact ⟨by omega, by omega⟩) hnot }

theorem transmit : Steady (e.setSession e.session.transmit.1) := by
  have hsame : e.session.writer.transmit.1 =
      { e.session.writer with sending := e.session.writer.transmit.1.sending } := by
    unfold Writer.transmit
    split <;> rfl
  refine { h with wired := ?_, gated := ?_ }
  · show Wired _ _ { e.session with writer := e.session.writer.transmit.1 }
    rw [hsame]
    exact { h.wired with }
  · show Gated _ { e.session with writer := e.session.writer.transmit.1 }
    rw [hsame]
    exact { h.gated with
      quiet := fun hp => by
        show e.session.writer.transmit.1.sending = []
        unfold Writer.transmit
        rw [if_pos (h.gated.quiet hp)]
        exact h.gated.quiet hp }

theorem read (n : ℕ) : Steady (e.setSession (e.session.read n).1) ∧
    (e.session.reader.read n).2.2.receiving.used + (e.session.reader.read n).2.1.elim 0 Prod.snd ≤
      e.session.reader.receiving.used ∧
    (∀ k, ((e.session.reader.read n).2.2.inputs k).closed = (e.session.reader.inputs k).closed) ∧
    e.session.reader.held = (e.session.reader.read n).1 ++ (e.session.reader.read n).2.2.held := by
  have hread : e.session.reader.read n = ((e.session.reader.read n).1, (e.session.reader.read n).2.1,
    (e.session.reader.read n).2.2) := rfl
  obtain ⟨hsound, hheld, hused, hclosed, hopen, -⟩ := h.buffered.sound.read hread
  exact ⟨⟨h.live, h.plays, { h.wired with }, { h.gated with }, h.buffered.step hsound hclosed hopen⟩,
    hused, hclosed, hheld⟩

/-! ### The frame handlers -/

theorem push {p : List Byte} {r : Reader} (hr : e.session.reader.push p = .ok r) :
    Steady (e.setSession { e.session with reader := r }) ∧
      r.receiving.used = e.session.reader.receiving.used + p.length ∧
      r.held = e.session.reader.held ++ p ∧
      ∀ k, (r.inputs k).closed = (e.session.reader.inputs k).closed := by
  have hfits : e.session.reader.receiving.used + p.length ≤ defaultBufferSize := by
    rw [h.buffered.sound.push_eq] at hr
    unfold InputBuffer.push at hr
    rw [if_neg (by rw [h.buffered.sound.receiving_open]; exact Bool.false_ne_true)] at hr
    split at hr
    · cases hr
    · rename_i hle
      have hsize : e.session.reader.receiving.size = defaultBufferSize := h.buffered.sound.size _
      omega
  obtain ⟨r', hr', hsound, hbuf, hnext, hclosed, hused, hheld⟩ := h.buffered.sound.push hfits
  rw [hr] at hr'
  cases hr'
  exact ⟨⟨h.live, h.plays, { h.wired with }, { h.gated with }, h.buffered.step hsound hclosed fun _ => ⟨hbuf, hnext⟩⟩,
    hused, hheld, hclosed⟩

/-- Credit granted outside the window. -/
theorem growBy {n : ℕ} (hn : e.migrator.point.window → n = 0) :
    Steady (e.setSession { e.session with writer := e.session.writer.grow n }) :=
  { h with wired := { h.wired with }, gated := { h.gated with
    spent := fun hp => by
      show e.session.writer.buf.wsize + n = 0
      rw [hn hp, h.gated.spent hp] } }

theorem readerAdvance : Steady (e.setSession { e.session with reader := e.session.reader.advance }) := by
  obtain ⟨hsound, hkept, hshut, -, -⟩ := h.buffered.sound.advance_any
  refine ⟨h.live, h.plays, { h.wired with }, { h.gated with }, hsound, ?_, ?_⟩
  · intro hp
    obtain ⟨hold, hnone⟩ := h.buffered.taken hp
    show _ = some e.session.reader.advance.buf ∧ e.session.reader.advance.nextBuffer = none
    rw [Reader.advance_none hnone]
    exact ⟨hold, hnone⟩
  · intro hp
    obtain ⟨k, hold, hwatch⟩ := h.buffered.watched hp
    refine ⟨k, hold, fun hk => ?_⟩
    -- a watched buffer that was open is closed by `Advance`
    have hk : (e.session.reader.advance.inputs k).closed = false := hk
    have hopen : (e.session.reader.inputs k).closed = false := by
      rw [← Bool.not_eq_true]
      intro hc
      rw [hkept k hc] at hk
      cases hk
    obtain ⟨hbuf, hnext⟩ := hwatch hopen
    have hc := hshut hnext
    rw [hbuf, hk] at hc
    cases hc

end Steady

end Astrald.Nodes
