import Astrald.Nodes.Steady

/-!
# How a call moves the handshake

`Progress` lists what a call of a migration does to the point it has reached and to the signals:
it waits, goes on, sends a signal or takes one. `Steady.progress` says that a call which does not
close the session does one of these, and the lemmas of `Phase` then give the joint position of
the two sides:

* `Phase.initiator_progress`, `Phase.responder_progress`: a call of either side leads from one of
  the positions of `Phase` to another.
-/

namespace Astrald.Nodes

namespace Point

def silent : Point → Bool
  | .begin | .pause | .takeBuf | .swapBuf | .setNextBuffer | .sendMigrate | .waitClosed | .removeSession
  | .addSession | .setState | .grow | .resume => true
  | _ => false

def tells : Point → Option Signal
  | .sendReady => some (.ready defaultBufferSize)
  | .sendSwitched => some (.switched defaultBufferSize)
  | .sendResume => some .resume
  | .sendDone => some .done
  | _ => none

def awaits : Point → Signal → Bool
  | .awaitReady, .ready _ | .awaitSwitched, .switched _ | .awaitResume, .resume | .awaitDone, .done => true
  | _, _ => false

end Point

/-- The size that a signal carries replaces the one noted before. -/
def Signal.noted (n : ℕ) : Signal → ℕ
  | .ready k | .switched k => k
  | .resume | .done => n

/-- What a call leaves of the migration: its point, the peer's buffer it has noted, the signal it
sends and the signals it has not taken. -/
inductive Progress (e : Endpoint) : List Signal → Point → ℕ → Option Signal → List Signal → Prop
  | waits (inbox : List Signal) : Progress e inbox e.migrator.point e.migrator.peerBuffer none inbox
  | goes (inbox : List Signal) (hsilent : e.migrator.point.silent = true)
      (hshut : e.migrator.point = .waitClosed → e.shut = true) :
      Progress e inbox (e.migrator.role.next e.migrator.point) e.migrator.peerBuffer none inbox
  | tells (inbox : List Signal) {sig : Signal} (htells : e.migrator.point.tells = some sig) :
      Progress e inbox (e.migrator.role.next e.migrator.point) e.migrator.peerBuffer (some sig) inbox
  | hears {sig : Signal} (rest : List Signal) (hawaits : e.migrator.point.awaits sig = true) :
      Progress e (sig :: rest) (e.migrator.role.next e.migrator.point)
        (sig.noted e.migrator.peerBuffer) none rest
  /-- The responder takes a first signal that is not `ready`. -/
  | quits {sig : Signal} (rest : List Signal) (hp : e.migrator.point = .awaitReady)
      (hawaits : e.migrator.point.awaits sig = false) :
      Progress e (sig :: rest) .idle e.migrator.peerBuffer none rest

def Outcome.Progressed (o : Outcome) (e : Endpoint) (inbox : List Signal) : Prop :=
  Progress e inbox o.self.migrator.point o.self.migrator.peerBuffer o.signal o.inbox ∧
    o.self.migrator.role = e.migrator.role ∧ o.self.migrator.newLink = e.migrator.newLink

theorem closed_closing (e : Endpoint) : e.closing.1.session.closed = true := e.session.close_fields.1

/-- The session stays open with the same stream: what was written and read, what is held and what is
being sent. -/
structure Undisturbed (e e' : Endpoint) : Prop where
  live : e'.session.closed = false
  written : e'.session.written = e.session.written
  received : e'.session.received = e.session.received
  held : e'.session.reader.held = e.session.reader.held
  sending : e'.session.writer.sending = e.session.writer.sending

/-- The call awaits a signal, and a wrong one closes the session. -/
def Point.expecting (p : Point) : Prop := p = .awaitSwitched ∨ p = .awaitResume ∨ p = .awaitDone

/-- A call takes a wrong signal and closes the session, or it does what `Progress` lists and leaves the
stream alone. -/
def Outcome.Ran (o : Outcome) (e : Endpoint) (inbox : List Signal) : Prop :=
  (o.self.session.closed = true ∧ e.migrator.point.expecting ∧
      ∃ sig rest, inbox = sig :: rest ∧ e.migrator.point.awaits sig = false) ∨
    o.Progressed e inbox ∧ Undisturbed e o.self

namespace Steady

variable {e : Endpoint}

theorem undisturbed (h : Steady e) {e' : Endpoint} (hsession : e'.session = e.session) : Undisturbed e e' := by
  refine ⟨?_, ?_, ?_, ?_, ?_⟩ <;> rw [hsession]
  exact h.live

theorem waits_ran (h : Steady e) (inbox : List Signal) : (e.alone inbox).Ran e inbox :=
  .inr ⟨⟨.waits inbox, rfl, rfl⟩, h.undisturbed rfl⟩

theorem goes_ran (inbox : List Signal) {e' : Endpoint} {frame : Option (LinkID × Frame)} {p : Point}
    (hp : e.migrator.point = p) (hsilent : p.silent = true) (hshut : p = .waitClosed → e.shut = true)
    (hrole : e'.migrator.role = e.migrator.role) (hlink : e'.migrator.newLink = e.migrator.newLink)
    (hbuffer : e'.migrator.peerBuffer = e.migrator.peerBuffer)
    (hpoint : e'.migrator.point = e.migrator.role.next e.migrator.point) (hsame : Undisturbed e e') :
    (Outcome.mk e' frame none inbox).Ran e inbox := by
  subst hp
  refine .inr ⟨⟨?_, hrole, hlink⟩, hsame⟩
  show Progress e inbox e'.migrator.point e'.migrator.peerBuffer none inbox
  rw [hpoint, hbuffer]
  exact .goes inbox hsilent hshut

theorem whenUnlocked_ran (h : Steady e) (inbox : List Signal) {e' : Endpoint} {p : Point}
    (hp : e.migrator.point = p) (hsilent : p.silent = true) (hne : p ≠ .waitClosed)
    (he' : e'.migrator = e.advance.migrator) (hsame : Undisturbed e e') : (e.whenUnlocked inbox e').Ran e inbox := by
  subst hp
  unfold Endpoint.whenUnlocked
  split
  · exact h.waits_ran inbox
  · refine goes_ran inbox rfl hsilent (fun hp => absurd hp hne) ?_ ?_ ?_ ?_ hsame <;> rw [he'] <;> rfl

theorem expect_ran (h : Steady e) (hp : e.migrator.point.expecting) (inbox : List Signal)
    {want : Signal → Option Endpoint}
    (hwant : ∀ sig, want sig = none ∧ e.migrator.point.awaits sig = false ∨
      ∃ e', want sig = some e' ∧ e.migrator.point.awaits sig = true ∧ e'.session = e.session ∧
        e'.migrator = { e.migrator with peerBuffer := sig.noted e.migrator.peerBuffer }) :
    (e.expect inbox want).Ran e inbox := by
  obtain ⟨-, habort⟩ := h.aborts hp
  unfold Endpoint.expect
  cases inbox with
  | nil => exact h.waits_ran []
  | cons sig rest =>
    dsimp only
    rcases hwant sig with ⟨hw, hno⟩ | ⟨e', hw, hawaits, hsession, hm⟩
    · rw [hw, habort]
      exact .inl ⟨closed_closing e, hp, sig, rest, rfl, hno⟩
    · rw [hw]
      refine .inr ⟨?_, h.undisturbed hsession⟩
      unfold Outcome.Progressed Endpoint.alone Endpoint.advance Endpoint.goto
      dsimp only
      rw [hm]
      exact ⟨.hears rest hawaits, rfl, rfl⟩

variable (h : Steady e) (inbox : List Signal)
include h

/-- **Every call**, point by point. -/
theorem ran : (e.run inbox).Ran e inbox := by
  have hkeeps : Undisturbed e e := h.undisturbed rfl
  cases hp : e.migrator.point with
  | idle =>
    simp only [Endpoint.run, hp]
    exact h.waits_ran inbox
  | awaitReady =>
    have habort : e.abort = (e.goto .idle, none) := by
      unfold Endpoint.abort
      rw [hp]
    simp only [Endpoint.run, hp, Endpoint.expect]
    cases inbox with
    | nil => exact h.waits_ran []
    | cons sig rest =>
      cases sig with
      | ready n => exact .inr ⟨⟨.hears rest (by rw [hp]; rfl), rfl, rfl⟩, { hkeeps with }⟩
      | switched _ | resume | done =>
        dsimp only
        rw [habort]
        exact .inr ⟨⟨.quits rest hp (by rw [hp]; rfl), rfl, rfl⟩, { hkeeps with }⟩
  | begin =>
    simp only [Endpoint.run, hp]
    rw [(h.begin hp).1]
    refine goes_ran inbox hp rfl (by simp) rfl rfl rfl ?_ { hkeeps with }
    rw [hp]
    cases e.migrator.role <;> rfl
  | takeBuf =>
    have hrun : e.run inbox = ({ e with migrator := { e.migrator with
        oldInputBuffer := some e.session.reader.buf } } : Endpoint).advance.alone inbox := by
      unfold Endpoint.run
      rw [hp]
    rw [hrun]
    exact goes_ran inbox hp rfl (by simp) rfl rfl rfl rfl { hkeeps with }
  | setNextBuffer =>
    simp only [Endpoint.run, hp]
    obtain ⟨-, -, hbuffered⟩ := h.parts hp
    obtain ⟨-, -, -, -, hheld, -⟩ :=
      hbuffered.sound.setNextBuffer (hbuffered.taken (by decide)).2 e.migrator.newLink
    exact goes_ran inbox hp rfl (by simp) rfl rfl rfl rfl { hkeeps with held := hheld }
  | sendMigrate | setState =>
    simp only [Endpoint.run, hp]
    exact goes_ran inbox hp rfl (by simp) rfl rfl rfl rfl { hkeeps with }
  | sendReady | sendSwitched | sendResume | sendDone =>
    simp only [Endpoint.run, hp]
    exact .inr ⟨⟨.tells inbox (by rw [hp]; rfl), rfl, rfl⟩, { hkeeps with }⟩
  | awaitSwitched | awaitResume | awaitDone =>
    have hexpecting : e.migrator.point.expecting := by simp [Point.expecting, hp]
    simp only [Endpoint.run, hp]
    refine h.expect_ran hexpecting inbox fun sig => ?_
    rw [hp]
    -- each takes the signal it awaits, and no other
    cases sig <;> first | exact .inl ⟨rfl, rfl⟩ | exact .inr ⟨_, rfl, rfl, rfl, rfl⟩
  | waitClosed =>
    simp only [Endpoint.run, hp]
    split
    · rename_i hshut
      exact goes_ran inbox hp rfl (fun _ => hshut) rfl rfl rfl rfl { hkeeps with }
    · exact h.waits_ran inbox
  | removeSession =>
    simp only [Endpoint.run, hp]
    rw [(h.removeSession hp inbox).1]
    refine goes_ran inbox hp rfl (by simp) rfl rfl rfl ?_ { hkeeps with }
    rw [hp]
    cases e.migrator.role <;> rfl
  | addSession =>
    simp only [Endpoint.run, hp]
    rw [(h.addSession hp inbox).1]
    refine goes_ran inbox hp rfl (by simp) rfl rfl rfl ?_ { hkeeps with }
    rw [hp]
    cases e.migrator.role <;> rfl
  | pause | swapBuf | grow | resume =>
    simp only [Endpoint.run, hp]
    exact h.whenUnlocked_ran inbox hp rfl (by simp) rfl { hkeeps with }

/-- A call that leaves the session open waits, goes on, or exchanges a signal. -/
theorem progress (hopen : (e.run inbox).self.session.closed = false) :
    (e.run inbox).Progressed e inbox := by
  rcases h.ran inbox with ⟨hclosed, -⟩ | hran
  · rw [hopen] at hclosed
    cases hclosed
  · exact hran.1

/-- A call leaves the stream alone, and the session open if a signal that it takes is the one it awaits. -/
theorem run_undisturbed
    (hexpected : ∀ sig rest, inbox = sig :: rest → e.migrator.point.expecting → e.migrator.point.awaits sig = true) :
    Undisturbed e (e.run inbox).self := by
  rcases h.ran inbox with ⟨-, hp, sig, rest, hin, hno⟩ | hran
  · rw [hexpected sig rest hin hp] at hno
    cases hno
  · exact hran.2

end Steady

namespace Phase

variable {FI FR FI' FR' : Prop} {e : Endpoint} {p q p' : Point} {m n inbox rest : List Signal} {k : ℕ}
  {sig : Option Signal}

variable (hprog : Progress e inbox p' k sig rest) (hplays : e.migrator.role.has e.migrator.point = true)
include hprog hplays

/-- **The initiator's calls.** `hshut` is what a closed old buffer tells it. -/
theorem initiator_progress (hrole : e.migrator.point ≠ .idle → e.migrator.role = .initiator)
    (h : Phase FI FR e.migrator.point q m inbox)
    (hFI : FI' → FI ∨ e.migrator.point = .sendMigrate ∧ p' ≠ .sendMigrate)
    (hshut : e.migrator.point = .waitClosed → e.shut = true → ¬FR)
    (hbuffer : 9 ≤ e.migrator.point.rank → e.migrator.peerBuffer = defaultBufferSize) :
    Phase FI' FR p' q (m ++ sig.toList) rest ∧ (9 ≤ p'.rank → k = defaultBufferSize) := by
  -- only `sendMigrate` takes the initiator's frame off its hands
  have h' : e.migrator.point ≠ .sendMigrate → Phase FI' FR e.migrator.point q m inbox :=
    fun hne => h.mono (fun hf => (hFI hf).resolve_right fun hm => hne hm.1) id
  cases hprog with
  | waits inbox =>
    rw [Option.toList_none, List.append_nil]
    exact ⟨h.mono (fun hf => (hFI hf).resolve_right fun hm => hm.2 hm.1) id, hbuffer⟩
  | goes inbox hsilent hclosed =>
    rw [Option.toList_none, List.append_nil]
    generalize e.migrator.point = point at *
    cases point with
    | begin | pause | takeBuf | swapBuf | setNextBuffer =>
      rw [hrole nofun]
      refine ⟨(h' nofun).initiator_begins (by decide), ?_⟩
      intro hrank
      exact absurd hrank (by decide)
    | sendMigrate =>
      rw [hrole nofun]
      exact ⟨h.initiator_sendMigrate FI', fun _ => hbuffer (by decide)⟩
    | waitClosed =>
      rw [hrole nofun]
      exact ⟨(h' nofun).initiator_waitClosed (hshut rfl (hclosed rfl)), fun _ => hbuffer (by decide)⟩
    | removeSession | addSession | setState | grow | resume =>
      rw [hrole nofun]
      exact ⟨(h' nofun).initiator_completes (by decide),
        fun _ => hbuffer (by decide)⟩
    | _ =>
      cases hsilent
  | tells inbox htells =>
    generalize e.migrator.point = point at *
    cases point with
    | sendReady =>
      cases htells
      rw [hrole nofun]
      refine ⟨(h' nofun).initiator_sendReady, ?_⟩
      intro hrank
      exact absurd hrank (by decide)
    | sendResume =>
      cases htells
      rw [hrole nofun]
      exact ⟨(h' nofun).initiator_sendResume, fun _ => hbuffer (by decide)⟩
    | sendSwitched | sendDone =>
      rw [hrole nofun] at hplays
      cases hplays
    | _ =>
      cases htells
  | hears rest hawaits =>
    rw [Option.toList_none, List.append_nil]
    rename_i sig
    generalize e.migrator.point = point at *
    cases point with
    | awaitSwitched =>
      rw [hrole nofun]
      obtain ⟨rfl, hphase⟩ := (h' nofun).initiator_awaitSwitched
      exact ⟨hphase, fun _ => rfl⟩
    | awaitDone =>
      rw [hrole nofun]
      obtain ⟨rfl, hphase⟩ := (h' nofun).initiator_awaitDone
      exact ⟨hphase, fun _ => hbuffer (by decide)⟩
    | awaitReady | awaitResume =>
      rw [hrole nofun] at hplays
      cases hplays
    | _ =>
      cases sig <;> cases hawaits
  | quits rest hp _ =>
    rw [hp] at hrole hplays
    rw [hrole nofun] at hplays
    cases hplays

/-- **The responder's calls.** A closed old buffer tells it that the initiator's `Migrate` frame has
been sent and handled. -/
theorem responder_progress (hrole : e.migrator.point ≠ .idle → e.migrator.role = .responder)
    (h : Phase FI FR p e.migrator.point inbox n)
    (hFR : FR' → FR ∨ e.migrator.point = .sendMigrate ∧ p' ≠ .sendMigrate)
    (hshut : e.migrator.point = .waitClosed → e.shut = true → ¬FI ∧ p.sent)
    (hbuffer : 2 ≤ e.migrator.point.rank → e.migrator.peerBuffer = defaultBufferSize) :
    Phase FI FR' p p' rest (n ++ sig.toList) ∧ (2 ≤ p'.rank → k = defaultBufferSize) := by
  have h' : e.migrator.point ≠ .sendMigrate → Phase FI FR' p e.migrator.point inbox n :=
    fun hne => h.mono id fun hf => (hFR hf).resolve_right fun hm => hne hm.1
  cases hprog with
  | waits inbox =>
    rw [Option.toList_none, List.append_nil]
    exact ⟨h.mono id fun hf => (hFR hf).resolve_right fun hm => hm.2 hm.1, hbuffer⟩
  | goes inbox hsilent hclosed =>
    rw [Option.toList_none, List.append_nil]
    generalize e.migrator.point = point at *
    cases point with
    | begin | pause | takeBuf | swapBuf | setNextBuffer =>
      rw [hrole nofun]
      exact ⟨(h' nofun).responder_begins (by decide),
        fun _ => hbuffer (by decide)⟩
    | sendMigrate =>
      rw [hrole nofun]
      exact ⟨h.responder_sendMigrate FR', fun _ => hbuffer (by decide)⟩
    | waitClosed =>
      rw [hrole nofun]
      obtain ⟨hI, hsent⟩ := hshut rfl (hclosed rfl)
      exact ⟨(h' nofun).responder_waitClosed hI hsent, fun _ => hbuffer (by decide)⟩
    | removeSession | addSession | setState | grow | resume =>
      rw [hrole nofun]
      exact ⟨(h' nofun).responder_completes (by decide) nofun,
        fun _ => hbuffer (by decide)⟩
    | _ =>
      cases hsilent
  | tells inbox htells =>
    generalize e.migrator.point = point at *
    cases point with
    | sendSwitched =>
      cases htells
      rw [hrole nofun]
      exact ⟨(h' nofun).responder_sendSwitched, fun _ => hbuffer (by decide)⟩
    | sendDone =>
      cases htells
      rw [hrole nofun]
      exact ⟨(h' nofun).responder_sendDone, fun _ => hbuffer (by decide)⟩
    | sendReady | sendResume =>
      rw [hrole nofun] at hplays
      cases hplays
    | _ =>
      cases htells
  | hears rest hawaits =>
    rw [Option.toList_none, List.append_nil]
    rename_i sig
    generalize e.migrator.point = point at *
    cases point with
    | awaitReady =>
      rw [hrole nofun]
      obtain ⟨rfl, hphase⟩ := (h' nofun).responder_awaitReady
      exact ⟨hphase, fun _ => rfl⟩
    | awaitResume =>
      rw [hrole nofun]
      obtain ⟨rfl, hphase⟩ := (h' nofun).responder_awaitResume
      exact ⟨hphase, fun _ => hbuffer (by decide)⟩
    | awaitSwitched | awaitDone =>
      rw [hrole nofun] at hplays
      cases hplays
    | _ =>
      cases sig <;> cases hawaits
  | quits rest hp hawaits =>
    rw [hp] at h hawaits
    obtain ⟨rfl, -⟩ := h.responder_awaitReady
    cases hawaits

end Phase

end Astrald.Nodes
