import Astrald.Nodes.Progress

/-!
# Credit across migrations
-/

namespace Astrald.Nodes

open Function

/-! ## What the steps of a side do to it -/

def sentData : Option (LinkID × Frame) → List Byte
  | none => []
  | some (_, f) => f.payload

theorem sentData_close (s : Session) : sentData s.close.2 = [] := by
  have hreset := s.close_fields.2.2
  cases h : s.close.2 with
  | none => rfl
  | some g =>
    show g.2.payload = []
    rw [hreset g h]
    rfl

/-- A step that does not reopen a session, leaves what is being sent alone and sends no `Data`. -/
structure Calm (e e' : Endpoint) (frame : Option (LinkID × Frame)) : Prop where
  closed : e.session.closed = true → e'.session.closed = true
  sending : e'.session.writer.sending = e.session.writer.sending
  data : sentData frame = []

namespace Calm

variable (e : Endpoint)

theorem closing : Calm e e.closing.1 e.closing.2 := by
  obtain ⟨hclosed, hsending, -⟩ := e.session.close_fields
  exact ⟨fun _ => hclosed, hsending, sentData_close e.session⟩

theorem abort : Calm e e.abort.1 e.abort.2 := by
  unfold Endpoint.abort
  split
  all_goals first
    | exact ⟨id, rfl, rfl⟩
    | split
      · exact ⟨id, rfl, rfl⟩
      · exact closing e

theorem expect (inbox : List Signal) {want : Signal → Option Endpoint}
    (hwant : ∀ sig e', want sig = some e' → e'.session = e.session) :
    Calm e (e.expect inbox want).self (e.expect inbox want).frame := by
  unfold Endpoint.expect
  split
  · exact ⟨id, rfl, rfl⟩
  · split
    · rename_i e' he'
      have hsame : e'.session = e.session := hwant _ _ he'
      refine ⟨fun hc => ?_, ?_, rfl⟩
      · show e'.session.closed = true
        rw [hsame]
        exact hc
      · show e'.session.writer.sending = _
        rw [hsame]
    · exact abort e

theorem whenUnlocked (inbox : List Signal) {e' : Endpoint} (h : Calm e e' none) :
    Calm e (e.whenUnlocked inbox e').self (e.whenUnlocked inbox e').frame := by
  unfold Endpoint.whenUnlocked
  split
  · exact ⟨id, rfl, rfl⟩
  · exact h

theorem run (inbox : List Signal) : Calm e (e.run inbox).self (e.run inbox).frame := by
  unfold Endpoint.run
  split
  · exact ⟨id, rfl, rfl⟩
  · refine expect e inbox fun sig e' h => ?_
    split at h <;> cases h
    rfl
  · unfold Endpoint.begin
    split
    · exact ⟨id, rfl, rfl⟩
    · exact ⟨id, rfl, rfl⟩
  · exact whenUnlocked e inbox ⟨id, rfl, rfl⟩
  · exact ⟨id, rfl, rfl⟩
  · exact whenUnlocked e inbox ⟨id, rfl, rfl⟩
  · exact ⟨id, rfl, rfl⟩
  · exact ⟨id, rfl, rfl⟩
  · refine expect e inbox fun sig e' h => ?_
    split at h <;> cases h
    rfl
  · refine ⟨id, rfl, ?_⟩
    cases e.migrator.oldLink <;> rfl
  · exact ⟨id, rfl, rfl⟩
  · split <;> exact ⟨id, rfl, rfl⟩
  · exact ⟨id, rfl, rfl⟩
  · refine expect e inbox fun sig e' h => ?_
    split at h <;> cases h
    rfl
  · refine expect e inbox fun sig e' h => ?_
    split at h <;> cases h
    rfl
  · unfold Endpoint.removeSession
    split
    · split
      · exact ⟨id, rfl, rfl⟩
      · exact abort e
    · exact ⟨id, rfl, rfl⟩
  · unfold Endpoint.addSession
    split
    · exact abort e
    · exact ⟨id, rfl, rfl⟩
  · exact ⟨id, rfl, rfl⟩
  · exact whenUnlocked e inbox ⟨id, rfl, rfl⟩
  · exact whenUnlocked e inbox ⟨id, rfl, rfl⟩
  · exact ⟨id, rfl, rfl⟩

theorem close : Calm e (e.setSession e.session.close.1) e.session.close.2 := by
  obtain ⟨hclosed, hsending, -⟩ := e.session.close_fields
  exact ⟨fun _ => hclosed, hsending, sentData_close e.session⟩

theorem read (n : ℕ) : Calm e (e.setSession (e.session.read n).1) (e.session.read n).2 := by
  refine ⟨id, rfl, ?_⟩
  show sentData ((e.session.reader.read n).2.1.map fun g => (g.1, Frame.read g.2)) = []
  cases (e.session.reader.read n).2.1 <;> rfl

theorem handle {l : LinkID} {f : Frame} {r : Session × Option (LinkID × Frame)}
    (hr : e.session.handle l f = some r) : Calm e (e.setSession r.1) r.2 := by
  cases Session.handle_cases hr with
  | overflows => exact close e
  | ends =>
    obtain ⟨hclosed, hsending, -⟩ :=
      Session.close_fields { e.session with writer := e.session.writer.peerClose }
    refine ⟨fun _ => hclosed, hsending.trans ?_, sentData_close _⟩
    unfold Writer.peerClose
    split <;> rfl
  | refused | ignored | pushed | grows | advances => exact ⟨id, rfl, rfl⟩

end Calm

/-- The endpoint closes with nothing left to send, or it stays steady and its reader has taken no more
than the bytes it got. -/
def Lasts (e e' : Endpoint) (got : List Byte) : Prop :=
  (e'.session.closed = true ∧ e'.session.writer.sending = []) ∨
    Steady e' ∧ e'.session.reader.receiving.used ≤ e.session.reader.receiving.used + got.length

namespace Steady

variable {e : Endpoint}

theorem lasts_refl (h : Steady e) (got : List Byte) : Lasts e e got := .inr ⟨h, Nat.le_add_right ..⟩

/-- A session that nothing is being sent on is closed. -/
theorem lasts_close {e' : Endpoint} (hcalm : e'.session.writer.sending = e.session.writer.sending)
    (hclosed : e'.session.closed = true) (hfree : e.session.writer.locked = false) (got : List Byte) :
    Lasts e e' got := by
  refine .inl ⟨hclosed, hcalm.trans ?_⟩
  simpa [Writer.locked] using hfree

theorem lasts_run (h : Steady e) (inbox : List Signal)
    (htake : e.migrator.point = .takeBuf → e.session.reader.nextBuffer = none) :
    Lasts e (e.run inbox).self [] := by
  have hcall := h.run inbox htake
  generalize e.run inbox = o at hcall
  cases hcall with
  | waits => exact h.lasts_refl []
  | fails hfree rest => exact lasts_close (Calm.closing e).sending e.session.close_fields.1 hfree []
  | moves hsteady _ _ _ _ hused _ => exact .inr ⟨hsteady, Nat.le_of_eq hused⟩
  | swaps _ hsteady | sends _ hsteady | grows _ hsteady => exact .inr ⟨hsteady, Nat.le_refl _⟩
  | rests _ _ hsteady _ _ hreader =>
    refine .inr ⟨hsteady, Nat.le_of_eq ?_⟩
    rw [hreader]
    rfl

theorem lasts_abort (h : Steady e) : Lasts e e.abort.1 [] := by
  unfold Endpoint.abort
  split
  · rename_i hp
    exact .inr ⟨h.rest (.inr hp), Nat.le_refl _⟩
  all_goals first
    | exact h.lasts_refl []
    | split
      · exact h.lasts_refl []
      · rename_i hfree
        exact lasts_close (Calm.closing e).sending e.session.close_fields.1 (by simpa using hfree) []

theorem lasts_handle (h : Steady e) {l : LinkID} {f : Frame} {r : Session × Option (LinkID × Frame)}
    (hr : e.session.handle l f = some r)
    (hfresh : e.session.registered = some l → e.migrator.point.window → f.granted = 0) :
    Lasts e (e.setSession r.1) f.payload := by
  have hcalm := Calm.handle e hr
  cases Session.handle_cases hr with
  | refused | ignored => exact h.lasts_refl _
  | pushed _ hpush =>
    obtain ⟨hsteady, hused, -, -⟩ := h.push hpush
    exact .inr ⟨hsteady, Nat.le_of_eq hused⟩
  | overflows _ _ hfree => exact lasts_close hcalm.sending e.session.close_fields.1 hfree _
  | grows hreg _ => exact .inr ⟨h.growBy (hfresh hreg), Nat.le_refl _⟩
  | ends _ hfree => exact lasts_close hcalm.sending (Session.close_fields _).1 hfree []
  | advances =>
    obtain ⟨-, -, -, hused, -⟩ := h.buffered.sound.advance_any
    exact .inr ⟨h.readerAdvance, hused⟩

end Steady

/-! ## Both directions -/

namespace Side

@[simp] theorem peer_peer (x : Side) : x.peer.peer = x := by cases x <;> rfl

@[simp] theorem peer_ne (x : Side) : x.peer ≠ x := by cases x <;> decide

theorem eq_or_peer (x y : Side) : y = x ∨ y = x.peer := by cases x <;> cases y <;> decide

end Side

theorem readsOn_sentOn_of_granted {frame : Option (LinkID × Frame)}
    (h : ∀ g, frame = some g → g.2.granted = 0)
    (l : LinkID) : readsOn (sentOn frame l) = 0 := by
  cases frame with
  | none => rfl
  | some g =>
    obtain ⟨k, f⟩ := g
    unfold sentOn
    dsimp only
    split
    · show f.granted + 0 = 0
      rw [show f.granted = 0 from h _ rfl]
    · rfl

namespace System

variable {s : System} {x : Side}

section

variable (s : System) (x : Side) (e : Endpoint) (frame : Option (LinkID × Frame))

@[simp] theorem ends_put_self : (s.put x e frame).ends x = e := update_self ..

@[simp] theorem ends_put_peer :
    (s.put x e frame).ends x.peer = s.ends x.peer := update_of_ne x.peer_ne ..

@[simp] theorem wire_put_self :
    (s.put x e frame).wire x = fun l => s.wire x l ++ sentOn frame l := update_self ..

@[simp] theorem wire_put_peer :
    (s.put x e frame).wire x.peer = s.wire x.peer := update_of_ne x.peer_ne ..

end

def Direction (s : System) (x y : Side) : Prop :=
  Flow (s.ends x).migrator.point (s.ends x).session.writer (s.ends y).session.reader (s.ends y).seen
    (s.wire x) (s.wire y)

def Flows (s : System) : Prop := ∀ x, s.Direction x x.peer

theorem Flows.back (h : s.Flows) (x : Side) : s.Direction x.peer x := by
  have hback := h x.peer
  rwa [Side.peer_peer] at hback

theorem flows_of (x : Side) (hout : s.Direction x x.peer) (hback : s.Direction x.peer x) : s.Flows := by
  intro y
  rcases x.eq_or_peer y with rfl | rfl
  · exact hout
  · rwa [Side.peer_peer]

variable {e : Endpoint} {rest : List Frame} {frame : Option (LinkID × Frame)}

/-- Side `x` becomes `e` and sends `frame`: both accounts in the terms of `e`. -/
theorem Flows.put
    (hout : Flow e.migrator.point e.session.writer (s.ends x.peer).session.reader (s.ends x.peer).seen
      (fun l => s.wire x l ++ sentOn frame l) (s.wire x.peer))
    (hback : Flow (s.ends x.peer).migrator.point (s.ends x.peer).session.writer e.session.reader e.seen
      (s.wire x.peer) (fun l => s.wire x l ++ sentOn frame l)) :
    (s.put x e frame).Flows := by
  refine flows_of x ?_ ?_
  · unfold Direction
    rw [ends_put_self, ends_put_peer, wire_put_self, wire_put_peer]
    exact hout
  · unfold Direction
    rw [ends_put_self, ends_put_peer, wire_put_self, wire_put_peer]
    exact hback

theorem append_none (w : LinkID → List Frame) : (fun l => w l ++ sentOn none l) = w := by
  funext l
  exact List.append_nil _

theorem Flows.put_none
    (hout : Flow e.migrator.point e.session.writer (s.ends x.peer).session.reader (s.ends x.peer).seen
      (s.wire x) (s.wire x.peer))
    (hback : Flow (s.ends x.peer).migrator.point (s.ends x.peer).session.writer e.session.reader e.seen
      (s.wire x.peer) (s.wire x)) :
    (s.put x e none).Flows := by
  refine Flows.put ?_ ?_
  · rw [append_none]
    exact hout
  · rw [append_none]
    exact hback

theorem unseen {p : Point} (hp : e.migrator.point = p) (hnot : ¬p.watching) : ¬e.seen := by
  rintro ⟨hwatching, -⟩
  rw [hp] at hwatching
  exact hnot hwatching

/-- A call of the migration at `x`. `hlate` is what the handshake says of a side that completes the
migration, `hgrow` what its `Grow` relies on. -/
theorem Flows.call (h : s.Flows) (hs : Steady (s.ends x)) {inbox : List Signal} {o : Outcome}
    (hcall : Call (s.ends x) inbox o) (hopen : o.self.session.closed = false)
    (hlate : 15 ≤ (s.ends x).migrator.point.rank →
      (∀ l, .migrate ∉ s.wire x l) ∧ ¬(s.ends x.peer).migrator.point.watching)
    (hgrow : (s.ends x).migrator.point = .grow → (s.ends x).migrator.peerBuffer = defaultBufferSize ∧
      readsOn (s.wire x.peer (s.ends x).session.writer.buf.link) = 0) : (s.put x o.self o.frame).Flows := by
  have hout : Flow _ _ _ _ _ _ := h x
  have hback : Flow _ _ _ _ _ _ := h.back x
  cases hcall with
  | waits =>
    exact Flows.put_none hout hback
  | fails hfree rest =>
    rw [closed_closing] at hopen
    cases hopen
  | moves hsteady hwindow hsent hbuf hsending hused hseen =>
    refine Flows.put_none ?_ ?_
    · exact (hout.at_writer (by rw [hbuf]) (by rw [hbuf]) hsending).at_point hwindow hsent
    · exact hback.relax (Nat.le_of_eq hused) (fun l => by rw [hused]) hseen
  | swaps hp hsteady =>
    have hlink : (s.ends x).session.writer.buf.link = (s.ends x).migrator.newLink.other :=
      (hs.parts hp).1.link (by decide)
    have hpoint : (s.ends x).swapBuf.advance.migrator.point = .setNextBuffer := Steady.point_advance hp rfl rfl
    refine Flows.put_none ?_ ?_
    · refine hout.swap (by rw [hp]; decide) (by rw [hp]; decide) ?_ ?_ ?_
      · show ¬ Point.sent (s.ends x).swapBuf.advance.migrator.point
        rw [hpoint]
        decide
      · show Point.window (s.ends x).swapBuf.advance.migrator.point
        rw [hpoint]
        decide
      · show (s.ends x).migrator.newLink = _
        rw [hlink, LinkID.other_other]
    · exact hback.relax (Nat.le_refl _) (fun l => Nat.le_refl _) fun hseen => absurd hseen (unseen hpoint (by decide))
  | sends hp hsteady =>
    have hpoint : (s.ends x).advance.migrator.point.window ∧ (s.ends x).advance.migrator.point.sent := by
      rw [show (s.ends x).advance.migrator.point = (s.ends x).migrator.role.next (s.ends x).migrator.point from rfl, hp]
      cases (s.ends x).migrator.role <;> decide
    refine Flows.put ?_ ?_
    · exact hout.sendMigrate (by rw [hp]; decide) (by rw [hp]; decide) hpoint.1 hpoint.2
    · refine hback.relax (Nat.le_refl _) (fun l => ?_) fun hseen => ⟨by rw [hp]; decide, hseen.2⟩
      rw [readsOn_append, readsOn_sentOn_of_granted fun g hg => by cases hg; rfl]
      exact Nat.le_refl _
  | grows hp hsteady =>
    obtain ⟨hpeer, hreads⟩ := hgrow hp
    obtain ⟨-, hgated, -⟩ := hs.parts hp
    have hpoint : ((s.ends x).setWriter ((s.ends x).session.writer.grow
      (s.ends x).migrator.peerBuffer)).advance.migrator.point = .resume := Steady.point_advance hp rfl rfl
    refine Flows.put_none ?_ ?_
    · show Flow ((s.ends x).setWriter ((s.ends x).session.writer.grow
        (s.ends x).migrator.peerBuffer)).advance.migrator.point
        ((s.ends x).session.writer.grow (s.ends x).migrator.peerBuffer) _ _ _ _
      rw [hpoint, hpeer]
      exact hout.complete (by rw [hp]; decide) (by rw [hp]; decide) (hlate (by rw [hp]; decide)).1
        (hgated.spent (by decide)) (hgated.quiet (by decide)) hreads (by decide) (by decide)
    · exact hback.relax (Nat.le_refl _) (fun l => Nat.le_refl _) fun hseen => absurd hseen (unseen hpoint (by decide))
  | rests hrank hidle hsteady hbuf hsending hreader =>
    obtain ⟨hmigrate, hwatching⟩ := hlate (by omega)
    refine Flows.put_none ?_ ?_
    · rw [hidle]
      refine (hout.at_writer (by rw [hbuf]) (by rw [hbuf]) hsending).at_rest ?_ hmigrate fun hseen =>
        hwatching hseen.1
      rintro ⟨-, hle⟩
      omega
    · exact hback.relax (by rw [hreader]) (fun l => by rw [hreader]) fun hseen =>
        absurd hseen (unseen hidle (by decide))

/-- A reader that has closed no buffer has seen nothing new. -/
theorem seen_of_closed {r : Reader} {sess : Session} (hr : sess.reader = r)
    (hclosed : ∀ k, (r.inputs k).closed = (e.session.reader.inputs k).closed) (h : (e.setSession sess).seen) :
    e.seen := by
  refine ⟨h.1, ?_⟩
  have hshut : (e.setSession sess).shut = true := h.2
  unfold Endpoint.shut Endpoint.setSession at hshut
  simp only [hr, hclosed] at hshut
  exact hshut

theorem Flows.write (h : s.Flows) (hs : Steady (s.ends x)) (p : List Byte) :
    (s.putSession x ((s.ends x).session.write p, none)).Flows := by
  have hout : Flow _ _ _ _ _ _ := h x
  refine Flows.put_none ?_ ?_
  · show Flow (s.ends x).migrator.point ((s.ends x).session.write p).writer _ _ _ _
    rw [hs.write_eq]
    rcases (s.ends x).session.writer.write_cases p with hsame | ⟨hpaused, hfree, b, hw, hsize, hlink, -⟩
    · rw [hsame]
      exact hout
    · have hnil : (s.ends x).session.writer.sending = [] := by simpa [Writer.locked] using hfree
      have hnot : ¬ (s.ends x).migrator.point.window := by
        rintro ⟨hlo, hhi⟩
        have hp : (s.ends x).migrator.point.paused := ⟨by omega, by omega⟩
        rw [← hs.gated.paused, hpaused] at hp
        cases hp
      rw [hw]
      refine hout.write hnot hlink ?_
      rw [hnil]
      exact hsize
  · show Flow _ _ ((s.ends x).session.write p).reader ((s.ends x).setSession ((s.ends x).session.write
      p)).seen _ _
    rw [hs.write_eq]
    exact h.back x

theorem Flows.transmit (h : s.Flows) (hs : Steady (s.ends x)) :
    (s.putSession x (s.ends x).session.transmit).Flows := by
  have hout : Flow _ _ _ _ _ _ := h x
  have hback : Flow _ _ _ _ _ _ := h.back x
  unfold putSession Session.transmit Writer.transmit
  split
  · exact Flows.put_none hout hback
  · rename_i hsending
    have hnot : ¬ (s.ends x).migrator.point.window := by
      rintro ⟨hlo, hhi⟩
      exact hsending (hs.gated.quiet ⟨by omega, by omega⟩)
    refine Flows.put ?_ ?_
    · exact hout.transmit hnot rfl (List.take_append_drop ..).symm
    · refine hback.relax (Nat.le_refl _) (fun l => ?_) id
      rw [readsOn_append, readsOn_sentOn_of_granted fun g hg => by cases hg; rfl]
      exact Nat.le_refl _

theorem Flows.read (h : s.Flows) (hs : Steady (s.ends x)) (n : ℕ) :
    (s.putSession x ((s.ends x).session.read n)).Flows := by
  have hout : Flow _ _ _ _ _ _ := h x
  have hback : Flow _ _ _ _ _ _ := h.back x
  obtain ⟨-, hused, hclosed, -⟩ := hs.read n
  have hframe : ((s.ends x).session.read n).2 =
      ((s.ends x).session.reader.read n).2.1.map fun g => (g.1, Frame.read g.2) := rfl
  unfold putSession
  rw [hframe]
  refine Flows.put ?_ ?_
  · cases ((s.ends x).session.reader.read n).2.1 with
    | none =>
      rw [Option.map_none, append_none]
      exact hout
    | some g => exact hout.send g.1 rfl nofun
  · refine hback.relax (by show ((s.ends x).session.reader.read n).2.2.receiving.used ≤ _; omega)
      (fun l => ?_)
      (seen_of_closed rfl hclosed)
    show ((s.ends x).session.reader.read n).2.2.receiving.used + _ ≤ _
    rw [readsOn_append]
    have hgrant : readsOn (sentOn (((s.ends x).session.reader.read n).2.1.map fun g =>
      (g.1, Frame.read g.2)) l) ≤
        ((s.ends x).session.reader.read n).2.1.elim 0 Prod.snd := by
      cases ((s.ends x).session.reader.read n).2.1 with
      | none => exact Nat.le_refl _
      | some g =>
        show readsOn (if g.1 = l then [Frame.read g.2] else []) ≤ g.2
        split
        · exact Nat.le_refl _
        · exact Nat.zero_le _
    omega

/-! ### Frames -/

section

variable (s : System) (x : Side) (l : LinkID) (w : List Frame)

@[simp] theorem ends_setWire : (s.setWire x l w).ends = s.ends := rfl

@[simp] theorem wire_setWire_self : (s.setWire x l w).wire x = update (s.wire x) l w := update_self ..

@[simp] theorem wire_setWire_peer :
    (s.setWire x.peer l w).wire x = s.wire x := update_of_ne x.peer_ne.symm ..

end

/-- Frames that are handled grant nothing more. -/
theorem readsOn_update_le {w : LinkID → List Frame} {l : LinkID} {f : Frame} (hl : w l = f :: rest) (k : LinkID) :
    readsOn (update w l rest k) ≤ readsOn (w k) := by
  by_cases hk : k = l
  · rw [hk, update_self, hl, readsOn_cons]
    omega
  · rw [update_of_ne hk]

/-- Side `x` has handled the first frame of its peer on `l`: it becomes `e` and sends `frame`. -/
theorem Flows.handled {l : LinkID}
    (hout : Flow e.migrator.point e.session.writer (s.ends x.peer).session.reader (s.ends x.peer).seen
      (fun k => s.wire x k ++ sentOn frame k) (update (s.wire x.peer) l rest))
    (hback : Flow (s.ends x.peer).migrator.point (s.ends x.peer).session.writer e.session.reader e.seen
      (update (s.wire x.peer) l rest) (fun k => s.wire x k ++ sentOn frame k)) :
    ((s.setWire x.peer l rest).put x e frame).Flows := by
  refine Flows.put ?_ ?_
  · rw [wire_setWire_self, wire_setWire_peer]
    exact hout
  · rw [wire_setWire_self, wire_setWire_peer]
    exact hback

/-- A frame that is dropped, with a `Reset` in reply or without. -/
theorem Flows.dropped (h : s.Flows) {l : LinkID} {f : Frame} (hl : s.wire x.peer l = f :: rest)
    (hf : f ≠ .migrate) (hframe : ∀ g, frame = some g → g.2 = .reset) :
    ((s.setWire x.peer l rest).put x (s.ends x) frame).Flows := by
  have hout : Flow _ _ _ _ _ _ := h x
  have hback : Flow _ _ _ _ _ _ := h.back x
  have hgranted : ∀ g, frame = some g → g.2.granted = 0 := fun g hg => by rw [hframe g hg]; rfl
  refine Flows.handled ?_ ?_
  · have hless := hout.relax (Nat.le_refl _) (fun k => Nat.add_le_add_left (readsOn_update_le hl k) _) id
    cases frame with
    | none =>
      rw [append_none]
      exact hless
    | some g =>
      obtain ⟨k, f'⟩ := g
      obtain rfl : f' = .reset := hframe _ rfl
      exact hless.send k rfl nofun
  · have hpop := hback.pop hl hf (Nat.le_add_right _ _) id
    refine hpop.relax (Nat.le_refl _) (fun k => ?_) id
    rw [readsOn_append, readsOn_sentOn_of_granted hgranted]
    exact Nat.le_refl _

/-- The first frame of the peer of `x` on `l` is handled and leaves the session of `x` open. `hmigrate` is
what the handshake says of a `Migrate` frame. -/
theorem Flows.deliver (h : s.Flows) (hs : Steady (s.ends x)) {l : LinkID} {f : Frame}
    (hl : s.wire x.peer l = f :: rest) {r : Session × Option (LinkID × Frame)}
    (hr : (s.ends x).session.handle l f = some r) (hopen : r.1.closed = false)
    (hfresh : (s.ends x).session.registered = some l → (s.ends x).migrator.point.window → f.granted = 0)
    (hmigrate : f = .migrate → (s.ends x).session.registered = some l ∧ (s.ends x).session.state = .migrating ∧
      (s.ends x).session.reader.nextBuffer ≠ none ∧ (s.ends x).session.reader.current.closed = false ∧
      (s.ends x.peer).migrator.point.window) :
    ((s.setWire x.peer l rest).putSession x r).Flows := by
  have hout : Flow _ _ _ _ _ _ := h x
  have hback : Flow _ _ _ _ _ _ := h.back x
  -- what is left on the wires grants `x` no more than before
  have hless := hout.relax (Nat.le_refl _) (fun k => Nat.add_le_add_left (readsOn_update_le hl k) _) id
  cases Session.handle_cases hr with
  | refused hf _ => exact h.dropped hl hf.2 fun g hg => by cases hg; rfl
  | ignored hf hno =>
    rcases hf with rfl | rfl
    · exact h.dropped hl nofun nofun
    · obtain ⟨hreg, hstate, -⟩ := hmigrate rfl
      rcases hno with hno | ⟨-, hno⟩
      · exact absurd hreg hno
      · exact absurd hstate hno
  | pushed _ hpush =>
    obtain ⟨-, hused, -, hclosed⟩ := hs.push hpush
    refine Flows.handled ?_ ?_
    · rw [append_none]
      exact hless
    · rw [append_none]
      exact hback.pop hl nofun (Nat.le_of_eq hused) (seen_of_closed rfl hclosed)
  | overflows | ends =>
    rw [(Session.close_fields _).1] at hopen
    cases hopen
  | @grows n hreg hfree =>
    refine Flows.handled ?_ ?_
    · rw [append_none]
      by_cases hw : (s.ends x).migrator.point.window
      · have hn : n = 0 := hfresh hreg hw
        rw [hn]
        exact hless.at_writer rfl rfl rfl
      · have hlink : l = (s.ends x).session.writer.buf.link :=
          Option.some.inj (hreg.symm.trans (hs.wired.registered hw))
        rw [hlink] at hl ⊢
        exact hout.credit hw hl
    · rw [append_none]
      exact hback.pop hl nofun (Nat.le_add_right _ _) id
  | advances =>
    obtain ⟨-, -, hnext, hcur, hwindow⟩ := hmigrate rfl
    obtain ⟨k, hk⟩ := Option.ne_none_iff_exists'.mp hnext
    obtain ⟨-, hused, -, -⟩ := hs.buffered.sound.advance hk hcur
    refine Flows.handled ?_ ?_
    · rw [append_none]
      exact hless
    · rw [append_none]
      exact hback.pop_migrate hl hwindow hused

end System

end Astrald.Nodes
