import Astrald.Lib.Trace
import Astrald.Nodes.Session

/-!
# One session over one link

The model of an open session between two nodes that share one link and do not migrate it. Each
application calls `Write` for one byte string after another, `Read` with the buffers it likes, and
`Close`; the link delivers the frames of each direction in order.

`Write` is cut at the turns of its loop and at the `Data` frames of each turn, and `Close` where its
goroutine can be overtaken: after it has set the flag, after `onClose`, after `writer.Close` has set
its flag, and after the `Reset` has been sent. A handler that has to wait for the lock of the writer
is a step not taken.

* `Endpoint.step`: what the goroutines of one node do;
* `Endpoint.handle`: what its read loop does with a frame;
* `System.step`: the two nodes and their link.
-/

namespace Astrald.Nodes.Link

open List

/-- What is left of a `Close`. -/
inductive Closing
  | live
  | marked
  | unhooked
  | resetting
  | draining
  | done
  deriving DecidableEq, Repr

structure Endpoint where
  session : Session
  closing : Closing
  /-- The `Write` under way: its argument, and what is left of it. -/
  writing : Option (List Byte × List Byte)
  /-- The arguments of the `Write`s that have returned without error. -/
  calls : List (List Byte)
  /-- A `Read` has returned `io.EOF`. -/
  eof : Bool

/-- What an application or a goroutine of `Close` or `Write` does next. -/
inductive Act
  | call (p : List Byte)
  | turn
  | transmit
  | finish
  | read (n : ℕ)
  | close
  | unhook
  | shut
  | emit
  | drain

def Act.closes : Act → Bool
  | .close | .unhook | .shut | .emit | .drain => true
  | _ => false

namespace Endpoint

def opened : Endpoint := ⟨Session.opened .first, .live, none, [], false⟩

def setWriter (e : Endpoint) (w : Writer) : Endpoint := { e with session := { e.session with writer := w } }

/-- `Close` up to its unlocking. -/
def close (e : Endpoint) : Endpoint :=
  if e.session.closed then e
  else { e with session := { e.session with state := .closed, closed := true }, closing := .marked }

/-- One turn of the loop of `Write`. A closed writer ends the call. -/
def turn (e : Endpoint) : Endpoint :=
  match e.writing with
  | none => e
  | some (p, rest) =>
    if e.session.writer.locked || rest.isEmpty then e
    else if e.session.writer.closed then { e with writing := none }
    else
      let (w, taken) := e.session.writer.write rest
      { e with
        session := { e.session with writer := w, written := e.session.written ++ taken }
        writing := some (p, rest.drop taken.length) }

def finish (e : Endpoint) : Endpoint :=
  match e.writing with
  | some (p, []) => if e.session.writer.locked then e else { e with writing := none, calls := e.calls ++ [p] }
  | _ => e

def framed (e : Endpoint) (r : Session × Option (LinkID × Frame)) : Endpoint × List Frame :=
  ({ e with session := r.1 }, r.2.toList.map Prod.snd)

def ended (r : Reader) (n : ℕ) : Bool :=
  match r.current.read n with
  | .error .eof => r.nextBuffer = none
  | _ => false

/-- A turn of the loop of `Read` into a slice of length `n`. -/
def read (e : Endpoint) (n : ℕ) : Endpoint × List Frame :=
  { e with eof := e.eof || ended e.session.reader n }.framed (e.session.read n)

def step (e : Endpoint) : Act → Endpoint × List Frame
  | .call p =>
    (if e.session.closed || e.writing.isSome then e else { e with writing := some (p, p) }, [])
  | .turn => (e.turn, [])
  | .transmit => e.framed e.session.transmit
  | .finish => (e.finish, [])
  | .read n => if n = 0 then (e, []) else e.read n
  | .close => (e.close, [])
  | .unhook =>
    if e.closing = .marked then
      ({ e with
        session := { e.session with
          registered := if e.session.registered = some e.session.onClose then none else e.session.registered }
        closing := .unhooked }, [])
    else (e, [])
  | .shut =>
    if e.closing = .unhooked ∧ e.session.writer.locked = false then
      if e.session.writer.closed then ({ e with closing := .draining }, [])
      else
        ({ e with
          session := { e.session with writer := { e.session.writer with closed := true } }
          closing := .resetting }, [])
    else (e, [])
  | .emit =>
    if e.closing = .resetting then
      ({ e with
        session := { e.session with writer := { e.session.writer with buf := e.session.writer.buf.close } }
        closing := .draining }, [.reset])
    else (e, [])
  | .drain =>
    if e.closing = .draining then
      ({ e with session := { e.session with reader := e.session.reader.close }, closing := .done }, [])
    else (e, [])

/-- `Mux.Handle`: the endpoint left and the frames sent in reply, or `none` while the handler waits
for the lock of the writer. -/
def handle (e : Endpoint) : Frame → Option (Endpoint × List Frame)
  | .data p =>
    if e.session.registered ≠ some .first then some (e, [.reset])
    else if e.session.state ≠ .open ∧ e.session.state ≠ .migrating then some (e, [.reset])
    else
      match e.session.reader.push p with
      | .ok r => some ({ e with session := { e.session with reader := r } }, [])
      | .error _ => some (e.close, [])
  | .read n => (e.session.handleRead .first n).map e.framed
  | .reset =>
    if e.session.registered ≠ some .first then some (e, [])
    else if e.session.writer.locked then none
    else some ((e.setWriter e.session.writer.peerClose).close, [])
  | .migrate => (e.session.handleMigrate .first).map e.framed

end Endpoint

/-! ## What the steps of one node do -/

namespace Endpoint

def held (e : Endpoint) : List Byte := e.session.reader.current.bytes

def sending (e : Endpoint) : List Byte := e.session.writer.sending

def credit (e : Endpoint) : ℕ := e.session.writer.buf.wsize

/-- The marks of a session agree on how far its `Close` has come. -/
structure Sound (e : Endpoint) : Prop where
  next : e.session.reader.nextBuffer = none
  size : e.session.reader.current.size = defaultBufferSize
  live : e.session.closed = false ↔ e.closing = .live
  state : e.session.state = if e.session.closed then .closed else .open
  registered : e.session.registered = if e.closing = .live ∨ e.closing = .marked then some .first else none
  onClose : e.session.onClose = .first
  shut : e.session.reader.current.closed = true ↔ e.closing = .done
  writer : e.session.writer.closed = true → e.session.closed = true
  idle : e.writing = none → e.sending = []
  /-- A writer is closed while no `Write` holds its lock. -/
  mute : e.session.writer.closed = true → e.sending = []
  silenced : e.closing = .resetting ∨ e.closing = .draining ∨ e.closing = .done →
    e.session.writer.closed = true

theorem Sound.opened : Sound opened where
  next := rfl
  size := rfl
  live := ⟨fun _ => rfl, fun _ => rfl⟩
  state := rfl
  registered := rfl
  onClose := rfl
  shut := ⟨(nomatch ·), (nomatch ·)⟩
  writer := nofun
  idle := fun _ => rfl
  mute := nofun
  silenced := by decide

/-- What a step of a node does to the two streams: bytes are taken from `Write`, sent, and read, and
none is lost; the bytes sent were taken from the credit, and credit is granted for bytes read. -/
structure Effect (e e' : Endpoint) (fs : List Frame) : Prop where
  taken : ∃ t, e'.session.written = e.session.written ++ t ∧ e.sending ++ t = dataOn fs ++ e'.sending
  credit : e'.credit + e'.sending.length + (dataOn fs).length ≤ e.credit + e.sending.length
  kept : e'.session.received ++ e'.held = e.session.received ++ e.held
  used : e'.held.length + readsOn fs ≤ e.held.length

variable {e e' : Endpoint} {fs : List Frame} {o : Act}

/-- A step that leaves the streams alone. -/
theorem Effect.of_same (hwritten : e'.session.written = e.session.written) (hsending : e'.sending = e.sending)
    (hcredit : e'.credit = e.credit) (hreceived : e'.session.received = e.session.received)
    (hheld : e'.held = e.held) (hdata : dataOn fs = []) (hreads : readsOn fs = 0) : Effect e e' fs where
  taken := ⟨[], by rw [hwritten, append_nil], by rw [hsending, hdata, append_nil]; rfl⟩
  credit := by rw [hcredit, hsending, hdata]; exact Nat.le_refl _
  kept := by rw [hreceived, hheld]
  used := by rw [hheld, hreads]; exact Nat.le_refl _

theorem Effect.refl (e : Endpoint) : Effect e e [] := Effect.of_same rfl rfl rfl rfl rfl rfl rfl

theorem close_of_closed (h : e.session.closed = true) : e.close = e := by
  unfold close
  rw [if_pos h]

theorem close_of_open (h : e.session.closed = false) : e.close =
    { e with session := { e.session with state := .closed, closed := true }, closing := .marked } := by
  unfold close
  rw [if_neg (by rw [h]; decide)]

theorem effect_close (e : Endpoint) : Effect e e.close [] := by
  cases h : e.session.closed with
  | true => rw [close_of_closed h]; exact Effect.refl e
  | false => rw [close_of_open h]; exact Effect.of_same rfl rfl rfl rfl rfl rfl rfl

theorem Sound.close (h : e.Sound) : e.close.Sound := by
  cases hc : e.session.closed with
  | true => rw [close_of_closed hc]; exact h
  | false =>
    rw [close_of_open hc]
    have hlive := h.live.mp hc
    exact { h with
      live := ⟨(nomatch ·), (nomatch ·)⟩
      state := rfl
      registered := by rw [h.registered, hlive]; rfl
      shut := ⟨fun hs => (by rw [h.shut.mp hs] at hlive; cases hlive), (nomatch ·)⟩
      writer := fun _ => rfl
      silenced := by rintro (h | h | h) <;> cases h }

theorem effect_turn (e : Endpoint) : Effect e e.turn [] := by
  unfold Endpoint.turn
  split
  · exact Effect.refl e
  · rename_i p rest hw
    split
    · exact Effect.refl e
    · rename_i hfree
      split
      · exact Effect.of_same rfl rfl rfl rfl rfl rfl rfl
      · rw [Bool.or_eq_true, not_or, Bool.not_eq_true] at hfree
        have hsending : e.sending = [] := by simpa [Writer.locked, sending] using hfree.1
        obtain ⟨b, hw', hsize, -, -⟩ := Writer.write_spec hfree.1 rest
        refine ⟨⟨(e.session.writer.write rest).2, rfl, ?_⟩, ?_, rfl, Nat.le_refl _⟩
        · show e.sending ++ _ = [] ++ (e.session.writer.write rest).1.sending
          rw [hsending, hw']
        · show (e.session.writer.write rest).1.buf.wsize +
            (e.session.writer.write rest).1.sending.length + 0 ≤ _
          rw [hw', hsending]
          exact Nat.le_of_eq hsize

theorem effect_finish (e : Endpoint) : Effect e e.finish [] := by
  unfold Endpoint.finish
  split
  · split
    · exact Effect.refl e
    · exact Effect.of_same rfl rfl rfl rfl rfl rfl rfl
  · exact Effect.refl e

theorem effect_transmit (e : Endpoint) : Effect e (e.step .transmit).1 (e.step .transmit).2 := by
  simp only [step, framed, Session.transmit, Writer.transmit]
  split
  · exact Effect.refl e
  · refine ⟨⟨[], (append_nil _).symm, ?_⟩, ?_, rfl, Nat.le_refl _⟩
    · show e.sending ++ [] = e.sending.take maxPayloadSize ++ [] ++ e.sending.drop maxPayloadSize
      rw [append_nil, append_nil, take_append_drop]
    · show e.credit + (e.sending.drop maxPayloadSize).length +
        (e.sending.take maxPayloadSize ++ []).length ≤ _
      rw [append_nil, length_drop, length_take]
      omega

section

variable (h : e.Sound)
include h

theorem effect_read (n : ℕ) : Effect e (e.read n).1 (e.read n).2 := by
  obtain ⟨-, -, -, hbytes, hgrant⟩ := Reader.read_none h.next n
  have hheld : e.held = (e.session.reader.read n).1 ++ (e.read n).1.held := hbytes
  have hread : (e.read n).1.session.received = e.session.received ++ (e.session.reader.read n).1 := rfl
  have hfs : (e.read n).2 =
      ((e.session.reader.read n).2.1.map fun g => (g.1, Frame.read g.2)).toList.map Prod.snd := rfl
  have hframes : dataOn (e.read n).2 = [] ∧ readsOn (e.read n).2 ≤ (e.session.reader.read n).1.length := by
    rw [hfs]
    cases hg : (e.session.reader.read n).2.1 with
    | none => exact ⟨rfl, Nat.zero_le _⟩
    | some g => exact ⟨rfl, by rw [← hgrant g.1 g.2 hg]; exact Nat.le_refl _⟩
  refine ⟨⟨[], (append_nil _).symm, ?_⟩, ?_, ?_, ?_⟩
  · rw [hframes.1, append_nil]
    rfl
  · rw [hframes.1]
    exact Nat.le_refl _
  · rw [hread, hheld, append_assoc]
  · rw [hheld, length_append]
    omega

/-- **One step of a node.** -/
theorem effect_step (o : Act) : Effect e (e.step o).1 (e.step o).2 := by
  cases o with
  | call p =>
    simp only [step]
    split
    · exact Effect.refl e
    · exact Effect.of_same rfl rfl rfl rfl rfl rfl rfl
  | turn => exact effect_turn e
  | transmit => exact effect_transmit e
  | finish => exact effect_finish e
  | read n =>
    simp only [step]
    split
    · exact Effect.refl e
    · exact effect_read h n
  | close => exact effect_close e
  | unhook | emit =>
    simp only [step]
    split
    · exact Effect.of_same rfl rfl rfl rfl rfl rfl rfl
    · exact Effect.refl e
  | shut =>
    simp only [step]
    split
    · split <;> exact Effect.of_same rfl rfl rfl rfl rfl rfl rfl
    · exact Effect.refl e
  | drain =>
    simp only [step]
    split
    · refine Effect.of_same rfl rfl rfl rfl ?_ rfl rfl
      show e.session.reader.close.current.bytes = _
      rw [(Reader.close_none h.next).2, InputBuffer.bytes_close]
      rfl
    · exact Effect.refl e

theorem Sound.closed_of_ne (hne : e.closing ≠ .live) : e.session.closed = true := by
  rw [← Bool.not_eq_false, h.live]
  exact hne

theorem Sound.turn : e.turn.Sound := by
  unfold Endpoint.turn
  split
  · exact h
  · rename_i p rest hw
    refine Trace.unless_keeps h fun hfree => ?_
    rw [Bool.or_eq_true, not_or, Bool.not_eq_true] at hfree
    have hsending : e.sending = [] := by simpa [Writer.locked, sending] using hfree.1
    split
    · exact { h with idle := fun _ => hsending }
    · rename_i hopen
      obtain ⟨b, hw', -, -, -⟩ := Writer.write_spec hfree.1 rest
      exact { h with
        writer := by
          intro hc
          have hc' : (e.session.writer.write rest).1.closed = true := hc
          rw [hw'] at hc'
          exact h.writer hc'
        idle := by rintro ⟨⟩
        mute := by
          intro hc
          have hc' : (e.session.writer.write rest).1.closed = true := hc
          rw [hw'] at hc'
          exact absurd hc' hopen
        silenced := fun hcl => absurd (h.silenced hcl) hopen }

theorem Sound.finish : e.finish.Sound := by
  unfold Endpoint.finish
  split
  · split
    · exact h
    · rename_i hfree
      exact { h with idle := fun _ => by simpa [Writer.locked, sending] using hfree }
  · exact h

theorem Sound.read (n : ℕ) : (e.read n).1.Sound := by
  obtain ⟨hnext, hclosed, hsize, -, -⟩ := Reader.read_none h.next n
  exact { h with
    next := hnext
    size := hsize.trans h.size
    shut := by
      show (e.session.reader.read n).2.2.current.closed = true ↔ _
      rw [hclosed]
      exact h.shut }

theorem Sound.transmit : (e.step .transmit).1.Sound := by
  simp only [step, framed, Session.transmit, Writer.transmit]
  split
  · exact h
  · rename_i hs
    exact { h with
      idle := fun hw => by
        have hnil : e.session.writer.sending = [] := h.idle hw
        exact absurd hnil hs
      mute := fun hw => by
        have hnil : e.session.writer.sending = [] := h.mute hw
        exact absurd hnil hs }

theorem Sound.step (o : Act) : (e.step o).1.Sound := by
  cases o with
  | call p =>
    refine Trace.unless_keeps h fun _ => ?_
    exact { h with idle := nofun }
  | turn => exact h.turn
  | transmit => exact h.transmit
  | finish => exact h.finish
  | read n =>
    simp only [Endpoint.step]
    split
    · exact h
    · exact h.read n
  | close => exact h.close
  | unhook =>
    simp only [Endpoint.step]
    split
    · rename_i hm
      have hclosed := h.closed_of_ne (by rw [hm]; exact Closing.noConfusion)
      exact { h with
        live := iff_of_false (by rw [hclosed]; decide) Closing.noConfusion
        registered := by
          show (if e.session.registered = some e.session.onClose then none else e.session.registered) = none
          rw [if_pos (by rw [h.registered, h.onClose, hm]; rfl)]
        shut := iff_of_false (fun hs => by rw [h.shut, hm] at hs; cases hs) Closing.noConfusion
        silenced := by rintro (h | h | h) <;> cases h }
    · exact h
  | shut =>
    simp only [Endpoint.step]
    split
    · rename_i hm
      obtain ⟨hm, hfree⟩ := hm
      have hclosed := h.closed_of_ne (by rw [hm]; exact Closing.noConfusion)
      have hreg : e.session.registered = none := by rw [h.registered, hm]; rfl
      have hopen : e.session.reader.current.closed ≠ true := fun hs => by rw [h.shut, hm] at hs; cases hs
      split
      · rename_i hwc
        exact { h with
          live := iff_of_false (by rw [hclosed]; decide) Closing.noConfusion
          registered := hreg
          shut := iff_of_false hopen Closing.noConfusion
          silenced := fun _ => hwc }
      · exact { h with
          live := iff_of_false (by rw [hclosed]; decide) Closing.noConfusion
          registered := hreg
          shut := iff_of_false hopen Closing.noConfusion
          writer := fun _ => hclosed
          mute := fun _ => by simpa [Writer.locked, sending] using hfree
          silenced := fun _ => rfl }
    · exact h
  | emit =>
    simp only [Endpoint.step]
    split
    · rename_i hm
      have hclosed := h.closed_of_ne (by rw [hm]; exact Closing.noConfusion)
      exact { h with
        live := iff_of_false (by rw [hclosed]; decide) Closing.noConfusion
        registered := by rw [h.registered, hm]; rfl
        shut := iff_of_false (fun hs => by rw [h.shut, hm] at hs; cases hs) Closing.noConfusion
        writer := fun _ => hclosed
        silenced := fun _ => h.silenced (.inl hm) }
    · exact h
  | drain =>
    simp only [Endpoint.step]
    split
    · rename_i hm
      have hclosed := h.closed_of_ne (by rw [hm]; exact Closing.noConfusion)
      obtain ⟨hnext, hcur⟩ := Reader.close_none h.next
      exact { h with
        next := hnext
        size := by
          rw [hcur, InputBuffer.size_close]
          exact h.size
        live := iff_of_false (by rw [hclosed]; decide) Closing.noConfusion
        registered := by rw [h.registered, hm]; rfl
        shut := iff_of_true (by
          rw [hcur, InputBuffer.closed_close]) rfl
        silenced := fun _ => h.silenced (.inr (.inl hm)) }
    · exact h

end

/-- A step sends one frame at most: a `Data` frame of a `Write`, a `Read` frame, or the `Reset` of a
`Close`. -/
theorem step_frames (e : Endpoint) (o : Act) :
    (e.step o).2 = [] ∨
      (∃ p, (e.step o).2 = [.data p] ∧ 0 < p.length ∧ p.length ≤ maxPayloadSize ∧ e.sending ≠ []) ∨
      (∃ n, (e.step o).2 = [.read n]) ∨ (e.step o).2 = [.reset] ∧ o = .emit ∧ e.closing = .resetting := by
  cases o with
  | transmit =>
    simp only [step, framed, Session.transmit, Writer.transmit]
    split
    · exact .inl rfl
    · rename_i hs
      have hpos : 0 < e.session.writer.sending.length := length_pos_iff.mpr hs
      refine .inr (.inl ⟨_, rfl, ?_, ?_, hs⟩)
      · rw [length_take]
        exact Nat.lt_min.mpr ⟨by decide, hpos⟩
      · rw [length_take]
        exact Nat.min_le_left ..
  | read n =>
    simp only [step]
    split
    · exact .inl rfl
    · simp only [read, framed, Session.read]
      cases (e.session.reader.read n).2.1 with
      | none => exact .inl rfl
      | some g => exact .inr (.inr (.inl ⟨g.2, rfl⟩))
  | emit =>
    simp only [step]
    split
    · rename_i hm
      exact .inr (.inr (.inr ⟨rfl, trivial, hm⟩))
    · exact .inl rfl
  | call | turn | finish | close => exact .inl rfl
  | unhook | drain => simp only [step]; split <;> exact .inl rfl
  | shut =>
    simp only [step]
    split
    · split <;> exact .inl rfl
    · exact .inl rfl

theorem step_single (e : Endpoint) (o : Act) : (e.step o).2 = [] ∨ ∃ f, (e.step o).2 = [f] := by
  rcases e.step_frames o with hnil | ⟨p, hp, -⟩ | ⟨n, hn⟩ | ⟨hr, -⟩
  · exact .inl hnil
  · exact .inr ⟨_, hp⟩
  · exact .inr ⟨_, hn⟩
  · exact .inr ⟨_, hr⟩

theorem Sound.closed_of_reset (h : e.Sound) (hmem : .reset ∈ (e.step o).2) : e.session.closed = true := by
  rcases e.step_frames o with hnil | ⟨p, hp, -⟩ | ⟨n, hn⟩ | ⟨-, -, hcl⟩
  · rw [hnil] at hmem
    cases hmem
  · rw [hp] at hmem
    cases mem_singleton.mp hmem
  · rw [hn] at hmem
    cases mem_singleton.mp hmem
  · exact h.closed_of_ne (by rw [hcl]; exact Closing.noConfusion)

/-- The steps other than those of `Close` leave its progress alone, and the marks of the session and the writer. -/
theorem closing_step (e : Endpoint) (ho : o.closes = false) : (e.step o).1.closing = e.closing ∧
    (e.step o).1.session.writer.closed = e.session.writer.closed ∧
      (e.step o).1.session.closed = e.session.closed := by
  cases o with
  | call | read => simp only [step]; split <;> exact ⟨rfl, rfl, rfl⟩
  | turn =>
    simp only [step, turn]
    split
    · exact ⟨rfl, rfl, rfl⟩
    · rename_i p rest hw
      split
      · exact ⟨rfl, rfl, rfl⟩
      · rename_i hfree
        rw [Bool.or_eq_true, not_or, Bool.not_eq_true] at hfree
        split
        · exact ⟨rfl, rfl, rfl⟩
        · obtain ⟨b, hw', -, -, -⟩ := Writer.write_spec hfree.1 rest
          refine ⟨rfl, ?_, rfl⟩
          rw [hw']
  | finish =>
    simp only [step, finish]
    split
    · split <;> exact ⟨rfl, rfl, rfl⟩
    · exact ⟨rfl, rfl, rfl⟩
  | transmit =>
    refine ⟨rfl, ?_, rfl⟩
    show e.session.writer.transmit.1.closed = _
    unfold Writer.transmit
    split <;> rfl
  | close | unhook | shut | emit | drain => cases ho

theorem closed_step (e : Endpoint) (ho : o ≠ .close) : (e.step o).1.session.closed = e.session.closed := by
  cases o with
  | close => exact absurd rfl ho
  | call | turn | finish | transmit | read => exact (closing_step e rfl).2.2
  | unhook | emit | drain => simp only [step]; split <;> rfl
  | shut =>
    simp only [step]
    split
    · split <;> rfl
    · rfl

theorem closed_close (e : Endpoint) : e.close.session.closed = true := by
  cases h : e.session.closed with
  | true => rw [close_of_closed h, h]
  | false => rw [close_of_open h]

/-- A closed session takes no further `Write`. -/
theorem writing_step (hc : e.session.closed = true) (hw : e.writing = none) (o : Act) :
    (e.step o).1.writing = none := by
  cases o with
  | call p => simp only [step, hc, Bool.true_or, if_true]; exact hw
  | turn => simp only [step, turn, hw]
  | finish => simp only [step, finish, hw]
  | transmit => exact hw
  | close => rw [step, close_of_closed hc]; exact hw
  | read | unhook | emit | drain => simp only [step]; split <;> exact hw
  | shut =>
    simp only [step]
    split
    · split <;> exact hw
    · exact hw

/-- A writer that is closed by now was closed before, or its `Reset` is still to be sent. -/
theorem writer_step (hs : e.Sound) (h : (e.step o).1.session.writer.closed = true) :
    (e.step o).1.closing = .resetting ∨ .reset ∈ (e.step o).2 ∨
      e.session.writer.closed = true ∧ e.closing ≠ .resetting := by
  have hsame : (e.step o).1.closing = e.closing →
      (e.step o).1.session.writer.closed = e.session.writer.closed →
      (e.step o).1.closing = .resetting ∨ .reset ∈ (e.step o).2 ∨
        e.session.writer.closed = true ∧ e.closing ≠ .resetting := by
    intro hcl hwc
    by_cases hr : e.closing = .resetting
    · exact .inl (hcl.trans hr)
    · exact .inr (.inr ⟨hwc ▸ h, hr⟩)
  cases o with
  | close =>
    simp only [step] at h ⊢
    cases hc : e.session.closed with
    | true =>
      rw [close_of_closed hc] at h ⊢
      by_cases hr : e.closing = .resetting
      · exact .inl hr
      · exact .inr (.inr ⟨h, hr⟩)
    | false =>
      rw [close_of_open hc] at h
      rw [hs.writer h] at hc
      cases hc
  | unhook =>
    by_cases hm : e.closing = .marked
    · simp only [step, if_pos hm] at h ⊢
      exact .inr (.inr ⟨h, by rw [hm]; exact Closing.noConfusion⟩)
    · exact hsame (by simp only [step, if_neg hm]) (by simp only [step, if_neg hm])
  | shut =>
    by_cases hm : e.closing = .unhooked ∧ e.session.writer.locked = false
    · simp only [step, if_pos hm]
      split
      · rename_i hwc
        exact .inr (.inr ⟨hwc, by rw [hm.1]; exact Closing.noConfusion⟩)
      · exact .inl rfl
    · exact hsame (by simp only [step, if_neg hm]) (by simp only [step, if_neg hm])
  | emit =>
    by_cases hm : e.closing = .resetting
    · simp only [step, if_pos hm]
      exact .inr (.inl mem_cons_self)
    · exact hsame (by simp only [step, if_neg hm]) (by simp only [step, if_neg hm])
  | drain =>
    by_cases hm : e.closing = .draining
    · simp only [step, if_pos hm] at h ⊢
      exact .inr (.inr ⟨h, by rw [hm]; exact Closing.noConfusion⟩)
    · exact hsame (by simp only [step, if_neg hm]) (by simp only [step, if_neg hm])
  | call | turn | finish | transmit | read =>
    exact hsame (closing_step e rfl).1 (closing_step e rfl).2.1

theorem done_step (hs : e.Sound) (h : e.closing = .done) (o : Act) : (e.step o).1.closing = .done := by
  cases o with
  | close =>
    rw [step, close_of_closed (hs.closed_of_ne (by rw [h]; exact Closing.noConfusion))]
    exact h
  | unhook | shut | emit | drain => simp only [step, h, reduceCtorEq, false_and, if_false]
  | call | turn | finish | transmit | read =>
    exact (closing_step e rfl).1.trans h

/-- A `Read` that has returned `io.EOF` found a closed and empty buffer. -/
theorem eof_step (h : (e.step o).1.eof = true) :
    e.eof = true ∨ e.session.reader.current.closed = true ∧ e.held = [] := by
  cases o with
  | read n =>
    simp only [step] at h
    split at h
    · exact .inl h
    · have h' : (e.eof || ended e.session.reader n) = true := h
      rw [Bool.or_eq_true] at h'
      rcases h' with h' | h'
      · exact .inl h'
      · unfold ended at h'
        split at h'
        · rename_i heof
          obtain ⟨hclosed, hused⟩ := InputBuffer.read_eof heof
          exact .inr ⟨hclosed, InputBuffer.bytes_eq_nil hused⟩
        · cases h'
  | call | unhook | emit | drain => simp only [step] at h; split at h <;> exact .inl h
  | turn =>
    simp only [step, turn] at h
    split at h
    · exact .inl h
    · split at h
      · exact .inl h
      · split at h <;> exact .inl h
  | finish =>
    simp only [step, finish] at h
    split at h
    · split at h <;> exact .inl h
    · exact .inl h
  | transmit => exact .inl h
  | close =>
    simp only [step, close] at h
    split at h <;> exact .inl h
  | shut =>
    simp only [step] at h
    split at h
    · split at h <;> exact .inl h
    · exact .inl h

/-- A `Write` has taken what it was given, but for the rest. -/
def Tally (e : Endpoint) : Prop :=
  match e.writing with
  | none => e.session.written = e.calls.flatten
  | some (p, rest) => e.session.written ++ rest = e.calls.flatten ++ p

/-- The account of `Write` is kept by a node that does not close in the middle of one. -/
theorem Tally.step (h : e.Tally) (ho : e.session.writer.closed = true → e.writing = none) (o : Act) :
    (e.step o).1.Tally := by
  cases o with
  | call p =>
    refine Trace.unless_keeps h fun hn => ?_
    rw [Bool.or_eq_true, not_or, Bool.not_eq_true, Bool.not_eq_true, Option.isSome_eq_false_iff,
      Option.isNone_iff_eq_none] at hn
    unfold Tally at h
    rw [hn.2] at h
    show e.session.written ++ p = e.calls.flatten ++ p
    rw [h]
  | turn =>
    simp only [Endpoint.step, Endpoint.turn]
    split
    · exact h
    · rename_i p rest hw
      refine Trace.unless_keeps h fun hfree => ?_
      rw [Bool.or_eq_true, not_or, Bool.not_eq_true] at hfree
      split
      · rename_i hc
        rw [ho hc] at hw
        cases hw
      · obtain ⟨b, -, -, -, hpre⟩ := Writer.write_spec hfree.1 rest
        unfold Tally at h
        rw [hw] at h
        show (e.session.written ++ (e.session.writer.write rest).2) ++
          rest.drop (e.session.writer.write rest).2.length = e.calls.flatten ++ p
        rw [append_assoc, prefix_iff_eq_append.mp hpre]
        exact h
  | finish =>
    simp only [Endpoint.step, Endpoint.finish]
    split
    · rename_i p hw
      split
      · exact h
      · unfold Tally at h
        rw [hw] at h
        show e.session.written = (e.calls ++ [p]).flatten
        rw [flatten_append, flatten_singleton, ← h]
        exact (append_nil _).symm
    · exact h
  | transmit => exact h
  | close =>
    cases hc : e.session.closed with
    | true => rw [Endpoint.step, close_of_closed hc]; exact h
    | false => rw [Endpoint.step, close_of_open hc]; exact h
  | read | unhook | emit | drain => simp only [Endpoint.step]; split <;> exact h
  | shut =>
    simp only [Endpoint.step]
    split
    · split <;> exact h
    · exact h

/-- What handling a frame does to a node and its streams. -/
structure Handled (e e' : Endpoint) (f : Frame) (fs : List Frame) : Prop where
  written : e'.session.written = e.session.written
  sending : e'.sending = e.sending
  credit : e'.credit ≤ e.credit + f.granted
  received : e'.session.received = e.session.received
  reply : fs = [] ∨ fs = [.reset] ∧ e.session.closed = true
  /-- A payload that fits is kept, and the session stays open unless the frame is a `Reset`. -/
  opened : e.session.closed = false → e.held.length + f.payload.length ≤ defaultBufferSize →
    e'.held = e.held ++ f.payload ∧ (f ≠ .reset → e'.session.closed = false)
  closed : e.session.closed = true → e'.held = e.held ∧ e'.session.closed = true ∧ e'.closing = e.closing
  reset : f = .reset → e'.session.closed = true
  writer : e'.session.writer.closed = true → e.session.writer.closed = true ∨ f = .reset
  calls : e'.writing = e.writing ∧ e'.calls = e.calls ∧ e'.eof = e.eof

/-- A frame that is dropped, with a `Reset` in reply or without. -/
theorem Handled.of_same {f : Frame} (hreply : fs = [] ∨ fs = [.reset] ∧ e.session.closed = true)
    (hopen : e.session.closed = false → f.payload = []) (hreset : f = .reset → e.session.closed = true) :
    Handled e e f fs where
  written := rfl
  sending := rfl
  credit := Nat.le_add_right _ _
  received := rfl
  reply := hreply
  opened := fun hc _ => ⟨by rw [hopen hc, append_nil], fun _ => hc⟩
  closed := fun hc => ⟨rfl, hc, rfl⟩
  reset := hreset
  writer := .inl
  calls := ⟨rfl, rfl, rfl⟩

/-- The reply to a frame carries no bytes and grants no credit. -/
theorem Handled.silent {f : Frame} (h : Handled e e' f fs) : dataOn fs = [] ∧ readsOn fs = 0 := by
  rcases h.reply with hr | ⟨hr, -⟩
  · rw [hr]
    exact ⟨rfl, rfl⟩
  · rw [hr]
    exact ⟨rfl, rfl⟩

theorem registered_of_open (h : e.Sound) (hc : e.session.closed = false) :
    e.session.registered = some .first := by
  rw [h.registered, h.live.mp hc]
  rfl

theorem handle_data {p : List Byte} (h : e.Sound) (hh : e.handle (.data p) = some (e', fs)) :
    e'.Sound ∧ Handled e e' (.data p) fs := by
  simp only [handle] at hh
  cases hc : e.session.closed with
  | true =>
    have hst : e.session.state = .closed := by rw [h.state, hc]; rfl
    have hres : (e', fs) = (e, [.reset]) := by
      rw [hst] at hh
      split at hh
      · exact (Option.some.inj hh).symm
      · exact (Option.some.inj hh).symm
    cases hres
    exact ⟨h, Handled.of_same (.inr ⟨rfl, hc⟩) (fun hn => by rw [hc] at hn; cases hn) fun _ => hc⟩
  | false =>
    have hst : e.session.state = .open := by rw [h.state, hc]; rfl
    rw [if_neg (not_not.mpr (registered_of_open h hc)), if_neg (fun hn => hn.1 hst),
      Reader.push_none h.next] at hh
    cases hp : e.session.reader.current.push p with
    | ok b =>
      obtain ⟨hopen, hbopen, hbsize, -, hbbytes⟩ := InputBuffer.push_ok hp
      rw [hp] at hh
      cases hh
      have hcur : (e.session.reader.setInput e.session.reader.buf b).current = b :=
        Reader.current_setInput_buf _ b
      refine ⟨{ h with next := h.next, size := ?_, shut := ?_ }, ?_⟩
      · rw [hcur, hbsize]
        exact h.size
      · rw [hcur, hbopen, ← hopen]
        exact h.shut
      · refine ⟨rfl, rfl, Nat.le_add_right _ _, rfl, .inl rfl, fun _ _ => ⟨?_, fun _ => hc⟩, fun hn => ?_,
          Frame.noConfusion, .inl, rfl, rfl, rfl⟩
        · show (e.session.reader.setInput e.session.reader.buf b).current.bytes = _
          rw [hcur, hbbytes]
          rfl
        · rw [hc] at hn
          cases hn
    | error err =>
      rw [hp] at hh
      have hres : (e', fs) = (e.close, []) := (Option.some.inj hh).symm
      cases hres
      refine ⟨h.close, ?_⟩
      rw [close_of_open hc]
      refine ⟨rfl, rfl, Nat.le_add_right _ _, rfl, .inl rfl, fun _ hfits => ?_, fun hn => ?_,
        Frame.noConfusion, .inl, rfl, rfl, rfl⟩
      · have hnshut : e.session.reader.current.closed = false := by
          rw [← Bool.not_eq_true, h.shut, h.live.mp hc]
          exact Closing.noConfusion
        obtain ⟨b, hb⟩ := InputBuffer.push_open (p := p) hnshut
          (by rw [h.size, ← InputBuffer.length_bytes]; exact hfits)
        rw [hb] at hp
        cases hp
      · rw [hc] at hn
        cases hn

theorem closed_of_unregistered (h : e.Sound) (hr : e.session.registered ≠ some .first) :
    e.session.closed = true := by
  rw [← Bool.not_eq_false]
  exact fun hc => hr (registered_of_open h hc)

theorem handle_read {n : ℕ} (h : e.Sound) (hh : e.handle (.read n) = some (e', fs)) :
    e'.Sound ∧ Handled e e' (.read n) fs := by
  simp only [handle, Session.handleRead] at hh
  split at hh
  · rename_i hr
    have hc := closed_of_unregistered h hr
    cases hh
    exact ⟨h, Handled.of_same (.inr ⟨rfl, hc⟩) (fun _ => rfl) Frame.noConfusion⟩
  · split at hh
    · cases hh
    · cases hh
      refine ⟨{ h with }, rfl, rfl, Nat.le_refl _, rfl, .inl rfl, fun hc _ => ?_, fun hc => ⟨rfl, hc, rfl⟩,
        Frame.noConfusion, .inl, rfl, rfl, rfl⟩
      exact ⟨(append_nil _).symm, fun _ => hc⟩

theorem peerClose_spec (w : Writer) : w.peerClose.closed = true ∧ w.peerClose.sending = w.sending ∧
    w.peerClose.buf.wsize = w.buf.wsize := by
  unfold Writer.peerClose
  split
  · rename_i hc
    exact ⟨hc, rfl, rfl⟩
  · exact ⟨rfl, rfl, rfl⟩

/-- `handleReset` closes a session that is registered and drops the frame otherwise. -/
theorem handle_reset_cases (hh : e.handle .reset = some (e', fs)) :
    fs = [] ∧ (e.session.registered ≠ some .first ∧ e' = e ∨
      e.sending = [] ∧ e' = (e.setWriter e.session.writer.peerClose).close) := by
  simp only [handle] at hh
  split at hh
  · rename_i hr
    cases hh
    exact ⟨rfl, .inl ⟨hr, rfl⟩⟩
  · split at hh
    · cases hh
    · rename_i hfree
      have hres : (e', fs) = (_, []) := (Option.some.inj hh).symm
      cases hres
      exact ⟨rfl, .inr ⟨by simpa [Writer.locked, sending] using hfree, rfl⟩⟩

theorem handle_reset (h : e.Sound) (hh : e.handle .reset = some (e', fs)) :
    e'.Sound ∧ Handled e e' .reset fs := by
  obtain ⟨rfl, ⟨hr, rfl⟩ | ⟨hnil, rfl⟩⟩ := handle_reset_cases hh
  · exact ⟨h, Handled.of_same (.inl rfl) (fun _ => rfl) fun _ => closed_of_unregistered h hr⟩
  obtain ⟨hwc, hws, hww⟩ := peerClose_spec e.session.writer
  cases hc : e.session.closed with
  | true =>
    rw [close_of_closed (e := e.setWriter e.session.writer.peerClose) hc]
    refine ⟨{ h with
      writer := fun _ => hc
      idle := fun _ => hws.trans hnil
      mute := fun _ => hws.trans hnil
      silenced := fun _ => hwc }, rfl, hws, ?_, rfl, .inl rfl, fun hn => ?_, fun _ => ⟨rfl, hc, rfl⟩,
      fun _ => hc, fun _ => .inr rfl, rfl, rfl, rfl⟩
    · exact Nat.le_of_eq hww
    · rw [hc] at hn
      cases hn
  | false =>
    rw [close_of_open (e := e.setWriter e.session.writer.peerClose) hc]
    have hlive := h.live.mp hc
    have hreg := registered_of_open h hc
    refine ⟨?_, rfl, hws, Nat.le_of_eq hww, rfl, .inl rfl, fun _ _ => ⟨(append_nil _).symm, ?_⟩, fun hn => ?_,
      fun _ => rfl, fun _ => .inr rfl, rfl, rfl, rfl⟩
    · exact { h with
        live := ⟨(nomatch ·), (nomatch ·)⟩
        state := rfl
        registered := hreg
        shut := ⟨fun hs => (by rw [h.shut.mp hs] at hlive; cases hlive), (nomatch ·)⟩
        writer := fun _ => rfl
        idle := fun _ => hws.trans hnil
        mute := fun _ => hws.trans hnil
        silenced := fun _ => hwc }
    · exact fun hne => absurd rfl hne
    · rw [hc] at hn
      cases hn

theorem handle_migrate (h : e.Sound) (hh : e.handle .migrate = some (e', fs)) :
    e'.Sound ∧ Handled e e' .migrate fs := by
  have hst : e.session.state ≠ .migrating := by
    rw [h.state]
    split <;> exact SessionState.noConfusion
  have hres : some (e', fs) = some (e, []) := by
    rw [← hh]
    simp only [handle, Session.handleMigrate, if_pos hst]
    split <;> rfl
  cases hres
  exact ⟨h, Handled.of_same (.inl rfl) (fun _ => rfl) Frame.noConfusion⟩

/-- **One frame handled.** -/
theorem handle_spec {f : Frame} (h : e.Sound) (hh : e.handle f = some (e', fs)) :
    e'.Sound ∧ Handled e e' f fs := by
  cases f with
  | data p => exact handle_data h hh
  | read n => exact handle_read h hh
  | reset => exact handle_reset h hh
  | migrate => exact handle_migrate h hh

/-! ## Closed writers -/

theorem muted_step (h : e.session.writer.closed = true) (o : Act) :
    (e.step o).1.session.writer.closed = true := by
  cases o with
  | close => simp only [step, close]; split <;> exact h
  | unhook | emit | drain => simp only [step]; split <;> exact h
  | shut => simp only [step, if_pos h]; split <;> exact h
  | call | turn | finish | transmit | read => exact (closing_step e rfl).2.1.trans h

theorem muted_handle {f : Frame} (h : e.session.writer.closed = true) (hh : e.handle f = some (e', fs)) :
    e'.session.writer.closed = true := by
  cases f with
  | data p =>
    simp only [handle] at hh
    split at hh
    · cases hh
      exact h
    · split at hh
      · cases hh
        exact h
      · split at hh
        · cases hh
          exact h
        · have hres : (e', fs) = (e.close, []) := (Option.some.inj hh).symm
          cases hres
          exact muted_step h .close
  | read n =>
    simp only [handle, Session.handleRead] at hh
    split at hh
    · cases hh
      exact h
    · split at hh
      · cases hh
      · cases hh
        exact h
  | reset =>
    obtain ⟨-, ⟨-, rfl⟩ | ⟨-, rfl⟩⟩ := handle_reset_cases hh
    · exact h
    · exact muted_step (peerClose_spec e.session.writer).1 .close
  | migrate =>
    simp only [handle, Session.handleMigrate] at hh
    split at hh
    · cases hh
      exact h
    · split at hh
      · cases hh
        exact h
      · cases hh
        exact h

theorem no_data (h : e.sending = []) (o : Act) : dataOn (e.step o).2 = [] := by
  rcases e.step_frames o with hnil | ⟨p, -, -, -, hne⟩ | ⟨n, hn⟩ | ⟨hr, -⟩
  · rw [hnil]
    rfl
  · exact absurd h hne
  · rw [hn]
    rfl
  · rw [hr]
    rfl

/-! ## What a node can always do -/

/-- A frame waits for the lock of the writer only. -/
theorem handle_free (hfree : e.sending = []) (f : Frame) : ∃ r, e.handle f = some r := by
  have hlock : e.session.writer.locked = false := by
    unfold Writer.locked
    rw [show e.session.writer.sending = [] from hfree]
    rfl
  cases f with
  | data p =>
    simp only [handle]
    split
    · exact ⟨_, rfl⟩
    · split
      · exact ⟨_, rfl⟩
      · split <;> exact ⟨_, rfl⟩
  | read n =>
    simp only [handle, Session.handleRead, hlock]
    split <;> exact ⟨_, rfl⟩
  | reset =>
    simp only [handle, hlock]
    split <;> exact ⟨_, rfl⟩
  | migrate =>
    simp only [handle, Session.handleMigrate]
    split
    · exact ⟨_, rfl⟩
    · split <;> exact ⟨_, rfl⟩

def closeRest (e : Endpoint) : Endpoint :=
  ((((e.step .unhook).1.step .shut).1.step .emit).1.step .drain).1

theorem closing_closeRest (hs : e.Sound) (hc : e.session.closed = true) (hfree : e.sending = []) :
    e.closeRest.closing = .done := by
  have hlock : e.session.writer.locked = false := by
    unfold Writer.locked
    rw [show e.session.writer.sending = [] from hfree]
    rfl
  unfold closeRest
  cases hcl : e.closing with
  | live =>
    rw [hs.live.mpr hcl] at hc
    cases hc
  | marked | unhooked => cases hw : e.session.writer.closed <;> simp [step, hcl, hlock, hw]
  | resetting | draining | done => simp [step, hcl]

theorem length_transmit (e : Endpoint) :
    (e.step .transmit).1.sending.length = e.sending.length - maxPayloadSize := by
  show e.session.writer.transmit.1.sending.length = e.session.writer.sending.length - _
  unfold Writer.transmit
  split
  · rename_i hnil
    rw [hnil]
    rfl
  · exact length_drop ..

end Endpoint

inductive End
  | a
  | b
  deriving DecidableEq, Repr

structure System where
  a : Endpoint
  b : Endpoint
  toA : List Frame
  toB : List Frame
  /-- All frames that `a` has sent. -/
  sent : List Frame

inductive Op
  | act (x : End) (o : Act)
  | deliver (x : End)

namespace System

def start : System := ⟨.opened, .opened, [], [], []⟩

def put (s : System) (x : End) (r : Endpoint × List Frame) : System :=
  match x with
  | .a => { s with a := r.1, toB := s.toB ++ r.2, sent := s.sent ++ r.2 }
  | .b => { s with b := r.1, toA := s.toA ++ r.2 }

def deliver (s : System) : End → System
  | .a =>
    match s.toA with
    | [] => s
    | f :: fs =>
      match s.a.handle f with
      | none => s
      | some r => { s with toA := fs }.put .a r
  | .b =>
    match s.toB with
    | [] => s
    | f :: fs =>
      match s.b.handle f with
      | none => s
      | some r => { s with toB := fs }.put .b r

def step (s : System) : Op → System
  | .act .a o => s.put .a (s.a.step o)
  | .act .b o => s.put .b (s.b.step o)
  | .deliver x => s.deliver x

def exec : List Op → System := Trace.exec step start

end System

end Astrald.Nodes.Link
