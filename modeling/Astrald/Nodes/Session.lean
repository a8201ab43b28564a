import Astrald.Nodes.Buffers

/-!
# A mux session

The model of `session.go`, `mux_session_writer.go` and of the frame handlers of `mux.go`, for the
one session that is migrated. `registered` is the mux, named by its link, whose `sessions` map
holds the session; frames carry no nonce because there is one session.

The writer holds its lock while the bytes taken from the credit go out chunk by chunk: `sending`
is what is left of them. Every call that needs that lock waits, which is a step not taken.
`written` and `received` are histories: what `Write` took and what `Read` returned.
-/

namespace Astrald.Nodes

inductive Frame
  | data (payload : List Byte)
  | read (len : ℕ)
  | reset
  | migrate
  deriving DecidableEq, Repr

namespace Frame

def payload : Frame → List Byte
  | .data p => p
  | _ => []

def granted : Frame → ℕ
  | .read n => n
  | _ => 0

end Frame

def dataOn (w : List Frame) : List Byte := (w.map Frame.payload).flatten

def readsOn (w : List Frame) : ℕ := (w.map Frame.granted).sum

@[simp] theorem dataOn_nil : dataOn [] = [] := rfl

@[simp] theorem dataOn_cons (f : Frame) (w : List Frame) : dataOn (f :: w) = f.payload ++ dataOn w := rfl

@[simp] theorem dataOn_append (w v : List Frame) : dataOn (w ++ v) = dataOn w ++ dataOn v := by
  simp [dataOn]

@[simp] theorem readsOn_nil : readsOn [] = 0 := rfl

@[simp] theorem readsOn_cons (f : Frame) (w : List Frame) : readsOn (f :: w) = f.granted + readsOn w := rfl

@[simp] theorem readsOn_append (w v : List Frame) : readsOn (w ++ v) = readsOn w + readsOn v := by
  simp [readsOn]

inductive SessionState
  | routing
  | open
  | migrating
  | closed
  deriving DecidableEq, Repr

/-! ## The session writer -/

/-- `muxSessionWriter`. `reset` names the link on which `Close` sends its `Reset` frame. -/
structure Writer where
  closed : Bool
  paused : Bool
  buf : OutputBuffer
  reset : LinkID
  sending : List Byte
  deriving DecidableEq, Repr

namespace Writer

def new (buf : OutputBuffer) (reset : LinkID) : Writer := ⟨false, false, buf, reset, []⟩

def locked (w : Writer) : Bool := w.sending ≠ []

def pause (w : Writer) : Writer := { w with paused := true }

def resume (w : Writer) : Writer := { w with paused := false }

def grow (w : Writer) (n : ℕ) : Writer := { w with buf := w.buf.grow n }

def swapBuf (w : Writer) (buf : OutputBuffer) (reset : LinkID) : Writer := { w with buf, reset }

def close (w : Writer) : Writer × Option (LinkID × Frame) :=
  if w.closed then (w, none)
  else ({ w with closed := true, buf := w.buf.close }, some (w.reset, .reset))

def peerClose (w : Writer) : Writer :=
  if w.closed then w else { w with closed := true, buf := w.buf.close }

/-- The part of one turn of the loop in `Write` that takes credit; the rest of `p` is for the
next turn. -/
def write (w : Writer) (p : List Byte) : Writer × List Byte :=
  if w.closed || w.paused || w.locked || p.isEmpty then (w, [])
  else
    match w.buf.write p with
    | .ok (n, b) => ({ w with buf := b, sending := p.take n }, p.take n)
    | .error _ => (w, [])

/-- One turn of the loop in `sessionOnWriteFunc`. -/
def transmit (w : Writer) : Writer × Option (LinkID × Frame) :=
  if w.sending = [] then (w, none)
  else
    ({ w with sending := w.sending.drop maxPayloadSize },
      some (w.buf.link, .data (w.sending.take maxPayloadSize)))

/-- What a turn of `Write` takes: the first bytes of `p`, as many as there was credit used. -/
theorem write_spec {w : Writer} (hfree : w.locked = false) (p : List Byte) :
    ∃ b, (w.write p).1 = { w with buf := b, sending := (w.write p).2 } ∧
      b.wsize + (w.write p).2.length = w.buf.wsize ∧ b.link = w.buf.link ∧ (w.write p).2 <+: p := by
  have hnil : w.sending = [] := by simpa [locked] using hfree
  have hsame : w = { w with buf := w.buf, sending := [] } := by rw [← hnil]
  unfold write
  split
  · exact ⟨w.buf, hsame, rfl, rfl, List.nil_prefix⟩
  · split
    · rename_i n b hb
      obtain ⟨hn, hsize, -, hlink⟩ := OutputBuffer.write_ok hb
      refine ⟨b, rfl, ?_, hlink, List.take_prefix n p⟩
      show b.wsize + (p.take n).length = _
      rw [List.length_take]
      omega
    · exact ⟨w.buf, hsame, rfl, rfl, List.nil_prefix⟩

/-- A turn of `Write` takes nothing, or it finds the writer neither paused nor locked. -/
theorem write_cases (w : Writer) (p : List Byte) :
    w.write p = (w, []) ∨ w.paused = false ∧ w.locked = false ∧ ∃ b,
      (w.write p).1 = { w with buf := b, sending := (w.write p).2 } ∧
      b.wsize + (w.write p).2.length = w.buf.wsize ∧ b.link = w.buf.link ∧ b.closed = w.buf.closed := by
  unfold write
  split
  · exact .inl rfl
  · rename_i hfree
    simp only [Bool.or_eq_true, not_or, Bool.not_eq_true] at hfree
    split
    · rename_i n b hb
      obtain ⟨hn, hsize, hclosed, hlink⟩ := OutputBuffer.write_ok hb
      refine .inr ⟨hfree.1.1.2, hfree.1.2, b, rfl, ?_, hlink, hclosed⟩
      show b.wsize + (p.take n).length = _
      rw [List.length_take]
      omega
    · exact .inl rfl

end Writer

/-! ## The session -/

/-- `session`, with the map entry of the mux it is registered with. `onClose` names the mux whose
entry `Close` deletes. -/
structure Session where
  state : SessionState
  closed : Bool
  onClose : LinkID
  registered : Option LinkID
  reader : Reader
  writer : Writer
  written : List Byte
  received : List Byte

namespace Session

/-- An open session as routing a query leaves it: each side's credit is the other's buffer. -/
def opened (l : LinkID) : Session :=
  { state := .open
    closed := false
    onClose := l
    registered := some l
    reader := Reader.new (InputBuffer.new defaultBufferSize l)
    writer := Writer.new ((OutputBuffer.new l).grow defaultBufferSize) l
    written := []
    received := [] }

def close (s : Session) : Session × Option (LinkID × Frame) :=
  if s.closed then (s, none)
  else
    ({ s with
        state := .closed
        closed := true
        registered := if s.registered = some s.onClose then none else s.registered
        writer := s.writer.close.1
        reader := s.reader.close },
      s.writer.close.2)

/-- `Close` sends no bytes and leaves what is being sent alone. -/
theorem close_fields (s : Session) : s.close.1.closed = true ∧ s.close.1.writer.sending = s.writer.sending ∧
    ∀ g, s.close.2 = some g → g.2 = .reset := by
  unfold close
  split
  · rename_i hc
    exact ⟨hc, rfl, nofun⟩
  · refine ⟨rfl, ?_, ?_⟩
    · show s.writer.close.1.sending = _
      unfold Writer.close
      split <;> rfl
    · show ∀ g, s.writer.close.2 = some g → _
      unfold Writer.close
      split
      · exact nofun
      · intro g hg
        cases hg
        rfl

/-- `Write` by the application, one turn of the writer's loop. -/
def write (s : Session) (p : List Byte) : Session :=
  if s.closed then s
  else { s with writer := (s.writer.write p).1, written := s.written ++ (s.writer.write p).2 }

def transmit (s : Session) : Session × Option (LinkID × Frame) :=
  ({ s with writer := s.writer.transmit.1 }, s.writer.transmit.2)

/-- `Read` by the application, one turn of the reader's loop. -/
def read (s : Session) (n : ℕ) : Session × Option (LinkID × Frame) :=
  let (out, grant, r) := s.reader.read n
  ({ s with reader := r, received := s.received ++ out }, grant.map fun g => (g.1, .read g.2))

/-! ## The frame handlers

Each gives the session left and the frame sent in reply, or `none` while it has to wait for the
writer's lock. -/

def handleData (s : Session) (l : LinkID) (p : List Byte) : Option (Session × Option (LinkID × Frame)) :=
  if s.registered ≠ some l then some (s, some (l, .reset))
  else if s.state ≠ .open ∧ s.state ≠ .migrating then some (s, some (l, .reset))
  else
    match s.reader.push p with
    | .ok r => some ({ s with reader := r }, none)
    | .error _ => if s.writer.locked then none else some s.close

def handleRead (s : Session) (l : LinkID) (n : ℕ) : Option (Session × Option (LinkID × Frame)) :=
  if s.registered ≠ some l then some (s, some (l, .reset))
  else if s.writer.locked then none
  else some ({ s with writer := s.writer.grow n }, none)

def handleReset (s : Session) (l : LinkID) : Option (Session × Option (LinkID × Frame)) :=
  if s.registered ≠ some l then some (s, none)
  else if s.writer.locked then none
  else some ({ s with writer := s.writer.peerClose }.close)

def handleMigrate (s : Session) (l : LinkID) : Option (Session × Option (LinkID × Frame)) :=
  if s.registered ≠ some l then some (s, none)
  else if s.state ≠ .migrating then some (s, none)
  else some ({ s with reader := s.reader.advance }, none)

def handle (s : Session) (l : LinkID) : Frame → Option (Session × Option (LinkID × Frame))
  | .data p => s.handleData l p
  | .read n => s.handleRead l n
  | .reset => s.handleReset l
  | .migrate => s.handleMigrate l

inductive Handled (s : Session) (l : LinkID) : Frame → Session × Option (LinkID × Frame) → Prop
  | refused {f : Frame} (hf : f ≠ .reset ∧ f ≠ .migrate)
      (hno : s.registered ≠ some l ∨ s.state ≠ .open ∧ s.state ≠ .migrating) : Handled s l f (s, some (l, .reset))
  | ignored {f : Frame} (hf : f = .reset ∨ f = .migrate)
      (hno : s.registered ≠ some l ∨ f = .migrate ∧ s.state ≠ .migrating) : Handled s l f (s, none)
  | pushed {p : List Byte} {r : Reader} (hreg : s.registered = some l) (hpush : s.reader.push p = .ok r) :
      Handled s l (.data p) ({ s with reader := r }, none)
  | overflows {p : List Byte} {err : BufferErr} (hreg : s.registered = some l)
      (hpush : s.reader.push p = .error err) (hfree : s.writer.locked = false) : Handled s l (.data p) s.close
  | grows {n : ℕ} (hreg : s.registered = some l) (hfree : s.writer.locked = false) :
      Handled s l (.read n) ({ s with writer := s.writer.grow n }, none)
  | ends (hreg : s.registered = some l) (hfree : s.writer.locked = false) :
      Handled s l .reset ({ s with writer := s.writer.peerClose }.close)
  | advances (hreg : s.registered = some l) (hstate : s.state = .migrating) :
      Handled s l .migrate ({ s with reader := s.reader.advance }, none)

variable {s : Session} {l : LinkID} {f : Frame} {r : Session × Option (LinkID × Frame)} (hr : s.handle l f = some r)
include hr

theorem handle_cases : Handled s l f r := by
  cases f with
  | data p =>
    simp only [handle, handleData] at hr
    split at hr
    · rename_i hreg
      cases hr
      exact .refused ⟨nofun, nofun⟩ (.inl hreg)
    · rename_i hreg
      split at hr
      · rename_i hstate
        cases hr
        exact .refused ⟨nofun, nofun⟩ (.inr hstate)
      · split at hr
        · rename_i hpush
          cases hr
          exact .pushed (not_not.mp hreg) hpush
        · rename_i hpush
          split at hr
          · cases hr
          · rename_i hfree
            cases hr
            exact .overflows (not_not.mp hreg) hpush (by simpa using hfree)
  | read n =>
    simp only [handle, handleRead] at hr
    split at hr
    · rename_i hreg
      cases hr
      exact .refused ⟨nofun, nofun⟩ (.inl hreg)
    · rename_i hreg
      split at hr
      · cases hr
      · rename_i hfree
        cases hr
        exact .grows (not_not.mp hreg) (by simpa using hfree)
  | reset =>
    simp only [handle, handleReset] at hr
    split at hr
    · rename_i hreg
      cases hr
      exact .ignored (.inl rfl) (.inl hreg)
    · rename_i hreg
      split at hr
      · cases hr
      · rename_i hfree
        cases hr
        exact .ends (not_not.mp hreg) (by simpa using hfree)
  | migrate =>
    simp only [handle, handleMigrate] at hr
    split at hr
    · rename_i hreg
      cases hr
      exact .ignored (.inr rfl) (.inl hreg)
    · rename_i hreg
      split at hr
      · rename_i hstate
        cases hr
        exact .ignored (.inr rfl) (.inr ⟨rfl, hstate⟩)
      · rename_i hstate
        cases hr
        exact .advances (not_not.mp hreg) (not_not.mp hstate)

/-- A handler replies with nothing but a `Reset`. -/
theorem handle_reply {g : LinkID × Frame} (hg : r.2 = some g) : g.2 = .reset := by
  cases handle_cases hr with
  | refused =>
    cases hg
    rfl
  | ignored | pushed | grows | advances => cases hg
  | overflows => exact s.close_fields.2.2 g hg
  | ends => exact (Session.close_fields _).2.2 g hg

end Session

end Astrald.Nodes
