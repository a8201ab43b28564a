import Mathlib

/-!
# Flow-controlled buffers of a mux session

The model of `input_buffer.go`, `output_buffer.go` and `mux_session_reader.go`. Every method
holds the lock of its object from its first to its last access, so each is a function.

* an `InputBuffer` carries the accounting that its comment states: `used` is what the chunks
  hold and never exceeds `size`;
* the session reader owns the input buffers it was given, by number, because a migrator keeps a
  pointer to one of them after the reader has moved on;
* `Reader.receiving` is the buffer the next `Push` appends to, `Reader.held` what has been
  received and not read.

Wake-up channels are left out: a reader or writer that would block is a step not taken.
-/

namespace Astrald.Nodes

open List Function

abbrev Byte := UInt8

def maxPayloadSize : ℕ := 8192

def defaultBufferSize : ℕ := 4 * 1024 * 1024

inductive LinkID
  | first
  | second
  deriving DecidableEq, Repr

def LinkID.other : LinkID → LinkID
  | .first => .second
  | .second => .first

@[simp] theorem LinkID.other_other (l : LinkID) : l.other.other = l := by cases l <;> rfl

@[simp] theorem LinkID.other_ne (l : LinkID) : l.other ≠ l := by cases l <;> decide

@[simp] theorem LinkID.ne_other (l : LinkID) : l ≠ l.other := by cases l <;> decide

theorem LinkID.eq_or_other (l k : LinkID) : k = l ∨ k = l.other := by cases l <;> cases k <;> decide

/-- The errors of the buffers: `ErrBufferClosed`, `ErrBufferOverflow`, `ErrBufferEmpty`, `io.EOF`. -/
inductive BufferErr
  | closed
  | overflow
  | empty
  | eof
  deriving DecidableEq, Repr

/-! ## The input buffer -/

/-- `onRead` names the link on whose mux a `Read` frame is sent; it is `none` once the buffer is
closed. -/
structure InputBuffer where
  size : ℕ
  used : ℕ
  buf : List (List Byte)
  closed : Bool
  onRead : Option LinkID
  used_eq : used = buf.flatten.length
  used_le : used ≤ size
  onRead_closed : closed = true → onRead = none

namespace InputBuffer

def new (size : ℕ) (onRead : LinkID) : InputBuffer :=
  { size, used := 0, buf := [], closed := false, onRead := some onRead, used_eq := rfl,
    used_le := Nat.zero_le size, onRead_closed := fun h => by cases h }

/-- What the buffer holds, oldest byte first. -/
def bytes (b : InputBuffer) : List Byte := b.buf.flatten

theorem length_bytes (b : InputBuffer) : b.bytes.length = b.used := b.used_eq.symm

/-- `Push`: a whole chunk or nothing. -/
def push (b : InputBuffer) (p : List Byte) : Except BufferErr InputBuffer :=
  if b.closed then .error .closed
  else if h : b.used + p.length > b.size then .error .overflow
  else .ok { b with
    buf := b.buf ++ [p]
    used := b.used + p.length
    used_eq := by simp [b.used_eq]
    used_le := by omega }

theorem flatten_trim (k : ℕ) (chunk : List Byte) (rest : List (List Byte)) :
    (if 0 < (chunk.drop k).length then chunk.drop k :: rest else rest).flatten =
      chunk.drop k ++ rest.flatten := by
  by_cases h : 0 < (chunk.drop k).length
  · rw [if_pos h, flatten_cons]
  · rw [if_neg h, length_eq_zero_iff.mp (Nat.eq_zero_of_not_pos h), nil_append]

/-- `Read` into a slice of length `n`: the bytes copied and the buffer left. A consumed chunk is
dropped, a partly consumed one trimmed. -/
def read (b : InputBuffer) (n : ℕ) : Except BufferErr (List Byte × InputBuffer) :=
  match h : b.buf with
  | [] => if b.closed then .error .eof else .error .empty
  | chunk :: rest =>
    let k := min n chunk.length
    .ok (chunk.take k, { b with
      buf := if 0 < (chunk.drop k).length then chunk.drop k :: rest else rest
      used := b.used - k
      used_eq := by
        have hused := b.used_eq
        rw [h, List.flatten_cons, List.length_append] at hused
        rw [flatten_trim, List.length_append, List.length_drop]
        omega
      used_le := Nat.le_trans (Nat.sub_le _ _) b.used_le })

/-- `Close`: nothing more is pushed, and reading what is left grants no credit. -/
def close (b : InputBuffer) : InputBuffer :=
  if b.closed then b else { b with closed := true, onRead := none, onRead_closed := fun _ => rfl }

def isEmpty (b : InputBuffer) : Bool := b.used = 0

@[simp] theorem closed_close (b : InputBuffer) : b.close.closed = true := by
  unfold close
  split <;> simp_all

@[simp] theorem used_close (b : InputBuffer) : b.close.used = b.used := by
  unfold close
  split <;> rfl

@[simp] theorem size_close (b : InputBuffer) : b.close.size = b.size := by
  unfold close
  split <;> rfl

@[simp] theorem bytes_close (b : InputBuffer) : b.close.bytes = b.bytes := by
  unfold close
  split <;> rfl

variable {b : InputBuffer}

theorem bytes_eq_nil (h : b.used = 0) : b.bytes = [] :=
  length_eq_zero_iff.mp (b.length_bytes.trans h)

theorem push_ok {b' : InputBuffer} {p : List Byte} (h : b.push p = .ok b') :
    b.closed = false ∧ b'.closed = false ∧ b'.size = b.size ∧ b'.used = b.used + p.length ∧
      b'.bytes = b.bytes ++ p := by
  unfold push at h
  split at h
  · cases h
  · split at h
    · cases h
    · cases h
      simp_all [bytes]

/-- `Push` fails only on a closed buffer or on too long a chunk. -/
theorem push_open {p : List Byte} (hopen : b.closed = false) (hfits : b.used + p.length ≤ b.size) :
    ∃ b', b.push p = .ok b' := by
  unfold push
  rw [if_neg (by simp [hopen]), dif_neg (Nat.not_lt.mpr hfits)]
  exact ⟨_, rfl⟩

theorem closed_of_push {p : List Byte} (h : b.push p = .error .closed) : b.closed = true := by
  by_contra hopen
  unfold push at h
  rw [if_neg hopen] at h
  split at h <;> cases h

theorem push_closed (h : b.closed = true) (p : List Byte) : b.push p = .error .closed := by
  unfold push
  rw [if_pos h]

theorem read_ok {b' : InputBuffer} {n : ℕ} {out : List Byte} (h : b.read n = .ok (out, b')) :
    b'.closed = b.closed ∧ b'.size = b.size ∧ b.used = out.length + b'.used ∧
      b.bytes = out ++ b'.bytes := by
  unfold read at h
  split at h
  · split at h <;> cases h
  · rename_i chunk rest hbuf
    cases h
    have hused := b.used_eq
    rw [hbuf, flatten_cons, length_append] at hused
    refine ⟨rfl, rfl, ?_, ?_⟩
    · rw [length_take]
      dsimp only
      omega
    · unfold bytes
      rw [flatten_trim, hbuf, flatten_cons, ← append_assoc, take_append_drop]

/-- `Read` fails on a drained buffer only. -/
theorem read_error {n : ℕ} {err : BufferErr} (h : b.read n = .error err) :
    b.used = 0 ∧ (err = .eof ∧ b.closed = true ∨ err = .empty ∧ b.closed = false) := by
  unfold read at h
  split at h
  · rename_i hbuf
    have hused : b.used = 0 := by
      rw [b.used_eq, hbuf]
      rfl
    by_cases hclosed : b.closed = true
    · rw [if_pos hclosed] at h
      cases h
      exact ⟨hused, .inl ⟨rfl, hclosed⟩⟩
    · rw [if_neg hclosed] at h
      cases h
      exact ⟨hused, .inr ⟨rfl, by simpa using hclosed⟩⟩
  · cases h

/-- `Read` returns `io.EOF` on a closed and drained buffer only. -/
theorem read_eof {n : ℕ} (h : b.read n = .error .eof) : b.closed = true ∧ b.used = 0 := by
  obtain ⟨hempty, ⟨-, hclosed⟩ | ⟨⟨⟩, -⟩⟩ := read_error h
  exact ⟨hclosed, hempty⟩

def weight (b : InputBuffer) : ℕ := b.buf.length + b.used

/-- A `Read` into a slice with room uses up a chunk or a part of one. -/
theorem weight_read {b' : InputBuffer} {n : ℕ} {out : List Byte} (hn : 1 ≤ n)
    (h : b.read n = .ok (out, b')) : b'.weight < b.weight := by
  unfold read at h
  split at h
  · split at h <;> cases h
  · rename_i chunk rest hbuf
    cases h
    have hused := b.used_eq
    rw [hbuf, flatten_cons, length_append] at hused
    unfold weight
    dsimp only
    rw [hbuf]
    split
    · rename_i hpos
      rw [length_drop] at hpos
      simp only [length_cons]
      omega
    · simp only [length_cons]
      omega

/-- A closed buffer never makes a `Read` wait: it returns `io.EOF`, or it gives a chunk, or a part of
one. -/
theorem read_closed (hc : b.closed = true) {n : ℕ} (hn : 0 < n) :
    (b.used = 0 ∧ b.read n = .error .eof) ∨
      ∃ out b', b.read n = .ok (out, b') ∧ b'.buf.length + b'.used < b.buf.length + b.used := by
  cases hread : b.read n with
  | error err =>
    obtain ⟨hempty, ⟨rfl, -⟩ | ⟨-, hopen⟩⟩ := read_error hread
    · exact .inl ⟨hempty, rfl⟩
    · rw [hc] at hopen
      cases hopen
  | ok res => exact .inr ⟨res.1, res.2, rfl, weight_read hn hread⟩

end InputBuffer

open InputBuffer

/-! ## The output buffer -/

/-- `link` names the link on whose mux the `write` callback sends `Data` frames. -/
structure OutputBuffer where
  wsize : ℕ
  closed : Bool
  link : LinkID
  deriving DecidableEq, Repr

namespace OutputBuffer

def new (link : LinkID) : OutputBuffer := ⟨0, false, link⟩

/-- `Write` up to the callback: how many bytes are taken, and the buffer with that much less
credit. -/
def write (b : OutputBuffer) (p : List Byte) : Except BufferErr (ℕ × OutputBuffer) :=
  if b.closed then .error .closed
  else if b.wsize = 0 then .error .empty
  else .ok (min b.wsize p.length, { b with wsize := b.wsize - min b.wsize p.length })

def grow (b : OutputBuffer) (n : ℕ) : OutputBuffer := { b with wsize := b.wsize + n }

def close (b : OutputBuffer) : OutputBuffer := { b with closed := true }

theorem write_ok {b b' : OutputBuffer} {p : List Byte} {n : ℕ} (h : b.write p = .ok (n, b')) :
    n ≤ p.length ∧ b.wsize = n + b'.wsize ∧ b'.closed = b.closed ∧ b'.link = b.link := by
  unfold write at h
  split at h
  · cases h
  · split at h
    · cases h
    · cases h
      dsimp only
      refine ⟨by omega, by omega, rfl, rfl⟩

end OutputBuffer

/-! ## The session reader -/

/-- `muxSessionReader`. Buffers are numbered in the order they were made, so the queued one is
younger than the current one. -/
structure Reader where
  inputs : ℕ → InputBuffer
  count : ℕ
  buf : ℕ
  nextBuffer : Option ℕ
  buf_lt : buf < count
  next_lt : ∀ k, nextBuffer = some k → buf < k ∧ k < count

namespace Reader

def new (b : InputBuffer) : Reader :=
  { inputs := fun _ => b, count := 1, buf := 0, nextBuffer := none, buf_lt := Nat.one_pos,
    next_lt := fun _ h => by cases h }

def current (r : Reader) : InputBuffer := r.inputs r.buf

def setInput (r : Reader) (k : ℕ) (b : InputBuffer) : Reader :=
  { r with inputs := Function.update r.inputs k b }

/-- `Push`: to the current buffer, or to the queued one if the current one is closed. -/
def push (r : Reader) (p : List Byte) : Except BufferErr Reader :=
  match r.current.push p with
  | .ok b => .ok (r.setInput r.buf b)
  | .error err =>
    match err, r.nextBuffer with
    | .closed, some k =>
      match (r.inputs k).push p with
      | .ok b => .ok (r.setInput k b)
      | .error err => .error err
    | _, _ => .error err

def setNextBuffer (r : Reader) (b : InputBuffer) : Reader :=
  { r with
    inputs := Function.update r.inputs r.count b
    count := r.count + 1
    nextBuffer := some r.count
    buf_lt := Nat.lt_succ_of_lt r.buf_lt
    next_lt := by
      intro k h
      cases h
      exact ⟨r.buf_lt, Nat.lt_succ_self _⟩ }

def promote (r : Reader) : Reader :=
  match h : r.nextBuffer with
  | none => r
  | some k =>
    { r with
      buf := k
      nextBuffer := none
      buf_lt := (r.next_lt k h).2
      next_lt := fun _ h => by cases h }

/-- `Advance`: closes the current buffer and, if it is drained, promotes the queued one; nothing
without a queued one. -/
def advance (r : Reader) : Reader :=
  if r.nextBuffer = none then r
  else
    let r' := r.setInput r.buf r.current.close
    if r'.current.isEmpty then r'.promote else r'

/-- One turn of the loop in `Read`: the bytes returned, the link and length of the `Read` frame
sent, and the reader left. At `io.EOF` a queued buffer takes over and the loop goes on. -/
def read (r : Reader) (n : ℕ) : List Byte × Option (LinkID × ℕ) × Reader :=
  match r.current.read n with
  | .ok (out, b) => (out, r.current.onRead.map (·, out.length), r.setInput r.buf b)
  | .error .eof => ([], none, r.promote)
  | .error _ => ([], none, r)

def close (r : Reader) : Reader :=
  let r' := r.setInput r.buf r.current.close
  let r'' := match r.nextBuffer with
    | none => r'
    | some k => r'.setInput k (r'.inputs k).close
  { r'' with nextBuffer := none, next_lt := fun _ h => by cases h }

/-- The number of the buffer the next `Push` appends to. -/
def target (r : Reader) : ℕ := if r.current.closed then r.nextBuffer.getD r.buf else r.buf

/-- The buffer the next `Push` appends to. -/
def receiving (r : Reader) : InputBuffer := r.inputs r.target

def queued (r : Reader) : List Byte := r.nextBuffer.elim [] fun k => (r.inputs k).bytes

/-- What has been received and not read, oldest byte first. -/
def held (r : Reader) : List Byte := r.current.bytes ++ r.queued

@[simp] theorem current_setInput_buf (r : Reader) (b : InputBuffer) :
    (r.setInput r.buf b).current = b := update_self ..

variable {r : Reader} {k : ℕ}

theorem current_setInput_of_ne (r : Reader) (b : InputBuffer) (h : r.buf ≠ k) :
    (r.setInput k b).current = r.current := update_of_ne h ..

theorem next_ne (h : r.nextBuffer = some k) : k ≠ r.buf :=
  Nat.ne_of_gt (r.next_lt k h).1

theorem target_of_open (h : r.current.closed = false) : r.target = r.buf := by
  unfold target
  rw [if_neg (by simp [h])]

theorem target_of_closed (h : r.current.closed = true) (hnext : r.nextBuffer = some k) : r.target = k := by
  unfold target
  rw [if_pos h, hnext]
  rfl

theorem promote_none (h : r.nextBuffer = none) : r.promote = r := by
  unfold promote
  split
  · rfl
  · simp_all

theorem promote_some (h : r.nextBuffer = some k) :
    r.promote.inputs = r.inputs ∧ r.promote.buf = k ∧ r.promote.nextBuffer = none := by
  unfold promote
  split
  · simp_all
  · simp_all

theorem promote_cases (r : Reader) :
    (r.nextBuffer = none ∧ r.promote = r) ∨ ∃ k, r.nextBuffer = some k ∧
      r.promote.inputs = r.inputs ∧ r.promote.buf = k ∧ r.promote.nextBuffer = none := by
  cases h : r.nextBuffer with
  | none => exact .inl ⟨rfl, promote_none h⟩
  | some k => exact .inr ⟨k, rfl, promote_some h⟩

theorem nextBuffer_promote (r : Reader) : r.promote.nextBuffer = none := by
  rcases r.promote_cases with ⟨hnone, heq⟩ | ⟨_, -, -, -, hnone⟩
  · rw [heq]
    exact hnone
  · exact hnone

/-! ### What is held -/

def Behind (r : Reader) : Prop :=
  ∀ k, r.nextBuffer = some k → r.current.closed = false → (r.inputs k).used = 0

theorem Behind.of_none (h : r.nextBuffer = none) : r.Behind := by
  intro k hk
  rw [h] at hk
  cases hk

theorem Behind.of_closed (h : r.current.closed = true) : r.Behind := by
  intro k _ hopen
  rw [h] at hopen
  cases hopen

theorem Behind.queued_nil (h : r.Behind) (hopen : r.current.closed = false) : r.queued = [] := by
  unfold queued
  cases hnext : r.nextBuffer with
  | none => rfl
  | some k => exact bytes_eq_nil (h k hnext hopen)

theorem queued_setInput_buf (r : Reader) (b : InputBuffer) : (r.setInput r.buf b).queued = r.queued := by
  unfold queued
  show r.nextBuffer.elim [] (fun k => (update r.inputs r.buf b k).bytes) = _
  cases hnext : r.nextBuffer with
  | none => rfl
  | some k =>
    rw [Option.elim_some, Option.elim_some, update_of_ne (next_ne hnext)]

theorem held_setInput_buf (r : Reader) (b : InputBuffer) :
    (r.setInput r.buf b).held = b.bytes ++ r.queued := by
  rw [held, current_setInput_buf, queued_setInput_buf]

theorem held_setInput_next {k : ℕ} (hnext : r.nextBuffer = some k) (b : InputBuffer) :
    (r.setInput k b).held = r.current.bytes ++ b.bytes := by
  rw [held, current_setInput_of_ne r b (next_ne hnext).symm, queued]
  show _ ++ r.nextBuffer.elim [] (fun j => (update r.inputs k b j).bytes) = _
  rw [hnext, Option.elim_some, update_self]

theorem held_promote (hempty : r.current.used = 0) : r.promote.held = r.held := by
  rcases r.promote_cases with ⟨-, heq⟩ | ⟨k, hnext, hin, hbuf, hnone⟩
  · rw [heq]
  · unfold held queued current
    rw [hin, hbuf, hnone, hnext, Option.elim_none, Option.elim_some, append_nil,
      show (r.inputs r.buf).bytes = [] from bytes_eq_nil hempty, nil_append]

theorem Behind.push {r' : Reader} {p : List Byte} (h : r.Behind) (hpush : r.push p = .ok r') :
    r'.Behind ∧ r'.held = r.held ++ p := by
  unfold Reader.push at hpush
  cases hcur : r.current.push p with
  | ok b =>
    rw [hcur] at hpush
    cases hpush
    obtain ⟨hopen, hbopen, -, -, hbytes⟩ := push_ok hcur
    refine ⟨?_, ?_⟩
    · intro k hnext _
      have hk : k ≠ r.buf := next_ne hnext
      rw [show (r.setInput r.buf b).inputs k = r.inputs k from update_of_ne hk ..]
      exact h k hnext hopen
    · rw [held_setInput_buf, held, h.queued_nil hopen, hbytes, append_nil, append_nil]
  | error err =>
    rw [hcur] at hpush
    cases hnext : r.nextBuffer with
    | none =>
      rw [hnext] at hpush
      cases err <;> cases hpush
    | some k =>
      rw [hnext] at hpush
      cases err with
      | overflow | empty | eof => cases hpush
      | closed =>
        dsimp only at hpush
        cases hin : (r.inputs k).push p with
        | error err =>
          rw [hin] at hpush
          cases hpush
        | ok b =>
          rw [hin] at hpush
          cases hpush
          obtain ⟨-, -, -, -, hbytes⟩ := push_ok hin
          refine ⟨?_, ?_⟩
          · apply Behind.of_closed
            rw [current_setInput_of_ne r b (next_ne hnext).symm]
            exact closed_of_push hcur
          · rw [held_setInput_next hnext, hbytes, held, queued, hnext, Option.elim_some, append_assoc]

theorem setNextBuffer_held (hnone : r.queued = []) (size : ℕ) (l : LinkID) :
    (r.setNextBuffer (InputBuffer.new size l)).Behind ∧
      (r.setNextBuffer (InputBuffer.new size l)).held = r.held := by
  have hnew : (r.setNextBuffer (InputBuffer.new size l)).inputs r.count = InputBuffer.new size l :=
    update_self ..
  have hcur : (r.setNextBuffer (InputBuffer.new size l)).current = r.current :=
    update_of_ne (Nat.ne_of_lt r.buf_lt) ..
  refine ⟨?_, ?_⟩
  · intro k hk _
    cases hk
    rw [hnew]
    rfl
  · rw [held, hcur, held, hnone]
    show _ ++ ((r.setNextBuffer (InputBuffer.new size l)).inputs r.count).bytes = _
    rw [hnew]
    rfl

theorem Behind.advance (h : r.Behind) : r.advance.Behind ∧ r.advance.held = r.held := by
  unfold Reader.advance
  by_cases hnone : r.nextBuffer = none
  · rw [if_pos hnone]
    exact ⟨h, rfl⟩
  · rw [if_neg hnone]
    dsimp only
    have hcur : (r.setInput r.buf r.current.close).current = r.current.close := r.current_setInput_buf _
    have hheld : (r.setInput r.buf r.current.close).held = r.held := by
      rw [held_setInput_buf, bytes_close, held]
    by_cases hempty : (r.setInput r.buf r.current.close).current.isEmpty = true
    · rw [if_pos hempty]
      refine ⟨Behind.of_none (nextBuffer_promote _), ?_⟩
      rw [held_promote (by simpa [InputBuffer.isEmpty] using hempty), hheld]
    · rw [if_neg hempty]
      refine ⟨Behind.of_closed ?_, hheld⟩
      rw [hcur, closed_close]

/-! ### Readers with nothing queued -/

theorem push_none (h : r.nextBuffer = none) (p : List Byte) :
    r.push p = (r.current.push p).map (r.setInput r.buf) := by
  unfold push
  cases r.current.push p with
  | ok b => rfl
  | error err =>
    rw [h]
    cases err <;> rfl

theorem close_none (h : r.nextBuffer = none) : r.close.nextBuffer = none ∧ r.close.current = r.current.close := by
  refine ⟨rfl, ?_⟩
  show (match r.nextBuffer with
    | none => r.setInput r.buf r.current.close
    | some k => (r.setInput r.buf r.current.close).setInput k _).current = _
  rw [h]
  exact r.current_setInput_buf _

/-- A turn of `Read` with nothing queued: it takes the first bytes held and grants as much, or it
finds the buffer empty. -/
theorem read_none (h : r.nextBuffer = none) (n : ℕ) :
    (r.read n).2.2.nextBuffer = none ∧ (r.read n).2.2.current.closed = r.current.closed ∧
      (r.read n).2.2.current.size = r.current.size ∧
      r.current.bytes = (r.read n).1 ++ (r.read n).2.2.current.bytes ∧
      ∀ l k, (r.read n).2.1 = some (l, k) → k = (r.read n).1.length := by
  unfold read
  cases hcur : r.current.read n with
  | ok res =>
    obtain ⟨hclosed, hsize, -, hbytes⟩ := read_ok hcur
    rw [current_setInput_buf]
    refine ⟨h, hclosed, hsize, hbytes, ?_⟩
    intro l k hk
    obtain ⟨x, -, hx⟩ := Option.map_eq_some_iff.mp hk
    cases hx
    rfl
  | error err =>
    cases err with
    | eof =>
      rw [promote_none h]
      exact ⟨h, rfl, rfl, rfl, fun _ _ hk => nomatch hk⟩
    | closed | overflow | empty => exact ⟨h, rfl, rfl, rfl, fun _ _ hk => nomatch hk⟩

/-! ### Readers of sessions that are not closed -/

/-- The reader of a session that is not closed: some buffer receives, and a buffer queued behind
an open one is empty. -/
structure Sound (r : Reader) : Prop where
  size : ∀ k, (r.inputs k).size = defaultBufferSize
  receives : r.nextBuffer = none → r.current.closed = false
  queued_open : ∀ k, r.nextBuffer = some k → (r.inputs k).closed = false
  queued_empty : ∀ k, r.nextBuffer = some k → r.current.closed = false → (r.inputs k).used = 0

theorem Sound.target_cases (h : r.Sound) :
    (r.current.closed = false ∧ r.target = r.buf) ∨
      (r.current.closed = true ∧ ∃ k, r.nextBuffer = some k ∧ r.target = k) := by
  by_cases hc : r.current.closed = false
  · exact .inl ⟨hc, target_of_open hc⟩
  · have hclosed : r.current.closed = true := by simpa using hc
    cases hnext : r.nextBuffer with
    | none => exact absurd (h.receives hnext) hc
    | some k => exact .inr ⟨hclosed, k, rfl, target_of_closed hclosed hnext⟩

theorem Sound.receiving_open (h : r.Sound) : r.receiving.closed = false := by
  unfold receiving
  rcases h.target_cases with ⟨hopen, ht⟩ | ⟨_, k, hnext, ht⟩
  · rw [ht]
    exact hopen
  · rw [ht]
    exact h.queued_open k hnext

theorem Sound.push_eq (h : r.Sound) (p : List Byte) :
    r.push p = (r.receiving.push p).map (r.setInput r.target) := by
  unfold push receiving
  rcases h.target_cases with ⟨hopen, ht⟩ | ⟨hclosed, k, hnext, ht⟩
  · rw [ht]
    change _ = (r.current.push p).map _
    cases hp : r.current.push p with
    | ok b => rfl
    | error err =>
      cases err with
      | closed =>
        rw [closed_of_push hp] at hopen
        cases hopen
      | overflow | empty | eof => rfl
  · rw [ht, push_closed hclosed, hnext]
    dsimp only
    cases (r.inputs k).push p with
    | ok b | error err => rfl

/-- Replacing the contents of a buffer by contents with the same marks. -/
theorem Sound.setInput (h : r.Sound) {b : InputBuffer} (hclosed : b.closed = (r.inputs k).closed)
    (hsize : b.size = (r.inputs k).size)
    (hempty : r.nextBuffer = some k → r.current.closed = false → b.used = 0) :
    (r.setInput k b).Sound ∧ (r.setInput k b).target = r.target ∧
      ∀ j, ((r.setInput k b).inputs j).closed = (r.inputs j).closed := by
  have hall : ∀ j, ((r.setInput k b).inputs j).closed = (r.inputs j).closed :=
    (forall_update_iff r.inputs fun j b => b.closed = (r.inputs j).closed).mpr ⟨hclosed, fun _ _ => rfl⟩
  have hcur : (r.setInput k b).current.closed = r.current.closed := hall r.buf
  refine ⟨⟨?_, ?_, ?_, ?_⟩, ?_, hall⟩
  · exact (forall_update_iff r.inputs fun _ b => b.size = defaultBufferSize).mpr
      ⟨hsize.trans (h.size k), fun j _ => h.size j⟩
  · intro hnext
    rw [hcur]
    exact h.receives hnext
  · intro j hnext
    rw [hall]
    exact h.queued_open j hnext
  · intro j hnext hopen
    rw [hcur] at hopen
    change (update r.inputs k b j).used = _
    by_cases hj : j = k
    · rw [hj, update_self]
      exact hempty (hj ▸ hnext) hopen
    · rw [update_of_ne hj]
      exact h.queued_empty j hnext hopen
  · unfold target
    rw [hcur]
    rfl

/-- **Push.** A chunk that fits the receiving buffer is accepted and comes last. -/
theorem Sound.push (h : r.Sound) {p : List Byte} (hfits : r.receiving.used + p.length ≤ defaultBufferSize) :
    ∃ r', r.push p = .ok r' ∧ r'.Sound ∧ r'.buf = r.buf ∧ r'.nextBuffer = r.nextBuffer ∧
      (∀ k, (r'.inputs k).closed = (r.inputs k).closed) ∧
      r'.receiving.used = r.receiving.used + p.length ∧ r'.held = r.held ++ p := by
  have hroom : r.receiving.used + p.length ≤ r.receiving.size := by
    rw [show r.receiving.size = defaultBufferSize from h.size _]
    exact hfits
  obtain ⟨b, hb⟩ := push_open h.receiving_open hroom
  obtain ⟨_, hbopen, hbsize, hbused, -⟩ := push_ok hb
  have hpush : r.push p = .ok (r.setInput r.target b) := by
    rw [h.push_eq, hb]
    rfl
  -- a push to the queued buffer happens behind a closed one only
  have hempty : r.nextBuffer = some r.target → r.current.closed = false → b.used = 0 := by
    intro hnext hopen
    rw [target_of_open hopen] at hnext
    exact absurd rfl (next_ne hnext)
  obtain ⟨hsound, htarget, hclosed⟩ :=
    h.setInput (hbopen.trans h.receiving_open.symm) hbsize hempty
  refine ⟨_, hpush, hsound, rfl, rfl, hclosed, ?_, (Behind.push h.queued_empty hpush).2⟩
  change (update r.inputs r.target b _).used = _
  rw [htarget, update_self, hbused]

/-- Promoting over a closed and drained buffer changes neither what is held nor what receives. -/
theorem Sound.promote (h : r.Sound) (hclosed : r.current.closed = true) (hempty : r.current.used = 0) :
    r.promote.Sound ∧ r.promote.inputs = r.inputs ∧ r.promote.receiving = r.receiving ∧
      r.promote.held = r.held ∧ r.promote.current.closed = false := by
  rcases r.promote_cases with ⟨hnext, _⟩ | ⟨k, hnext, hin, hbuf, hnone⟩
  · rw [h.receives hnext] at hclosed
    cases hclosed
  have hcur : r.promote.current = r.inputs k := by
    unfold current
    rw [hin, hbuf]
  have hopen : r.promote.current.closed = false := by
    rw [hcur]
    exact h.queued_open k hnext
  refine ⟨⟨?_, ?_, ?_, ?_⟩, hin, ?_, held_promote hempty, hopen⟩
  · intro j
    rw [hin]
    exact h.size j
  · intro _
    exact hopen
  · intro j hj
    rw [hnone] at hj
    cases hj
  · intro j hj
    rw [hnone] at hj
    cases hj
  · unfold receiving
    rw [target_of_open hopen, target_of_closed hclosed hnext, hin, hbuf]

/-- **Advance.** With a buffer queued behind an open one, the open one is closed and the queued,
empty one receives. -/
theorem Sound.advance (h : r.Sound) (hnext : r.nextBuffer = some k) (hopen : r.current.closed = false) :
    r.advance.Sound ∧ r.advance.receiving.used = 0 ∧ r.advance.held = r.held ∧
      (r.advance.inputs r.buf).closed = true := by
  -- the reader with its current buffer closed
  obtain ⟨r', hr'⟩ : ∃ r', r' = r.setInput r.buf r.current.close := ⟨_, rfl⟩
  have hin : ∀ j, j ≠ r.buf → r'.inputs j = r.inputs j := by
    intro j hj
    rw [hr']
    exact update_of_ne hj ..
  have hcur : r'.current = r.current.close := by
    rw [hr', current_setInput_buf]
  have hnext' : r'.nextBuffer = some k := by
    rw [hr']
    exact hnext
  have hk : r'.inputs k = r.inputs k := hin k (next_ne hnext)
  have hsound : r'.Sound := by
    refine ⟨?_, ?_, ?_, ?_⟩
    · rw [hr']
      exact (forall_update_iff r.inputs fun _ b => b.size = defaultBufferSize).mpr
        ⟨(size_close _).trans (h.size r.buf), fun j _ => h.size j⟩
    · intro hnone
      rw [hnext'] at hnone
      cases hnone
    · intro j hj
      rw [hnext', Option.some.injEq] at hj
      rw [← hj, hk]
      exact h.queued_open k hnext
    · intro j _ hopen'
      rw [hcur, closed_close] at hopen'
      cases hopen'
  have hclosed' : r'.current.closed = true := by
    rw [hcur, closed_close]
  have hrecv : r'.receiving.used = 0 := by
    unfold receiving
    rw [target_of_closed hclosed' hnext', hk]
    exact h.queued_empty k hnext hopen
  have hheld : r'.held = r.held := by
    rw [hr', held_setInput_buf, bytes_close, held]
  have hshut : (r'.inputs r.buf).closed = true := by
    have : (r'.inputs r.buf) = r'.current := by rw [hr']; rfl
    rw [this]
    exact hclosed'
  have hadv : r.advance = if r'.current.isEmpty then r'.promote else r' := by
    unfold Reader.advance
    rw [if_neg (by simp [hnext]), hr']
  rw [hadv]
  by_cases hempty : r'.current.isEmpty = true
  · rw [if_pos hempty]
    obtain ⟨hs, hpin, hprecv, hpheld, _⟩ :=
      hsound.promote hclosed' (by simpa [InputBuffer.isEmpty] using hempty)
    rw [hprecv, hpheld, hpin]
    exact ⟨hs, hrecv, hheld, hshut⟩
  · rw [if_neg hempty]
    exact ⟨hsound, hrecv, hheld, hshut⟩

theorem advance_none (h : r.nextBuffer = none) : r.advance = r := by
  unfold advance
  rw [if_pos h]

/-- `Advance` on a current buffer that is closed already promotes the queued one or does nothing. -/
theorem advance_closed (hc : r.current.closed = true) (hnext : r.nextBuffer ≠ none) :
    r.advance = if r.current.isEmpty then r.promote else r := by
  have hsame : r.setInput r.buf r.current.close = r := by
    have hclose : r.current.close = r.current := by
      unfold InputBuffer.close
      rw [if_pos hc]
    unfold setInput
    rw [hclose]
    congr 1
    exact update_eq_self ..
  unfold advance
  rw [if_neg hnext]
  rw [hsame]

/-- `Advance` in whatever state: no buffer reopens, with one queued the current one ends up closed,
and the buffer that receives holds no more than before. -/
theorem Sound.advance_any (h : r.Sound) :
    r.advance.Sound ∧ (∀ k, (r.inputs k).closed = true → (r.advance.inputs k).closed = true) ∧
      (r.nextBuffer ≠ none → (r.advance.inputs r.buf).closed = true) ∧
      r.advance.receiving.used ≤ r.receiving.used ∧ r.advance.held = r.held := by
  cases hnext : r.nextBuffer with
  | none =>
    rw [advance_none hnext]
    exact ⟨h, fun _ => id, fun hne => absurd rfl hne, Nat.le_refl _, rfl⟩
  | some k =>
    cases hc : r.current.closed with
    | false =>
      obtain ⟨hsound, hused, hheld, hshut⟩ := h.advance hnext hc
      refine ⟨hsound, ?_, fun _ => hshut, by omega, hheld⟩
      intro j hj
      by_cases hjb : j = r.buf
      · rw [hjb]
        exact hshut
      · have hsame : r.advance.inputs j = r.inputs j := by
          unfold Reader.advance
          rw [if_neg (by simp [hnext])]
          dsimp only
          split
          · rcases (r.setInput r.buf r.current.close).promote_cases with ⟨-, heq⟩ | ⟨_, -, hin, -⟩
            · rw [heq]
              exact update_of_ne hjb ..
            · rw [hin]
              exact update_of_ne hjb ..
          · exact update_of_ne hjb ..
        rw [hsame]
        exact hj
    | true =>
      rw [advance_closed hc (by simp [hnext])]
      split
      · rename_i hempty
        obtain ⟨hsound, hin, hrecv, hheld, -⟩ := h.promote hc (by simpa [InputBuffer.isEmpty] using hempty)
        refine ⟨hsound, ?_, ?_, Nat.le_of_eq (by rw [hrecv]), hheld⟩
        · intro j hj
          rw [hin]
          exact hj
        · intro _
          rw [hin]
          exact hc
      · exact ⟨h, fun _ => id, fun _ => hc, Nat.le_refl _, rfl⟩

/-- **SetNextBuffer**, with nothing queued and a buffer that is new. -/
theorem Sound.setNextBuffer (h : r.Sound) (hnext : r.nextBuffer = none) (l : LinkID) :
    let r' := r.setNextBuffer (InputBuffer.new defaultBufferSize l)
    r'.Sound ∧ r'.buf = r.buf ∧ r'.current = r.current ∧ r'.receiving = r.receiving ∧
      r'.held = r.held ∧ r'.nextBuffer ≠ none := by
  intro r'
  have hcur : r'.current = r.current := update_of_ne (Nat.ne_of_lt r.buf_lt) ..
  have hopen : r.current.closed = false := h.receives hnext
  have hnew : r'.inputs r.count = InputBuffer.new defaultBufferSize l := update_self ..
  have hqueued : r.queued = [] := by
    rw [queued, hnext]
    rfl
  refine ⟨⟨?_, ?_, ?_, ?_⟩, rfl, hcur, ?_, (setNextBuffer_held hqueued defaultBufferSize l).2, ?_⟩
  · exact (forall_update_iff r.inputs fun _ b => b.size = defaultBufferSize).mpr ⟨rfl, fun j _ => h.size j⟩
  · intro _
    rw [hcur]
    exact hopen
  · intro j hj
    cases hj
    rw [hnew]
    rfl
  · intro j hj _
    cases hj
    rw [hnew]
    rfl
  · unfold receiving
    rw [target_of_open hopen, target_of_open (hcur ▸ hopen)]
    exact hcur
  · intro hnone
    cases hnone

/-- **Read.** What is returned was held first; credit is granted for bytes of the receiving buffer
only. -/
theorem Sound.read (h : r.Sound) {n : ℕ} {out : List Byte} {grant : Option (LinkID × ℕ)} {r' : Reader}
    (hread : r.read n = (out, grant, r')) :
    r'.Sound ∧ r.held = out ++ r'.held ∧
      r'.receiving.used + (grant.elim 0 Prod.snd) ≤ r.receiving.used ∧
      (∀ k, (r'.inputs k).closed = (r.inputs k).closed) ∧
      (r.current.closed = false → r'.buf = r.buf ∧ r'.nextBuffer = r.nextBuffer) ∧
      (r.nextBuffer = none → r'.nextBuffer = none) := by
  unfold Reader.read at hread
  cases hcur : r.current.read n with
  | ok res =>
    obtain ⟨out', b⟩ := res
    rw [hcur] at hread
    simp only [Prod.mk.injEq] at hread
    obtain ⟨rfl, rfl, rfl⟩ := hread
    obtain ⟨hbclosed, hbsize, hbused, hbbytes⟩ := read_ok hcur
    obtain ⟨hsound, htarget, hclosed⟩ := h.setInput (k := r.buf) hbclosed hbsize
      (fun hnext => absurd rfl (next_ne hnext))
    refine ⟨hsound, ?_, ?_, hclosed, fun _ => ⟨rfl, rfl⟩, fun hnext => hnext⟩
    · rw [held_setInput_buf, held, hbbytes, append_assoc]
    · change (update r.inputs r.buf b _).used + _ ≤ _
      rw [htarget]
      rcases h.target_cases with ⟨hopen, ht⟩ | ⟨hshut, k, hnext, ht⟩
      · have hlen : (r.current.onRead.map (·, out'.length)).elim 0 Prod.snd ≤ out'.length := by
          cases r.current.onRead with
          | none => exact Nat.zero_le _
          | some l => exact Nat.le_refl _
        have hrecv : r.receiving = r.current := by
          unfold receiving current
          rw [ht]
        rw [ht, update_self, hrecv]
        omega
      · -- a closed buffer grants no credit
        rw [r.current.onRead_closed hshut, ht, update_of_ne (next_ne hnext)]
        unfold receiving
        rw [ht]
        exact Nat.le_refl _
  | error err =>
    rw [hcur] at hread
    cases err with
    | eof =>
      obtain ⟨rfl, rfl, rfl⟩ := hread
      obtain ⟨hshut, hempty⟩ := read_eof hcur
      obtain ⟨hs, hin, hrecv, hheld, _⟩ := h.promote hshut hempty
      refine ⟨hs, hheld.symm, ?_, ?_, ?_, ?_⟩
      · rw [hrecv]
        exact Nat.le_refl _
      · intro k
        rw [hin]
      · intro hopen
        rw [hshut] at hopen
        cases hopen
      · intro hnext
        rw [promote_none hnext]
        exact hnext
    | closed | overflow | empty =>
      obtain ⟨rfl, rfl, rfl⟩ := hread
      exact ⟨h, rfl, Nat.le_refl _, fun _ => rfl, fun _ => ⟨rfl, rfl⟩, fun hnext => hnext⟩

end Reader

end Astrald.Nodes
