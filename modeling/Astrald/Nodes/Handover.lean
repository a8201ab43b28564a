import Mathlib
import Astrald.Lib.Trace
import Astrald.Nodes.Buffers

/-!
# Handing a reader over from one buffer to the next

Any sequence of calls on a `muxSessionReader`: pushes, reads, handovers to a new buffer, and closing.
A call of `Read` is a loop that goes from a drained buffer to the queued one; a call that waits is one
that has returned nothing yet.

* `readCall_loop`: `Read` is the loop of the source;
* `Reads`: what a call of `Read` can do;
* `handover_lossless`: what was accepted is what was returned and then what is held, and the end of
  the stream comes after all of it, provided that `SetNextBuffer` and `Close` find no byte in a queued
  buffer;
* `handover_drops`: both drop what a queued buffer holds.
-/

namespace Astrald.Nodes

open List Function

/-- What a call of `Read` returns, or that it waits. -/
inductive ReadResult
  | bytes (out : List Byte)
  | eof
  | waits
  deriving DecidableEq, Repr

open InputBuffer

namespace Reader

/-! ## A call of Read -/

/-- A pass of the loop in `Read`, and what follows if it goes on. -/
def readPass (r : Reader) (n : ℕ) (again : Reader → ReadResult × Reader) : ReadResult × Reader :=
  match r.current.read n with
  | .ok (out, b) => (.bytes out, r.setInput r.buf b)
  | .error .eof =>
    match r.nextBuffer with
    | none => (.eof, r)
    | some _ => again r.promote
  | .error _ => (.waits, r)

/-- `Read`. The second pass finds nothing queued, so there is no third. -/
def readCall (r : Reader) (n : ℕ) : ReadResult × Reader :=
  r.readPass n fun r' => r'.readPass n fun r'' => (.eof, r'')

inductive Reads (n : ℕ) : Reader → ReadResult → Reader → Prop
  | take {r : Reader} {out : List Byte} {b : InputBuffer} (h : r.current.read n = .ok (out, b)) :
      Reads n r (.bytes out) (r.setInput r.buf b)
  | finish {r : Reader} (hnone : r.nextBuffer = none) (hempty : r.current.used = 0) : Reads n r .eof r
  | wait {r : Reader} (hopen : r.current.closed = false) (hempty : r.current.used = 0) : Reads n r .waits r
  | promote {r r' : Reader} {res : ReadResult} (hclosed : r.current.closed = true)
      (hempty : r.current.used = 0) (h : Reads n r.promote res r') : Reads n r res r'

variable {r : Reader}

theorem readPass_congr {n : ℕ} {f g : Reader → ReadResult × Reader}
    (h : r.nextBuffer ≠ none → f r.promote = g r.promote) : r.readPass n f = r.readPass n g := by
  unfold readPass
  cases r.current.read n with
  | ok res => rfl
  | error err =>
    cases err with
    | closed | overflow | empty => rfl
    | eof =>
      cases hnext : r.nextBuffer with
      | none => rfl
      | some k =>
        apply h
        rw [hnext]
        exact Option.some_ne_none k

/-- The loop of the source. -/
theorem readCall_loop (r : Reader) (n : ℕ) : r.readCall n = r.readPass n fun r' => r'.readCall n := by
  apply readPass_congr
  intro _
  apply readPass_congr
  intro hnext
  exact absurd r.nextBuffer_promote hnext

theorem reads_readPass {n : ℕ} {again : Reader → ReadResult × Reader}
    (h : r.nextBuffer ≠ none → Reads n r.promote (again r.promote).1 (again r.promote).2) :
    Reads n r (r.readPass n again).1 (r.readPass n again).2 := by
  unfold readPass
  cases hread : r.current.read n with
  | ok res => exact Reads.take hread
  | error err =>
    obtain ⟨hempty, ⟨rfl, hclosed⟩ | ⟨rfl, hopen⟩⟩ := read_error hread
    · cases hnext : r.nextBuffer with
      | none => exact Reads.finish hnext hempty
      | some k =>
        apply Reads.promote hclosed hempty
        apply h
        rw [hnext]
        exact Option.some_ne_none k
    · exact Reads.wait hopen hempty

theorem reads_readCall (r : Reader) (n : ℕ) : Reads n r (r.readCall n).1 (r.readCall n).2 := by
  apply reads_readPass
  intro _
  apply reads_readPass
  intro hnext
  exact absurd r.nextBuffer_promote hnext

/-! ## What is held -/

/-- Closing drops what is queued, and keeps the rest. -/
theorem close_held (r : Reader) : r.close.Behind ∧ r.close.held = r.current.bytes := by
  refine ⟨Behind.of_none rfl, ?_⟩
  have hcur : r.close.current = r.current.close := by
    cases hnext : r.nextBuffer with
    | none => exact (close_none hnext).2
    | some k =>
      show (match r.nextBuffer with
        | none => r.setInput r.buf r.current.close
        | some k => (r.setInput r.buf r.current.close).setInput k _).current = _
      rw [hnext]
      have hk : (r.setInput r.buf r.current.close).buf ≠ k := (next_ne hnext).symm
      exact (current_setInput_of_ne _ _ hk).trans (r.current_setInput_buf _)
  rw [held, hcur, bytes_close]
  exact append_nil _

/-- The bytes held before and after a call with the given result: what it returns is the first of them,
and it returns nothing only if none are held. -/
def Takes (before after : List Byte) : ReadResult → Prop
  | .bytes out => before = out ++ after
  | .eof | .waits => before = [] ∧ after = []

/-- **Read.** It returns the first bytes held, or finds that none are. -/
theorem Reads.takes {n : ℕ} {r' : Reader} {res : ReadResult} (hreads : Reads n r res r') (h : r.Behind) :
    r'.Behind ∧ Takes r.held r'.held res := by
  induction hreads with
  | @take r out b hread =>
    obtain ⟨hclosed, -, -, hbytes⟩ := read_ok hread
    refine ⟨?_, ?_⟩
    · intro k hnext hopen
      rw [current_setInput_buf, hclosed] at hopen
      have hk : k ≠ r.buf := next_ne hnext
      rw [show (r.setInput r.buf b).inputs k = r.inputs k from update_of_ne hk ..]
      exact h k hnext hopen
    · show r.held = out ++ (r.setInput r.buf b).held
      rw [held_setInput_buf, held, hbytes, append_assoc]
  | @finish r hnone hempty =>
    have hheld : r.held = [] := by
      rw [held, queued, hnone, bytes_eq_nil hempty]
      rfl
    exact ⟨h, hheld, hheld⟩
  | @wait r hopen hempty =>
    have hheld : r.held = [] := by
      rw [held, h.queued_nil hopen, bytes_eq_nil hempty]
      rfl
    exact ⟨h, hheld, hheld⟩
  | @promote r r' res hclosed hempty _ ih =>
    have hrest := ih (Behind.of_none r.nextBuffer_promote)
    rw [held_promote hempty] at hrest
    exact hrest

def weight (r : Reader) : ℕ := r.current.weight + r.nextBuffer.elim 0 fun k => (r.inputs k).weight

theorem weight_promote (r : Reader) : r.promote.weight ≤ r.weight := by
  rcases r.promote_cases with ⟨-, heq⟩ | ⟨k, hnext, hin, hbuf, hnone⟩
  · rw [heq]
  · unfold weight current
    rw [hin, hbuf, hnone, hnext, Option.elim_none, Option.elim_some]
    omega

theorem weight_setInput_buf (r : Reader) {b : InputBuffer} (h : b.weight < r.current.weight) :
    (r.setInput r.buf b).weight < r.weight := by
  have hnext : (r.setInput r.buf b).nextBuffer.elim 0 (fun k => ((r.setInput r.buf b).inputs k).weight) =
      r.nextBuffer.elim 0 fun k => (r.inputs k).weight := by
    show r.nextBuffer.elim 0 (fun k => (update r.inputs r.buf b k).weight) = _
    cases hnext : r.nextBuffer with
    | none => rfl
    | some k => rw [Option.elim_some, Option.elim_some, update_of_ne (next_ne hnext)]
  unfold weight
  rw [hnext, current_setInput_buf]
  omega

theorem Reads.weight_lt {n : ℕ} {r' : Reader} {res : ReadResult} (hn : 1 ≤ n) (hreads : Reads n r res r')
    {out : List Byte} (hres : res = .bytes out) : r'.weight < r.weight := by
  induction hreads with
  | @take r _ b hread => exact r.weight_setInput_buf (weight_read hn hread)
  | finish | wait => cases hres
  | @promote r r' res _ _ _ ih => exact Nat.lt_of_lt_of_le (ih hres) r.weight_promote

end Reader

/-! ## Sequences of calls -/

inductive ReaderOp
  | push (p : List Byte)
  | setNextBuffer (size : ℕ) (onRead : LinkID)
  | advance
  | read (n : ℕ)
  | close
  deriving DecidableEq, Repr

/-- A reader, with the bytes of the accepted pushes and the bytes that reads have returned. -/
structure Handover where
  reader : Reader
  accepted : List Byte
  returned : List Byte

namespace Handover

def start (size : ℕ) (onRead : LinkID) : Handover := ⟨Reader.new (InputBuffer.new size onRead), [], []⟩

def bytesOf : ReadResult → List Byte
  | .bytes out => out
  | .eof | .waits => []

def read (s : Handover) (n : ℕ) : Handover :=
  { s with reader := (s.reader.readCall n).2, returned := s.returned ++ bytesOf (s.reader.readCall n).1 }

def push (s : Handover) (p : List Byte) : Handover :=
  match s.reader.push p with
  | .ok r => { s with reader := r, accepted := s.accepted ++ p }
  | .error _ => s

def step (s : Handover) : ReaderOp → Handover
  | .push p => s.push p
  | .setNextBuffer size onRead => { s with reader := s.reader.setNextBuffer (InputBuffer.new size onRead) }
  | .advance => { s with reader := s.reader.advance }
  | .read n => s.read n
  | .close => { s with reader := s.reader.close }

def after (size : ℕ) (onRead : LinkID) (ops : List ReaderOp) : Handover :=
  Trace.exec step (start size onRead) ops

/-- The state and the call that a handover is right for: a queued buffer that `SetNextBuffer` replaces or
`Close` drops holds no byte. -/
def Spared (s : Handover) : ReaderOp → Prop
  | .setNextBuffer _ _ => s.reader.queued = []
  | .close => s.reader.queued = []
  | _ => True

instance (s : Handover) : (op : ReaderOp) → Decidable (s.Spared op)
  | .setNextBuffer _ _ => inferInstanceAs (Decidable (_ = _))
  | .close => inferInstanceAs (Decidable (_ = _))
  | .push _ => instDecidableTrue
  | .advance => instDecidableTrue
  | .read _ => instDecidableTrue

/-- What was accepted has been returned or is held, in this order. -/
structure Kept (s : Handover) : Prop where
  behind : s.reader.Behind
  bytes : s.accepted = s.returned ++ s.reader.held

theorem kept_start (size : ℕ) (onRead : LinkID) : (start size onRead).Kept :=
  ⟨Reader.Behind.of_none rfl, rfl⟩

variable {s : Handover}

theorem Kept.read (h : s.Kept) (n : ℕ) : (s.read n).Kept := by
  obtain ⟨hbehind, htakes⟩ := (s.reader.reads_readCall n).takes h.behind
  refine ⟨hbehind, ?_⟩
  show s.accepted = (s.returned ++ bytesOf (s.reader.readCall n).1) ++ (s.reader.readCall n).2.held
  rw [h.bytes]
  cases hres : (s.reader.readCall n).1 with
  | bytes out =>
    rw [hres] at htakes
    rw [show s.reader.held = out ++ _ from htakes, ← append_assoc]
    rfl
  | eof | waits =>
    rw [hres] at htakes
    rw [htakes.1, htakes.2, append_nil, append_nil, bytesOf, append_nil]

theorem Kept.push (h : s.Kept) (p : List Byte) : (s.push p).Kept := by
  unfold Handover.push
  cases hpush : s.reader.push p with
  | error err => exact h
  | ok r =>
    obtain ⟨hbehind, hheld⟩ := h.behind.push hpush
    refine ⟨hbehind, ?_⟩
    rw [h.bytes, hheld, append_assoc]

theorem Kept.step (h : s.Kept) {op : ReaderOp} (hop : s.Spared op) : (s.step op).Kept := by
  cases op with
  | push p => exact h.push p
  | setNextBuffer size onRead =>
    obtain ⟨hbehind, hheld⟩ := Reader.setNextBuffer_held hop size onRead
    refine ⟨hbehind, ?_⟩
    show s.accepted = s.returned ++ (s.reader.setNextBuffer _).held
    rw [hheld]
    exact h.bytes
  | advance =>
    obtain ⟨hbehind, hheld⟩ := h.behind.advance
    refine ⟨hbehind, ?_⟩
    show s.accepted = s.returned ++ s.reader.advance.held
    rw [hheld]
    exact h.bytes
  | read n => exact h.read n
  | close =>
    obtain ⟨hbehind, hheld⟩ := s.reader.close_held
    refine ⟨hbehind, ?_⟩
    show s.accepted = s.returned ++ s.reader.close.held
    have hqueued : s.reader.queued = [] := hop
    rw [hheld, h.bytes, Reader.held, hqueued, append_nil]

theorem kept_after {size : ℕ} {onRead : LinkID} {ops : List ReaderOp}
    (h : Trace.Along (fun before op => (after size onRead before).Spared op) ops) :
    (after size onRead ops).Kept :=
  h.invariant (kept_start size onRead) fun _ _ hop ih => ih.step hop

/-- A read at the end of the stream comes after everything that was accepted. -/
theorem Kept.eof (h : s.Kept) {n : ℕ} (heof : (s.reader.readCall n).1 = .eof) : s.returned = s.accepted := by
  have htakes := ((s.reader.reads_readCall n).takes h.behind).2
  rw [heof] at htakes
  rw [h.bytes, htakes.1, append_nil]

/-- A read while bytes are held leaves less to do. -/
theorem Kept.weight_read (h : s.Kept) {n : ℕ} (hn : 1 ≤ n) (hheld : s.reader.held ≠ []) :
    (s.read n).reader.weight < s.reader.weight := by
  have hreads := s.reader.reads_readCall n
  have htakes := (hreads.takes h.behind).2
  cases hres : (s.reader.readCall n).1 with
  | bytes out => exact hreads.weight_lt hn hres
  | eof | waits =>
    rw [hres] at htakes
    exact absurd htakes.1 hheld

theorem Kept.drains (h : s.Kept) {n : ℕ} (hn : 1 ≤ n) :
    ∃ k, (Trace.exec Handover.step s (List.replicate k (.read n))).returned = s.accepted := by
  -- by induction on the chunks and bytes that the buffers hold
  obtain ⟨w, hw⟩ : ∃ w, w = s.reader.weight := ⟨_, rfl⟩
  induction w using Nat.strong_induction_on generalizing s with
  | _ w ih =>
    by_cases hheld : s.reader.held = []
    · refine ⟨0, ?_⟩
      rw [h.bytes, hheld, append_nil]
      rfl
    · have hlt := h.weight_read hn hheld
      obtain ⟨k, hk⟩ := ih _ (hw ▸ hlt) (h.read n) rfl
      refine ⟨k + 1, ?_⟩
      rw [replicate_succ', Trace.exec_append]
      exact hk

/-- **Handover.** The bytes returned and then the bytes held are those of the accepted pushes; a read
reports the end of the stream only when all of them were returned, and reading on returns all. -/
theorem handover_lossless (size : ℕ) (onRead : LinkID) (ops : List ReaderOp)
    (h : Trace.Along (fun before op => (after size onRead before).Spared op) ops) :
    let s := after size onRead ops
    s.accepted = s.returned ++ s.reader.held ∧
      (∀ n, (s.reader.readCall n).1 = .eof → s.returned = s.accepted) ∧
      ∀ n, 1 ≤ n → ∃ k, (Trace.exec step s (List.replicate k (.read n))).returned = s.accepted := by
  intro s
  have hkept : s.Kept := kept_after h
  refine ⟨hkept.bytes, ?_, ?_⟩
  · intro n heof
    exact hkept.eof heof
  · intro n hn
    exact hkept.drains hn

/-- Three handovers, the second begun behind an undrained buffer, the third after an empty chunk. -/
def thrice : List ReaderOp :=
  [.close, .read 2, .read 2, .push [5], .advance, .push [4], .setNextBuffer 8 .second, .read 1,
    .read 1, .read 2,
    .push [3], .setNextBuffer 8 .first, .advance, .setNextBuffer 8 .second, .push [], .push [1, 2]]

theorem handover_thrice :
    let s := after 8 .first thrice
    s.accepted = s.returned ++ s.reader.held ∧
      (∀ n, (s.reader.readCall n).1 = .eof → s.returned = s.accepted) ∧
      ∀ n, 1 ≤ n → ∃ k, (Trace.exec step s (List.replicate k (.read n))).returned = s.accepted :=
  handover_lossless 8 .first thrice (by decide)

/-- A second `SetNextBuffer`, or a `Close`, behind a buffer that is not drained drops a byte that was
accepted: the reads end one byte short. -/
theorem handover_drops :
    (∃ ops, let s := after 8 .first (.setNextBuffer 8 .first :: ops)
      (s.step .close |>.read 1 |>.reader.readCall 1).1 = .eof ∧
        (s.step .close |>.read 1).returned = [1] ∧ (s.step .close |>.read 1).accepted = [1, 2]) ∧
    ∃ ops, let s := after 8 .first (.close :: ops)
      ((s.read 1).reader.readCall 1).1 = .eof ∧ (s.read 1).returned = [1] ∧ (s.read 1).accepted = [1, 2] :=
  ⟨⟨[.push [2], .advance, .setNextBuffer 8 .second, .push [1]], by decide⟩,
    [.push [2], .advance, .setNextBuffer 8 .second, .push [1]], by decide⟩

end Handover

end Astrald.Nodes
