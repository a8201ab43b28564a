import Mathlib.Data.List.Basic
import Mathlib.Data.List.Induction

/-!
# Lines as frames

In text mode `wsConn.Write` adds what it is given to `pending`, from which it takes one line after
another and writes each to the underlying connection, as one frame. `wmu` makes the calls one
sequence, whoever makes them.

* `framed`: however a text is split into calls, its lines are the frames, and what follows the last
  of them is pending.
-/

namespace Astrald.Apphost

abbrev Bytes := List UInt8

def newline : UInt8 := 10

/-- `frames` is what the underlying connection has written. -/
structure WsConn where
  frameLines : Bool
  pending : Bytes
  frames : List Bytes

/-- The lines of a text with their newlines, and what follows the last newline. -/
def lines : Bytes → List Bytes × Bytes
  | [] => ([], [])
  | b :: s =>
    if b = newline then ([b] :: (lines s).1, (lines s).2)
    else
      match lines s with
      | ([], rest) => ([], b :: rest)
      | (line :: more, rest) => ((b :: line) :: more, rest)

theorem lines_rest {s : Bytes} (h : newline ∉ s) : lines s = ([], s) := by
  induction s with
  | nil => rfl
  | cons b s ih =>
    rw [List.mem_cons, not_or] at h
    rw [lines, if_neg (Ne.symm h.1), ih h.2]

theorem lines_line {body : Bytes} (h : newline ∉ body) (s : Bytes) :
    lines (body ++ newline :: s) = ((body ++ [newline]) :: (lines s).1, (lines s).2) := by
  induction body with
  | nil => rfl
  | cons b body ih =>
    rw [List.mem_cons, not_or] at h
    rw [List.cons_append, lines, if_neg (Ne.symm h.1), ih h.2]
    rfl

/-- The rest of a text comes before what is added. -/
theorem lines_append (s t : Bytes) :
    lines (s ++ t) = ((lines s).1 ++ (lines ((lines s).2 ++ t)).1, (lines ((lines s).2 ++ t)).2) := by
  induction s with
  | nil => rfl
  | cons b s ih =>
    by_cases hb : b = newline
    · simp only [List.cons_append, lines, if_pos hb, ih]
    · simp only [List.cons_append, lines, if_neg hb, ih]
      rcases lines s with ⟨_ | ⟨line, more⟩, rest⟩
      · simp only [List.nil_append, List.cons_append, lines, if_neg hb]
      · rfl

namespace WsConn

variable (up : Bytes → Bool)

/-- The loop of `Write`, which ends in an error at a frame that the underlying connection fails to write. -/
def flush (frames : List Bytes) (pending : Bytes) : List Bytes × Bytes × Bool :=
  let i := pending.idxOf newline
  if h : i < pending.length then
    if up (pending.take (i + 1)) then flush (frames ++ [pending.take (i + 1)]) (pending.drop (i + 1))
    else (frames, pending, false)
  else (frames, pending, true)
termination_by pending.length
decreasing_by
  rw [List.length_drop]
  omega

/-- The connection after the call, the number of bytes that it reports, and whether it went well. -/
def write (c : WsConn) (p : Bytes) : WsConn × ℕ × Bool :=
  if c.frameLines then
    let r := flush up c.frames (c.pending ++ p)
    ({ c with frames := r.1, pending := r.2.1 }, p.length, r.2.2)
  else if up p then ({ c with frames := c.frames ++ [p] }, p.length, true)
  else (c, 0, false)

/-- A connection in text mode after some calls of `Write`. -/
def exec (chunks : List Bytes) : WsConn := chunks.foldl (fun c p => (c.write up p).1) ⟨true, [], []⟩

variable {up} (hup : ∀ frame, up frame = true)
include hup

theorem flush_eq (frames : List Bytes) (pending : Bytes) :
    flush up frames pending = (frames ++ (lines pending).1, (lines pending).2, true) := by
  fun_induction flush up frames pending with
  | case1 frames pending i h _ ih =>
    obtain ⟨body, s, hsplit, hbody⟩ := List.eq_append_cons_of_mem (List.idxOf_lt_length_iff.mp h)
    have hi : i = body.length := by
      simp only [i, hsplit, List.idxOf_append_of_notMem hbody, List.idxOf_cons_self, Nat.add_zero]
    have htake : pending.take (i + 1) = body ++ [newline] := by
      rw [hi, hsplit, List.take_length_add_append]
      rfl
    have hdrop : pending.drop (i + 1) = s := by
      rw [hi, hsplit, List.drop_length_add_append]
      rfl
    rw [ih, htake, hdrop, hsplit, lines_line hbody, List.append_assoc]
    rfl
  | case2 frames pending i h hdown => exact absurd (hup _) hdown
  | case3 frames pending i h =>
    rw [lines_rest fun hmem => h (List.idxOf_lt_length_iff.mpr hmem), List.append_nil]

theorem exec_eq (chunks : List Bytes) :
    exec up chunks = ⟨true, (lines chunks.flatten).2, (lines chunks.flatten).1⟩ := by
  induction chunks using List.reverseRecOn with
  | nil => rfl
  | append_singleton chunks p ih =>
    have hstep : exec up (chunks ++ [p]) = ((exec up chunks).write up p).1 := List.foldl_append
    rw [hstep, ih, List.flatten_append, List.flatten_singleton, lines_append]
    simp only [write, if_true, flush_eq hup]

/-- **Framing.** However a text is split into calls of `Write`, the frames are its lines and the rest is
pending; the rest comes first in what a further call writes, and every call reports its full length. -/
theorem framed (chunks : List Bytes) (p : Bytes) :
    (exec up chunks).frames = (lines chunks.flatten).1 ∧
      (exec up chunks).pending = (lines chunks.flatten).2 ∧
      ((exec up chunks).write up p).1.frames =
        (exec up chunks).frames ++ (lines ((exec up chunks).pending ++ p)).1 ∧
      ((exec up chunks).write up p).2 = (p.length, true) := by
  rw [exec_eq hup]
  simp only [write, if_true, flush_eq hup, and_self]

omit hup in
theorem framed_split : (exec (fun _ => true) [[1, 10, 2], [], [3, 10, 4]]).frames = [[1, 10], [2, 3, 10]] :=
  (framed (fun _ => rfl) [[1, 10, 2], [], [3, 10, 4]] []).1

end WsConn

end Astrald.Apphost
