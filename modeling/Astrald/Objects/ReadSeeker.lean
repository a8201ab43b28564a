import Mathlib
import Astrald.Lib.Trace

/-!
# The read seeker

The model of `read_seeker.go` over a repository that opens its readers by `ResolveReadLimit`, against a reader
of the object's bytes. An id is here the size that it carries: that of the object, or 0 for a partial one.

* `Slice`: the reader of a byte slice;
* `Follows`: the read seeker stands where the slice reader stands;
* `readSeeker_refines`: every call gives what the slice reader gives, if the id carries the size at every
  `SeekEnd`;
* `seekEnd_unsized`: with a partial id and nothing opened yet, `SeekEnd` is `SeekStart`.
-/

namespace Astrald.Objects

def maxInt64 : ℤ := 2 ^ 63 - 1

/-- `ResolveReadLimit`; `none` is `ErrOutOfBounds`. -/
def resolveReadLimit (size : ℕ) (offset limit : ℤ) : Option ℤ :=
  if maxInt64 < size ∨ offset < 0 ∨ limit < 0 then none
  else
    let remaining := size - offset
    if remaining < 0 then none
    else if limit = 0 then some remaining
    else some (min limit remaining)

/-- `Repository.Read`: the bytes that the opened reader will deliver. -/
def openReader (content : List UInt8) (offset limit : ℤ) : Option (List UInt8) :=
  (resolveReadLimit content.length offset limit).map fun n => (content.drop offset.toNat).take n.toNat

inductive Whence
  | start
  | current
  | fromEnd
  deriving DecidableEq

/-- A call; a `Read` with the number of bytes that the reader puts at most into the buffer it is given. -/
inductive SeekerOp
  | read (n : ℕ)
  | seek (offset : Int64) (whence : Whence)

/-- What a call gives: the bytes and whether they have ended, or the position and whether the seek went well. -/
inductive SeekerResult
  | read (bytes : List UInt8) (eof : Bool)
  | failed
  | seek (pos : ℤ) (ok : Bool)
  deriving DecidableEq

structure ReadSeeker where
  /-- `objectID.Size`. -/
  size : ℕ
  r : Option (List UInt8)
  pos : ℤ := 0

namespace ReadSeeker

/-- `openAt`, and whether it has opened a reader. -/
def openAt (content : List UInt8) (s : ReadSeeker) (pos : ℤ) : ReadSeeker × Bool :=
  match openReader content pos 0 with
  | none => ({ s with r := none }, false)
  | some rest => ({ size := content.length, r := some rest, pos := pos }, true)

def readOpen (s : ReadSeeker) (n : ℕ) : ReadSeeker × SeekerResult :=
  match s.r with
  | none => (s, .failed)
  | some rest =>
    ({ s with r := some (rest.drop n), pos := s.pos + (rest.take n).length }, .read (rest.take n) rest.isEmpty)

def read (content : List UInt8) (s : ReadSeeker) (n : ℕ) : ReadSeeker × SeekerResult :=
  match s.r with
  | none => (s.openAt content s.pos).1.readOpen n
  | some _ => s.readOpen n

def add64 (a b : ℤ) : ℤ := (a + b).bmod (2 ^ 64)

def target (s : ReadSeeker) (offset : Int64) : Whence → ℤ
  | .start => offset.toInt
  | .current => add64 s.pos offset.toInt
  | .fromEnd => add64 s.size offset.toInt

def seek (content : List UInt8) (s : ReadSeeker) (offset : Int64) (whence : Whence) : ReadSeeker × SeekerResult :=
  let (s', ok) := s.openAt content (s.target offset whence)
  (s', .seek s'.pos ok)

def call (content : List UInt8) (s : ReadSeeker) : SeekerOp → ReadSeeker × SeekerResult
  | .read n => s.read content n
  | .seek offset whence => s.seek content offset whence

def exec (content : List UInt8) : ReadSeeker → List SeekerOp → ReadSeeker :=
  Trace.exec fun s op => (s.call content op).1

end ReadSeeker

/-! ## The reader of a byte slice -/

namespace Slice

def base (content : List UInt8) (pos : ℕ) : Whence → ℤ
  | .start => 0
  | .current => pos
  | .fromEnd => content.length

/-- A call at the offset `pos`, as a reader of the whole byte slice answers it. -/
def call (content : List UInt8) (pos : ℕ) : SeekerOp → ℕ × SeekerResult
  | .read n =>
    let bytes := (content.drop pos).take n
    (pos + bytes.length, .read bytes (content.drop pos).isEmpty)
  | .seek offset whence =>
    let target := base content pos whence + offset.toInt
    if 0 ≤ target ∧ target ≤ content.length then (target.toNat, .seek target true)
    else (pos, .seek pos false)

def exec (content : List UInt8) : List SeekerOp → ℕ := Trace.exec (fun pos op => (call content pos op).1) 0

end Slice

namespace ReadSeeker

variable {content : List UInt8} {s : ReadSeeker} {pos : ℕ}

theorem openReader_eq (fits : (content.length : ℤ) ≤ maxInt64) (offset : ℤ) :
    openReader content offset 0 =
      if 0 ≤ offset ∧ offset ≤ content.length then some (content.drop offset.toNat) else none := by
  simp only [openReader, resolveReadLimit]
  by_cases h : 0 ≤ offset ∧ offset ≤ content.length
  · rw [if_neg (by omega), if_neg (by omega), if_pos trivial, if_pos h, Option.map_some, List.take_of_length_le]
    simp only [List.length_drop]
    omega
  · rw [if_neg h]
    by_cases h' : offset < 0
    · rw [if_pos (.inr (.inl h')), Option.map_none]
    · rw [if_neg (by omega), if_pos (by omega), Option.map_none]

/-- The position of the read seeker is the slice reader's, and an open reader delivers what follows it. -/
structure Follows (content : List UInt8) (s : ReadSeeker) (pos : ℕ) : Prop where
  pos_eq : s.pos = pos
  pos_le : pos ≤ content.length
  rest : ∀ rest, s.r = some rest → rest = content.drop pos

theorem Follows.readOpen (h : Follows content s pos) (hr : s.r = some (content.drop pos)) (n : ℕ) :
    Follows content (s.readOpen n).1 (Slice.call content pos (.read n)).1 ∧
      (s.readOpen n).2 = (Slice.call content pos (.read n)).2 := by
  simp only [ReadSeeker.readOpen, hr, Slice.call, and_true]
  have pos_le := h.pos_le
  refine ⟨by simp [h.pos_eq], by simp; omega, ?_⟩
  intro rest hrest
  cases hrest
  -- Where fewer than `n` bytes are left, both sides are empty.
  simp only [List.drop_drop, List.length_take, List.length_drop]
  rcases Nat.le_total n (content.length - pos) with hle | hle
  · rw [Nat.min_eq_left hle]
  · rw [Nat.min_eq_right hle, List.drop_eq_nil_of_le (by omega), List.drop_eq_nil_of_le (by omega)]

theorem Follows.read (h : Follows content s pos) (fits : (content.length : ℤ) ≤ maxInt64) (n : ℕ) :
    Follows content (s.read content n).1 (Slice.call content pos (.read n)).1 ∧
      (s.read content n).2 = (Slice.call content pos (.read n)).2 := by
  have pos_le := h.pos_le
  cases hr : s.r with
  | some rest =>
    simp only [ReadSeeker.read, hr]
    exact h.readOpen (hr.trans (congrArg some (h.rest rest hr))) n
  | none =>
    simp only [ReadSeeker.read, hr, openAt, openReader_eq fits, h.pos_eq, if_pos
      (⟨Int.natCast_nonneg pos, Int.ofNat_le.mpr pos_le⟩ : (0 : ℤ) ≤ pos ∧ (pos : ℤ) ≤ content.length)]
    exact Follows.readOpen ⟨rfl, pos_le, by simp⟩ (by simp) n

/-- An `int64` sum that overflows is negative, so it is out of bounds like the true one. -/
theorem add64_bounds {a : ℤ} {len : ℕ} (ha : 0 ≤ a) (hle : a ≤ len) (fits : (len : ℤ) ≤ maxInt64) (offset : Int64) :
    (0 ≤ add64 a offset.toInt ∧ add64 a offset.toInt ≤ len ↔ 0 ≤ a + offset.toInt ∧ a + offset.toInt ≤ len) ∧
      (0 ≤ add64 a offset.toInt → add64 a offset.toInt = a + offset.toInt) := by
  have lo := Int64.le_toInt offset
  have hi := Int64.toInt_lt offset
  unfold add64 maxInt64 at *
  rw [Int.bmod_def]
  split <;> omega

section

variable (h : Follows content s pos) (fits : (content.length : ℤ) ≤ maxInt64) (offset : Int64) {whence : Whence} (sized : whence = .fromEnd → s.size = content.length)
include h fits sized

theorem Follows.target_bounds : (0 ≤ s.target offset whence ∧ s.target offset whence ≤ content.length ↔
      0 ≤ Slice.base content pos whence + offset.toInt ∧
        Slice.base content pos whence + offset.toInt ≤ content.length) ∧
    (0 ≤ s.target offset whence → s.target offset whence = Slice.base content pos whence + offset.toInt) := by
  have pos_le := h.pos_le
  cases whence with
  | start => simp [target, Slice.base]
  | current =>
    rw [target, h.pos_eq]
    exact add64_bounds (Int.natCast_nonneg pos) (Int.ofNat_le.mpr pos_le) fits offset
  | fromEnd =>
    rw [target, sized rfl]
    exact add64_bounds (Int.natCast_nonneg _) le_rfl fits offset

theorem Follows.seek :
    Follows content (s.seek content offset whence).1 (Slice.call content pos (.seek offset whence)).1 ∧
      (s.seek content offset whence).2 = (Slice.call content pos (.seek offset whence)).2 := by
  obtain ⟨bounds, eq⟩ := h.target_bounds fits offset sized
  simp only [ReadSeeker.seek, openAt, openReader_eq fits, Slice.call]
  by_cases hin : 0 ≤ s.target offset whence ∧ s.target offset whence ≤ content.length
  · rw [if_pos hin, if_pos (bounds.mp hin), ← eq hin.1]
    exact ⟨⟨(Int.toNat_of_nonneg hin.1).symm, by omega, by simp⟩, rfl⟩
  · rw [if_neg hin, if_neg (bounds.not.mp hin)]
    exact ⟨{ h with rest := nofun }, by simp [h.pos_eq]⟩

end

/-- The id that the read seeker holds carries the size of the object wherever `SeekEnd` uses it. -/
def Sized (content : List UInt8) (s : ReadSeeker) : SeekerOp → Prop
  | .seek _ .fromEnd => s.size = content.length
  | _ => True

theorem Follows.call (h : Follows content s pos) (fits : (content.length : ℤ) ≤ maxInt64) {op : SeekerOp}
    (sized : s.Sized content op) :
    Follows content (s.call content op).1 (Slice.call content pos op).1 ∧
      (s.call content op).2 = (Slice.call content pos op).2 := by
  cases op with
  | read n => exact h.read fits n
  | seek offset whence => exact h.seek fits offset fun hend => by subst hend; exact sized

/-- Every call on a read seeker, created with a full or a partial id and with the reader opened at 0 or none,
gives what the reader of the object's bytes gives, if the id held carries the object's size at every `SeekEnd`. -/
theorem readSeeker_refines (content : List UInt8) (size : ℕ) (opened : Bool) (ops : List SeekerOp) (op : SeekerOp)
    (fits : (content.length : ℤ) ≤ maxInt64)
    (sized : Trace.Along (fun past op =>
      (exec content ⟨size, if opened then some content else none, 0⟩ past).Sized content op) (op :: ops)) :
    ((exec content ⟨size, if opened then some content else none, 0⟩ ops).call content op).2 =
      (Slice.call content (Slice.exec content ops) op).2 := by
  have follows : Follows content (exec content ⟨size, if opened then some content else none, 0⟩ ops)
      (Slice.exec content ops) := by
    obtain ⟨-, sized⟩ := sized
    induction ops with
    | nil => exact ⟨rfl, Nat.zero_le _, by cases opened <;> simp [exec, Trace.exec, Slice.exec, eq_comm]⟩
    | cons op ops ih => exact ((ih sized.2).call fits sized.1).1
  exact (follows.call fits sized.1).2

/-- The first `Read` has taken the full id from the reader it opened, so `SeekEnd` finds the end. -/
theorem readSeeker_refines_afterRead :
    ((exec [1, 2, 3] ⟨0, none, 0⟩ [.read 2]).call [1, 2, 3] (.seek (-1) .fromEnd)).2 = .seek 2 true :=
  (readSeeker_refines [1, 2, 3] 0 false [.read 2] (.seek (-1) .fromEnd) (by decide)
    ⟨rfl, trivial, trivial⟩).trans (by decide +kernel)

/-- A partial id carries no size: `SeekEnd`, before anything was opened or on the reader passed in, goes to the
start, and the end of the object is not reached by it. -/
theorem seekEnd_unsized :
    ((exec [1, 2, 3] ⟨0, none, 0⟩ []).call [1, 2, 3] (.seek 0 .fromEnd)).2 = .seek 0 true ∧
    ((exec [1, 2, 3] ⟨0, some [1, 2, 3], 0⟩ []).call [1, 2, 3] (.seek 0 .fromEnd)).2 = .seek 0 true ∧
    (Slice.call [1, 2, 3] (Slice.exec [1, 2, 3] []) (.seek 0 .fromEnd)).2 = .seek 3 true := by
  decide +kernel

end ReadSeeker
end Astrald.Objects
