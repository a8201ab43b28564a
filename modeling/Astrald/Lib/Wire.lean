import Mathlib
import Astrald.Lib.Fallible

/-!
# Reading back what was written

A writer appends bytes and counts them; a reader takes bytes from the front, counts them, and
fails at the end of the input. `Trip w r a` says that `w` writes bytes which `r`, whatever follows
them, reads back as `a`, taking exactly these bytes and counting each of them once, on both sides;
and that `r` fails on every proper prefix of them.

* `Trip.pure`, `Trip.bind`: a trip is made of the trips of its parts, one after the other;
* `trip_uint`: unsigned integers of a fixed width, in either byte order;
* `trip_bytes`: a run of bytes of known length.
-/

namespace Wire

open List

/-! ## Writers and readers -/

/-- The bytes written and the number of bytes reported. -/
structure Out where
  bytes : List UInt8
  n : ℕ
  deriving DecidableEq, Repr

/-- The bytes still to be read and the number of bytes reported. -/
structure In where
  rest : List UInt8
  n : ℕ
  deriving DecidableEq, Repr

inductive Err
  | eof
  | unexpectedEOF
  | other
  deriving DecidableEq, Repr

abbrev Enc := Out → Out

abbrev Dec (α : Type) := Fallible Err In α

def Enc.andThen (w w' : Enc) : Enc := fun o => w' (w o)

/-- `io.ReadFull`, which counts nothing: the bytes, or what there is of them. -/
def readFull (k : ℕ) (s : In) : Except (Err × List UInt8) (List UInt8) × In :=
  if k ≤ s.rest.length then (.ok (s.rest.take k), { s with rest := s.rest.drop k })
  else if s.rest = [] then (.error (.eof, []), s)
  else (.error (.unexpectedEOF, s.rest), { s with rest := [] })

/-- A value of fixed width, counted once it is read. -/
def readFixed (k : ℕ) : Dec (List UInt8) :=
  Fallible.of fun s =>
    match readFull k s with
    | (.ok bs, s') => (.ok bs, { s' with n := s'.n + k })
    | (.error (e, _), s') => (.error e, s')

/-- A run of bytes, counted as far as it is read. -/
def readBytes (k : ℕ) : Dec (List UInt8) :=
  Fallible.of fun s =>
    match readFull k s with
    | (.ok bs, s') => (.ok bs, { s' with n := s'.n + bs.length })
    | (.error (e, bs), s') => (.error e, { s' with n := s'.n + bs.length })

def putFixed (k : ℕ) (bs : List UInt8) : Enc := fun o => ⟨o.bytes ++ bs, o.n + k⟩

def putBytes (bs : List UInt8) : Enc := fun o => ⟨o.bytes ++ bs, o.n + bs.length⟩

/-! ## Trips -/

/-- The writer writes these bytes and reports their number. -/
def Writes (w : Enc) (bs : List UInt8) : Prop := ∀ o, w o = ⟨o.bytes ++ bs, o.n + bs.length⟩

/-- The reader takes these bytes for `a`, and fails on a proper prefix of them. -/
structure Reads {α : Type} (r : Dec α) (bs : List UInt8) (a : α) : Prop where
  takes : ∀ rest n, r.exec ⟨bs ++ rest, n⟩ = (.ok a, ⟨rest, n + bs.length⟩)
  short : ∀ p n, p <+: bs → p ≠ bs → ∃ e s, r.exec ⟨p, n⟩ = (.error e, s)

def Trip {α : Type} (w : Enc) (r : Dec α) (a : α) : Prop := ∃ bs, Writes w bs ∧ Reads r bs a

variable {α β : Type}

theorem Reads.pure (a : α) : Reads (pure a : Dec α) [] a := by
  refine ⟨fun rest n => rfl, fun p n hp hne => absurd (prefix_nil.mp hp) hne⟩

variable {bs : List UInt8} {k : ℕ}

/-- A proper prefix of two runs of bytes ends in the first or in the second. -/
theorem prefix_append_cases {p cs : List UInt8} (hp : p <+: bs ++ cs) (hne : p ≠ bs ++ cs) :
    (p <+: bs ∧ p ≠ bs) ∨ ∃ q, p = bs ++ q ∧ q <+: cs ∧ q ≠ cs := by
  rcases prefix_or_prefix_of_prefix hp (prefix_append bs cs) with hshort | ⟨q, rfl⟩
  · by_cases heq : p = bs
    · subst heq
      refine .inr ⟨[], (append_nil p).symm, nil_prefix, ?_⟩
      rintro rfl
      exact hne (append_nil p).symm
    · exact .inl ⟨hshort, heq⟩
  · refine .inr ⟨q, rfl, (prefix_append_right_inj bs).mp hp, ?_⟩
    rintro rfl
    exact hne rfl

theorem Reads.bind {r : Dec α} {f : α → Dec β} {cs : List UInt8} {a : α} {b : β} (hr : Reads r bs a)
    (hf : Reads (f a) cs b) : Reads (r >>= f) (bs ++ cs) b := by
  constructor
  · intro rest n
    rw [Fallible.exec_bind, append_assoc, hr.takes (cs ++ rest) n]
    show (f a).exec ⟨cs ++ rest, n + bs.length⟩ = _
    rw [hf.takes, length_append, Nat.add_assoc]
  · intro p n hp hne
    rw [Fallible.exec_bind]
    rcases prefix_append_cases hp hne with ⟨hshort, hproper⟩ | ⟨q, rfl, hq, hproper⟩
    · obtain ⟨e, s, herr⟩ := hr.short p n hshort hproper
      exact ⟨e, s, by rw [herr]⟩
    · obtain ⟨e, s, herr⟩ := hf.short q (n + bs.length) hq hproper
      exact ⟨e, s, by rw [hr.takes q n]; exact herr⟩

theorem Writes.andThen {w w' : Enc} {cs : List UInt8} (hw : Writes w bs) (hw' : Writes w' cs) :
    Writes (w.andThen w') (bs ++ cs) := by
  intro o
  rw [Enc.andThen, hw o, hw']
  simp only [append_assoc, length_append, Nat.add_assoc]

theorem Trip.pure (a : α) : Trip id (Pure.pure a) a :=
  ⟨[], fun o => by simp, Reads.pure a⟩

theorem Trip.bind {w w' : Enc} {r : Dec α} {f : α → Dec β} {a : α} {b : β} (h : Trip w r a)
    (h' : Trip w' (f a) b) : Trip (w.andThen w') (r >>= f) b := by
  obtain ⟨bs, hw, hr⟩ := h
  obtain ⟨cs, hw', hf⟩ := h'
  exact ⟨bs ++ cs, hw.andThen hw', hr.bind hf⟩

theorem Trip.map {w : Enc} {r : Dec α} {a : α} (h : Trip w r a) (f : α → β) :
    Trip w (r >>= fun a => Pure.pure (f a)) (f a) := by
  have hbind : Trip (w.andThen id) (r >>= fun a => Pure.pure (f a)) (f a) := h.bind (Trip.pure (f a))
  exact hbind

/-- What a trip says of a whole frame, written on its own. -/
theorem Trip.whole {w : Enc} {r : Dec α} {a : α} (h : Trip w r a) (rest : List UInt8) :
    r.exec ⟨(w ⟨[], 0⟩).bytes ++ rest, 0⟩ = (.ok a, ⟨rest, (w ⟨[], 0⟩).n⟩) ∧
      (w ⟨[], 0⟩).n = (w ⟨[], 0⟩).bytes.length ∧
      ∀ p, p <+: (w ⟨[], 0⟩).bytes → p ≠ (w ⟨[], 0⟩).bytes → ∃ e s, r.exec ⟨p, 0⟩ = (.error e, s) := by
  obtain ⟨bs, hw, hr⟩ := h
  rw [hw ⟨[], 0⟩]
  simp only [nil_append, Nat.zero_add]
  refine ⟨?_, trivial, fun p hp hne => hr.short p 0 hp hne⟩
  rw [hr.takes rest 0, Nat.zero_add]

/-! ## Values of fixed width -/

theorem readFull_short {s : In} (h : s.rest.length < k) : ∃ e s', readFull k s = (.error e, s') := by
  rw [readFull, if_neg (by omega)]
  split <;> exact ⟨_, _, rfl⟩

theorem length_lt_of_cut {p : List UInt8} (hp : p <+: bs) (hne : p ≠ bs) : p.length < bs.length := by
  rcases Nat.lt_or_ge p.length bs.length with hlt | hge
  · exact hlt
  · exact absurd (hp.eq_of_length_le hge) hne

theorem reads_fixed (h : bs.length = k) : Reads (readFixed k) bs bs := by
  subst h
  constructor
  · intro rest n
    rw [readFixed, Fallible.exec_of, readFull, if_pos (by simp)]
    simp
  · intro p n hp hne
    obtain ⟨e, s, herr⟩ := readFull_short (s := ⟨p, n⟩) (length_lt_of_cut hp hne)
    rw [readFixed, Fallible.exec_of, herr]
    exact ⟨_, _, rfl⟩

theorem trip_fixed (h : bs.length = k) : Trip (putFixed k bs) (readFixed k) bs :=
  ⟨bs, fun o => by rw [putFixed, h], reads_fixed h⟩

theorem trip_bytes (bs : List UInt8) : Trip (putBytes bs) (readBytes bs.length) bs := by
  refine ⟨bs, fun o => rfl, ?_, ?_⟩
  · intro rest n
    rw [readBytes, Fallible.exec_of, readFull, if_pos (by simp)]
    simp
  · intro p n hp hne
    obtain ⟨e, s, herr⟩ := readFull_short (s := ⟨p, n⟩) (length_lt_of_cut hp hne)
    rw [readBytes, Fallible.exec_of, herr]
    exact ⟨_, _, rfl⟩

/-! ## Integers -/

inductive ByteOrder
  | bigEndian
  | littleEndian
  deriving DecidableEq, Repr

/-- The bytes of a number, the least significant first. -/
def bytesOf : ℕ → ℕ → List UInt8
  | 0, _ => []
  | k + 1, x => UInt8.ofNat x :: bytesOf k (x / 256)

def natOf : List UInt8 → ℕ
  | [] => 0
  | b :: bs => b.toNat + 256 * natOf bs

@[simp] theorem length_bytesOf (k x : ℕ) : (bytesOf k x).length = k := by
  induction k generalizing x with
  | zero => rfl
  | succ k ih => simp [bytesOf, ih]

theorem natOf_bytesOf {x : ℕ} (h : x < 256 ^ k) : natOf (bytesOf k x) = x := by
  induction k generalizing x with
  | zero =>
    simp [bytesOf, natOf]
    omega
  | succ k ih =>
    have hdiv : x / 256 < 256 ^ k := by
      exact Nat.div_lt_of_lt_mul (by rw [Nat.mul_comm]; exact h)
    have hbyte : (UInt8.ofNat x).toNat = x % 256 := rfl
    rw [bytesOf, natOf, ih hdiv, hbyte]
    omega

namespace ByteOrder

def encode : ByteOrder → ℕ → ℕ → List UInt8
  | bigEndian, k, x => (bytesOf k x).reverse
  | littleEndian, k, x => bytesOf k x

def decode : ByteOrder → List UInt8 → ℕ
  | bigEndian, bs => natOf bs.reverse
  | littleEndian, bs => natOf bs

@[simp] theorem length_encode (order : ByteOrder) (k x : ℕ) : (order.encode k x).length = k := by
  cases order <;> simp [encode]

theorem decode_encode (order : ByteOrder) {k x : ℕ} (h : x < 256 ^ k) :
    order.decode (order.encode k x) = x := by
  cases order with
  | bigEndian => rw [encode, decode, reverse_reverse, natOf_bytesOf h]
  | littleEndian => exact natOf_bytesOf h

end ByteOrder

/-- `binary.Write` of an unsigned integer of `k` bytes. -/
def putUInt (order : ByteOrder) (k x : ℕ) : Enc := putFixed k (order.encode k x)

/-- `binary.Read` of an unsigned integer of `k` bytes. -/
def readUInt (order : ByteOrder) (k : ℕ) : Dec ℕ := do
  let bs ← readFixed k
  pure (order.decode bs)

theorem trip_uint (order : ByteOrder) {x : ℕ} (h : x < 256 ^ k) :
    Trip (putUInt order k x) (readUInt order k) x := by
  have htrip := (trip_fixed (order.length_encode k x)).map order.decode
  rw [order.decode_encode h] at htrip
  exact htrip

end Wire
