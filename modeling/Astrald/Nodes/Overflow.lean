import Mathlib
import Astrald.Lib.Trace
import Astrald.Nodes.Session

/-!
# Credit in machine integers

`OutputBuffer` with its credit as a Go `int` of 32 or 64 bits, and the handlers of `mux.go` that grow it
by what the peer says: `handleQuery`, `handleRelayQuery`, `handleResponse` and `handleRead`. A slice
expression `p[:n]` with `n` out of range ends the process.

* `Output.grow_exact`, `Output.write_exact`: while no sum overflows, the buffer is the one of
  `Nodes.Buffers`, whose credit is a natural number;
* `credit_safe`: no credit is negative and no slice is out of range, provided that no `Grow` makes the
  sum of the credit and the value wrap to a negative number;
* `credit_overflows`: a single frame does so with 32 bits, and many frames do with 64.
-/

namespace Astrald.Nodes.Overflow

/-- The size of a Go `int`. -/
inductive Arch
  | bits32
  | bits64
  deriving DecidableEq, Repr

/-- The least number that is too large for an `int`. -/
def Arch.half : Arch → ℤ
  | .bits32 => 2147483648
  | .bits64 => 9223372036854775808

/-- Two's complement. -/
def Arch.wrap (a : Arch) (x : ℤ) : ℤ := (x + a.half) % (2 * a.half) - a.half

def Arch.ofUInt32 (a : Arch) (v : UInt32) : ℤ := a.wrap v.toNat

/-- What a call of `Write` does: it fails, or it slices its argument at `n`. -/
inductive Written (β : Type)
  | closed
  | empty
  | slice (n : ℤ) (b : β)

/-- `OutputBuffer`. -/
structure Output where
  wsize : ℤ
  closed : Bool
  deriving DecidableEq, Repr

namespace Output

def new : Output := ⟨0, false⟩

def grow (a : Arch) (b : Output) (n : ℤ) : Output := { b with wsize := a.wrap (b.wsize + n) }

/-- `Write` of `len` bytes, up to the slice expression. -/
def write (a : Arch) (b : Output) (len : ℕ) : Written Output :=
  if b.closed then .closed
  else if b.wsize = 0 then .empty
  else .slice (min b.wsize len) { b with wsize := a.wrap (b.wsize - min b.wsize len) }

def close (b : Output) : Output := { b with closed := true }

end Output

/-- A session, from `createSession` on. `fresh` says that its reader and its writer are not there yet,
`expects` that a `Response` of this peer is the one that it waits for, `used` is what its reader holds. -/
structure Conn (K : Type) where
  key : K
  expects : Bool
  peerBuffer : UInt32
  fresh : Bool
  state : SessionState
  closed : Bool
  used : ℕ
  writer : Option Output

/-- The side of one link that this node runs. Sessions are numbered as they are created. -/
structure Mux (K : Type) where
  sessions : K → Option ℕ
  conns : ℕ → Conn K
  count : ℕ
  panicked : Bool

inductive Op (K : Type)
  | query (k : K) (buffer : UInt32)
  | relayQuery (k : K) (buffer : UInt32) (admitted : Bool)
  | response (k : K) (errCode : ℕ) (buffer : UInt32)
  | read (k : K) (len : UInt32)
  | data (k : K) (len : ℕ)
  | reset (k : K)
  /-- `RouteQuery` creates a session for a query of this node. -/
  | route (k : K) (expects : Bool)
  /-- The rest of `createSession`. -/
  | setup (i : ℕ)
  | accept (i : ℕ)
  | take (i : ℕ) (n : ℕ)
  | write (i : ℕ) (len : ℕ)
  | close (i : ℕ)

variable {K : Type} [DecidableEq K]

namespace Mux

/-- A mux without sessions; `k` is the key of the sessions that are not there. -/
def start (k : K) : Mux K :=
  ⟨fun _ => none, fun _ => ⟨k, false, 0, false, .closed, true, 0, none⟩, 0, false⟩

def setConn (m : Mux K) (i : ℕ) (c : Conn K) : Mux K := { m with conns := Function.update m.conns i c }

/-- The first step of `createSession`. -/
def create (m : Mux K) (k : K) (expects : Bool) (buffer : UInt32) : Mux K :=
  match m.sessions k with
  | some _ => m
  | none =>
    { m with
      sessions := Function.update m.sessions k (some m.count)
      conns := Function.update m.conns m.count ⟨k, expects, buffer, true, .routing, false, 0, none⟩
      count := m.count + 1 }

/-- `session.Close`. -/
def closeConn (m : Mux K) (i : ℕ) : Mux K :=
  let c := m.conns i
  if c.closed then m
  else
    { m.setConn i { c with closed := true, state := .closed, writer := c.writer.map Output.close } with
      sessions := Function.update m.sessions c.key none }

/-- `Setup`, and what `createSession` does before and after it. -/
def setup (a : Arch) (m : Mux K) (i : ℕ) : Mux K :=
  let c := m.conns i
  if c.fresh then
    if c.closed then
      { m.setConn i { c with fresh := false } with sessions := Function.update m.sessions c.key none }
    else m.setConn i { c with fresh := false, writer := some (Output.new.grow a (a.ofUInt32 c.peerBuffer)) }
  else m

def grow (a : Arch) (c : Conn K) (v : UInt32) : Conn K :=
  { c with writer := c.writer.map fun b => b.grow a (a.ofUInt32 v) }

def handleResponse (a : Arch) (m : Mux K) (i : ℕ) (errCode : ℕ) (buffer : UInt32) : Mux K :=
  let c := m.conns i
  if c.expects = true ∧ c.state = .routing then
    if errCode ≠ 0 then m.setConn i { c with state := .closed }
    else m.setConn i (grow a { c with state := .open } buffer)
  else m

def handleData (m : Mux K) (i : ℕ) (len : ℕ) : Mux K :=
  let c := m.conns i
  if (c.state = .open ∨ c.state = .migrating) ∧ c.writer ≠ none then
    if c.used + len > defaultBufferSize then m.closeConn i else m.setConn i { c with used := c.used + len }
  else m

/-- A pass of the loop in the writer's `Write`. -/
def write (a : Arch) (m : Mux K) (i : ℕ) (len : ℕ) : Mux K :=
  match (m.conns i).writer with
  | none => m
  | some b =>
    match b.write a len with
    | .slice n b' =>
      if 0 ≤ n ∧ n ≤ len then m.setConn i { m.conns i with writer := some b' }
      else { m with panicked := true }
    | _ => m

/-- What a handler does with the session that a frame names. -/
def withSession (m : Mux K) (k : K) (f : ℕ → Mux K) : Mux K := (m.sessions k).elim m f

def step (a : Arch) (m : Mux K) (op : Op K) : Mux K :=
  if m.panicked then m
  else
    match op with
    | .query k buffer => m.create k true buffer
    | .relayQuery k buffer admitted => if admitted then m.create k true buffer else m
    | .response k errCode buffer => m.withSession k fun i => m.handleResponse a i errCode buffer
    | .read k len => m.withSession k fun i => m.setConn i (grow a (m.conns i) len)
    | .data k len => m.withSession k fun i => m.handleData i len
    | .reset k => m.withSession k fun i => m.closeConn i
    | .route k expects => m.create k expects 0
    | .setup i => m.setup a i
    | .accept i => m.setConn i { m.conns i with state := .open }
    | .take i n => m.setConn i { m.conns i with used := (m.conns i).used - n }
    | .write i len => m.write a i len
    | .close i => m.closeConn i

def after (a : Arch) (k : K) (ops : List (Op K)) : Mux K := Trace.exec (step a) (start k) ops

end Mux

/-! ## The buffer -/

/-- The sum of a credit and a value that the peer names is none that wraps to a negative number. -/
def Fits (a : Arch) (credit : ℤ) (v : UInt32) : Prop :=
  credit + v.toNat < a.half ∨ 2 * a.half ≤ credit + v.toNat

instance (a : Arch) (credit : ℤ) (v : UInt32) : Decidable (Fits a credit v) :=
  inferInstanceAs (Decidable (_ ∨ _))

namespace Output

/-- The credit is a number that an `int` holds, and not negative. -/
def Fine (a : Arch) (b : Output) : Prop := 0 ≤ b.wsize ∧ b.wsize < a.half

theorem fine_new (a : Arch) : new.Fine a := by
  cases a <;> exact ⟨by decide, by decide⟩

theorem wsize_grow (a : Arch) (b : Output) (v : UInt32) :
    (b.grow a (a.ofUInt32 v)).wsize = a.wrap (b.wsize + v.toNat) := by
  show a.wrap (b.wsize + a.wrap v.toNat) = _
  unfold Arch.wrap
  cases a <;> simp only [Arch.half] <;> omega

theorem Fine.grow {a : Arch} {b : Output} (h : b.Fine a) {v : UInt32} (hfits : Fits a b.wsize v) :
    (b.grow a (a.ofUInt32 v)).Fine a := by
  have hv : v.toNat < 4294967296 := v.toNat_lt
  obtain ⟨hpos, hlt⟩ := h
  unfold Fine
  rw [wsize_grow]
  unfold Fits at hfits
  unfold Arch.wrap
  cases a <;> simp only [Arch.half] at hfits hlt ⊢ <;> omega

/-- A `Write` on a credit that is not negative slices within its argument. -/
theorem Fine.write {a : Arch} {b b' : Output} (h : b.Fine a) {len : ℕ} {n : ℤ}
    (hw : b.write a len = .slice n b') : 0 ≤ n ∧ n ≤ len ∧ b'.Fine a := by
  obtain ⟨hpos, hlt⟩ := h
  unfold Output.write at hw
  split at hw
  · cases hw
  · split at hw
    · cases hw
    · cases hw
      refine ⟨by omega, by omega, ?_⟩
      unfold Fine Arch.wrap
      cases a <;> simp only [Arch.half] at hlt ⊢ <;> omega

def Agrees (b : Output) (b₀ : OutputBuffer) : Prop := b.wsize = b₀.wsize ∧ b.closed = b₀.closed

theorem grow_exact {a : Arch} {b : Output} {b₀ : OutputBuffer} (h : b.Agrees b₀) {v : UInt32}
    (hfits : b.wsize + v.toNat < a.half) : (b.grow a (a.ofUInt32 v)).Agrees (b₀.grow v.toNat) := by
  refine ⟨?_, h.2⟩
  have hsize : b.wsize = b₀.wsize := h.1
  show _ = ((b₀.wsize + v.toNat : ℕ) : ℤ)
  rw [wsize_grow]
  unfold Arch.wrap
  cases a <;> simp only [Arch.half] at hfits ⊢ <;> omega

theorem write_exact {a : Arch} {b b' : Output} {b₀ : OutputBuffer} (h : b.Agrees b₀) (hfine : b.Fine a)
    {p : List Byte} {n : ℤ} (hw : b.write a p.length = .slice n b') :
    ∃ n₀ b₀', b₀.write p = .ok (n₀, b₀') ∧ n = n₀ ∧ b'.Agrees b₀' := by
  have hsize : b.wsize = b₀.wsize := h.1
  obtain ⟨-, hlt⟩ := hfine
  unfold Output.write at hw
  split at hw
  · cases hw
  · rename_i hopen
    split at hw
    · cases hw
    · cases hw
      refine ⟨min b₀.wsize p.length, { b₀ with wsize := b₀.wsize - min b₀.wsize p.length }, ?_, ?_, ?_, h.2⟩
      · unfold OutputBuffer.write
        rw [if_neg (by rw [← h.2]; exact hopen), if_neg (by omega)]
      · omega
      · unfold Arch.wrap
        cases a <;> simp only [Arch.half] at hlt ⊢ <;> omega

end Output

/-! ## The sessions -/

namespace Mux

/-- The state and the step that the credit is safe in: each `Grow` fits. -/
def Bounded (a : Arch) (m : Mux K) : Op K → Prop
  | .response k errCode buffer => ∀ i ∈ m.sessions k, ∀ b ∈ (m.conns i).writer,
      (m.conns i).expects = true → (m.conns i).state = .routing → errCode = 0 → Fits a b.wsize buffer
  | .read k len => ∀ i ∈ m.sessions k, ∀ b ∈ (m.conns i).writer, Fits a b.wsize len
  | .setup i => (m.conns i).fresh = true → (m.conns i).closed = false → Fits a 0 (m.conns i).peerBuffer
  | _ => True

instance (a : Arch) (m : Mux K) : (op : Op K) → Decidable (m.Bounded a op)
  | .response _ _ _ => inferInstanceAs (Decidable (∀ i ∈ m.sessions _, ∀ b ∈ (m.conns i).writer, _))
  | .read _ _ => inferInstanceAs (Decidable (∀ i ∈ m.sessions _, ∀ b ∈ (m.conns i).writer, _))
  | .setup i => inferInstanceAs (Decidable ((m.conns i).fresh = true → _))
  | .query _ _ | .relayQuery _ _ _ | .data _ _ | .reset _ | .route _ _ | .accept _ | .take _ _ | .write _ _
  | .close _ => instDecidableTrue

/-- The writer of a session, if it is there, has a credit that is not negative. -/
def FineConn (a : Arch) (c : Conn K) : Prop := ∀ b ∈ c.writer, b.Fine a

structure Safe (a : Arch) (m : Mux K) : Prop where
  running : m.panicked = false
  fine : ∀ i, FineConn a (m.conns i)

omit [DecidableEq K] in
theorem safe_start (a : Arch) (k : K) : (start k).Safe a := by
  refine ⟨rfl, ?_⟩
  rintro i b ⟨⟩

variable {a : Arch} {m : Mux K}

omit [DecidableEq K] in
theorem Safe.setConn (h : m.Safe a) {i : ℕ} {c : Conn K} (hc : FineConn a c) : (m.setConn i c).Safe a :=
  ⟨h.running, (Function.forall_update_iff m.conns fun _ => FineConn a).mpr ⟨hc, fun j _ => h.fine j⟩⟩

omit [DecidableEq K] in
theorem Safe.sessions (h : m.Safe a) (sessions : K → Option ℕ) :
    ({ m with sessions := sessions } : Mux K).Safe a := ⟨h.running, h.fine⟩

theorem Safe.create (h : m.Safe a) (k : K) (expects : Bool) (buffer : UInt32) :
    (m.create k expects buffer).Safe a := by
  unfold Mux.create
  cases m.sessions k with
  | some i => exact h
  | none =>
    have hnew : FineConn a (⟨k, expects, buffer, true, .routing, false, 0, none⟩ : Conn K) := by
      rintro b ⟨⟩
    exact ⟨h.running, (h.setConn (i := m.count) hnew).fine⟩

theorem Safe.closeConn (h : m.Safe a) (i : ℕ) : (m.closeConn i).Safe a := by
  refine Trace.unless_keeps h fun _ => ?_
  apply Safe.sessions
  apply h.setConn
  intro b hb
  obtain ⟨b₀, hb₀, rfl⟩ := Option.map_eq_some_iff.mp hb
  exact h.fine i b₀ hb₀

theorem Safe.setup (h : m.Safe a) {i : ℕ} (hop : m.Bounded a (.setup i)) : (m.setup a i).Safe a := by
  refine Trace.when_keeps h fun hfresh => ?_
  split
  · apply Safe.sessions
    apply h.setConn
    exact h.fine i
  · rename_i hopen
    apply h.setConn
    rintro b ⟨⟩
    apply (Output.fine_new a).grow
    exact hop hfresh (by simpa using hopen)

omit [DecidableEq K] in
theorem fine_grow {c : Conn K} (h : FineConn a c) {v : UInt32} (hfits : ∀ b ∈ c.writer, Fits a b.wsize v) :
    FineConn a (grow a c v) := by
  intro b hb
  obtain ⟨b₀, hb₀, rfl⟩ := Option.map_eq_some_iff.mp hb
  exact (h b₀ hb₀).grow (hfits b₀ hb₀)

omit [DecidableEq K] in
theorem Safe.handleResponse (h : m.Safe a) {k : K} {i : ℕ} (hi : m.sessions k = some i) {errCode : ℕ}
    {buffer : UInt32} (hop : m.Bounded a (.response k errCode buffer)) :
    (m.handleResponse a i errCode buffer).Safe a := by
  refine Trace.when_keeps h fun hexp => ?_
  split
  · exact h.setConn (h.fine i)
  · rename_i hcode
    apply h.setConn
    apply fine_grow (h.fine i)
    intro b hb
    exact hop i hi b hb hexp.1 hexp.2 (by simpa using hcode)

theorem Safe.handleData (h : m.Safe a) (i len : ℕ) : (m.handleData i len).Safe a := by
  refine Trace.when_keeps h fun _ => ?_
  split
  · exact h.closeConn i
  · exact h.setConn (h.fine i)

omit [DecidableEq K] in
theorem Safe.write (h : m.Safe a) (i len : ℕ) : (m.write a i len).Safe a := by
  unfold Mux.write
  split
  · exact h
  · rename_i b hb
    split
    · rename_i n b' hw
      obtain ⟨hpos, hle, hfine⟩ := (h.fine i b hb).write hw
      rw [if_pos ⟨hpos, hle⟩]
      apply h.setConn
      rintro b ⟨⟩
      exact hfine
    · exact h

/-- A step whose `Grow` fits leaves every credit safe. -/
theorem Safe.step (h : m.Safe a) {op : Op K} (hop : m.Bounded a op) : (m.step a op).Safe a := by
  unfold Mux.step
  rw [if_neg (by rw [h.running]; exact Bool.false_ne_true)]
  cases op with
  | query k buffer => exact h.create k true buffer
  | relayQuery k buffer admitted =>
    cases admitted with
    | true => exact h.create k true buffer
    | false => exact h
  | response k errCode buffer => exact Trace.elim_keeps h _ _ fun i hi => h.handleResponse hi hop
  | read k len => exact Trace.elim_keeps h _ _ fun i hi => h.setConn (fine_grow (h.fine i) (hop i hi))
  | data k len => exact Trace.elim_keeps h _ _ fun i _ => h.handleData i len
  | reset k => exact Trace.elim_keeps h _ _ fun i _ => h.closeConn i
  | route k expects => exact h.create k expects 0
  | setup i => exact h.setup hop
  | accept i | take i n => exact h.setConn (h.fine i)
  | write i len => exact h.write i len
  | close i => exact h.closeConn i

theorem safe_after {k : K} {ops : List (Op K)}
    (h : Trace.Along (fun before op => (after a k before).Bounded a op) ops) : (after a k ops).Safe a :=
  h.invariant (safe_start a k) fun _ _ hop ih => ih.step hop

/-- **Credit.** Whatever the peer sends, no credit is negative, and `Write` slices within its argument. -/
theorem credit_safe (a : Arch) (k : K) (ops : List (Op K))
    (h : Trace.Along (fun before op => (after a k before).Bounded a op) ops) :
    (after a k ops).panicked = false ∧ ∀ i, ∀ b ∈ ((after a k ops).conns i).writer,
      0 ≤ b.wsize ∧ ∀ len n b', b.write a len = .slice n b' → 0 ≤ n ∧ n ≤ len := by
  have hsafe := safe_after h
  refine ⟨hsafe.running, ?_⟩
  intro i b hb
  have hfine := hsafe.fine i b hb
  refine ⟨hfine.1, ?_⟩
  intro len n b' hw
  exact ⟨(hfine.write hw).1, (hfine.write hw).2.1⟩

/-- A query that is accepted and written to, under credit that the peer extends. -/
def conversation : List (Op ℕ) :=
  [.write 0 100, .read 7 4294967295, .write 0 5000, .data 7 8192, .accept 0, .setup 0, .query 7 4096]

theorem credit_conversation :
    (after .bits64 0 conversation).panicked = false ∧
    ∀ i, ∀ b ∈ ((after .bits64 0 conversation).conns i).writer,
      0 ≤ b.wsize ∧ ∀ len n b', b.write .bits64 len = .slice n b' → 0 ≤ n ∧ n ≤ len :=
  credit_safe .bits64 0 conversation (by decide)

/-! ## Overflow -/

/-- A session with a query of the largest buffer, accepted. -/
def opened : List (Op ℕ) := [.accept 0, .setup 0, .query 7 4294967295]

/-- A mux whose session 0, under nonce 7, has the given credit. -/
def Credited (m : Mux ℕ) (credit : ℤ) : Prop :=
  m.panicked = false ∧ m.sessions 7 = some 0 ∧ (m.conns 0).writer = some ⟨credit, false⟩

/-- A `Read` frame after another adds its length to the credit. -/
theorem Credited.reads {ops : List (Op ℕ)} {credit : ℤ} (h : (after a 0 ops).Credited (a.wrap credit))
    (len : UInt32) (n : ℕ) :
    (after a 0 (List.replicate n (.read 7 len) ++ ops)).Credited (a.wrap (credit + n * len.toNat)) := by
  induction n with
  | zero =>
    rw [Nat.cast_zero, zero_mul, add_zero]
    exact h
  | succ n ih =>
    obtain ⟨hrunning, hsession, hwriter⟩ := ih
    obtain ⟨m, hm⟩ : ∃ m, m = after a 0 (List.replicate n (.read 7 len) ++ ops) := ⟨_, rfl⟩
    rw [← hm] at hrunning hsession hwriter
    have hstep : after a 0 (List.replicate (n + 1) (.read 7 len) ++ ops) =
        m.setConn 0 (grow a (m.conns 0) len) := by
      show Mux.step a (after a 0 (List.replicate n (.read 7 len) ++ ops)) (.read 7 len) = _
      rw [← hm, Mux.step, if_neg (by rw [hrunning]; exact Bool.false_ne_true)]
      show (m.sessions 7).elim m _ = _
      rw [hsession, Option.elim_some]
    rw [hstep]
    refine ⟨hrunning, hsession, ?_⟩
    show (Function.update m.conns 0 (grow a (m.conns 0) len) 0).writer = _
    show (m.conns 0).writer.map _ = _
    rw [hwriter, Option.map_some, Option.some.injEq]
    have hsize := Output.wsize_grow a ⟨a.wrap (credit + n * len.toNat), false⟩ len
    have hsum : a.wrap (a.wrap (credit + n * len.toNat) + len.toNat) =
        a.wrap (credit + ((n + 1 : ℕ) : ℤ) * len.toNat) := by
      push_cast
      rw [add_mul, one_mul, ← add_assoc]
      unfold Arch.wrap
      cases a <;> simp only [Arch.half] <;> omega
    rw [hsum] at hsize
    exact Output.mk.injEq .. ▸ ⟨hsize, rfl⟩

omit [DecidableEq K] in
theorem write_negative {i : ℕ} {credit : ℤ} (hneg : credit < 0)
    (hwriter : (m.conns i).writer = some ⟨credit, false⟩) (len : ℕ) : (m.write a i len).panicked = true := by
  have hslice : Output.write a ⟨credit, false⟩ len =
      .slice (min credit len) ⟨a.wrap (credit - min credit len), false⟩ := by
    unfold Output.write
    rw [if_neg Bool.false_ne_true, if_neg (by dsimp only; omega)]
  unfold Mux.write
  rw [hwriter]
  dsimp only
  rw [hslice]
  dsimp only
  rw [if_neg (by omega)]

/-- The frames after which the credit of a 64 bit `int` is negative make a `Write` panic. -/
theorem reads_panic {n : ℕ} (hneg : Arch.bits64.wrap (4294967295 + n * (4294967295 : UInt32).toNat) < 0) :
    (after .bits64 0 (.write 0 1 :: (List.replicate n (.read 7 4294967295) ++ opened))).panicked = true := by
  have hopened : (after .bits64 0 opened).Credited (Arch.bits64.wrap 4294967295) :=
    ⟨by decide, by decide, by decide⟩
  obtain ⟨hrunning, -, hwriter⟩ := hopened.reads 4294967295 n
  show (Mux.step .bits64 (after .bits64 0 _) (.write 0 1)).panicked = true
  rw [Mux.step, if_neg (by rw [hrunning]; exact Bool.false_ne_true)]
  exact write_negative hneg hwriter 1

/-- With 32 bits the buffer that a query names is enough: a `Write` of one byte panics. With 64 bits it
takes the `Read` frames that make the sum reach the least number that is too large. -/
theorem credit_overflows :
    (after .bits32 0 (.write 0 1 :: opened)).panicked = true ∧
      ∃ n : ℕ, (after .bits64 0
        (.write 0 1 :: (List.replicate n (.read 7 4294967295) ++ opened))).panicked = true := by
  refine ⟨by decide, ?_⟩
  exact ⟨2147483648, reads_panic (by decide)⟩

end Mux

end Astrald.Nodes.Overflow
