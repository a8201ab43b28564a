import Mathlib
import Astrald.Lib.Trace
import Astrald.Nodes.Buffers

/-!
# Read loops and full pipes

The model of what can block on a link: two endpoints with any number of sessions, and between them
two pipes of fixed capacity, on which `channel.Send` waits for a free place.

* `Write` keeps the lock of the writer from taking credit until its last `Data` frame is sent, and
  `Read` the mutex of the input buffer until its `Read` frame is sent;
* the read loop takes one frame after another and handles it, and a handler waits: `handleRead` for
  the lock of the writer, `handleData` for the mutex, `handleReset` for both, and for a place in its
  own pipe whatever has to send, a pong or the `Reset` for a session that is not there.

Lengths stand for bytes. That a ping times out, and the link is closed, is not part of the model.

* `System.weight_exec`: what can be on its way at most;
* `System.release`: a read loop gets through if its pipe has room for what the holders of the locks
  have to send;
* `System.not_blocked`: two pipes with room enough never block both read loops.
-/

namespace Astrald.Nodes.Backpressure

open Function

inductive Frame (ι : Type)
  | data (s : ι) (len : ℕ)
  | read (s : ι) (len : ℕ)
  | reset (s : ι)
  | ping
  | pong
  deriving DecidableEq, Repr

def Frame.session {ι : Type} : Frame ι → Option ι
  | .data i _ | .read i _ | .reset i => some i
  | _ => none

structure Half where
  registered : Bool
  credit : ℕ
  /-- What a `Write` that holds the lock of the writer has taken and not sent. -/
  sending : ℕ
  writerClosed : Bool
  used : ℕ
  /-- What a `Read` that holds the mutex of the input buffer has copied and not granted. -/
  granting : ℕ
  readerClosed : Bool
  /-- A `Close` has closed the writer and not sent its `Reset`. -/
  resetting : Bool
  deriving DecidableEq, Repr

namespace Half

def opened : Half := ⟨true, defaultBufferSize, 0, false, 0, 0, false, false⟩

/-- A session closed by its read loop. -/
def drop (h : Half) : Half := { h with registered := false, writerClosed := true, readerClosed := true }

/-- The handler of a frame of the session: the session left and the `Reset` that is sent, or `none`
while it waits. `found` says that the session was in the map when the handler began, `room` that the
pipe is not full. -/
def handle {ι : Type} (h : Half) (found room : Bool) : Frame ι → Option (Half × List (Frame ι))
  | .data i n =>
    if found = false then (if room then some (h, [.reset i]) else none)
    else if 0 < h.granting then none
    else if h.readerClosed = false ∧
      h.used + n ≤ defaultBufferSize then some ({ h with used := h.used + n }, [])
    else if h.registered = false then some (h, [])
    else if 0 < h.sending then none
    else if h.writerClosed then some (h.drop, [])
    else if room then some (h.drop, [.reset i])
    else none
  | .read i n =>
    if found = false then (if room then some (h, [.reset i]) else none)
    else if 0 < h.sending then none
    else some ({ h with credit := h.credit + n }, [])
  | .reset _ =>
    if found = false then some (h, [])
    else if 0 < h.sending then none
    else if h.registered = false then some ({ h with writerClosed := true }, [])
    else if 0 < h.granting then none
    else some (h.drop, [])
  | _ => some (h, [])

end Half

inductive Side
  | a
  | b
  deriving DecidableEq, Repr

def Side.other : Side → Side
  | .a => .b
  | .b => .a

structure Endpoint (ι : Type) where
  half : ι → Half
  /-- The frame that the read loop is handling, and whether it found the session. -/
  hand : Option (Frame ι × Bool)
  /-- A ping is on its way, or its pong. -/
  pinged : Bool

/-- `pipe x` is what `x` has sent and the other side has not taken. -/
structure System (ι : Type) where
  ends : Side → Endpoint ι
  pipe : Side → List (Frame ι)

/-- What the goroutines of `Write`, of `Read` and of `Close` do with a session. -/
inductive Act
  | write (n : ℕ)
  | transmit
  | read (n : ℕ)
  | grant
  | close
  | hang
  | reset
  | shut
  deriving DecidableEq, Repr

inductive Op (ι : Type)
  | act (x : Side) (i : ι) (o : Act)
  | ping (x : Side)
  | take (x : Side)
  | handle (x : Side)

/-- A step of a goroutine that uses session `i`, and the frame it sends. -/
def Half.act {ι : Type} (h : Half) (i : ι) (room : Bool) : Act → Half × List (Frame ι)
  | .write n =>
    if h.registered ∧ h.writerClosed = false ∧ h.sending = 0 ∧ 0 < n ∧ n ≤ h.credit then
      ({ h with credit := h.credit - n, sending := n }, [])
    else (h, [])
  | .transmit =>
    if 0 < h.sending ∧ room then
      ({ h with sending := h.sending - min h.sending maxPayloadSize },
      [.data i (min h.sending maxPayloadSize)])
    else (h, [])
  | .read n =>
    if h.granting = 0 ∧ 0 < n ∧ n ≤ h.used then
      ({ h with used := h.used - n, granting := if h.readerClosed then 0 else n }, [])
    else (h, [])
  | .grant => if 0 < h.granting ∧ room then ({ h with granting := 0 }, [.read i h.granting]) else (h, [])
  | .close => ({ h with registered := false }, [])
  | .hang =>
    if h.registered = false ∧ h.writerClosed = false ∧ h.sending = 0 then
      ({ h with writerClosed := true, resetting := true }, [])
    else (h, [])
  | .reset => if h.resetting ∧ room then ({ h with resetting := false }, [.reset i]) else (h, [])
  | .shut => if h.writerClosed ∧ h.granting = 0 then ({ h with readerClosed := true }, []) else (h, [])

namespace System

variable {ι : Type} [DecidableEq ι]

def start : System ι := ⟨fun _ => ⟨fun _ => .opened, none, false⟩, fun _ => []⟩

def setEnd (s : System ι) (x : Side) (e : Endpoint ι) :
    System ι := { s with ends := Function.update s.ends x e }

def setHalf (s : System ι) (x : Side) (i : ι) (h : Half) : System ι :=
  s.setEnd x { s.ends x with half := Function.update (s.ends x).half i h }

def setHand (s : System ι) (x : Side) (f : Option (Frame ι × Bool)) : System ι :=
  s.setEnd x { s.ends x with hand := f }

def setPinged (s : System ι) (x : Side) (b : Bool) : System ι := s.setEnd x { s.ends x with pinged := b }

def send (s : System ι) (x : Side) (fs : List (Frame ι)) : System ι :=
  { s with pipe := Function.update s.pipe x (s.pipe x ++ fs) }

def room (cap : Side → ℕ) (s : System ι) (x : Side) : Bool := (s.pipe x).length < cap x

def finds (s : System ι) (x : Side) (f : Frame ι) : Bool :=
  match f.session with
  | some i => ((s.ends x).half i).registered
  | none => false

def take (s : System ι) (x : Side) : System ι :=
  match (s.ends x).hand, s.pipe x.other with
  | none, f :: fs => { s with pipe := Function.update s.pipe x.other fs }.setHand x (some (f, s.finds x f))
  | _, _ => s

/-- The handler of a frame of session `i` is through, or waits. -/
def reply (s : System ι) (x : Side) (i : ι) : Option (Half × List (Frame ι)) → System ι
  | none => s
  | some r => ((s.setHand x none).setHalf x i r.1).send x r.2

def handle (cap : Side → ℕ) (s : System ι) (x : Side) : System ι :=
  match (s.ends x).hand with
  | none => s
  | some (f, found) =>
    match f.session with
    | some i => s.reply x i (((s.ends x).half i).handle found (s.room cap x) f)
    | none =>
      if f = .ping then (if s.room cap x then (s.setHand x none).send x [.pong] else s)
      else (s.setHand x none).setPinged x false

def step (cap : Side → ℕ) (s : System ι) : Op ι → System ι
  | .act x i o =>
    let r := ((s.ends x).half i).act i (s.room cap x) o
    (s.setHalf x i r.1).send x r.2
  | .ping x => if (s.ends x).pinged = false ∧ s.room cap x then (s.setPinged x true).send x [.ping] else s
  | .take x => s.take x
  | .handle x => s.handle cap x

def exec (cap : Side → ℕ) : List (Op ι) → System ι := Trace.exec (step cap) start

/-- Both read loops are in the middle of a frame, and whatever happens they stay there. -/
def Blocked (cap : Side → ℕ) (s : System ι) : Prop :=
  ∀ more x, ((Trace.exec (step cap) s more).ends x).hand ≠ none

end System

/-! ## What is on its way

Every frame is paid for: a `Data` or `Read` frame with credit, a `Reset` with the one that each
session may send, a ping with the one that may be on its way. Nothing makes the sum grow. -/

def Frame.weight {ι : Type} : Frame ι → ℕ
  | .data _ n | .read _ n => max 1 n
  | _ => 1

variable {ι : Type}

theorem Frame.weight_pos (f : Frame ι) : 1 ≤ f.weight := by
  cases f with
  | data s n | read s n => exact Nat.le_max_left 1 n
  | reset | ping | pong => exact Nat.le_refl 1

def Half.weight (h : Half) : ℕ :=
  h.credit + h.sending + h.used + h.granting + (if h.writerClosed then 0 else 1) +
    (if h.resetting then 1 else 0)

def load {ι : Type} (fs : List (Frame ι)) : ℕ := (fs.map Frame.weight).sum

@[simp] theorem load_nil : load ([] : List (Frame ι)) = 0 := rfl

@[simp] theorem load_cons (f : Frame ι) (fs : List (Frame ι)) : load (f :: fs) = f.weight + load fs := rfl

@[simp] theorem load_append (fs gs : List (Frame ι)) : load (fs ++ gs) = load fs + load gs := by
  simp [load]

theorem length_le_load (fs : List (Frame ι)) : fs.length ≤ load fs := by
  induction fs with
  | nil => exact Nat.le_refl 0
  | cons f fs ih =>
    have hpos := f.weight_pos
    rw [load_cons, List.length_cons]
    omega

namespace Half

theorem weight_drop (h : Half) : h.drop.weight + (if h.writerClosed then 0 else 1) = h.weight := by
  unfold drop weight
  cases h.writerClosed <;> simp; omega

/-- A handler that is through has paid for what it sent with the frame that it had. -/
theorem weight_handle {ι : Type} {h : Half} {found room : Bool} {f : Frame ι} {r : Half × List (Frame ι)}
    (hr : h.handle found room f = some r) : r.1.weight + load r.2 ≤ h.weight + f.weight := by
  have hpos := f.weight_pos
  have hdrop := h.weight_drop
  have hreset : ∀ i : ι, load [Frame.reset i] = 1 := fun _ => rfl
  cases f with
  | data i n =>
    simp only [handle] at hr
    split at hr
    · split at hr
      · cases hr
        exact Nat.add_le_add_left hpos _
      · cases hr
    split at hr
    · cases hr
    split at hr
    · cases hr
      simp only [weight, load_nil, Frame.weight]
      omega
    split at hr
    · cases hr
      exact Nat.le_add_right _ _
    split at hr
    · cases hr
    split at hr
    · cases hr
      dsimp only [load_nil]
      omega
    split at hr
    · rename_i hwc _
      cases hr
      dsimp only
      rw [hreset]
      omega
    · cases hr
  | read i n =>
    simp only [handle] at hr
    split at hr
    · split at hr
      · cases hr
        exact Nat.add_le_add_left hpos _
      · cases hr
    split at hr
    · cases hr
    · cases hr
      simp only [weight, load_nil, Frame.weight]
      omega
  | reset i =>
    simp only [handle] at hr
    split at hr
    · cases hr
      exact Nat.le_add_right _ _
    split at hr
    · cases hr
    split at hr
    · cases hr
      simp only [weight, load_nil, if_true]
      omega
    split at hr
    · cases hr
    · cases hr
      dsimp only [load_nil]
      omega
  | ping | pong =>
    cases hr
    exact Nat.le_add_right _ _

/-- With the locks free and a place in the pipe, no handler waits. -/
theorem handle_free {ι : Type} {h : Half} (hs : h.sending = 0) (hg : h.granting = 0) (found : Bool)
    (f : Frame ι) :
    ∃ r, h.handle found true f = some r := by
  cases f <;> simp only [handle, hs, hg, Nat.lt_irrefl, if_false, if_true] <;> repeat (split; exact ⟨_, rfl⟩)
  all_goals exact ⟨_, rfl⟩

theorem weight_act {ι : Type} (h : Half) (i : ι) (room : Bool) (o : Act) :
    (h.act i room o).1.weight + load (h.act i room o).2 ≤ h.weight := by
  cases o with
  | write n =>
    simp only [act]
    split
    · rename_i hen
      simp only [weight, load_nil]
      omega
    · exact Nat.le_refl _
  | transmit =>
    simp only [act]
    split
    · have hmax : 1 ≤ maxPayloadSize := by decide
      simp only [weight, load_nil, load_cons, Frame.weight]
      omega
    · exact Nat.le_refl _
  | read n =>
    simp only [act]
    split
    · have hgrant : (if h.readerClosed then 0 else n) ≤ n := by split <;> omega
      simp only [weight, load_nil]
      omega
    · exact Nat.le_refl _
  | grant =>
    simp only [act]
    split
    · simp only [weight, load_nil, load_cons, Frame.weight]
      omega
    · exact Nat.le_refl _
  | close => exact Nat.le_refl _
  | hang =>
    simp only [act]
    split
    · rename_i hen
      unfold weight
      cases h.resetting <;> simp [hen.2.1]
    · exact Nat.le_refl _
  | reset =>
    simp only [act]
    split
    · rename_i hen
      unfold weight
      simp [hen.1, Frame.weight]
    · exact Nat.le_refl _
  | shut =>
    simp only [act]
    split <;> exact Nat.le_refl _

end Half

namespace System

variable {ι : Type} [DecidableEq ι] [Fintype ι]

/-- The weight of an endpoint, with the frame in its hand and the ping it may send. -/
def weigh (e : Endpoint ι) : ℕ :=
  (∑ i, (e.half i).weight) + e.hand.elim 0 (fun r => r.1.weight) + (if e.pinged then 0 else 1)

def weight (s : System ι) : ℕ := weigh (s.ends .a) + weigh (s.ends .b) + load (s.pipe .a) + load (s.pipe .b)

theorem sum_update (f : ι → Half) (i : ι) (h : Half) :
    (∑ j, (update f i h j).weight) + (f i).weight = (∑ j, (f j).weight) + h.weight := by
  have hrest : ∑ j ∈ Finset.univ.erase i, (update f i h j).weight =
      ∑ j ∈ Finset.univ.erase i, (f j).weight := by
    apply Finset.sum_congr rfl
    intro j hj
    rw [update_of_ne (Finset.ne_of_mem_erase hj)]
  rw [← Finset.add_sum_erase _ _ (Finset.mem_univ i), hrest, update_self,
    ← Finset.add_sum_erase Finset.univ (fun j => (f j).weight) (Finset.mem_univ i)]
  omega

variable (s : System ι) (cap : Side → ℕ) (x : Side)

omit [DecidableEq ι] in
theorem weight_setEnd (e : Endpoint ι) : (s.setEnd x e).weight + weigh (s.ends x) = s.weight + weigh e := by
  cases x <;> simp [weight, setEnd] <;> omega

theorem weight_setHalf (i : ι) (h : Half) :
    (s.setHalf x i h).weight + ((s.ends x).half i).weight = s.weight + h.weight := by
  have hend : (s.setHalf x i h).weight + _ = _ := s.weight_setEnd x _
  have hsum := sum_update (s.ends x).half i h
  unfold weigh at hend
  dsimp only at hend
  omega

section

omit [DecidableEq ι]

theorem weight_setHand (f : Option (Frame ι × Bool)) :
    (s.setHand x f).weight + (s.ends x).hand.elim 0 (fun r => r.1.weight) =
      s.weight + f.elim 0 (fun r => r.1.weight) := by
  have hend : (s.setHand x f).weight + _ = _ := s.weight_setEnd x _
  unfold weigh at hend
  dsimp only at hend
  omega

theorem weight_setPinged (b : Bool) :
    (s.setPinged x b).weight + (if (s.ends x).pinged then 0 else 1) = s.weight + (if b then 0 else 1) := by
  have hend : (s.setPinged x b).weight + _ = _ := s.weight_setEnd x _
  unfold weigh at hend
  dsimp only at hend
  omega

theorem weight_send (fs : List (Frame ι)) : (s.send x fs).weight = s.weight + load fs := by
  cases x <;> simp [weight, send] <;> omega

end

omit [DecidableEq ι] [Fintype ι] in
@[simp] theorem ends_setEnd (e : Endpoint ι) : (s.setEnd x e).ends x = e :=
  update_self ..

theorem weight_reply {s : System ι} {x : Side} {i : ι} {f : Frame ι} {found : Bool}
    (hf : (s.ends x).hand = some (f, found)) (room : Bool) :
    (s.reply x i (((s.ends x).half i).handle found room f)).weight ≤ s.weight := by
  cases hr : ((s.ends x).half i).handle found room f with
  | none => exact Nat.le_refl _
  | some r =>
    have hpaid := Half.weight_handle hr
    have hhand := s.weight_setHand x none
    have hhalf := (s.setHand x none).weight_setHalf x i r.1
    have hsend := ((s.setHand x none).setHalf x i r.1).weight_send x r.2
    have hsame : ((s.setHand x none).ends x).half i = (s.ends x).half i := by
      unfold setHand
      rw [ends_setEnd]
    rw [hf] at hhand
    rw [hsame] at hhalf
    dsimp only [Option.elim] at hhand
    show (((s.setHand x none).setHalf x i r.1).send x r.2).weight ≤ _
    omega

theorem weight_step (s : System ι) (op : Op ι) : (s.step cap op).weight ≤ s.weight := by
  cases op with
  | act x i o =>
    have hpaid := ((s.ends x).half i).weight_act i (s.room cap x) o
    have hhalf := s.weight_setHalf x i (((s.ends x).half i).act i (s.room cap x) o).1
    simp only [step]
    rw [weight_send]
    omega
  | ping x =>
    simp only [step]
    split
    · rename_i hen
      have hping := s.weight_setPinged x true
      rw [hen.1, if_neg (by decide), if_pos rfl] at hping
      rw [weight_send]
      show (s.setPinged x true).weight + 1 ≤ _
      omega
    · exact Nat.le_refl _
  | take x =>
    simp only [step, take]
    split
    · rename_i f fs hhand hpipe
      have htail : ({ s with pipe := update s.pipe x.other fs } : System ι).weight + f.weight = s.weight := by
        unfold weight
        cases x <;> simp only [Side.other] at hpipe ⊢ <;> rw [hpipe] <;> simp <;> omega
      have hset := ({ s with pipe := update s.pipe x.other fs } : System ι).weight_setHand x
        (some (f, s.finds x f))
      rw [show (({ s with pipe := update s.pipe x.other fs } : System ι).ends x).hand = none
        from hhand] at hset
      dsimp only [Option.elim] at hset
      omega
    · exact Nat.le_refl _
  | handle x =>
    simp only [step, handle]
    split
    · exact Nat.le_refl _
    rename_i f found hf
    have hhand := s.weight_setHand x none
    have hpos := f.weight_pos
    rw [hf] at hhand
    dsimp only [Option.elim] at hhand
    split
    · exact weight_reply hf _
    split
    · split
      · rw [weight_send]
        show (s.setHand x none).weight + 1 ≤ _
        omega
      · exact Nat.le_refl _
    · have hping := (s.setHand x none).weight_setPinged x false
      rw [if_neg Bool.false_ne_true] at hping
      omega

/-! ## Enough room -/

/-- What two endpoints with the sessions `ι` can have on its way at most. -/
def total (ι : Type) [Fintype ι] : ℕ := 2 * (Fintype.card ι * (defaultBufferSize + 1) + 1)

theorem weight_exec (ops : List (Op ι)) : (exec cap ops).weight ≤ total ι := by
  refine Trace.invariant (I := fun _ (s : System ι) => s.weight ≤ total ι) ?_ ?_ ops
  · simp [weight, weigh, start, Half.opened, Half.weight, total]
    omega
  · intro op _ ih
    exact (weight_step cap _ op).trans ih

/-- The places in its own pipe that the read loop may have to wait for. -/
def need (e : Endpoint ι) : ℕ :=
  e.hand.elim 0 fun r => 1 + r.1.session.elim 0 fun i => (e.half i).sending + (e.half i).granting

omit [DecidableEq ι] in
theorem need_le (e : Endpoint ι) : need e ≤ weigh e := by
  unfold need weigh
  cases e.hand with
  | none => exact Nat.zero_le _
  | some r =>
    have hpos := r.1.weight_pos
    dsimp only [Option.elim]
    cases r.1.session with
    | none =>
      dsimp only
      omega
    | some i =>
      have hle : (e.half i).weight ≤ ∑ j, (e.half j).weight :=
        Finset.single_le_sum (f := fun j => (e.half j).weight) (fun _ _ => Nat.zero_le _) (Finset.mem_univ i)
      unfold Half.weight at hle
      dsimp only
      unfold Half.weight
      omega

section

omit [Fintype ι]

/-- What a step of a goroutine of session `i` does to its endpoint and its pipe. -/
theorem act_spec (s : System ι) (x : Side) (i : ι) (o : Act) :
    ((s.step cap (.act x i o)).ends x).hand = (s.ends x).hand ∧
      ((s.step cap (.act x i o)).ends x).half i = (((s.ends x).half i).act i (s.room cap x) o).1 ∧
      (s.step cap (.act x i o)).pipe x = s.pipe x ++ (((s.ends x).half i).act i (s.room cap x) o).2 := by
  have hends : (s.step cap (.act x i o)).ends x =
      { s.ends x with half := update (s.ends x).half i (((s.ends x).half i).act i
        (s.room cap x) o).1 } :=
    update_self ..
  refine ⟨by rw [hends], ?_, update_self ..⟩
  rw [hends]
  exact update_self ..

theorem hand_reply (i : ι) (r : Half × List (Frame ι)) : ((s.reply x i (some r)).ends x).hand = none := by
  show (update (s.setHand x none).ends x _ x).hand = none
  rw [update_self]
  show ((s.setEnd x _).ends x).hand = none
  rw [ends_setEnd]

/-- **Release.** With places for what the holders of the locks have to send and for a reply, the
read loop gets through with the frame it has. -/
theorem release (s : System ι) (x : Side) {f : Frame ι} {found : Bool} (hf : (s.ends x).hand = some (f, found))
    {i : ι} (hi : f.session = some i)
    (hroom : (s.pipe x).length + (1 + (((s.ends x).half i).sending + ((s.ends x).half i).granting)) ≤ cap x) :
    ∃ more, ((Trace.exec (step cap) s more).ends x).hand = none := by
  have hfree : s.room cap x = true := decide_eq_true (by omega)
  generalize hn : ((s.ends x).half i).sending + ((s.ends x).half i).granting = n at hroom
  induction n using Nat.strong_induction_on generalizing s with
  | _ n ih =>
    -- a holder sends a frame, or there is none and the handler is through
    have hgo : ∀ o, (((s.ends x).half i).act i true o).2.length = 1 →
        (((s.ends x).half i).act i true o).1.sending + (((s.ends x).half i).act i true o).1.granting < n →
        ∃ more, ((Trace.exec (step cap) s more).ends x).hand = none := by
      intro o hone hless
      obtain ⟨hhand, hhalf, hpipe⟩ := act_spec cap s x i o
      rw [hfree] at hhalf hpipe
      have hlen : ((s.step cap (.act x i o)).pipe x).length = (s.pipe x).length + 1 := by
        rw [hpipe, List.length_append, hone]
      obtain ⟨more, hmore⟩ := ih _ hless (s.step cap (.act x i o)) (hhand.trans hf)
        (decide_eq_true (by rw [hlen]; omega)) (by rw [hhalf]) (by rw [hlen]; omega)
      refine ⟨more ++ [.act x i o], ?_⟩
      rw [Trace.exec_append]
      exact hmore
    by_cases hs : 0 < ((s.ends x).half i).sending
    · have hact : ((s.ends x).half i).act i true .transmit = _ := if_pos ⟨hs, rfl⟩
      refine hgo .transmit (by rw [hact]; rfl) ?_
      rw [hact]
      have hmax : 1 ≤ maxPayloadSize := by decide
      dsimp only
      omega
    by_cases hg : 0 < ((s.ends x).half i).granting
    · have hact : ((s.ends x).half i).act i true .grant = _ := if_pos ⟨hg, rfl⟩
      refine hgo .grant (by rw [hact]; rfl) ?_
      rw [hact]
      dsimp only
      omega
    · obtain ⟨r, hr⟩ := Half.handle_free (Nat.eq_zero_of_not_pos hs) (Nat.eq_zero_of_not_pos hg) found f
      refine ⟨[.handle x], ?_⟩
      show ((s.handle cap x).ends x).hand = none
      simp only [handle, hf, hi, hfree, hr]
      exact hand_reply ..

/-- The read loop that has places enough gets through. -/
theorem release_of_need (s : System ι) (x : Side) (hroom : (s.pipe x).length + need (s.ends x) ≤ cap x) :
    ∃ more, ((Trace.exec (step cap) s more).ends x).hand = none := by
  unfold need at hroom
  cases hhand : (s.ends x).hand with
  | none => exact ⟨[], hhand⟩
  | some r =>
    obtain ⟨f, found⟩ := r
    rw [hhand] at hroom
    dsimp only [Option.elim] at hroom
    cases hi : f.session with
    | some i =>
      rw [hi] at hroom
      exact release cap s x hhand hi hroom
    | none =>
      rw [hi] at hroom
      have hfree : s.room cap x = true := decide_eq_true (by dsimp only at hroom; omega)
      refine ⟨[.handle x], ?_⟩
      show ((s.handle cap x).ends x).hand = none
      simp only [handle, hhand, hi, hfree]
      split
      · exact congrArg Endpoint.hand (ends_setEnd ..)
      · show ((((s.setHand x none).setEnd x _)).ends x).hand = none
        rw [ends_setEnd]
        exact congrArg Endpoint.hand (ends_setEnd ..)

end

/-- **No cross-peer blocking.** If the two pipes together have room for what can be on its way, then
in no state of any run are both read loops blocked for good. -/
theorem not_blocked (cap : Side → ℕ) (hcap : total ι < cap .a + cap .b + 2) (ops : List (Op ι)) :
    ¬ Blocked cap (exec cap ops) := by
  intro hblocked
  have hshort : ∀ x, cap x < ((exec cap ops).pipe x).length + need ((exec cap ops).ends x) := by
    intro x
    by_contra hle
    obtain ⟨more, hmore⟩ := release_of_need cap (exec cap ops) x (Nat.not_lt.mp hle)
    exact hblocked more x hmore
  have hweight := weight_exec cap ops
  have ha := hshort .a
  have hb := hshort .b
  have hna := need_le ((exec cap ops).ends .a)
  have hnb := need_le ((exec cap ops).ends .b)
  have hla := length_le_load ((exec cap ops).pipe .a)
  have hlb := length_le_load ((exec cap ops).pipe .b)
  unfold weight at hweight
  omega

/-- A run with pipes that are large enough. -/
theorem not_blocked_one_session :
    ¬ Blocked (fun _ => 4194306) (exec (fun _ => 4194306)
      [.take .b, .act .a () .transmit, .act .a () (.write 1)]) :=
  not_blocked (fun _ => 4194306) (by decide) _

end System

end Astrald.Nodes.Backpressure
