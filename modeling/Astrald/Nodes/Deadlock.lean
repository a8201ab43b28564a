import Astrald.Lib.Trace
import Astrald.Nodes.Backpressure

/-!
# Read loops that block each other

* `System.stuck_exec`: two read loops, each waiting for the lock of a `Write` that waits for a place in
  a full pipe, stay so in every later state, so that they wait for good (`System.blocked_of_stuck`);
* `System.deadlock`: whatever the pipes can hold, up to what one session can fill, this is reached.
-/

namespace Astrald.Nodes.Backpressure

open List Function

namespace System

variable {ι : Type} [DecidableEq ι]

/-! ## Two read loops that are stuck -/

/-- The read loop of `x` waits, for a lock whose holder waits for a place in the full pipe of `x`. -/
def Stuck (cap : Side → ℕ) (s : System ι) (x : Side) : Prop :=
  ∃ i n, (s.ends x).hand = some (.read i n, true) ∧ 0 < ((s.ends x).half i).sending ∧ cap x ≤ (s.pipe x).length

variable (cap : Side → ℕ) {x : Side}

omit [DecidableEq ι] in
theorem room_of_stuck {cap : Side → ℕ} {s : System ι} (h : s.Stuck cap x) : s.room cap x = false := by
  obtain ⟨i, n, -, -, hfull⟩ := h
  exact decide_eq_false (Nat.not_lt.mpr hfull)

/-- Without room nothing is sent, and a holder of the lock of the writer keeps it. -/
theorem act_full {ι : Type} (h : Half) (i : ι) (o : Act) :
    (h.act i false o).2 = [] ∧ (0 < h.sending → 0 < (h.act i false o).1.sending) := by
  cases o with
  | write n =>
    simp only [Half.act]
    split
    · exact ⟨rfl, fun hs => by omega⟩
    · exact ⟨rfl, id⟩
  | transmit | grant | reset =>
    simp only [Half.act, Bool.false_eq_true, and_false, if_false]
    exact ⟨trivial, id⟩
  | read n | hang | shut => simp only [Half.act]; split <;> exact ⟨rfl, id⟩
  | close => exact ⟨rfl, id⟩

theorem act_other (s : System ι) {y : Side} (hxy : x ≠ y) (i : ι) (o : Act) :
    (s.step cap (.act y i o)).ends x = s.ends x ∧ (s.step cap (.act y i o)).pipe x = s.pipe x :=
  ⟨update_of_ne hxy .., update_of_ne hxy ..⟩

/-- Two read loops that are stuck stay so: each waits for the other. -/
theorem stuck_step {cap : Side → ℕ} {s : System ι} (h : ∀ x, s.Stuck cap x) (op : Op ι) (x : Side) :
    (s.step cap op).Stuck cap x := by
  cases op with
  | act y j o =>
    obtain ⟨i, n, hhand, hsending, hfull⟩ := h x
    by_cases hxy : x = y
    · subst hxy
      obtain ⟨hhand', hhalf', hpipe'⟩ := act_spec cap s x j o
      rw [room_of_stuck (h x)] at hhalf' hpipe'
      obtain ⟨hnil, hkeeps⟩ := act_full ((s.ends x).half j) j o
      refine ⟨i, n, hhand'.trans hhand, ?_, by rw [hpipe', hnil, append_nil]; exact hfull⟩
      by_cases hij : i = j
      · rw [hij] at hsending ⊢
        rw [hhalf']
        exact hkeeps hsending
      · have hother : ((s.step cap (.act x j o)).ends x).half i = (s.ends x).half i := by
          show (update s.ends x _ x).half i = _
          rw [update_self]
          exact update_of_ne hij ..
        rw [hother]
        exact hsending
    · obtain ⟨hends, hpipe⟩ := act_other cap s hxy j o
      exact ⟨i, n, by rw [hends]; exact hhand, by rw [hends]; exact hsending, by rw [hpipe]; exact hfull⟩
  | ping y =>
    have hsame : s.step cap (.ping y) = s := by
      simp only [step, room_of_stuck (h y), Bool.false_eq_true, and_false, if_false]
    rw [hsame]
    exact h x
  | take y =>
    obtain ⟨i, n, hhand, -⟩ := h y
    have hsame : s.step cap (.take y) = s := by simp only [step, take, hhand]
    rw [hsame]
    exact h x
  | handle y =>
    obtain ⟨i, n, hhand, hsending, -⟩ := h y
    have hwait : ((s.ends y).half i).handle true (s.room cap y) (.read i n) = none := by
      simp only [Half.handle, if_pos hsending, Bool.true_eq_false, if_false]
    have hsame : s.step cap (.handle y) = s := by
      simp only [step, handle, hhand, Frame.session, hwait, reply]
    rw [hsame]
    exact h x

theorem stuck_exec {cap : Side → ℕ} {s : System ι} (h : ∀ x, s.Stuck cap x) (more : List (Op ι)) :
    ∀ x, (Trace.exec (step cap) s more).Stuck cap x := by
  induction more with
  | nil => exact h
  | cons op more ih => exact stuck_step ih op

theorem blocked_of_stuck {cap : Side → ℕ} {s : System ι} (h : ∀ x, s.Stuck cap x) : s.Blocked cap := by
  intro more x
  obtain ⟨i, n, hhand, -⟩ := stuck_exec h more x
  rw [hhand]
  exact Option.some_ne_none _

/-! ## A run into the deadlock -/

/-- What `x` does with the only session leaves the other side and its pipe alone. -/
theorem acts_other {s : System Unit} {y : Side} (hxy : x ≠ y) (acts : List Act) :
    (Trace.exec (step cap) s (acts.map (.act y ()))).ends x = s.ends x ∧
      (Trace.exec (step cap) s (acts.map (.act y ()))).pipe x = s.pipe x := by
  induction acts with
  | nil => exact ⟨rfl, rfl⟩
  | cons o acts ih =>
    obtain ⟨hends, hpipe⟩ := act_other cap (Trace.exec (step cap) s (acts.map (.act y ()))) hxy () o
    exact ⟨hends.trans ih.1, hpipe.trans ih.2⟩

/-- A session of which `k` bytes of credit are lent and `n` bytes are being sent. -/
def lent (k n : ℕ) : Half := { Half.opened with credit := defaultBufferSize - k, sending := n }

/-- The read loop of `x` has taken a `Read` frame, and `x` has sent one byte for it and `k` bytes since
then, in frames of one byte that are all on their way. -/
structure Filling (s : System Unit) (x : Side) (k : ℕ) : Prop where
  hand : (s.ends x).hand = some (.read () 1, true)
  half : (s.ends x).half () = lent (k + 1) 0
  pipe : (s.pipe x).length = k

variable {cap} {s : System Unit} {k : ℕ}

/-- The next byte, with credit for it. -/
theorem Filling.write (cap : Side → ℕ) (h : Filling s x k) (hcredit : k + 2 ≤ defaultBufferSize) :
    ((s.step cap (.act x () (.write 1))).ends x).hand = some (.read () 1, true) ∧
      ((s.step cap (.act x () (.write 1))).ends x).half () = lent (k + 2) 1 ∧
      ((s.step cap (.act x () (.write 1))).pipe x).length = k := by
  have hwrite : ∀ room, (lent (k + 1) 0).act () room (.write 1) = (lent (k + 2) 1, []) := by
    intro room
    have hlent : 1 ≤ (lent (k + 1) 0).credit := Nat.le_sub_of_add_le (by omega)
    exact if_pos ⟨rfl, rfl, rfl, Nat.one_pos, hlent⟩
  obtain ⟨hhand, hhalf, hpipe⟩ := act_spec cap s x () (.write 1)
  rw [h.half, hwrite] at hhalf hpipe
  refine ⟨hhand.trans h.hand, hhalf, ?_⟩
  rw [hpipe, append_nil]
  exact h.pipe

theorem Filling.next (h : Filling s x k) (hcredit : k + 2 ≤ defaultBufferSize) (hroom : k < cap x) :
    Filling (Trace.exec (step cap) s ([.transmit, .write 1].map (.act x ()))) x (k + 1) := by
  obtain ⟨hhand, hhalf, hpipe⟩ := h.write cap hcredit
  have hfree : (s.step cap (.act x () (.write 1))).room cap x = true := decide_eq_true (hpipe.trans_lt hroom)
  obtain ⟨hhand', hhalf', hpipe'⟩ := act_spec cap (s.step cap (.act x () (.write 1))) x () .transmit
  rw [hhalf, hfree] at hhalf' hpipe'
  refine ⟨hhand'.trans hhand, hhalf', ?_⟩
  show (((s.step cap (.act x () (.write 1))).step cap (.act x () .transmit)).pipe x).length = k + 1
  rw [hpipe', length_append, hpipe]
  rfl

theorem Filling.fills (h : Filling s x 0) (n : ℕ) (hcredit : n + 1 ≤ defaultBufferSize) (hroom : n ≤ cap x) :
    ∃ acts : List Act, Filling (Trace.exec (step cap) s (acts.map (.act x ()))) x n := by
  induction n with
  | zero => exact ⟨[], h⟩
  | succ n ih =>
    obtain ⟨acts, hacts⟩ := ih (by omega) (by omega)
    refine ⟨[.transmit, .write 1] ++ acts, ?_⟩
    rw [map_append, Trace.exec_append]
    exact hacts.next (by omega) hroom

/-- With a full pipe, a `Write` keeps the lock that the read loop waits for. -/
theorem Filling.stuck (h : Filling s x 0) (hcap : cap x + 2 ≤ defaultBufferSize) :
    ∃ acts : List Act, (Trace.exec (step cap) s (acts.map (.act x ()))).Stuck cap x := by
  obtain ⟨acts, hacts⟩ := h.fills (cap x) (by omega) le_rfl
  obtain ⟨hhand, hhalf, hpipe⟩ := hacts.write cap hcap
  refine ⟨.write 1 :: acts, (), 1, hhand, ?_, hpipe.ge⟩
  exact Nat.one_pos.trans_eq (congrArg Half.sending hhalf).symm

/-- Both sides alike. -/
def even (h : Half) (hand : Option (Frame Unit × Bool)) (p : List (Frame Unit)) : System Unit :=
  ⟨fun _ => ⟨fun _ => h, hand, false⟩, fun _ => p⟩

/-- Each side writes a byte, reads the one it gets, and its read loop takes the `Read` frame for it. -/
theorem filling_start (hcap : ∀ x, 1 ≤ cap x) : ∃ ops : List (Op Unit), ∀ x, Filling (exec cap ops) x 0 := by
  obtain ⟨c, rfl⟩ : ∃ c : Side → ℕ, cap = fun x => c x + 1 :=
    ⟨fun x => cap x - 1, funext fun x => (Nat.sub_add_cancel (hcap x)).symm⟩
  have hext : ∀ {s t : System Unit}, (∀ x, s.ends x = t.ends x ∧ s.pipe x = t.pipe x) → s = t := fun h =>
    congrArg₂ System.mk (funext fun x => (h x).1) (funext fun x => (h x).2)
  obtain ⟨sent, hsent⟩ : ∃ ops, exec (fun x => c x + 1) ops = even (lent 1 0) none [.data () 1] :=
    ⟨[.act .b () .transmit, .act .a () .transmit, .act .b () (.write 1), .act .a () (.write 1)],
      hext fun x => by cases x <;> exact ⟨rfl, rfl⟩⟩
  obtain ⟨got, hgot⟩ : ∃ ops, Trace.exec (step fun x => c x + 1) (even (lent 1 0) none [.data () 1]) ops =
      even { lent 1 0 with used := 1 } none [] :=
    ⟨[.handle .b, .handle .a, .take .b, .take .a], hext fun x => by cases x <;> exact ⟨rfl, rfl⟩⟩
  obtain ⟨read, hread⟩ : ∃ ops, Trace.exec (step fun x => c x + 1) (even { lent 1 0 with used := 1 } none []) ops =
      even (lent 1 0) none [.read () 1] :=
    ⟨[.act .b () .grant, .act .a () .grant, .act .b () (.read 1), .act .a () (.read 1)],
      hext fun x => by cases x <;> exact ⟨rfl, rfl⟩⟩
  refine ⟨[.take .b, .take .a] ++ (read ++ (got ++ sent)), fun x => ?_⟩
  unfold exec at hsent ⊢
  rw [Trace.exec_append, Trace.exec_append, Trace.exec_append, hsent, hgot, hread]
  cases x with
  | a | b => exact ⟨rfl, rfl, rfl⟩

/-- **Deadlock.** With one session, and room in either pipe for up to 4194302 frames, the read loops
can block each other: each waits for the lock of a `Write` that waits for the other, then and in every
later state, and neither is ever through with its frame. -/
theorem deadlock (cap : Side → ℕ) (hcap : ∀ x, 1 ≤ cap x ∧ cap x ≤ 4194302) :
    ∃ ops : List (Op Unit), (∀ more x, (Trace.exec (step cap) (exec cap ops) more).Stuck cap x) ∧
      Blocked cap (exec cap ops) := by
  have hcredit : ∀ x, cap x + 2 ≤ defaultBufferSize := fun x => Nat.add_le_add_right (hcap x).2 2
  obtain ⟨ops, hstart⟩ := filling_start fun x => (hcap x).1
  -- first one side fills its pipe and then the other, which neither changes
  obtain ⟨acts, ha⟩ := (hstart .a).stuck (hcredit .a)
  obtain ⟨hends, hpipe⟩ := acts_other cap (s := exec cap ops) (x := .b) (y := .a) nofun acts
  have hb : Filling (Trace.exec (step cap) (exec cap ops) (acts.map (.act .a ()))) .b 0 :=
    ⟨by rw [hends]; exact (hstart .b).hand, by rw [hends]; exact (hstart .b).half,
      by rw [hpipe]; exact (hstart .b).pipe⟩
  obtain ⟨acts', hb'⟩ := hb.stuck (hcredit .b)
  obtain ⟨hends', hpipe'⟩ := acts_other cap
    (s := Trace.exec (step cap) (exec cap ops) (acts.map (.act .a ()))) (x := .a) (y := .b) nofun acts'
  have hstuck : ∀ x, (exec cap (acts'.map (.act .b ()) ++ (acts.map (.act .a ()) ++ ops))).Stuck cap x := by
    unfold exec at ha hends' hpipe' hb' ⊢
    intro x
    rw [Trace.exec_append, Trace.exec_append]
    cases x with
    | a =>
      unfold Stuck
      rw [hends', hpipe']
      exact ha
    | b => exact hb'
  exact ⟨_, stuck_exec hstuck, blocked_of_stuck hstuck⟩

theorem deadlock_wide : ∃ ops : List (Op Unit),
    (∀ more x, (Trace.exec (step fun _ => 4096) (exec (fun _ => 4096) ops) more).Stuck (fun _ => 4096) x) ∧
      Blocked (fun _ => 4096) (exec (fun _ => 4096) ops) :=
  deadlock _ fun _ => by decide

/-- The run for pipes of one frame: each side writes a byte and reads the one it gets, each then
writes two frames while its `Read` frame is on its way, and the read loops take those. -/
def mutualWrites : List (Op Unit) :=
  [.act .b () .transmit, .act .a () .transmit, .take .b, .take .a,
    .act .b () (.write (2 * maxPayloadSize)), .act .a () (.write (2 * maxPayloadSize)),
    .act .b () .grant, .act .a () .grant, .act .b () (.read 1), .act .a () (.read 1), .handle .b, .handle .a,
    .take .b, .take .a, .act .b () .transmit, .act .a () .transmit, .act .b () (.write 1), .act .a () (.write 1)]

theorem mutual_writes_block : Blocked (fun _ => 1) (exec (fun _ => 1) mutualWrites) := by
  refine blocked_of_stuck fun x => ?_
  cases x with
  | a | b => exact ⟨(), 1, by decide, by decide, by decide⟩

end System

end Astrald.Nodes.Backpressure
