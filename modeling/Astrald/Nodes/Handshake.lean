import Astrald.Nodes.Migration

/-!
# The migration handshake

Where the two sides of a migration can be at the same time. `Phase` lists the joint positions of
the initiator and the responder with the signals in flight between them, for two endpoints whose
sessions are not closed; a position says also which `Migrate` frames may still be in flight.

* `Phase.initiator_begins`, `Phase.responder_completes` and the like: the calls that neither send nor receive;
* one lemma for each call that sends or awaits a signal: an awaited signal is the one expected;
* `Phase.lose`: a lost signal leaves the position, with nothing in flight;
* `Phase.completed`: a side that is completing the migration has handed over its `Migrate` frame,
  and so has its peer.
-/

namespace Astrald.Nodes

open Point

/-- The calls in an order that both roles follow. -/
def Point.rank : Point → ℕ
  | .idle => 0
  | .awaitReady => 1
  | .begin => 2
  | .pause => 3
  | .takeBuf => 4
  | .swapBuf => 5
  | .setNextBuffer => 6
  | .sendReady => 7
  | .awaitSwitched => 8
  | .sendMigrate => 9
  | .sendSwitched => 10
  | .waitClosed => 11
  | .sendResume => 12
  | .awaitResume => 13
  | .awaitDone => 14
  | .removeSession => 15
  | .addSession => 16
  | .setState => 17
  | .grow => 18
  | .resume => 19
  | .sendDone => 20

namespace Point

/-- `Begin` has set the session migrating and `Complete` has not reopened it. -/
def migrating (p : Point) : Prop := 3 ≤ p.rank ∧ p.rank ≤ 17

def paused (p : Point) : Prop := 4 ≤ p.rank ∧ p.rank ≤ 19

/-- The writer has its new buffer, without the credit that `Complete` gives it. -/
def window (p : Point) : Prop := 6 ≤ p.rank ∧ p.rank ≤ 18

/-- The `Migrate` frame of this migration has been sent. -/
def sent (p : Point) : Prop := 10 ≤ p.rank

/-- The reader has its next buffer queued, and the old one has not been waited for. -/
def watching (p : Point) : Prop := 7 ≤ p.rank ∧ p.rank ≤ 11

instance (p : Point) : Decidable p.migrating := inferInstanceAs (Decidable (_ ∧ _))

instance (p : Point) : Decidable p.paused := inferInstanceAs (Decidable (_ ∧ _))

instance (p : Point) : Decidable p.window := inferInstanceAs (Decidable (_ ∧ _))

end Point

/-- The joint positions. `FI` and `FR` say that a `Migrate` frame of the initiator, of the responder,
is in flight; the lists are the signals that the initiator and the responder have sent. A
responder may be idle early on: it has given up waiting for the first signal. -/
inductive Phase (FI FR : Prop) : Point → Point → List Signal → List Signal → Prop
  | rest (hI : ¬FI) (hR : ¬FR) : Phase FI FR .idle .idle [] []
  | opening {p q : Point} (hI : ¬FI) (hR : ¬FR) (hp : 2 ≤ p.rank ∧ p.rank ≤ 7)
      (hq : q = .awaitReady ∨ q = .idle) : Phase FI FR p q [] []
  | called {q : Point} {m : List Signal} (hI : ¬FI) (hR : ¬FR) (hq : q = .awaitReady ∨ q = .idle)
      (hm : m = [] ∨ m = [.ready defaultBufferSize]) : Phase FI FR .awaitSwitched q m []
  | answering {q : Point} (hI : ¬FI) (hR : ¬FR) (hq : 2 ≤ q.rank ∧ q.rank ≤ 6 ∨ q = .sendMigrate) :
      Phase FI FR .awaitSwitched q [] []
  | switching (hI : ¬FI) : Phase FI FR .awaitSwitched .sendSwitched [] []
  | switched {m : List Signal} (hI : ¬FI) (hm : m = [] ∨ m = [.switched defaultBufferSize]) :
      Phase FI FR .awaitSwitched .waitClosed [] m
  | leaving (hI : ¬FI) : Phase FI FR .sendMigrate .waitClosed [] []
  | draining {p q : Point} (hp : p = .waitClosed ∨ p = .sendResume ∧ ¬FR)
      (hq : q = .waitClosed ∨ q = .awaitResume ∧ ¬FI) : Phase FI FR p q [] []
  | resuming {q : Point} {m : List Signal} (hR : ¬FR) (hq : q = .waitClosed ∨ q = .awaitResume ∧ ¬FI)
      (hm : m = [] ∨ m = [.resume]) : Phase FI FR .awaitDone q m []
  | finishing {q : Point} (hI : ¬FI) (hR : ¬FR) (hq : 15 ≤ q.rank) : Phase FI FR .awaitDone q [] []
  | finished {m : List Signal} (hI : ¬FI) (hR : ¬FR) (hm : m = [] ∨ m = [.done]) :
      Phase FI FR .awaitDone .idle [] m
  | completing {p : Point} (hI : ¬FI) (hR : ¬FR) (hp : 15 ≤ p.rank ∧ p.rank ≤ 19) :
      Phase FI FR p .idle [] []

namespace Phase

variable {FI FR : Prop} {p q : Point} {m n : List Signal}

theorem mono (h : Phase FI FR p q m n) {FI' FR' : Prop} (hI : FI' → FI) (hR : FR' → FR) :
    Phase FI' FR' p q m n := by
  have hI' : ¬FI → ¬FI' := fun hn hf => hn (hI hf)
  have hR' : ¬FR → ¬FR' := fun hn hf => hn (hR hf)
  cases h with
  | rest hi hr => exact .rest (hI' hi) (hR' hr)
  | opening hi hr hp hq => exact .opening (hI' hi) (hR' hr) hp hq
  | called hi hr hq hm => exact .called (hI' hi) (hR' hr) hq hm
  | answering hi hr hq => exact .answering (hI' hi) (hR' hr) hq
  | switching hi => exact .switching (hI' hi)
  | switched hi hm => exact .switched (hI' hi) hm
  | leaving hi => exact .leaving (hI' hi)
  | draining hp hq => exact .draining (hp.imp_right (And.imp_right hR')) (hq.imp_right (And.imp_right hI'))
  | resuming hr hq hm => exact .resuming (hR' hr) (hq.imp_right (And.imp_right hI')) hm
  | finishing hi hr hq => exact .finishing (hI' hi) (hR' hr) hq
  | finished hi hr hm => exact .finished (hI' hi) (hR' hr) hm
  | completing hi hr hp => exact .completing (hI' hi) (hR' hr) hp

theorem lose (h : Phase FI FR p q m n) : Phase FI FR p q m.tail n ∧ Phase FI FR p q m n.tail := by
  cases h with
  | rest hi hr => exact ⟨.rest hi hr, .rest hi hr⟩
  | opening hi hr hp hq => exact ⟨.opening hi hr hp hq, .opening hi hr hp hq⟩
  | called hi hr hq hm =>
    exact ⟨.called hi hr hq (.inl (by rcases hm with rfl | rfl <;> rfl)), .called hi hr hq hm⟩
  | answering hi hr hq => exact ⟨.answering hi hr hq, .answering hi hr hq⟩
  | switching hi => exact ⟨.switching hi, .switching hi⟩
  | switched hi hm => exact ⟨.switched hi hm, .switched hi (.inl (by rcases hm with rfl | rfl <;> rfl))⟩
  | leaving hi => exact ⟨.leaving hi, .leaving hi⟩
  | draining hp hq => exact ⟨.draining hp hq, .draining hp hq⟩
  | resuming hr hq hm =>
    exact ⟨.resuming hr hq (.inl (by rcases hm with rfl | rfl <;> rfl)), .resuming hr hq hm⟩
  | finishing hi hr hq => exact ⟨.finishing hi hr hq, .finishing hi hr hq⟩
  | finished hi hr hm =>
    exact ⟨.finished hi hr hm, .finished hi hr (.inl (by rcases hm with rfl | rfl <;> rfl))⟩
  | completing hi hr hp => exact ⟨.completing hi hr hp, .completing hi hr hp⟩

/-! ## The initiator's calls -/

theorem initiator_begins (h : Phase FI FR p q m n) (hp : 2 ≤ p.rank ∧ p.rank ≤ 6) :
    Phase FI FR (Role.initiator.next p) q m n := by
  cases h with
  | opening hi hr _ hq =>
    refine .opening hi hr ?_ hq
    cases p <;> simp [rank, Role.next] at hp ⊢
  | draining hp' _ => rcases hp' with rfl | ⟨rfl, _⟩ <;> simp [rank] at hp
  | completing _ _ hp' => omega
  | _ => simp [rank] at hp

theorem initiator_sendReady (h : Phase FI FR .sendReady q m n) :
    Phase FI FR .awaitSwitched q (m ++ [.ready defaultBufferSize]) n := by
  cases h with
  | opening hi hr _ hq => exact .called hi hr hq (.inr rfl)
  | draining hp _ => simp at hp
  | completing _ _ hp => simp [rank] at hp

variable {sig : Signal} {rest : List Signal}

theorem initiator_awaitSwitched (h : Phase FI FR .awaitSwitched q m (sig :: rest)) :
    sig = .switched defaultBufferSize ∧ Phase FI FR .sendMigrate q m rest := by
  cases h with
  | switched hi hm =>
    simp only [reduceCtorEq, List.cons.injEq, false_or] at hm
    obtain ⟨rfl, rfl⟩ := hm
    exact ⟨rfl, .leaving hi⟩

theorem initiator_sendMigrate (h : Phase FI FR .sendMigrate q m n) (FI' : Prop) :
    Phase FI' FR .waitClosed q m n := by
  cases h with
  | leaving hi => exact .draining (.inl rfl) (.inl rfl)
  | opening _ _ hp _ | completing _ _ hp => simp [rank] at hp
  | draining hp _ => simp at hp

theorem initiator_waitClosed (h : Phase FI FR .waitClosed q m n) (hR : ¬FR) :
    Phase FI FR .sendResume q m n := by
  cases h with
  | draining _ hq => exact .draining (.inr ⟨rfl, hR⟩) hq
  | opening _ _ hp _ | completing _ _ hp => simp [rank] at hp

theorem initiator_sendResume (h : Phase FI FR .sendResume q m n) :
    Phase FI FR .awaitDone q (m ++ [.resume]) n := by
  cases h with
  | draining hp hq =>
    simp only [reduceCtorEq, true_and, false_or] at hp
    exact .resuming hp hq (.inr rfl)
  | opening _ _ hp _ | completing _ _ hp => simp [rank] at hp

theorem initiator_awaitDone (h : Phase FI FR .awaitDone q m (sig :: rest)) :
    sig = .done ∧ Phase FI FR .removeSession q m rest := by
  cases h with
  | finished hi hr hm =>
    simp only [reduceCtorEq, List.cons.injEq, false_or] at hm
    obtain ⟨rfl, rfl⟩ := hm
    exact ⟨rfl, .completing hi hr (by decide)⟩

theorem initiator_completes (h : Phase FI FR p q m n) (hp : 15 ≤ p.rank) :
    Phase FI FR (Role.initiator.next p) q m n := by
  cases h with
  | completing hi hr hp' =>
    by_cases hlast : p = .resume
    · rw [hlast]
      exact .rest hi hr
    · refine .completing hi hr ?_
      cases p <;> simp [rank, Role.next] at hp hp' hlast ⊢
  | opening _ _ hp' _ => omega
  | draining hp' _ => rcases hp' with rfl | ⟨rfl, _⟩ <;> simp [rank] at hp
  | _ => simp [rank] at hp

/-! ## The responder's calls -/

theorem responder_awaitReady (h : Phase FI FR p .awaitReady (sig :: rest) n) :
    sig = .ready defaultBufferSize ∧ Phase FI FR p .begin rest n := by
  cases h with
  | called hi hr _ hm =>
    simp only [reduceCtorEq, List.cons.injEq, false_or] at hm
    obtain ⟨rfl, rfl⟩ := hm
    exact ⟨rfl, .answering hi hr (.inl (by decide))⟩
  | resuming _ hq _ => simp at hq

theorem responder_begins (h : Phase FI FR p q m n) (hq : 2 ≤ q.rank ∧ q.rank ≤ 6) :
    Phase FI FR p (Role.responder.next q) m n := by
  cases h with
  | answering hi hr _ =>
    refine .answering hi hr ?_
    cases q <;> simp [rank, Role.next] at hq ⊢
  | opening _ _ _ hq' | called _ _ hq' _ => rcases hq' with rfl | rfl <;> simp [rank] at hq
  | draining _ hq' | resuming _ hq' _ => rcases hq' with rfl | ⟨rfl, _⟩ <;> simp [rank] at hq
  | finishing _ _ hq' => omega
  | _ => simp [rank] at hq

theorem responder_sendMigrate (h : Phase FI FR p .sendMigrate m n) (FR' : Prop) :
    Phase FI FR' p .sendSwitched m n := by
  cases h with
  | answering hi _ _ => exact .switching hi
  | opening _ _ _ hq | called _ _ hq _ | draining _ hq | resuming _ hq _ => simp at hq
  | finishing _ _ hq => simp [rank] at hq

theorem responder_sendSwitched (h : Phase FI FR p .sendSwitched m n) :
    Phase FI FR p .waitClosed m (n ++ [.switched defaultBufferSize]) := by
  cases h with
  | switching hi => exact .switched hi (.inr rfl)
  | opening _ _ _ hq | called _ _ hq _ | draining _ hq | resuming _ hq _ => simp at hq
  | answering _ _ hq | finishing _ _ hq => simp [rank] at hq

/-- The responder can see its old buffer closed only after the initiator's `Migrate` frame was
sent. -/
theorem responder_waitClosed (h : Phase FI FR p .waitClosed m n) (hI : ¬FI) (hsent : p.sent) :
    Phase FI FR p .awaitResume m n := by
  cases h with
  | draining hp _ => exact .draining hp (.inr ⟨rfl, hI⟩)
  | resuming hr _ hm => exact .resuming hr (.inr ⟨rfl, hI⟩) hm
  | switched _ _ | leaving _ => simp [sent, rank] at hsent
  | opening _ _ _ hq | called _ _ hq _ => simp at hq
  | answering _ _ hq | finishing _ _ hq => simp [rank] at hq

theorem responder_awaitResume (h : Phase FI FR p .awaitResume (sig :: rest) n) :
    sig = .resume ∧ Phase FI FR p .removeSession rest n := by
  cases h with
  | called _ _ hq _ => simp at hq
  | resuming hr hq hm =>
    simp only [reduceCtorEq, true_and, false_or] at hq
    simp only [reduceCtorEq, List.cons.injEq, false_or] at hm
    obtain ⟨rfl, rfl⟩ := hm
    exact ⟨rfl, .finishing hq hr (by decide)⟩

theorem responder_completes (h : Phase FI FR p q m n) (hq : 15 ≤ q.rank) (hlast : q ≠ .sendDone) :
    Phase FI FR p (Role.responder.next q) m n := by
  cases h with
  | finishing hi hr _ =>
    refine .finishing hi hr ?_
    cases q <;> simp [rank, Role.next] at hq hlast ⊢
  | opening _ _ _ hq' | called _ _ hq' _ => rcases hq' with rfl | rfl <;> simp [rank] at hq
  | answering _ _ hq' =>
    rcases hq' with hq' | rfl
    · omega
    · simp [rank] at hq
  | draining _ hq' | resuming _ hq' _ => rcases hq' with rfl | ⟨rfl, _⟩ <;> simp [rank] at hq
  | _ => simp [rank] at hq

theorem responder_sendDone (h : Phase FI FR p .sendDone m n) : Phase FI FR p .idle m (n ++ [.done]) := by
  cases h with
  | finishing hi hr _ => exact .finished hi hr (.inr rfl)
  | opening _ _ _ hq | called _ _ hq _ | draining _ hq | resuming _ hq _ => simp at hq
  | answering _ _ hq => simp [rank] at hq

/-- The responder gives up waiting for the first signal. -/
theorem responder_gives_up (h : Phase FI FR p .awaitReady m n) : Phase FI FR p .idle m n := by
  cases h with
  | opening hi hr hp _ => exact .opening hi hr hp (.inr rfl)
  | called hi hr _ hm => exact .called hi hr (.inr rfl) hm
  | answering _ _ hq | finishing _ _ hq => simp [rank] at hq
  | draining _ hq | resuming _ hq _ => simp at hq

/-! ## What a position says -/

/-- While a `Migrate` frame is in flight its sender has no credit yet, and the other side is
watching its old buffer. -/
theorem flying (h : Phase FI FR p q m n) :
    (FI → p.window ∧ p.sent ∧ q.watching) ∧ (FR → q.window ∧ q.sent ∧ p.watching) := by
  unfold window sent watching
  cases h with
  | switching hi | switched hi _ | leaving hi => exact ⟨fun hf => absurd hf hi, fun _ => by decide⟩
  | draining hp hq =>
    constructor
    · intro hf
      obtain rfl := hq.resolve_right fun h => h.2 hf
      rcases hp with rfl | ⟨rfl, _⟩ <;> decide
    · intro hf
      obtain rfl := hp.resolve_right fun h => h.2 hf
      rcases hq with rfl | ⟨rfl, _⟩ <;> decide
  | resuming hr hq _ =>
    refine ⟨fun hf => ?_, fun hf => absurd hf hr⟩
    obtain rfl := hq.resolve_right fun h => h.2 hf
    decide
  | rest hi hr | opening hi hr _ _ | called hi hr _ _ | answering hi hr _ | finishing hi hr _
  | finished hi hr _ | completing hi hr _ => exact ⟨fun hf => absurd hf hi, fun hf => absurd hf hr⟩

/-- A side that completes the migration has seen the other's `Migrate` frame, and its own has been
seen. -/
theorem completed (h : Phase FI FR p q m n) (hlate : 15 ≤ p.rank ∨ 15 ≤ q.rank) :
    ¬FI ∧ ¬FR ∧ ¬p.watching ∧ ¬q.watching := by
  unfold watching
  cases h with
  | finishing hi hr hq => exact ⟨hi, hr, by decide, by omega⟩
  | completing hi hr hp => exact ⟨hi, hr, by omega, by decide⟩
  | opening _ _ hp hq =>
    rcases hlate with hlate | hlate
    · omega
    · rcases hq with rfl | rfl <;> exact absurd hlate (by decide)
  | called _ _ hq _ => rcases hq with rfl | rfl <;> simp [rank] at hlate
  | answering _ _ hq =>
    rcases hlate with hlate | hlate
    · exact absurd hlate (by decide)
    · rcases hq with hq | rfl
      · omega
      · exact absurd hlate (by decide)
  | draining hp hq =>
    rcases hp with rfl | ⟨rfl, _⟩ <;> rcases hq with rfl | ⟨rfl, _⟩ <;> simp [rank] at hlate
  | resuming _ hq _ => rcases hq with rfl | ⟨rfl, _⟩ <;> simp [rank] at hlate
  | _ => simp [rank] at hlate

end Phase

end Astrald.Nodes
