import Astrald.Services.Index

/-!
# The queue of one stream

Laws of a stream are proved over its turns: `Turn.invariant` reduces "every operation keeps
`P`" to what `P` has to say about the methods of the stream, and `stream_exec` turns that
into a law of every stream in every run. The first such law is `Tidy`: the bookkeeping of
the stream's own fields.

* `tidy_exec`: in every run, the queue of every stream lists exactly the keys of its pending
  views, each once; what the boundary still owes is pending or in flight; and the writer's
  position agrees with the view in flight.
-/

namespace Astrald.Services

open List Function

namespace Stream

/-! ## The invariant rule -/

theorem resolved_retractAll (ks : List OfferingKey) (st : Stream) :
    (st.retractAll ks).attempt.resolved = st.attempt.resolved := by
  refine Fold.foldl_eq (fun a : Stream => a.attempt.resolved) (fun a k => ?_) ks st
  unfold retract drop release
  dsimp only
  split <;> split <;> rfl

/-- A property of streams holds after a turn when the methods keep it. The offer comes
first, then accounting with at most one `finish`, then the retractions. -/
theorem Turn.invariant {P : Stream → Prop} {off : Option (OfferingKey × Update)}
    {ks : List OfferingKey} {st st' : Stream} (h : Turn off ks st st') (hP : P st)
    (hoffer : ∀ k u, off = some (k, u) → st.closed = false → P (st.offer k u))
    (hacct : ∀ a b : Stream, a.Acct b → P a → P b)
    (hfinish : ∀ a : Stream, (st.offer? off).Acct a → a.attempt.resolved = false →
      st'.attempt.resolved = true → P a → P a.finish)
    (hretract : ∀ (a : Stream) k, k ∈ ks → a.closed = false → P a → P (a.retract k))
    (hwake : ∀ (a : Stream) w, P a → P { a with wake := w })
    (hrun : st.writer = .idle → P st.runTurn)
    (hawake : st.writer = .waiting → P { st with writer := .idle, wake := false })
    (hsent : ∀ out, st.writer = .writing out → P { st.sent out with writer := .idle })
    (hshut : ∀ a : Stream, P a → P a.shut)
    (hreturn : ∀ a : Stream, a.closed = true → P a → P { a with writer := .returned }) : P st' := by
  cases h with
  | work hs =>
    obtain ⟨hcl, b, w, hb, rfl⟩ := hs
    have ho : P (st.offer? off) := by
      cases hoff : off with
      | none => exact hP
      | some p =>
        refine hoffer p.1 p.2 hoff ?_
        cases hc : st.closed with
        | false => rfl
        | true => exact absurd (hoff.symm.trans (hcl hc).1) (by simp)
    have hPb : P b := by
      rcases hb with hb | ⟨a, ha, hr, hb⟩
      · exact hacct _ b hb ho
      · refine hacct _ b hb (hfinish a ha hr ?_ (hacct _ a ha ho))
        exact (resolved_retractAll ks b).trans hb.resolved
    have hclosed : ks ≠ [] → b.closed = false := by
      intro hne
      have hsame := (Coordinator.sameStream_settled hb).closed
      have hoc : (st.offer? off).closed = st.closed := by
        cases off with
        | none => rfl
        | some p => exact (Coordinator.sameStream_offer st p.1 p.2).closed
      cases hc : b.closed with
      | false => rfl
      | true => exact absurd (hcl (by rw [← hoc, ← hsame, hc])).2 hne
    refine hwake _ w ?_
    -- the retractions, one after another
    refine (List.foldlRecOn (motive := fun a => a.closed = b.closed ∧ P a) ks retract ⟨rfl, hPb⟩
      fun a ⟨hc, ha⟩ k hk => ?_).2
    refine ⟨(Coordinator.sameStream_retract a k).closed.trans hc, hretract a k hk ?_ ha⟩
    exact hc.trans (hclosed (ne_nil_of_mem hk))
  | run _ _ hw => exact hrun hw
  | awake _ _ hw => exact hawake hw
  | wrote _ _ hw => exact hsent _ hw
  | last _ _ hw _ _ ha => exact hreturn _ rfl (hshut _ (hacct _ _ ha (hsent _ hw)))
  | close _ _ _ ha => exact hshut _ (hacct _ _ ha hP)
  | abort _ _ _ _ ha => exact hreturn _ rfl (hshut _ (hacct _ _ ha hP))
  | stop _ _ _ hc => exact hreturn _ hc hP
  | lastClosed _ _ hw hc =>
    refine hreturn { st.sent (.boundary _) with writer := .idle } ?_ (hsent _ hw)
    exact hc

end Stream

/-- A law of streams: it holds of a stream that has just been accounted for, and every
operation of every run keeps it. -/
theorem Coordinator.stream_exec (d : Draws) {P : Stream → Prop} (ops : List Op)
    (hnew : ∀ (caller : String) (services : Finset String) (follow : Bool) (st : Stream),
      Stream.Settled { caller, services, follow } st → P st)
    (hstep : ∀ op ops' i, (op :: ops') <:+ ops → i < (exec d ops').nStreams →
      P ((exec d ops').streams i) → P ((exec d (op :: ops')).streams i)) :
    ∀ i, i < (exec d ops).nStreams → P ((exec d ops).streams i) := by
  induction ops with
  | nil => exact fun i hi => absurd hi (Nat.not_lt_zero i)
  | cons op ops ih =>
    intro i hi
    have ih' := ih fun op' ops' j hsuf => hstep op' ops' j (hsuf.trans (suffix_cons op ops))
    by_cases hlt : i < (exec d ops).nStreams
    · exact hstep op ops i suffix_rfl hlt (ih' i hlt)
    · -- the operation is the discovery that made the stream
      obtain ⟨rfl, caller, names, follow, members, rfl⟩ := eq_discover_of_new d (exec d ops) op hi hlt
      exact hnew caller names.toFinset follow _
        (step_newStream d (exec d ops) (.discover caller names follow members) rfl)

namespace Stream

/-! ## Bookkeeping -/

structure Tidy (st : Stream) : Prop where
  queue_nodup : st.queue.Nodup
  mem_queue : ∀ k, k ∈ st.queue ↔ (st.pending k).isSome
  owed : st.closed = false → st.attemptNil = false → ∀ ks, st.attempt.owed = some ks →
    ∀ k ∈ ks, (st.pending k).isSome ∨ st.inflight = some k
  resolved_of_nil : st.attemptNil = true → st.attempt.resolved = true
  boundary : ∀ inc, st.writer = .writing (.boundary inc) →
    st.attemptNil = false ∧ st.attempt.resolved = true
  removing : ∀ keys, st.writer = .writing (.removed keys) → ∀ k ∈ keys, k ∈ st.removed
  flying : ∀ k v, st.writer = .writing (.view k v) →
    st.inflight = some k ∧ st.inflightAvailable = v.available
  landed : (∀ k v, st.writer ≠ .writing (.view k v)) → st.writer ≠ .returned → st.inflight = none

/-- What `drop` leaves of the boundary's debt. -/
def released (st : Stream) (k : OfferingKey) : Option (Finset OfferingKey) :=
  if st.attemptNil then st.attempt.owed else st.attempt.owed.map (·.erase k)

theorem release_eq (st : Stream) (k : OfferingKey) :
    st.release k = { st with attempt := { st.attempt with owed := st.released k } } := by
  unfold release released
  split <;> rfl

theorem drop_eq (st : Stream) (k : OfferingKey) :
    st.drop k = { st with
      pending := update st.pending k none
      queue := if (st.pending k).isSome then st.queue.erase k else st.queue
      attempt := { st.attempt with owed := st.released k } } := by
  unfold drop
  rw [release_eq]
  cases hp : st.pending k with
  | none =>
    have hu : update st.pending k none = st.pending := by
      rw [← hp, update_eq_self]
    simp [hu]
  | some v => simp [released]

theorem sent_view (st : Stream) (k : OfferingKey) (v : Update) :
    st.sent (.view k v) = { st with
      visible := if v.available then insert k st.visible else st.visible.erase k
      attempt := { st.attempt with owed := st.released k }
      inflight := none
      log := st.log ++ [.written (.view k v)] } := by
  unfold sent
  dsimp only
  rw [release_eq]
  rfl

theorem mem_released (st : Stream) {k k' : OfferingKey} {ks : Finset OfferingKey}
    (hn : st.attemptNil = false) (h : st.released k = some ks) (hk : k' ∈ ks) :
    k' ≠ k ∧ ∃ ks', st.attempt.owed = some ks' ∧ k' ∈ ks' := by
  unfold released at h
  rw [hn, if_neg Bool.false_ne_true] at h
  obtain ⟨ks', hks', rfl⟩ := Option.map_eq_some_iff.mp h
  obtain ⟨hne, hm⟩ := Finset.mem_erase.mp hk
  exact ⟨hne, ks', hks', hm⟩

variable {st : Stream}

theorem Tidy.mem_queue_erase (h : st.Tidy) (k k' : OfferingKey) :
    k' ∈ (if (st.pending k).isSome then st.queue.erase k else st.queue) ↔ k' ≠ k ∧ k' ∈ st.queue := by
  split
  · exact h.queue_nodup.mem_erase_iff
  · rename_i hp
    refine ⟨fun hm => ⟨?_, hm⟩, And.right⟩
    rintro rfl
    exact hp ((h.mem_queue k').mp hm)

theorem isSome_update_none (p : OfferingKey → Option Update) (k k' : OfferingKey) :
    (update p k none k').isSome ↔ k' ≠ k ∧ (p k').isSome := by
  by_cases hk : k' = k
  · subst hk
    simp
  · simp [hk]

/-- A dropped view leaves the rest of the queue in order. -/
theorem Tidy.drop (h : st.Tidy) (k : OfferingKey) : (st.drop k).Tidy := by
  rw [drop_eq]
  constructor
  case queue_nodup =>
    dsimp only
    split
    · exact h.queue_nodup.erase k
    · exact h.queue_nodup
  case mem_queue =>
    intro k'
    rw [h.mem_queue_erase, isSome_update_none, h.mem_queue]
  case owed =>
    intro hc hn ks hks k' hk'
    obtain ⟨hne, ks', hks', hm⟩ := mem_released st hn hks hk'
    rcases h.owed hc hn ks' hks' k' hm with hp | hf
    · exact .inl ((isSome_update_none _ _ _).mpr ⟨hne, hp⟩)
    · exact .inr hf
  case resolved_of_nil => exact h.resolved_of_nil
  case boundary => exact h.boundary
  case removing => exact h.removing
  case flying => exact h.flying
  case landed => exact h.landed

theorem Tidy.offer (h : st.Tidy) (k : OfferingKey) (u : Update) : (st.offer k u).Tidy := by
  unfold Stream.offer
  split
  · constructor
    case queue_nodup =>
      dsimp only
      split
      · exact h.queue_nodup
      · rename_i hp
        refine nodup_append.mpr ⟨h.queue_nodup, by simp, fun a ha b hb => ?_⟩
        rw [mem_singleton.mp hb]
        rintro rfl
        exact hp ((h.mem_queue a).mp ha)
    case mem_queue =>
      intro k'
      by_cases hk : k' = k
      · subst hk
        dsimp only
        rw [update_self]
        split
        · rename_i hp
          simpa using (h.mem_queue k').mpr hp
        · simp
      · dsimp only
        rw [update_of_ne hk, ← h.mem_queue k']
        split
        · exact Iff.rfl
        · simp [hk]
    case owed =>
      intro hc hn ks hks k' hk'
      rcases h.owed hc hn ks hks k' hk' with hp | hf
      · refine .inl ?_
        by_cases hk : k' = k
        · subst hk
          simp
        · simpa [hk] using hp
      · exact .inr hf
    case resolved_of_nil => exact h.resolved_of_nil
    case boundary => exact h.boundary
    case removing => exact h.removing
    case flying => exact h.flying
    case landed => exact h.landed
  · have hd := h.drop k
    exact { hd with }

theorem Tidy.retract (h : st.Tidy) (k : OfferingKey) : (st.retract k).Tidy := by
  have hd := h.drop k
  refine { hd with removing := ?_ }
  intro keys hw k' hk'
  have hw' : st.writer = .writing (.removed keys) := by
    have : (st.drop k).writer = st.writer := by rw [drop_eq]
    exact this.symm.trans hw
  have hm := h.removing keys hw' k' hk'
  unfold Stream.retract
  dsimp only
  split
  · split
    · exact hm
    · exact mem_append_left _ hm
  · exact hm

theorem Tidy.acct {a b : Stream} (hab : a.Acct b) (h : a.Tidy) : b.Tidy := by
  obtain ⟨o, f, r, es, rfl, _, _⟩ := hab
  exact { h with }

section

variable (h : st.Tidy)
include h

theorem Tidy.finish (hr : st.attempt.resolved = false) : st.finish.Tidy := by
  refine { h with owed := ?_, resolved_of_nil := fun _ => rfl, boundary := ?_ }
  · intro _ _ ks hks k hk
    cases hks
    rcases Finset.mem_union.mp hk with hq | hf
    · exact .inl ((h.mem_queue k).mp (mem_toFinset.mp hq))
    · refine .inr ?_
      have := mem_toFinset.mp hf
      exact Option.mem_toList.mp this
  · intro inc hw
    have := (h.boundary inc hw).2
    rw [hr] at this
    cases this

theorem Tidy.sent {out : Output} (hw : st.writer = .writing out) :
    Tidy { st.sent out with writer := .idle } := by
  cases out with
  | removed keys =>
    have hf := h.landed (by simp [hw]) (by simp [hw])
    exact { h with boundary := by simp, removing := by simp, flying := by simp, landed := fun _ _ => hf }
  | boundary inc =>
    have hf := h.landed (by simp [hw]) (by simp [hw])
    exact ⟨h.queue_nodup, h.mem_queue, by simp [Stream.sent], fun _ => (h.boundary inc hw).2, by simp,
      by simp, by simp, fun _ _ => hf⟩
  | view k v =>
    have hf := (h.flying k v hw).1
    rw [sent_view]
    refine ⟨h.queue_nodup, h.mem_queue, ?_, h.resolved_of_nil, by simp, by simp, by simp, fun _ _ => rfl⟩
    intro hc hn ks hks k' hk'
    obtain ⟨hne, ks', hks', hm⟩ := mem_released st hn hks hk'
    rcases h.owed hc hn ks' hks' k' hm with hp | hfl
    · exact .inl hp
    · rw [hf] at hfl
      exact absurd (Option.some.inj hfl).symm hne

theorem Tidy.runTurn (hw : st.writer = .idle) : st.runTurn.Tidy := by
  have hf := h.landed (by simp [hw]) (by simp [hw])
  rcases st.runTurn_cases with ⟨_, he⟩ | ⟨_, _, he⟩ | ⟨_, _, hn, hr, _, he⟩ |
    ⟨_, _, k, rest, v, hq, hp, he⟩ | ⟨_, he⟩
  · rw [he]
    exact { h with boundary := by simp, removing := by simp, flying := by simp, landed := fun _ _ => hf }
  · rw [he]
    refine { h with boundary := by simp, removing := ?_, flying := by simp, landed := fun _ _ => hf }
    intro keys hkeys k hk
    cases hkeys
    exact (mem_insertionSort _).mp hk
  · rw [he]
    exact { h with boundary := fun _ _ => ⟨hn, hr⟩, removing := by simp, flying := by simp, landed := fun _ _ => hf }
  · rw [he]
    have hnd := nodup_cons.mp (hq ▸ h.queue_nodup)
    refine ⟨hnd.2, fun k' => ?_, ?_, h.resolved_of_nil, by simp, by simp, ?_, ?_⟩
    · rw [isSome_update_none, ← h.mem_queue, hq, mem_cons]
      constructor
      · intro hm
        exact ⟨fun he => hnd.1 (he ▸ hm), .inr hm⟩
      · rintro ⟨hne, he | hm⟩
        · exact absurd he hne
        · exact hm
    · intro hc hn ks hks k' hk'
      rcases h.owed hc hn ks hks k' hk' with hp' | hfl
      · by_cases hk : k' = k
        · exact .inr (by rw [hk])
        · exact .inl ((isSome_update_none _ _ _).mpr ⟨hk, hp'⟩)
      · rw [hf] at hfl
        cases hfl
    · intro k' v' hw'
      cases hw'
      exact ⟨rfl, rfl⟩
    · intro hne
      exact absurd rfl (hne k v)
  · rw [he]
    exact { h with boundary := by simp, removing := by simp, flying := by simp, landed := fun _ _ => hf }

theorem Tidy.shut : st.shut.Tidy := by
  refine { h with queue_nodup := nodup_nil, mem_queue := by simp [Stream.shut], owed := ?_ }
  intro hc
  cases hc

theorem Tidy.awake (hw : st.writer = .waiting) : Tidy { st with writer := .idle, wake := false } := by
  have hf := h.landed (by simp [hw]) (by simp [hw])
  exact { h with boundary := by simp, removing := by simp, flying := by simp, landed := fun _ _ => hf }

theorem Tidy.wake (w : Bool) : Tidy { st with wake := w } :=
  { h with }

theorem Tidy.returned : Tidy { st with writer := .returned } :=
  { h with boundary := by simp, removing := by simp, flying := by simp, landed := by simp }

end

theorem Tidy.bare (caller : String) (services : Finset String) (follow : Bool) :
    Tidy { caller, services, follow } := by
  constructor <;> simp

theorem Tidy.turn {st' : Stream} {off : Option (OfferingKey × Update)} {ks : List OfferingKey}
    (ht : Turn off ks st st') (h : st.Tidy) : st'.Tidy :=
  ht.invariant h (fun k u _ _ => h.offer k u) (fun _ _ hab ha => ha.acct hab)
    (fun _ _ hr _ ha => ha.finish hr) (fun _ k _ _ ha => ha.retract k) (fun _ w ha => ha.wake w)
    h.runTurn h.awake (fun _ hw => h.sent hw) (fun _ ha => ha.shut) (fun _ _ ha => ha.returned)

theorem Tidy.settled {st' : Stream} (hs : st.Settled st') (h : st.Tidy) : st'.Tidy :=
  h.turn (.work (section_settled hs))

end Stream

/-- **Bookkeeping.** In every run every stream is tidy. -/
theorem Coordinator.tidy_exec (d : Draws) (ops : List Op) :
    ∀ i, i < (exec d ops).nStreams → ((exec d ops).streams i).Tidy :=
  stream_exec d ops (fun caller services follow _ hs => (Stream.Tidy.bare caller services follow).settled hs)
    fun op ops' i _ hi h => h.turn (step_turn d (exec d ops') op i hi)

end Astrald.Services
