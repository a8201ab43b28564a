import Astrald.Services.Failures

/-!
# The initial boundary

When a stream's attempt finishes, `finish` freezes the keys of the views that are queued or in
flight; the boundary is handed to the sink once none of them is left. The law of the boundary
is read off the history of the stream. `ledger` follows one key through it: the view the
boundary has to wait for, and the later ones that may be written in its place.

* `owing_exec`: in every run in which no attempt finishes while a newer view is queued behind the
  view of the same key in flight, the ledger of every key is cleared before the boundary;
* `boundary_law`: then the boundary is written at most once, with the services that failed, after
  the newest view of every key;
* `overtaken_view`: without the condition the boundary overtakes the newer view, and a one-shot
  stream never sends it.
-/

namespace Astrald.Services

open List

/-! ## The ledger of one key -/

/-- Whether the attempt has finished, and the views of `k` that settle what the boundary owes. -/
@[ext]
structure Ledger where
  finished : Bool := false
  due : List Update := []

/-- Before the attempt finishes the newest accepted view is due. Afterwards a view that
replaces one that is due is as good. A withdrawal, a suppressed negative or the write of
a due view clears the ledger. -/
def Ledger.enter (k : OfferingKey) (l : Ledger) : Event → Ledger
  | .finished => { l with finished := true }
  | .offered k' u queued =>
    if k' = k then
      if queued then { l with due := if l.finished then (if l.due = [] then [] else u :: l.due) else [u] }
      else { l with due := [] }
    else l
  | .retracted k' => if k' = k then { l with due := [] } else l
  | .written (.view k' v) => if k' = k ∧ v ∈ l.due then { l with due := [] } else l
  | _ => l

def ledger (log : List Event) (k : OfferingKey) : Ledger := log.foldl (Ledger.enter k) {}

theorem ledger_append (log es : List Event) (k : OfferingKey) :
    ledger (log ++ es) k = es.foldl (Ledger.enter k) (ledger log k) := foldl_append

theorem ledger_snoc (log : List Event) (e : Event) (k : OfferingKey) :
    ledger (log ++ [e]) k = (ledger log k).enter k e := ledger_append log [e] k

theorem ledger_account {log es : List Event} (h : ∀ e ∈ es, e.isAccount = true) (k : OfferingKey) :
    ledger (log ++ es) k = ledger log k := by
  rw [ledger_append]
  generalize ledger log k = l
  induction es with
  | nil => rfl
  | cons e es ih =>
    have he : l.enter k e = l := by
      have := h e mem_cons_self
      cases e <;> first | rfl | cases this
    rw [foldl_cons, he]
    exact ih fun e' he' => h e' (mem_cons_of_mem e he')

namespace Stream

/-- A view that is due is on its way, and once the attempt has finished the boundary
waits for it. -/
def OnItsWay (st : Stream) (k : OfferingKey) (l : Ledger) : Prop :=
  if l.finished then
    k ∈ st.attempt.owed.getD ∅ ∧
      ((st.inflight ≠ some k ∧ ∃ w ∈ l.due, st.pending k = some w) ∨
        ∃ w ∈ l.due, st.writer = .writing (.view k w))
  else ∃ u, l.due = [u] ∧ (st.pending k = some u ∨ st.writer = .writing (.view k u))

variable {st : Stream}

theorem mem_released_of_ne {k k' : OfferingKey} (hk : k ≠ k') (h : k' ∈ st.attempt.owed.getD ∅) :
    k' ∈ (st.released k).getD ∅ := by
  unfold released
  split
  · exact h
  · cases ho : st.attempt.owed with
    | none => simp [ho] at h
    | some ks => simpa [ho, Ne.symm hk] using h

/-- Dropping another key does not matter. -/
theorem OnItsWay.drop {k k' : OfferingKey} {l : Ledger} {log : List Event} {w : Bool} {removed : List OfferingKey}
    (h : st.OnItsWay k' l) (hk : k ≠ k') : OnItsWay { st with
      pending := Function.update st.pending k none
      queue := if (st.pending k).isSome then st.queue.erase k else st.queue
      attempt := { st.attempt with owed := st.released k }
      removed := removed
      wake := w
      log := log } k' l := by
  unfold OnItsWay at h ⊢
  simp only [Function.update_of_ne (Ne.symm hk)]
  split at h
  · rename_i hf
    rw [if_pos hf]
    exact ⟨mem_released_of_ne hk h.1, h.2⟩
  · rename_i hf
    rw [if_neg hf]
    exact h

structure Owing (st : Stream) : Prop where
  tidy : st.Tidy
  finished : ∀ k, (ledger st.log k).finished = st.attempt.resolved
  due : st.closed = false → st.attemptNil = false → ∀ k, (ledger st.log k).due ≠ [] →
    st.OnItsWay k (ledger st.log k)
  handed : ∀ inc, st.writer = .writing (.boundary inc) → ∀ k, (ledger st.log k).due = []
  once : st.attemptNil = false → ∀ inc, .written (.boundary inc) ∉ st.log
  cleared : History.Always (fun pre e => ∀ inc, e = .written (.boundary inc) →
    (∀ inc', .written (.boundary inc') ∉ pre) ∧ ∀ k, ledger pre k = ⟨true, []⟩) st.log

theorem enter_offered_of_ne {k k' : OfferingKey} (h : k' ≠ k) (l : Ledger) (u : Update) (q : Bool) :
    l.enter k (.offered k' u q) = l := by
  simp [Ledger.enter, h]

theorem enter_finished (k : OfferingKey) (l : Ledger) {e : Event} (he : e ≠ .finished) :
    (l.enter k e).finished = l.finished := by
  cases e with
  | finished => exact absurd rfl he
  | offered k' u q =>
    simp only [Ledger.enter]
    split
    · split <;> rfl
    · rfl
  | retracted k' =>
    simp only [Ledger.enter]
    split <;> rfl
  | written out =>
    cases out with
    | view k' v =>
      simp only [Ledger.enter]
      split <;> rfl
    | _ => rfl
  | _ => rfl

/-- A cleared ledger of a finished attempt stays clear. -/
theorem enter_clear (k : OfferingKey) {l : Ledger} (hf : l.finished = true) (hd : l.due = []) (e : Event) :
    (l.enter k e).due = [] := by
  cases e with
  | offered k' u q =>
    simp only [Ledger.enter]
    split
    · split
      · rfl
      · rfl
    · exact hd
  | retracted k' =>
    simp only [Ledger.enter]
    split
    · rfl
    · exact hd
  | written out =>
    cases out with
    | view k' v =>
      simp only [Ledger.enter]
      split
      · rfl
      · exact hd
    | _ => exact hd
  | _ => exact hd

theorem Owing.cleared_snoc (h : st.Owing) {e : Event} (he : ∀ inc, e ≠ .written (.boundary inc)) :
    History.Always (fun pre e => ∀ inc,
      e = .written (.boundary inc) → (∀ inc', .written (.boundary inc') ∉ pre) ∧
        ∀ k, ledger pre k = ⟨true, []⟩) (st.log ++ [e]) :=
  h.cleared.snoc fun inc heq => absurd heq (he inc)

/-- One event that is neither `finished` nor the boundary, and an edit that keeps what is due
on its way. -/
theorem Owing.record {st' : Stream} (h : st.Owing) (ht : st'.Tidy) {e : Event} (hlog : st'.log = st.log ++ [e])
    (hfin : e ≠ .finished) (hb : ∀ inc, e ≠ .written (.boundary inc))
    (hr : st'.attempt.resolved = st.attempt.resolved) (hn : st'.attemptNil = st.attemptNil)
    (hw : ∀ inc, st'.writer = .writing (.boundary inc) → st.writer = .writing (.boundary inc))
    (hdue : st'.closed = false → st'.attemptNil = false → ∀ k, ((ledger st.log k).enter k e).due ≠ [] →
      st'.OnItsWay k ((ledger st.log k).enter k e)) : st'.Owing where
  tidy := ht
  finished k := by
    rw [hlog, ledger_snoc, enter_finished k _ hfin, h.finished, hr]
  due hc hnil k hne := by
    rw [hlog, ledger_snoc] at hne ⊢
    exact hdue hc hnil k hne
  handed inc hw' k := by
    have hw₀ := hw inc hw'
    rw [hlog, ledger_snoc]
    refine enter_clear k ?_ (h.handed inc hw₀ k) e
    rw [h.finished]
    exact (h.tidy.boundary inc hw₀).2
  once hnil inc hm := by
    rw [hlog] at hm
    rcases mem_append.mp hm with hm | hm
    · exact h.once (hn ▸ hnil) inc hm
    · exact hb inc (mem_singleton.mp hm).symm
  cleared := by
    rw [hlog]
    exact h.cleared_snoc hb

theorem Owing.offer (h : st.Owing) (k : OfferingKey) (u : Update) : (st.offer k u).Owing := by
  have ht := h.tidy.offer k u
  have hcl := (Coordinator.sameStream_offer st k u).closed
  unfold Stream.offer at ht hcl ⊢
  split at ht
  · rename_i hacc
    rw [if_pos hacc]
    refine h.record (e := .offered k u true) ht rfl (by simp) (by simp) rfl rfl (fun _ hw => hw)
      fun hc hnil k' hne => ?_
    by_cases hk : k = k'
    · subst hk
      have henter : (ledger st.log k).enter k (.offered k u true) = { ledger st.log k with
          due := if (ledger st.log k).finished then
            (if (ledger st.log k).due = [] then [] else u :: (ledger st.log k).due) else [u] } := by
        simp [Ledger.enter]
      rw [henter] at hne ⊢
      cases hf : (ledger st.log k).finished with
      | false => simp [OnItsWay, hf]
      | true =>
        -- the view replaces one that is due, or nothing is due
        have hd : (ledger st.log k).due ≠ [] := by
          intro hd
          simp [hf, hd] at hne
        have hway := h.due hc hnil k hd
        simp only [OnItsWay, hf, if_true, if_neg hd] at hway ⊢
        refine ⟨hway.1, ?_⟩
        rcases hway.2 with ⟨hfl, w, hw, _⟩ | ⟨w, hw, hwr⟩
        · exact .inl ⟨hfl, u, mem_cons_self, Function.update_self ..⟩
        · exact .inr ⟨w, mem_cons_of_mem u hw, hwr⟩
    · rw [enter_offered_of_ne hk] at hne ⊢
      have hway := h.due hc hnil k' hne
      simp only [OnItsWay, Function.update_of_ne (Ne.symm hk)] at hway ⊢
      exact hway
  · rename_i hacc
    rw [if_neg hacc]
    rw [drop_eq] at ht ⊢
    refine h.record (e := .offered k u false) ht rfl (by simp) (by simp) rfl rfl (fun _ hw => hw)
      fun hc hnil k' hne => ?_
    by_cases hk : k = k'
    · subst hk
      simp [Ledger.enter] at hne
    · rw [enter_offered_of_ne hk] at hne ⊢
      exact (h.due hc hnil k' hne).drop hk

theorem Owing.retract (h : st.Owing) (k : OfferingKey) : (st.retract k).Owing := by
  have ht := h.tidy.retract k
  unfold Stream.retract at ht ⊢
  rw [drop_eq] at ht ⊢
  refine h.record (e := .retracted k) ht rfl (by simp) (by simp) rfl rfl (fun _ hw => hw)
    fun hc hnil k' hne => ?_
  by_cases hk : k = k'
  · subst hk
    simp [Ledger.enter] at hne
  · have henter : (ledger st.log k').enter k' (.retracted k) = ledger st.log k' := by
      simp [Ledger.enter, hk]
    rw [henter] at hne ⊢
    exact (h.due hc hnil k' hne).drop hk

theorem Owing.acct {a b : Stream} (hab : a.Acct b) (h : a.Owing) : b.Owing := by
  have ht := h.tidy.acct hab
  obtain ⟨o, f, r, es, rfl, hes, _⟩ := hab
  have hledger : ∀ k, ledger (a.log ++ es) k = ledger a.log k := ledger_account hes
  have hquiet : ∀ e ∈ es, ∀ inc, e ≠ .written (.boundary inc) := by
    rintro e he inc rfl
    cases hes _ he
  constructor
  case tidy => exact ht
  case finished =>
    intro k
    rw [hledger]
    exact h.finished k
  case due =>
    intro hc hnil k hne
    rw [hledger] at hne ⊢
    exact h.due hc hnil k hne
  case handed =>
    intro inc hw k
    rw [hledger]
    exact h.handed inc hw k
  case once =>
    intro hnil inc hm
    rcases mem_append.mp hm with hm | hm
    · exact h.once hnil inc hm
    · exact hquiet _ hm inc rfl
  case cleared => exact h.cleared.append fun e he pre inc heq => absurd heq (hquiet e he inc)

section

variable (h : st.Owing)
include h

/-- The attempt finishes with no view queued behind one of its key in flight. -/
theorem Owing.finish (hr : st.attempt.resolved = false)
    (hclean : ∀ k, st.inflight = some k → st.pending k = none) : st.finish.Owing := by
  have hledger : ∀ k, ledger st.finish.log k = { ledger st.log k with finished := true } :=
    fun k => ledger_snoc st.log .finished k
  constructor
  case tidy => exact h.tidy.finish hr
  case finished =>
    intro k
    rw [hledger]
    rfl
  case due =>
    intro hc hnil k hne
    rw [hledger] at hne ⊢
    have hway := h.due hc hnil k hne
    have hf : (ledger st.log k).finished = false := (h.finished k).trans hr
    simp only [OnItsWay, hf, Bool.false_eq_true, if_false] at hway
    obtain ⟨u, hu, hway⟩ := hway
    simp only [OnItsWay, if_true, hu, mem_singleton]
    rcases hway with hp | hw
    · have hfl : st.inflight ≠ some k := by
        intro hfl
        rw [hclean k hfl] at hp
        cases hp
      refine ⟨?_, .inl ⟨hfl, u, rfl, hp⟩⟩
      refine Finset.mem_union_left _ (mem_toFinset.mpr ((h.tidy.mem_queue k).mpr ?_))
      rw [hp]
      rfl
    · refine ⟨?_, .inr ⟨u, rfl, hw⟩⟩
      have hfl := (h.tidy.flying k u hw).1
      refine Finset.mem_union_right _ (mem_toFinset.mpr ?_)
      rw [hfl]
      simp
  case handed =>
    intro inc hw
    have := (h.tidy.boundary inc hw).2
    rw [hr] at this
    cases this
  case once =>
    intro hnil inc hm
    rcases mem_append.mp hm with hm | hm
    · exact h.once hnil inc hm
    · cases mem_singleton.mp hm
  case cleared => exact h.cleared_snoc (by simp)

theorem Owing.sent {out : Output} (hw : st.writer = .writing out) :
    Owing { st.sent out with writer := .idle } := by
  have ht := h.tidy.sent hw
  cases out with
  | removed keys =>
    refine h.record (e := .written (.removed keys)) ht rfl (by simp) (by simp) rfl rfl (by simp)
      fun hc hnil k hne => ?_
    have hway := h.due hc hnil k hne
    simp only [OnItsWay, hw, Writer.writing.injEq, reduceCtorEq, and_false, exists_false, or_false] at hway
    simp only [Stream.sent, OnItsWay, reduceCtorEq, and_false, exists_false, or_false]
    exact hway
  | view k v =>
    have hfl := (h.tidy.flying k v hw).1
    rw [sent_view] at ht ⊢
    refine h.record (e := .written (.view k v)) ht rfl (by simp) (by simp) rfl rfl (by simp)
      fun hc hnil k' hne => ?_
    have hcase : ¬(k = k' ∧ v ∈ (ledger st.log k').due) := by
      intro hv
      simp [Ledger.enter, hv] at hne
    have henter : (ledger st.log k').enter k' (.written (.view k v)) = ledger st.log k' := by
      simp only [Ledger.enter, if_neg hcase]
    rw [henter] at hne ⊢
    have hway := h.due hc hnil k' hne
    unfold OnItsWay at hway ⊢
    split at hway
    · rename_i hf
      rw [if_pos hf]
      -- the view that lands is not the one that is due
      rcases hway.2 with ⟨hne', hp⟩ | ⟨w, hmem, hw'⟩
      · have hk : k ≠ k' := by
          rintro rfl
          exact hne' hfl
        exact ⟨mem_released_of_ne hk hway.1, .inl ⟨by simp, hp⟩⟩
      · rw [hw] at hw'
        cases hw'
        exact absurd ⟨rfl, hmem⟩ hcase
    · rename_i hf
      rw [if_neg hf]
      obtain ⟨u, hu, hp | hw'⟩ := hway
      · exact ⟨u, hu, .inl hp⟩
      · rw [hw] at hw'
        cases hw'
        exact absurd ⟨rfl, by rw [hu]; exact mem_singleton.mpr rfl⟩ hcase
  | boundary inc =>
    obtain ⟨hnil, hres⟩ := h.tidy.boundary inc hw
    have hledger : ∀ k, ledger (st.log ++ [.written (.boundary inc)]) k = ledger st.log k :=
      fun k => ledger_snoc st.log _ k
    constructor
    case tidy => exact ht
    case finished =>
      intro k
      exact (congrArg Ledger.finished (hledger k)).trans (h.finished k)
    case due =>
      intro _ hnil'
      cases hnil'
    case handed =>
      intro inc' hw'
      cases hw'
    case once =>
      intro hnil'
      cases hnil'
    case cleared =>
      refine h.cleared.snoc fun inc' heq => ⟨h.once hnil, fun k => ?_⟩
      have hf := (h.finished k).trans hres
      have hd := h.handed inc hw k
      exact Ledger.ext hf hd

theorem Owing.runTurn (hw : st.writer = .idle) : st.runTurn.Owing := by
  have ht := h.tidy.runTurn hw
  have hland := h.tidy.landed (by simp [hw]) (by simp [hw])
  have hidle : ∀ k w, st.writer ≠ .writing (.view k w) := by simp [hw]
  -- with the writer idle, what is due is pending
  have hpend : st.closed = false → st.attemptNil = false → ∀ k, (ledger st.log k).due ≠ [] →
      (if (ledger st.log k).finished then k ∈ st.attempt.owed.getD ∅ ∧ ∃ w ∈ (ledger st.log k).due,
        st.pending k = some w else ∃ u, (ledger st.log k).due = [u] ∧ st.pending k = some u) := by
    intro hc hnil k hne
    have hway := h.due hc hnil k hne
    unfold OnItsWay at hway
    split at hway
    · rename_i hf
      rw [if_pos hf]
      refine ⟨hway.1, ?_⟩
      rcases hway.2 with ⟨_, hp⟩ | ⟨w, _, hw'⟩
      · exact hp
      · exact absurd hw' (hidle k w)
    · rename_i hf
      rw [if_neg hf]
      obtain ⟨u, hu, hp | hw'⟩ := hway
      · exact ⟨u, hu, hp⟩
      · exact absurd hw' (hidle k u)
  have hkeep : ∀ w : Writer, (∀ inc, w ≠ .writing (.boundary inc)) → Tidy { st with writer := w } →
      Owing { st with writer := w } := by
    intro w hne htw
    refine ⟨htw, h.finished, fun hc hnil k hd => ?_, fun inc hw' => absurd hw' (hne inc), h.once, h.cleared⟩
    have hway := hpend hc hnil k hd
    unfold OnItsWay
    split at hway
    · rename_i hf
      rw [if_pos hf]
      refine ⟨hway.1, .inl ⟨?_, hway.2⟩⟩
      simp [hland]
    · rename_i hf
      rw [if_neg hf]
      obtain ⟨u, hu, hp⟩ := hway
      exact ⟨u, hu, .inl hp⟩
  rcases st.runTurn_cases with ⟨_, he⟩ | ⟨_, _, he⟩ | ⟨hc, _, hnil, hres, howed, he⟩ |
    ⟨_, _, k, rest, v, hq, hp, he⟩ | ⟨_, he⟩
  · rw [he] at ht ⊢
    exact hkeep _ (by simp) ht
  · rw [he] at ht ⊢
    exact hkeep _ (by simp) ht
  · -- nothing is owed, so nothing is due
    rw [he] at ht ⊢
    have hclear : ∀ k, (ledger st.log k).due = [] := by
      intro k
      by_contra hne
      have hway := hpend hc hnil k hne
      rw [if_pos ((h.finished k).trans hres), howed] at hway
      exact absurd hway.1 (Finset.notMem_empty k)
    exact ⟨ht, h.finished, fun _ _ k hne => absurd (hclear k) hne, fun _ _ k => hclear k, h.once, h.cleared⟩
  · rw [he] at ht ⊢
    refine ⟨ht, h.finished, fun hc hnil k' hd => ?_, by simp, h.once, h.cleared⟩
    have hway := hpend hc hnil k' hd
    by_cases hk : k' = k
    · -- the view that was pending is in flight
      subst hk
      unfold OnItsWay
      split at hway
      · rename_i hf
        rw [if_pos hf]
        obtain ⟨hmem, w, hw', hp'⟩ := hway
        cases hp.symm.trans hp'
        exact ⟨hmem, .inr ⟨v, hw', rfl⟩⟩
      · rename_i hf
        rw [if_neg hf]
        obtain ⟨u, hu, hp'⟩ := hway
        cases hp.symm.trans hp'
        exact ⟨v, hu, .inr rfl⟩
    · unfold OnItsWay
      simp only [Function.update_of_ne hk]
      split at hway
      · rename_i hf
        rw [if_pos hf]
        exact ⟨hway.1, .inl ⟨fun he' => hk (Option.some.inj he').symm, hway.2⟩⟩
      · rename_i hf
        rw [if_neg hf]
        obtain ⟨u, hu, hp'⟩ := hway
        exact ⟨u, hu, .inl hp'⟩
  · rw [he] at ht ⊢
    exact hkeep _ (by simp) ht

theorem Owing.awake (hw : st.writer = .waiting) : Owing { st with writer := .idle, wake := false } := by
  refine ⟨h.tidy.awake hw, h.finished, fun hc hnil k hne => ?_, by simp, h.once, h.cleared⟩
  have hway := h.due hc hnil k hne
  simpa [OnItsWay, hw] using hway

theorem Owing.shut : st.shut.Owing :=
  { h with tidy := h.tidy.shut, due := fun hc => (by cases hc) }

theorem Owing.returned (hc : st.closed = true) : Owing { st with writer := .returned } :=
  ⟨h.tidy.returned, h.finished, fun hc' => absurd (hc.symm.trans hc') (by simp), by simp, h.once, h.cleared⟩

end

theorem Owing.bare (caller : String) (services : Finset String) (follow : Bool) :
    Owing { caller, services, follow } :=
  ⟨.bare caller services follow, fun _ => rfl, fun _ _ _ hne => absurd rfl hne, by simp, by simp,
    History.always_nil⟩

theorem offer?_frame (st : Stream) (off : Option (OfferingKey × Update)) :
    (st.offer? off).inflight = st.inflight ∧ (st.offer? off).attempt.resolved = st.attempt.resolved := by
  cases off with
  | none => exact ⟨rfl, rfl⟩
  | some p =>
    simp only [offer?, Stream.offer]
    split
    · exact ⟨rfl, rfl⟩
    · rw [drop_eq]
      exact ⟨rfl, rfl⟩

theorem Owing.turn {st' : Stream} {off : Option (OfferingKey × Update)} {ks : List OfferingKey}
    (ht : Turn off ks st st') (h : st.Owing)
    (hclean : st.attempt.resolved = false → st'.attempt.resolved = true → ∀ k, st.inflight = some k →
      (st.offer? off).pending k = none) :
    st'.Owing := by
  refine ht.invariant h (fun k u _ _ => h.offer k u) (fun _ _ hab ha => ha.acct hab)
    (fun a ha hr hr' hP => hP.finish hr ?_) (fun _ k _ _ ha => ha.retract k)
    (fun a w ha => { ha with tidy := ha.tidy.wake w })
    h.runTurn h.awake (fun _ hw => h.sent hw) (fun _ ha => ha.shut) (fun _ hc ha => ha.returned hc)
  -- an offer and accounting change neither what is in flight nor whether the attempt has finished
  obtain ⟨hfl, hres⟩ := offer?_frame st off
  obtain ⟨o, f, r, es, rfl, _, _⟩ := ha
  intro k hk
  exact hclean (hres.symm.trans hr) hr' k (hfl.symm.trans hk)

end Stream

/-! ## Reading the ledger -/

theorem enter_due {k : OfferingKey} {l : Ledger} {e : Event} (hne : l.due ≠ []) (hret : e ≠ .retracted k)
    (hsup : ∀ v, e ≠ .offered k v false) (hw : ∀ v ∈ l.due, e ≠ .written (.view k v))
    (hnew : ∀ v, e = .offered k v true → l.finished = true) :
    (l.enter k e).due ≠ [] ∧ ∀ w ∈ (l.enter k e).due, w ∈ l.due ∨ e = .offered k w true := by
  have hsame : (l.enter k e).due = l.due →
      (l.enter k e).due ≠ [] ∧ ∀ w ∈ (l.enter k e).due, w ∈ l.due ∨ e = .offered k w true := by
    intro heq
    rw [heq]
    exact ⟨hne, fun w hm => .inl hm⟩
  cases e with
  | offered k' u q =>
    by_cases hk : k' = k
    · subst hk
      cases q with
      | false => exact absurd rfl (hsup u)
      | true =>
        have hdue : (l.enter k' (.offered k' u true)).due = u :: l.due := by
          simp [Ledger.enter, hnew u rfl, hne]
        rw [hdue]
        refine ⟨cons_ne_nil u _, fun w hm => ?_⟩
        rcases mem_cons.mp hm with rfl | hm
        · exact .inr rfl
        · exact .inl hm
    · exact hsame (by rw [Stream.enter_offered_of_ne hk])
  | retracted k' =>
    refine hsame ?_
    have hk : k' ≠ k := fun hk => hret (hk ▸ rfl)
    simp [Ledger.enter, hk]
  | written out =>
    cases out with
    | view k' v =>
      refine hsame ?_
      have hv : ¬(k' = k ∧ v ∈ l.due) := by
        rintro ⟨rfl, hm⟩
        exact hw v hm rfl
      simp [Ledger.enter, hv]
    | _ => exact hsame rfl
  | _ => exact hsame rfl

/-- A view that was due stays due until it is written, or one that replaced it is, or the key
is withdrawn. Until the attempt finishes no other view replaces it. -/
theorem due_kept {k : OfferingKey} {u : Update} {l : Ledger} (hl : l.due = [u]) (es : List Event)
    (hret : .retracted k ∉ es) (hsup : ∀ v, .offered k v false ∉ es) (hw : .written (.view k u) ∉ es)
    (hnew : ∀ v m₁ m₂, es = m₁ ++ .offered k v true :: m₂ →
      .finished ∈ m₁ ∧ .written (.view k v) ∉ m₂) :
    (es.foldl (Ledger.enter k) l).due ≠ [] ∧
      (.finished ∈ es → (es.foldl (Ledger.enter k) l).finished = true) ∧
      ∀ w ∈ (es.foldl (Ledger.enter k) l).due, w = u ∨ .offered k w true ∈ es := by
  -- over the history from its beginning: what is due now was accepted in the part read so far
  induction es using List.reverseRecOn with
  | nil => simp [hl]
  | append_singleton es e ih =>
    rw [mem_append, not_or] at hret hw
    have hsup' : ∀ v, .offered k v false ∉ es := fun v hm => hsup v (mem_append_left _ hm)
    obtain ⟨hne, hfin, hdue⟩ := ih hret.1 hsup' hw.1 fun v m₁ m₂ heq =>
      ⟨(hnew v m₁ (m₂ ++ [e]) (by simp [heq])).1,
        fun hm => (hnew v m₁ (m₂ ++ [e]) (by simp [heq])).2 (mem_append_left _ hm)⟩
    rw [foldl_append, foldl_cons, foldl_nil]
    generalize es.foldl (Ledger.enter k) l = l' at hne hfin hdue
    by_cases hf : e = .finished
    · subst hf
      exact ⟨hne, fun _ => rfl, fun w hm => (hdue w hm).imp_right (mem_append_left _)⟩
    have hwrite : ∀ v ∈ l'.due, e ≠ .written (.view k v) := by
      rintro v hm rfl
      rcases hdue v hm with rfl | hacc
      · exact hw.2 mem_cons_self
      · obtain ⟨m₁, m₂, rfl⟩ := append_of_mem hacc
        exact (hnew v m₁ (m₂ ++ [.written (.view k v)]) (by simp)).2 (by simp)
    obtain ⟨hne', hdue'⟩ := enter_due hne (fun he => hret.2 (by simp [he]))
      (fun v he => hsup v (by simp [he])) hwrite fun v he => hfin (hnew v es [] (by simp [he])).1
    refine ⟨hne', fun hm => ?_, fun w hm => ?_⟩
    · rw [Stream.enter_finished k l' hf]
      exact hfin ((mem_append.mp hm).resolve_right fun h => hf (mem_singleton.mp h).symm)
    · rcases hdue' w hm with hm | rfl
      · exact (hdue w hm).imp_right (mem_append_left _)
      · exact .inr (by simp)

theorem ledger_finished (log : List Event) (k : OfferingKey) :
    (ledger log k).finished = true ↔ .finished ∈ log := by
  induction log using List.reverseRecOn with
  | nil => simp [ledger]
  | append_singleton log e ih =>
    rw [ledger_snoc]
    by_cases he : e = .finished
    · subst he
      simp [Ledger.enter]
    · rw [Stream.enter_finished k _ he, ih]
      simp [Ne.symm he]

/-- What a cleared ledger says of the newest view accepted before the attempt finished. -/
theorem settled_of_clear {k : OfferingKey} {u : Update} {front rest mid : List Event}
    (hclear : (ledger (front ++ .offered k u true :: rest ++ .finished :: mid) k).due = [])
    (hfront : .finished ∉ front ++ .offered k u true :: rest)
    (hlast : ∀ v, .offered k v true ∉ rest) :
    .written (.view k u) ∈ rest ++ mid ∨
      (∃ v m₁ m₂, mid = m₁ ++ .offered k v true :: m₂ ∧ .written (.view k v) ∈ m₂) ∨
      .retracted k ∈ rest ++ mid ∨ ∃ v, .offered k v false ∈ rest ++ mid := by
  by_contra hnone
  simp only [not_or] at hnone
  obtain ⟨hw, hrepl, hret, hsup⟩ := hnone
  have hnf : (ledger front k).finished = false := by
    have h := (ledger_finished front k).not.mpr fun hm => hfront (mem_append_left _ hm)
    simpa using h
  have hdue : ((ledger front k).enter k (.offered k u true)).due = [u] := by
    simp [Ledger.enter, hnf]
  have hkept := due_kept hdue (rest ++ .finished :: mid)
    (by simpa using hret) (by simpa using hsup) (by simpa using hw) ?_
  · rw [append_assoc, ledger_append] at hclear
    exact hkept.1 hclear
  · -- a later view is accepted after the attempt has finished
    intro v m₁ m₂ heq
    rcases append_eq_append_iff.mp heq with ⟨m, hm₁, hm⟩ | ⟨m, hr, hm⟩
    · cases m with
      | nil => simp at hm
      | cons e m =>
        rw [cons_append, List.cons.injEq] at hm
        refine ⟨by rw [hm₁, ← hm.1]; simp, fun hwr => hrepl ⟨v, m, m₂, hm.2, hwr⟩⟩
    · cases m with
      | nil => simp at hm
      | cons e m =>
        rw [cons_append, List.cons.injEq] at hm
        refine absurd ?_ (hlast v)
        rw [hr, ← hm.1]
        simp

namespace Coordinator

/-! ## The law -/

/-- When the operation finishes an attempt, no newer view is queued behind the view of the same
key in flight. -/
def FinishesClean (d : Draws) (c : Coordinator) (op : Op) : Prop :=
  ∀ i < c.nStreams, (c.streams i).attempt.resolved = false →
    ((c.step d op).streams i).attempt.resolved = true →
    ∀ k ∈ (c.streams i).inflight, ((c.streams i).offer? (c.offerOf op i)).pending k = none

instance (d : Draws) (c : Coordinator) (op : Op) : Decidable (c.FinishesClean d op) :=
  inferInstanceAs (Decidable (∀ i < _, _))

theorem owing_exec (d : Draws) (ops : List Op) (h : Along d (FinishesClean d) ops) :
    ∀ i, i < (exec d ops).nStreams → ((exec d ops).streams i).Owing := by
  refine stream_exec d ops (fun caller services follow st hs => ?_) fun op ops' i hsuf hi ho => ?_
  · exact (Stream.Owing.bare caller services follow).turn (.work (Stream.section_settled hs)) (by simp)
  · exact ho.turn (step_turn d (exec d ops') op i hi) (h.at_step hsuf i hi)

/-- **The boundary.** A stream's boundary is written once. It names the services with an
obligation that had failed, or was still open, when the attempt finished. The newest view of
every key accepted before that is written before the boundary, unless a later one is written in
its place or the key is withdrawn. -/
theorem boundary_law (d : Draws) (ops : List Op) (h : Along d (FinishesClean d) ops) (i : ℕ)
    (hi : i < (exec d ops).nStreams) (pre post : List Event) (inc : Option (List String))
    (hlog : ((exec d ops).streams i).log = pre ++ .written (.boundary inc) :: post) :
    (∀ inc', .written (.boundary inc') ∉ pre ++ post) ∧
    (∀ inc', ((exec d ops).streams i).writer ≠ .writing (.boundary inc')) ∧
    ∃ before mid, pre = before ++ .finished :: mid ∧ .finished ∉ before ++ mid ++ post ∧
      (∀ x, x ∈ inc.getD [] ↔ ∃ o, .failed o x ∈ before ∨ .expired o x ∈ before) ∧
      ∀ k u front rest, before = front ++ .offered k u true :: rest →
        (∀ v, .offered k v true ∉ rest) →
        .written (.view k u) ∈ rest ++ mid ∨
          (∃ v m₁ m₂, mid = m₁ ++ .offered k v true :: m₂ ∧ .written (.view k v) ∈ m₂) ∨
          .retracted k ∈ rest ++ mid ∨ ∃ v, .offered k v false ∈ rest ++ mid := by
  have howing := owing_exec d ops h i hi
  have htime := (timely_exec d ops i hi).early
  have hnamed := (accounted_exec d ops i hi).recorded.named
  obtain ⟨hnot, hclear⟩ := howing.cleared pre _ post hlog inc rfl
  have hfin : .finished ∈ pre :=
    (ledger_finished pre ⟨"", ""⟩).mp (by rw [hclear])
  obtain ⟨before, mid, rfl, hbefore⟩ := eq_append_cons_of_mem hfin
  refine ⟨fun inc' hm => ?_, fun inc' hw => ?_, before, mid, rfl, fun hm => ?_, fun x => ?_, ?_⟩
  · rcases mem_append.mp hm with hm | hm
    · exact hnot inc' hm
    · obtain ⟨p₁, p₂, rfl⟩ := append_of_mem hm
      refine (howing.cleared (before ++ .finished :: mid ++ .written (.boundary inc) :: p₁) _ p₂ ?_
        inc' rfl).1
        inc ?_
      · rw [hlog]
        simp
      · simp
  · refine howing.once (howing.tidy.boundary inc' hw).1 inc ?_
    rw [hlog]
    simp
  · rw [append_assoc, mem_append] at hm
    rcases hm with hm | hm
    · exact hbefore hm
    · -- a second end of the attempt
      have hm' : .finished ∈ mid ++ .written (.boundary inc) :: post := by
        rcases mem_append.mp hm with hm | hm
        · exact mem_append_left _ hm
        · exact mem_append_right _ (mem_cons_of_mem _ hm)
      obtain ⟨m₁, m₂, heq⟩ := append_of_mem hm'
      refine htime (before ++ .finished :: m₁) .finished m₂ ?_ (.inl rfl) ?_
      · rw [hlog, append_assoc, cons_append, heq]
        simp
      · simp
  · have hlate : failures (before ++ .finished :: mid) = failures before := by
      rw [append_cons, failures_late ?_ (by simp), failures_snoc rfl]
      intro p e q heq
      refine htime p e (q ++ .written (.boundary inc) :: post) ?_
      rw [hlog, append_cons before, heq]
      simp
    rw [hnamed _ _ post hlog inc rfl x, hlate]
    exact mem_failures
  · rintro k u front rest rfl hlast
    refine settled_of_clear ?_ hbefore hlast
    rw [hclear k]

/-- A view of the service as its provider's key carries it. -/
def playerView (info : String) : Update := { playerUpdate true info with providerID := some "p" }

/-- A one-shot stream hears of one offering from its provider and then from a swarm member, and
has written the first view when the second arrives. Latest first. -/
def heardTwice : List Op :=
  [.wrote 0, .run 0, .wrote 0, .run 0, .remoteInitial 0 [], .remoteOffer 0 (playerView "b"), .wrote 0, .run 0,
    .answer 0 ⟨1, some (playerUpdate true "a")⟩, .discover "c" ["player"] false ["m"],
    .register "p" ["player"] []]

theorem boundary_law_heardTwice :
    ∃ before mid, ((exec countingDraws heardTwice).streams 0).log.take 7 = before ++ .finished :: mid ∧
      .finished ∉ before ++ mid ++ [] ∧
      ∀ x, x ∈ (none : Option (List String)).getD [] ↔ ∃ o, .failed o x ∈ before ∨ .expired o x ∈ before := by
  obtain ⟨_, _, before, mid, hpre, honce, hnames, _⟩ := boundary_law countingDraws heardTwice (by decide) 0
    (by decide) (((exec countingDraws heardTwice).streams 0).log.take 7) [] none (by decide)
  exact ⟨before, mid, hpre, honce, hnames⟩

/-- The same stream, with the first view still in flight when the second arrives and the attempt
finishes. Latest first. -/
def overtaken : List Op :=
  [.wrote 0, .run 0, .wrote 0, .remoteInitial 0 [], .remoteOffer 0 (playerView "b"), .run 0,
    .answer 0 ⟨1, some (playerUpdate true "a")⟩, .discover "c" ["player"] false ["m"],
    .register "p" ["player"] []]

/-- `sent` takes the key off the boundary's debt with the older view, so the boundary is written,
the stream closes, and the newer view is never sent. -/
theorem overtaken_view :
    0 < (exec countingDraws overtaken).nStreams ∧
    ((exec countingDraws overtaken).streams 0).writer = .returned ∧
    ∃ front rest mid, ((exec countingDraws overtaken).streams 0).log =
        front ++ .offered (keyOf "p" "player") (playerView "b") true :: rest ++
          .finished :: mid ++ [.written (.boundary none)] ∧
      .written (.view (keyOf "p" "player") (playerView "b")) ∉ rest ++ mid ∧
      (∀ v, .offered (keyOf "p" "player") v true ∉ rest ++ mid) ∧
      (∀ v, .offered (keyOf "p" "player") v false ∉ rest ++ mid) ∧
      .retracted (keyOf "p" "player") ∉ rest ++ mid := by
  exact ⟨by decide, by decide, [.offered (keyOf "p" "player") (playerView "a") true, .ended 0 "player"],
    [.ended 1 "player"], [.written (.view (keyOf "p" "player") (playerView "a"))], by decide, by decide,
    by simp, by simp, by decide⟩

end Coordinator

end Astrald.Services
