import Mathlib

/-!
# Reads of repository groups

The model of `Read` in `repo_group.go`: a tree of groups, sequential and concurrent, over repositories whose
answers are given. What is left open is the order in which the members of a concurrent group answer, every
observation of whether the context has ended, and the members that a group has stopped waiting for.

* `Reads`: the runs of a read; a run lists the readers that were opened and those that a group closed;
* `Repo.Hits`, `Repo.miss`: what a read of the tree finds, and the error it gives if it finds nothing;
* `groupRead_agrees`: a read whose context does not end gives what the tree has, whatever the modes of its
  groups, and on every run each opened reader is either returned or closed once.
-/

namespace Astrald.Objects.Groups

open List

variable {ρ : Type}

inductive Err
  | notFound
  | hashLookupUnsupported
  | ended
  | other
  deriving DecidableEq

/-- The answer to a read: the reader of a hit, or an error. -/
abbrev Answer (ρ : Type) : Type := Except Err ρ

def readers : Answer ρ → Multiset ρ
  | .ok reader => {reader}
  | .error _ => 0

inductive Repo (ρ : Type)
  | leaf (answer : Answer ρ)
  | group (concurrent : Bool) (n : ℕ) (members : Fin n → Repo ρ)

/-- A read that has returned, with the readers that were opened in its course and those closed. `ended` says
that the answer was formed with the context seen to have ended. -/
structure Run (ρ : Type) where
  answer : Answer ρ
  opened : Multiset ρ
  closed : Multiset ρ
  ended : Bool

structure LookupTally where
  invoked : ℕ := 0
  unsupported : ℕ := 0

def LookupTally.add (tally : LookupTally) (err : Err) : LookupTally :=
  { invoked := tally.invoked + 1
    unsupported := if err = .hashLookupUnsupported then tally.unsupported + 1 else tally.unsupported }

def LookupTally.missErr (tally : LookupTally) (ended : Bool) (miss : Err) : Err :=
  if ended then .ended
  else if 0 < tally.invoked ∧ tally.unsupported = tally.invoked then .hashLookupUnsupported
  else miss

def missed (tally : LookupTally) (ended : Bool) : Run ρ :=
  { answer := .error (tally.missErr ended .notFound), opened := 0, closed := 0, ended := ended }

/-- The run of one member before the rest of the lookup. -/
def Run.before (run rest : Run ρ) : Run ρ :=
  { answer := rest.answer
    opened := run.opened + rest.opened
    closed := run.closed + rest.closed
    ended := run.ended || rest.ended }

/-- `closeReaders`: it takes the results still to come and closes the reader of every hit among them. -/
def closeReaders : List (Run ρ) → Multiset ρ × Multiset ρ
  | [] => (0, 0)
  | run :: runs =>
    let (opened, closed) := closeReaders runs
    (run.opened + opened, run.closed + readers run.answer + closed)

/-- `readSeq` over the runs of its members; `checks` are the answers of `ctx.Err()` in their order. -/
def readSeq (checks : ℕ → Bool) : ℕ → LookupTally → List (Run ρ) → Run ρ
  | k, tally, [] => missed tally (checks k)
  | k, tally, run :: runs =>
    if checks k then missed tally true
    else match run.answer with
      | .ok _ => run
      | .error err => run.before (readSeq checks (k + 1) (tally.add err) runs)

/-- The collector of `readConcurrent` over the runs of the members as they answer; `checks` says where
`sig.Recv` returns with the error of the context. -/
def collect (checks : ℕ → Bool) : ℕ → LookupTally → List (Run ρ) → Run ρ
  | k, tally, [] => missed tally (checks k)
  | k, tally, run :: runs =>
    if checks k then
      let (opened, closed) := closeReaders (run :: runs)
      { answer := .error .ended, opened := opened, closed := closed, ended := true }
    else match run.answer with
      | .ok reader =>
        -- The members not waited for go on under the cancelled context; what they saw of it is not counted.
        let (opened, closed) := closeReaders runs
        { run with answer := .ok reader, opened := run.opened + opened, closed := run.closed + closed }
      | .error err => run.before (collect checks (k + 1) (tally.add err) runs)

def readConcurrent (checks : ℕ → Bool) (runs : List (Run ρ)) : Run ρ :=
  if checks 0 then { answer := .error .ended, opened := 0, closed := 0, ended := true }
  else collect checks 1 {} runs

/-- The runs of a read. A repository that is no group answers as it is given to, or sees the context ended. -/
inductive Reads : Repo ρ → Run ρ → Prop
  | leaf (answer : Answer ρ) : Reads (.leaf answer) ⟨answer, readers answer, 0, false⟩
  | leafEnded (answer : Answer ρ) : Reads (.leaf answer) ⟨.error .ended, 0, 0, true⟩
  | sequential {n : ℕ} {members : Fin n → Repo ρ} (runs : Fin n → Run ρ) (reads : ∀ i, Reads (members i) (runs i))
      (checks : ℕ → Bool) :
      Reads (.group false n members) (readSeq checks 0 {} (List.ofFn runs))
  | concurrent {n : ℕ} {members : Fin n → Repo ρ} (runs : Fin n → Run ρ) (reads : ∀ i, Reads (members i) (runs i))
      (checks : ℕ → Bool) (arrival : List (Run ρ)) (arrives : arrival.Perm (List.ofFn runs)) :
      Reads (.group true n members) (readConcurrent checks arrival)

/-- The runs in which neither a group nor a repository sees the context ended. -/
inductive Undisturbed : Repo ρ → Run ρ → Prop
  | leaf (answer : Answer ρ) : Undisturbed (.leaf answer) ⟨answer, readers answer, 0, false⟩
  | sequential {n : ℕ} {members : Fin n → Repo ρ} (runs : Fin n → Run ρ)
      (reads : ∀ i, Undisturbed (members i) (runs i)) :
      Undisturbed (.group false n members) (readSeq (fun _ => false) 0 {} (List.ofFn runs))
  | concurrent {n : ℕ} {members : Fin n → Repo ρ} (runs : Fin n → Run ρ)
      (reads : ∀ i, Undisturbed (members i) (runs i)) (arrival : List (Run ρ))
      (arrives : arrival.Perm (List.ofFn runs)) :
      Undisturbed (.group true n members) (readConcurrent (fun _ => false) arrival)

/-! ## Readers -/

/-- Every opened reader is returned or closed, and not both. -/
def Run.Settled (run : Run ρ) : Prop := run.opened = readers run.answer + run.closed

variable (checks : ℕ → Bool) {run : Run ρ} (runs : List (Run ρ))

theorem closeReaders_settled (h : ∀ run ∈ runs, run.Settled) : (closeReaders runs).1 = (closeReaders runs).2 := by
  induction runs with
  | nil => rfl
  | cons run runs ih =>
    simp only [forall_mem_cons, Run.Settled] at h
    simp only [closeReaders, ih h.2, h.1]
    abel

theorem readSeq_settled (h : ∀ run ∈ runs, run.Settled) (k : ℕ) (tally : LookupTally) :
    (readSeq checks k tally runs).Settled := by
  induction runs generalizing k tally with
  | nil => rfl
  | cons run runs ih =>
    simp only [forall_mem_cons] at h
    unfold readSeq
    split
    · rfl
    · split
      · exact h.1
      · next err herr =>
        have hrun := h.1
        have hrest := ih h.2 (k + 1) (tally.add err)
        simp only [Run.Settled, Run.before, herr, readers, zero_add] at hrun hrest ⊢
        rw [hrun, hrest]
        abel

theorem collect_settled (h : ∀ run ∈ runs, run.Settled) (k : ℕ) (tally : LookupTally) :
    (collect checks k tally runs).Settled := by
  induction runs generalizing k tally with
  | nil => rfl
  | cons run runs ih =>
    have hclose := closeReaders_settled (run :: runs) h
    simp only [forall_mem_cons] at h
    unfold collect
    split
    · simpa [Run.Settled, readers] using hclose
    · split
      · next reader hreader =>
        have hrun := h.1
        simp only [Run.Settled, hreader] at hrun ⊢
        rw [hrun, closeReaders_settled runs h.2]
        abel
      · next err herr =>
        have hrun := h.1
        have hrest := ih h.2 (k + 1) (tally.add err)
        simp only [Run.Settled, Run.before, herr, readers, zero_add] at hrun hrest ⊢
        rw [hrun, hrest]
        abel

theorem Reads.settled {repo : Repo ρ} (h : Reads repo run) : run.Settled := by
  induction h with
  | leaf answer => simp [Run.Settled]
  | leafEnded answer => rfl
  | sequential runs _ checks ih =>
    exact readSeq_settled checks _ (by simpa [mem_ofFn] using ih) 0 {}
  | concurrent runs _ checks arrival arrives ih =>
    unfold readConcurrent
    split
    · rfl
    · exact collect_settled checks arrival (fun run hrun => by
        obtain ⟨i, rfl⟩ := mem_ofFn.mp (arrives.mem_iff.mp hrun)
        exact ih i) 1 {}

/-! ## Answers -/

def Repo.Hits : Repo ρ → Prop
  | .leaf answer => ∃ reader, answer = .ok reader
  | .group _ _ members => ∃ i, (members i).Hits

def Repo.miss : Repo ρ → Err
  | .leaf (.ok _) => .notFound
  | .leaf (.error err) => err
  | .group _ n members =>
    if 0 < n ∧ ∀ i, (members i).miss = .hashLookupUnsupported then .hashLookupUnsupported else .notFound

def Repo.sequential : Repo ρ → Repo ρ
  | .leaf answer => .leaf answer
  | .group _ n members => .group false n fun i => (members i).sequential

/-- What a lookup that has counted `tally` makes of the runs of its other members: it returns a hit, or every
one of them has missed. -/
def Concludes (tally : LookupTally) (runs : List (Run ρ)) (result : Run ρ) : Prop :=
  tally.unsupported ≤ tally.invoked → result.ended = false →
    (∃ run ∈ runs, run.ended = false ∧ ∃ reader, run.answer = .ok reader ∧ result.answer = .ok reader) ∨
    (∀ run ∈ runs, run.ended = false ∧ ∃ err, run.answer = .error err) ∧
      ((result.answer = .error .hashLookupUnsupported ∧ 0 < tally.invoked + runs.length ∧
          tally.unsupported = tally.invoked ∧ ∀ run ∈ runs, run.answer = .error .hashLookupUnsupported) ∨
        (result.answer = .error .notFound ∧ ¬(0 < tally.invoked + runs.length ∧
          tally.unsupported = tally.invoked ∧ ∀ run ∈ runs, run.answer = .error .hashLookupUnsupported)))

theorem missed_concludes (tally : LookupTally) (ended : Bool) : Concludes (ρ := ρ) tally [] (missed tally ended) := by
  intro _ hended
  cases (hended : ended = false)
  simp only [missed, LookupTally.missErr, Bool.false_eq_true, if_false]
  split <;> simp_all

theorem Concludes.before {tally : LookupTally} {rest : Run ρ} {runs : List (Run ρ)} {err : Err}
    (herr : run.answer = .error err) (h : Concludes (tally.add err) runs rest) :
    Concludes tally (run :: runs) (run.before rest) := by
  intro hle hended
  simp only [Run.before, Bool.or_eq_false_iff] at hended
  have hle' : (tally.add err).unsupported ≤ (tally.add err).invoked := by
    simp only [LookupTally.add]
    split <;> omega
  have h := h hle' hended.2
  simp only [LookupTally.add] at h
  simp only [forall_mem_cons, exists_mem_cons_iff, herr, length_cons, Run.before]
  grind

theorem readSeq_concludes (k : ℕ) (tally : LookupTally) : Concludes tally runs (readSeq checks k tally runs) := by
  induction runs generalizing k tally with
  | nil => exact missed_concludes tally _
  | cons run runs ih =>
    unfold readSeq
    split
    · exact fun _ => nofun
    · split
      · next reader hreader => exact fun _ h => .inl ⟨run, mem_cons_self, h, reader, hreader, hreader⟩
      · next err herr => exact (ih (k + 1) (tally.add err)).before herr

theorem collect_concludes (k : ℕ) (tally : LookupTally) : Concludes tally runs (collect checks k tally runs) := by
  induction runs generalizing k tally with
  | nil => exact missed_concludes tally _
  | cons run runs ih =>
    unfold collect
    split
    · exact fun _ => nofun
    · split
      · next reader hreader => exact fun _ h => .inl ⟨run, mem_cons_self, h, reader, hreader, rfl⟩
      · next err herr => exact (ih (k + 1) (tally.add err)).before herr

/-- The run gives what the tree has, unless it has seen the context ended. -/
def Agrees (repo : Repo ρ) (run : Run ρ) : Prop :=
  run.ended = false →
    (∃ reader, run.answer = .ok reader) ∧ repo.Hits ∨ run.answer = .error repo.miss ∧ ¬repo.Hits

/-- The members' answers decide that of a group of either kind, in whatever order they come. -/
theorem group_agrees {n : ℕ} {members : Fin n → Repo ρ} {runs : Fin n → Run ρ} {concurrent : Bool}
    (ih : ∀ i, Agrees (members i) (runs i)) {arrival : List (Run ρ)} (arrives : arrival.Perm (List.ofFn runs))
    {result : Run ρ} (h : Concludes {} arrival result) : Agrees (.group concurrent n members) result := by
  intro hended
  have h := h le_rfl hended
  simp only [arrives.mem_iff, arrives.length_eq, forall_mem_ofFn_iff, length_ofFn, Nat.zero_add,
    true_and] at h
  rcases h with ⟨run, hmem, hlive, reader, hrun, hanswer⟩ | ⟨hmiss, hanswer⟩
  · obtain ⟨i, rfl⟩ := mem_ofFn.mp hmem
    rcases ih i hlive with ⟨-, hits⟩ | ⟨herr, -⟩
    · exact .inl ⟨⟨reader, hanswer⟩, i, hits⟩
    · rw [herr] at hrun
      cases hrun
  · have missed : ∀ i, (runs i).answer = .error (members i).miss ∧ ¬(members i).Hits := by
      intro i
      obtain ⟨hlive, err, herr⟩ := hmiss i
      rcases ih i hlive with ⟨⟨reader, hreader⟩, -⟩ | hi
      · rw [herr] at hreader
        cases hreader
      · exact hi
    refine .inr ⟨?_, fun ⟨i, hits⟩ => (missed i).2 hits⟩
    simp only [fun i => (missed i).1, Except.error.injEq] at hanswer
    unfold Repo.miss
    split <;> simp_all

theorem Reads.agrees {repo : Repo ρ} (h : Reads repo run) : Agrees repo run := by
  induction h with
  | leaf answer =>
    intro _
    cases answer with
    | ok reader => exact .inl ⟨⟨reader, rfl⟩, reader, rfl⟩
    | error err => exact .inr ⟨rfl, nofun⟩
  | leafEnded answer => exact nofun
  | sequential runs _ checks ih => exact group_agrees ih (.refl _) (readSeq_concludes checks _ 0 {})
  | concurrent runs _ checks arrival arrives ih =>
    refine group_agrees ih arrives ?_
    unfold readConcurrent
    split
    · exact fun _ => nofun
    · exact collect_concludes checks arrival 1 {}

theorem readSeq_ended (h : ∀ run ∈ runs, run.ended = false) (k : ℕ) (tally : LookupTally) :
    (readSeq (fun _ => false) k tally runs).ended = false := by
  induction runs generalizing k tally with
  | nil => rfl
  | cons run runs ih =>
    simp only [forall_mem_cons] at h
    simp only [readSeq, Bool.false_eq_true, if_false]
    split
    · exact h.1
    · next err _ => simp [Run.before, h.1, ih h.2 (k + 1) (tally.add err)]

theorem collect_ended (h : ∀ run ∈ runs, run.ended = false) (k : ℕ) (tally : LookupTally) :
    (collect (fun _ => false) k tally runs).ended = false := by
  induction runs generalizing k tally with
  | nil => rfl
  | cons run runs ih =>
    simp only [forall_mem_cons] at h
    simp only [collect, Bool.false_eq_true, if_false]
    split
    · exact h.1
    · next err _ => simp [Run.before, h.1, ih h.2 (k + 1) (tally.add err)]

theorem Undisturbed.reads {repo : Repo ρ} (h : Undisturbed repo run) : Reads repo run := by
  induction h with
  | leaf answer => exact .leaf answer
  | sequential runs _ ih => exact .sequential runs ih _
  | concurrent runs _ arrival arrives ih => exact .concurrent runs ih _ arrival arrives

theorem Undisturbed.ended {repo : Repo ρ} (h : Undisturbed repo run) : run.ended = false := by
  induction h with
  | leaf answer => rfl
  | sequential runs _ ih =>
    apply readSeq_ended
    simpa [mem_ofFn] using ih
  | concurrent runs _ arrival arrives ih =>
    apply collect_ended
    intro run hrun
    obtain ⟨i, rfl⟩ := mem_ofFn.mp (arrives.mem_iff.mp hrun)
    exact ih i

theorem Repo.sequential_hits (repo : Repo ρ) : repo.sequential.Hits ↔ repo.Hits := by
  induction repo with
  | leaf answer => rfl
  | group _ n members ih => simp only [Repo.sequential, Repo.Hits, ih]

theorem Repo.sequential_miss (repo : Repo ρ) : repo.sequential.miss = repo.miss := by
  induction repo with
  | leaf answer => rfl
  | group _ n members ih => simp only [Repo.sequential, Repo.miss, ih]

/-- A read that has not seen its context ended hits iff some reachable repository hits, and otherwise returns
the error of a sequential read of the same tree. So it is of every run in which nobody sees the context ended.
On every run, each opened reader is the returned one or was closed, once. -/
theorem groupRead_agrees {repo : Repo ρ} (h : Reads repo run) :
    (run.ended = false →
      ((∃ reader, run.answer = .ok reader) ↔ repo.Hits) ∧
      ∀ err seq, run.answer = .error err → Reads repo.sequential seq → seq.ended = false →
        seq.answer = .error err) ∧
    (Undisturbed repo run → run.ended = false) ∧
    run.opened = readers run.answer + run.closed := by
  refine ⟨fun hended => ⟨?_, fun err seq herr hseq hlive => ?_⟩, Undisturbed.ended, h.settled⟩
  · rcases h.agrees hended with ⟨hit, hits⟩ | ⟨herr, hnot⟩
    · exact iff_of_true hit hits
    · exact iff_of_false (by simp [herr]) hnot
  · have hseq := hseq.agrees hlive
    rw [repo.sequential_hits, repo.sequential_miss] at hseq
    rcases h.agrees hended with ⟨⟨reader, hreader⟩, -⟩ | ⟨hmiss, hnot⟩
    · rw [herr] at hreader
      cases hreader
    · rcases hseq with ⟨-, hits⟩ | ⟨heq, -⟩
      · exact absurd hits hnot
      · rw [heq, ← hmiss, herr]

/-- Three repositories of which the first cannot look up by hash and the others have the object. -/
def racing : Repo ℕ := .group true 3 ![.leaf (.error .hashLookupUnsupported), .leaf (.ok 1), .leaf (.ok 2)]

/-- The second repository wins the race, and the reader of the third is closed. -/
theorem groupRead_agrees_raced :
    ∃ run, Reads racing run ∧ run.ended = false ∧ ((∃ reader, run.answer = .ok reader) ↔ racing.Hits) ∧
      run.answer = .ok 1 ∧ run.closed = {2} ∧ run.opened = {1} + {2} := by
  let runs : Fin 3 → Run ℕ := ![⟨.error .hashLookupUnsupported, 0, 0, false⟩, ⟨.ok 1, {1}, 0, false⟩,
    ⟨.ok 2, {2}, 0, false⟩]
  have hrun : Undisturbed racing (readConcurrent (fun _ => false) (List.ofFn runs)) := by
    apply Undisturbed.concurrent runs ?_ _ (.refl _)
    intro i
    fin_cases i <;> exact .leaf _
  obtain ⟨hagrees, hended, hopened⟩ := groupRead_agrees hrun.reads
  exact ⟨_, hrun.reads, hended hrun, (hagrees (hended hrun)).1, rfl, rfl, hopened⟩

end Astrald.Objects.Groups
