import Mathlib.Data.List.Basic
import Mathlib.Data.List.Infix
import Astrald.Lib.Trace

/-!
# The changelog of indexed repositories

The model of `indexing/src/db.go` and `indexing/src/repos.go`: the table of changelog entries,
the transactions `addToRepo` and `removeFromRepo`, and the goroutines of `syncRepo` that run
them. A transaction is one step; everything between two of them can be interleaved, also with
the goroutine of an earlier `EnableRepo` that has not noticed its cancellation.

Proved for every run:

* `lawful_exec`: the entries of a repository have the versions `1..n` in the order written, and
  the `Exist` flags of an object alternate, `true` first;
* `rows_exec`: entries are only ever added, at the end;
* `changelog_law`: the two together.

Versions are natural numbers: the source's 64-bit counter is not exhausted by a table of rows.
-/

namespace Astrald.Indexing

open List

/-- `dbRepoEntry`, without its creation time. -/
structure Entry (ID : Type) where
  repo : String
  version : ℕ
  objectID : ID
  exist : Bool
  deriving DecidableEq, Repr

inductive DBErr
  | zeroObjectID
  | objectAlreadyAdded
  | objectNotPresent
  | duplicateKey
  deriving DecidableEq, Repr

section Table

variable {ID : Type} [DecidableEq ID]

def entries (rows : List (Entry ID)) (repo : String) : List (Entry ID) :=
  rows.filter fun e => e.repo = repo

def history (rows : List (Entry ID)) (repo : String) (id : ID) : List (Entry ID) :=
  (entries rows repo).filter fun e => e.objectID = id

/-- `First` after an `Order`: the first row that no other row comes before. -/
def first (before : Entry ID → Entry ID → Bool) (rows : List (Entry ID)) : Option (Entry ID) :=
  rows.foldl (fun best e =>
    match best with
    | none => some e
    | some b => if before e b then some e else some b) none

/-- `First` after `Order("version DESC")`. -/
def latest (rows : List (Entry ID)) : Option (Entry ID) := first (fun a b => b.version < a.version) rows

def latestExists (rows : List (Entry ID)) (repo : String) (id : ID) : Bool :=
  match latest (history rows repo id) with
  | none => false
  | some row => row.exist

/-- `MAX(version)` of a repository, and the version one after it. -/
def nextVersion (rows : List (Entry ID)) (repo : String) : ℕ :=
  match ((entries rows repo).map Entry.version).max? with
  | none => 1
  | some maxVer => maxVer + 1

/-- `tx.Create`: the primary key is the repository and the version. -/
def create (rows : List (Entry ID)) (e : Entry ID) : Except DBErr (List (Entry ID)) :=
  if rows.any fun r => r.repo = e.repo && r.version = e.version then .error .duplicateKey
  else .ok (rows ++ [e])

def addToRepo (isZero : ID → Bool) (rows : List (Entry ID)) (repo : String) (id : ID) :
    Except DBErr (List (Entry ID)) :=
  if isZero id then .error .zeroObjectID
  else if latestExists rows repo id then .error .objectAlreadyAdded
  else create rows ⟨repo, nextVersion rows repo, id, true⟩

def removeFromRepo (rows : List (Entry ID)) (repo : String) (id : ID) :
    Except DBErr (List (Entry ID)) :=
  if latestExists rows repo id then create rows ⟨repo, nextVersion rows repo, id, false⟩
  else .error .objectNotPresent

def latestExistingObjectIDs (rows : List (Entry ID)) (repo : String) : List ID :=
  ((entries rows repo).filter fun e =>
    e.exist && ((history rows repo e.objectID).map Entry.version).max? = some e.version).map Entry.objectID

def findExcessObjectIDs (rows : List (Entry ID)) (repo : String) (snapshot : List ID) : List ID :=
  (latestExistingObjectIDs rows repo).filter fun id => id ∉ snapshot

def findMissingObjectIDs (rows : List (Entry ID)) (repo : String) (snapshot : List ID) : List ID :=
  snapshot.filter fun id => id ∉ latestExistingObjectIDs rows repo

end Table

/-! ## The sync goroutines -/

/-- Where a goroutine of `syncRepo` is: reading the scan up to the boundary, recording what left,
looking for what is missing, recording what came, following updates. -/
inductive Stage (ID : Type)
  | scanning (snapshot : List ID)
  | removing (snapshot excess : List ID)
  | adding (missing : List ID)
  | following
  | returned

structure Sync (ID : Type) where
  repo : String
  cancelled : Bool
  stage : Stage ID

/-- What the channel of `repo.Scan` yields: an object, the nil that ends the snapshot, its end. -/
inductive ScanItem (ID : Type)
  | object (id : ID)
  | boundary
  | closed

inductive Op (ID : Type)
  | enable (repo : String)
  | disable (repo : String)
  /-- Goroutine `i` receives from its scan; `fault` makes the transaction that follows fail. -/
  | scan (i : ℕ) (item : ScanItem ID) (fault : Bool)
  /-- Goroutine `i` goes on with its reconciliation; `fault` makes the transaction fail. -/
  | run (i : ℕ) (fault : Bool)
  /-- Goroutine `i` returns: its context is done, or the scan or a query failed. -/
  | stop (i : ℕ)

/-- The module. `syncing` names the goroutine that a repository's cancel function belongs to. -/
structure Module (ID : Type) where
  rows : List (Entry ID)
  syncing : String → Option ℕ
  syncs : ℕ → Sync ID
  nSyncs : ℕ

namespace Module

variable {ID : Type} [DecidableEq ID]

def new : Module ID where
  rows := []
  syncing _ := none
  syncs _ := ⟨"", false, .returned⟩
  nSyncs := 0

def setStage (m : Module ID) (i : ℕ) (st : Stage ID) : Module ID :=
  { m with syncs := Function.update m.syncs i { m.syncs i with stage := st } }

/-- The effect of a transaction: an error is logged and leaves the table. -/
def commit (m : Module ID) (fault : Bool) (tx : Except DBErr (List (Entry ID))) : Module ID :=
  match fault, tx with
  | false, .ok rows => { m with rows }
  | _, _ => m

/-- `EnableRepo`, with `startRepoSync`. -/
def enable (m : Module ID) (repo : String) : Module ID :=
  match m.syncing repo with
  | some _ => m
  | none =>
    { m with
      syncing := Function.update m.syncing repo (some m.nSyncs)
      syncs := Function.update m.syncs m.nSyncs ⟨repo, false, .scanning []⟩
      nSyncs := m.nSyncs + 1 }

/-- `DisableRepo`, with `stopRepoSync`. -/
def disable (m : Module ID) (repo : String) : Module ID :=
  match m.syncing repo with
  | none => m
  | some i =>
    { m with
      syncing := Function.update m.syncing repo none
      syncs := Function.update m.syncs i { m.syncs i with cancelled := true } }

/-- Goroutine `i` receives `item` from its scan. -/
def scan (isZero : ID → Bool) (m : Module ID) (i : ℕ) (item : ScanItem ID) (fault : Bool) : Module ID :=
  match (m.syncs i).stage, item with
  | .scanning snapshot, .object id => m.setStage i (.scanning (snapshot ++ [id]))
  | .scanning snapshot, .boundary =>
    m.setStage i (.removing snapshot (findExcessObjectIDs m.rows (m.syncs i).repo snapshot))
  | .scanning _, .closed => m.setStage i .returned
  | .following, .object id => m.commit fault (addToRepo isZero m.rows (m.syncs i).repo id)
  | .following, .boundary => m.setStage i .returned
  | .following, .closed => m.setStage i .returned
  | _, _ => m

/-- Goroutine `i` records the next object that left or came. -/
def run (isZero : ID → Bool) (m : Module ID) (i : ℕ) (fault : Bool) : Module ID :=
  match (m.syncs i).stage with
  | .removing snapshot (id :: excess) =>
    (m.commit fault (removeFromRepo m.rows (m.syncs i).repo id)).setStage i (.removing snapshot excess)
  | .removing snapshot [] =>
    m.setStage i (.adding (findMissingObjectIDs m.rows (m.syncs i).repo snapshot))
  | .adding (id :: missing) =>
    (m.commit fault (addToRepo isZero m.rows (m.syncs i).repo id)).setStage i (.adding missing)
  | .adding [] => m.setStage i .following
  | _ => m

def step (isZero : ID → Bool) (m : Module ID) : Op ID → Module ID
  | .enable repo => m.enable repo
  | .disable repo => m.disable repo
  | .scan i item fault => m.scan isZero i item fault
  | .run i fault => m.run isZero i fault
  | .stop i => m.setStage i .returned

def exec (isZero : ID → Bool) (ops : List (Op ID)) : Module ID := Trace.exec (step isZero) new ops

end Module

/-! ## What a transaction appends -/

variable {ID : Type} [DecidableEq ID]

/-- The flags of an object that is added and removed in turn, added first. -/
def alternating (n : ℕ) : List Bool := (List.range n).map fun k => k % 2 = 0

example : alternating 3 = [true, false, true] := rfl

theorem alternating_succ (n : ℕ) : alternating (n + 1) = alternating n ++ [decide (n % 2 = 0)] := by
  simp [alternating, range_succ]

structure Lawful (rows : List (Entry ID)) : Prop where
  versions : ∀ repo, (entries rows repo).map Entry.version = List.range' 1 (entries rows repo).length
  flags : ∀ repo id, (history rows repo id).map Entry.exist = alternating (history rows repo id).length

omit [DecidableEq ID] in
theorem entries_append (rows : List (Entry ID)) (e : Entry ID) (repo : String) :
    entries (rows ++ [e]) repo = entries rows repo ++ (if e.repo = repo then [e] else []) := by
  unfold entries
  by_cases h : e.repo = repo <;> simp [h]

theorem history_append (rows : List (Entry ID)) (e : Entry ID) (repo : String) (id : ID) :
    history (rows ++ [e]) repo id =
      history rows repo id ++ (if e.repo = repo ∧ e.objectID = id then [e] else []) := by
  unfold history
  rw [entries_append, filter_append]
  by_cases h : e.repo = repo
  · by_cases hid : e.objectID = id <;> simp [h, hid]
  · simp [h]

omit [DecidableEq ID] in
theorem first_append (before : Entry ID → Entry ID → Bool) (rows : List (Entry ID)) (a : Entry ID) :
    first before (rows ++ [a]) = match first before rows with
      | none => some a
      | some b => if before a b then some a else some b := by
  unfold first
  rw [foldl_append, foldl_cons, foldl_nil]

variable {rows rows' : List (Entry ID)}

omit [DecidableEq ID] in
theorem first_mem {before : Entry ID → Entry ID → Bool} {e : Entry ID} (h : first before rows = some e) :
    e ∈ rows := by
  induction rows using List.reverseRecOn generalizing e with
  | nil => cases h
  | append_singleton rows a ih =>
    rw [first_append] at h
    rw [mem_append, mem_singleton]
    cases hl : first before rows with
    | none =>
      rw [hl] at h
      exact .inr (Option.some.inj h).symm
    | some b =>
      rw [hl] at h
      dsimp only at h
      by_cases hv : before a b
      · rw [if_pos hv] at h
        exact .inr (Option.some.inj h).symm
      · rw [if_neg hv] at h
        exact .inl (ih (hl.trans h))

omit [DecidableEq ID] in
/-- In a table whose versions grow, the row with the greatest version is the last one. -/
theorem latest_eq_getLast (h : rows.Pairwise fun a b => a.version < b.version) : latest rows = rows.getLast? := by
  induction rows using List.reverseRecOn with
  | nil => rfl
  | append_singleton rows a _ =>
    rw [pairwise_append] at h
    have hlt : ∀ b ∈ rows, b.version < a.version := fun b hb => h.2.2 b hb a (mem_singleton_self a)
    rw [List.getLast?_append, List.getLast?_singleton, Option.some_or, latest, first_append]
    cases hl : first (fun a b : Entry ID => b.version < a.version) rows with
    | none => rfl
    | some b =>
      show (if decide (b.version < a.version) = true then some a else some b) = some a
      rw [if_pos (decide_eq_true (hlt b (first_mem hl)))]

section

variable (h : Lawful rows) (repo : String)
include h

theorem Lawful.increasing : (entries rows repo).Pairwise fun a b => a.version < b.version := by
  have hrange : ((entries rows repo).map Entry.version).Pairwise (· < ·) := by
    rw [h.versions]
    exact pairwise_lt_range'
  rwa [pairwise_map] at hrange

theorem Lawful.latestExists_eq (id : ID) :
    latestExists rows repo id = decide ((history rows repo id).length % 2 = 1) := by
  have hsorted : (history rows repo id).Pairwise fun a b => a.version < b.version :=
    (h.increasing repo).filter _
  unfold latestExists
  rw [latest_eq_getLast hsorted]
  have hflags := h.flags repo id
  generalize history rows repo id = l at hflags
  induction l using List.reverseRecOn with
  | nil => rfl
  | append_singleton l e _ =>
    rw [List.getLast?_append, List.getLast?_singleton, Option.some_or]
    rw [map_append, map_singleton, length_append, length_singleton, alternating_succ] at hflags
    have hlast : e.exist = decide (l.length % 2 = 0) := by
      have := congrArg List.getLast? hflags
      simpa using this
    rw [length_append, length_singleton]
    show e.exist = _
    rw [hlast, decide_eq_decide]
    omega

theorem Lawful.nextVersion_eq : nextVersion rows repo = (entries rows repo).length + 1 := by
  unfold nextVersion
  rw [h.versions]
  generalize (entries rows repo).length = n
  cases n with
  | zero => rfl
  | succ n =>
    have hmax : (List.range' 1 (n + 1)).max? = some (n + 1) := by
      rw [List.max?_eq_some_iff]
      constructor
      · rw [mem_range'_1]
        omega
      · intro b hb
        rw [mem_range'_1] at hb
        omega
    rw [hmax]

/-- **Appending.** A row with the next version and the other flag keeps the law. -/
theorem Lawful.append (id : ID) :
    Lawful (rows ++ [⟨repo, nextVersion rows repo, id, !latestExists rows repo id⟩]) := by
  constructor
  · intro repo'
    rw [entries_append]
    by_cases hr : repo = repo'
    · subst hr
      rw [if_pos rfl, map_append, h.versions, length_append, length_singleton,
        List.range'_1_concat, h.nextVersion_eq, Nat.add_comm 1]
      rfl
    · rw [if_neg hr, append_nil]
      exact h.versions repo'
  · intro repo' id'
    rw [history_append]
    by_cases hr : repo = repo' ∧ id = id'
    · obtain ⟨rfl, rfl⟩ := hr
      rw [if_pos ⟨rfl, rfl⟩, map_append, h.flags, length_append, length_singleton, alternating_succ,
        h.latestExists_eq]
      congr 1
      rw [map_singleton, singleton_inj, ← decide_not, decide_eq_decide]
      omega
    · rw [if_neg hr, append_nil]
      exact h.flags repo' id'

end

omit [DecidableEq ID] in
theorem create_rows {e : Entry ID} (h : create rows e = .ok rows') : rows' = rows ++ [e] := by
  unfold create at h
  split at h
  · cases h
  · exact (Except.ok.inj h).symm

/-- What a transaction does to the table: it appends a row that keeps the law. -/
def Appends (rows rows' : List (Entry ID)) : Prop := rows <+: rows' ∧ (Lawful rows → Lawful rows')

theorem Appends.refl (rows : List (Entry ID)) : Appends rows rows := ⟨prefix_refl rows, fun h => h⟩

theorem addToRepo_appends {isZero : ID → Bool} {repo : String} {id : ID}
    (h : addToRepo isZero rows repo id = .ok rows') : Appends rows rows' := by
  unfold addToRepo at h
  split at h
  · cases h
  · split at h
    · cases h
    · rename_i hlatest
      rw [create_rows h]
      refine ⟨prefix_append _ _, fun hl => ?_⟩
      have happ := hl.append repo id
      rw [Bool.not_eq_true] at hlatest
      rw [hlatest] at happ
      exact happ

theorem removeFromRepo_appends {repo : String} {id : ID} (h : removeFromRepo rows repo id = .ok rows') :
    Appends rows rows' := by
  unfold removeFromRepo at h
  split at h
  · rename_i hlatest
    rw [create_rows h]
    refine ⟨prefix_append _ _, fun hl => ?_⟩
    have happ := hl.append repo id
    rw [hlatest] at happ
    exact happ
  · cases h

/-! ## Runs -/

namespace Module

theorem commit_appends (m : Module ID) (fault : Bool) {tx : Except DBErr (List (Entry ID))}
    (h : ∀ rows, tx = .ok rows → Appends m.rows rows) : Appends m.rows (m.commit fault tx).rows := by
  unfold commit
  split
  · exact h _ rfl
  · exact Appends.refl _

variable (isZero : ID → Bool)

theorem step_appends (m : Module ID) (op : Op ID) : Appends m.rows (m.step isZero op).rows := by
  cases op with
  | enable repo =>
    show Appends m.rows (m.enable repo).rows
    unfold enable
    split <;> exact Appends.refl _
  | disable repo =>
    show Appends m.rows (m.disable repo).rows
    unfold disable
    split <;> exact Appends.refl _
  | scan i item fault =>
    show Appends m.rows (m.scan isZero i item fault).rows
    unfold scan
    split
    case h_4 => exact m.commit_appends fault fun rows h => addToRepo_appends h
    all_goals exact Appends.refl _
  | run i fault =>
    show Appends m.rows (m.run isZero i fault).rows
    unfold run
    split
    case h_1 => exact m.commit_appends fault fun rows h => removeFromRepo_appends h
    case h_3 => exact m.commit_appends fault fun rows h => addToRepo_appends h
    all_goals exact Appends.refl _
  | stop i => exact Appends.refl _

theorem lawful_exec (ops : List (Op ID)) : Lawful (exec isZero ops).rows := by
  apply Trace.invariant (I := fun _ (m : Module ID) => Lawful m.rows)
  · exact ⟨fun _ => rfl, fun _ _ => rfl⟩
  · intro op before h
    exact (step_appends isZero _ op).2 h

theorem rows_exec (later before : List (Op ID)) :
    (exec isZero before).rows <+: (exec isZero (later ++ before)).rows := by
  induction later with
  | nil => exact prefix_refl _
  | cons op later ih => exact ih.trans (step_appends isZero (exec isZero (later ++ before)) op).1

/-- **Changelog.** In every reachable state the entries of a repository have the versions `1..n` in
the order in which they stand, nothing that was written is altered later, and the `Exist` flags
of an object alternate from `true` on. -/
theorem changelog_law (isZero : ID → Bool) (ops : List (Op ID)) (repo : String) :
    (entries (exec isZero ops).rows repo).map Entry.version =
        List.range' 1 (entries (exec isZero ops).rows repo).length ∧
      (∀ later, (exec isZero ops).rows <+: (exec isZero (later ++ ops)).rows) ∧
      ∀ id, (history (exec isZero ops).rows repo id).map Entry.exist =
        alternating (history (exec isZero ops).rows repo id).length := by
  have hlaw := lawful_exec isZero ops
  exact ⟨hlaw.versions repo, fun later => rows_exec isZero later ops, hlaw.flags repo⟩

end Module

end Astrald.Indexing
