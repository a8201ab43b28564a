import Mathlib
import Astrald.Lib.Table
import Astrald.Lib.Trace

/-!
# The file indexer

The indexer keeps one row for each file under a watched root: the file's object id and modification
time, and whether the row has been checked. The watcher calls `requeuePath` for a change and
`deletePath` for a removal; workers take paths from the queue, stat the file, compare the row, hash
and write. Every statement, every file access and every queue operation is one step, so what a
worker writes may be about a file that has changed since it looked.

A file is its modification time: the contents are a function of the path and that time, which says
that contents differ only when the times do.

* `Awaits`: the watcher or a worker has still to look at a path;
* `Settled`: a path that nothing awaits is indexed, or a worker that has seen its file is about to
  index it;
* `index_current`: with everything idle the rows are those of the files, as long as no worker writes
  what it saw too long ago;
* `late_write_stays`: a late write stays.
-/

namespace Astrald.Fs

open List Function

section

variable {Path OID : Type}

/-! ## Files, rows and workers -/

structure Row (OID : Type) where
  dataID : OID
  modTime : ℕ
  /-- `updated_at` is not zero. -/
  checked : Bool
  /-- `deleted_at` is set. -/
  deleted : Bool
  deriving DecidableEq, Repr

inductive Event (Path : Type)
  | changed (path : Path)
  | removed (path : Path)
  deriving DecidableEq, Repr

def Event.path : Event Path → Path
  | .changed path | .removed path => path

/-- A call of `requeuePath`, before each of its steps. -/
inductive Requeue (Path : Type)
  | invalidate (path : Path)
  | add (path : Path)
  | push (path : Path)
  deriving DecidableEq, Repr

def Requeue.path : Requeue Path → Path
  | .invalidate path | .add path | .push path => path

/-- Where a worker stands in its loop and in `checkAndFix`. -/
inductive Worker (Path OID : Type)
  | idle
  /-- The path is out of the queue and still in `pending`. -/
  | received (path : Path)
  /-- The path is no longer pending and the file is to be looked at. -/
  | taken (path : Path)
  | missing (path : Path)
  | stated (path : Path) (modTime : ℕ)
  /-- The row has the file's modification time. -/
  | matched (path : Path)
  | hashing (path : Path) (modTime : ℕ)
  | hashed (path : Path) (modTime : ℕ) (objectID : OID)
  deriving DecidableEq, Repr

structure State (Path OID : Type) where
  /-- The modification times of the files that exist. -/
  files : Path → Option ℕ
  rows : Path → Option (Row OID)
  events : List (Event Path) := []
  requeues : List (Requeue Path) := []
  pending : List Path := []
  workqueue : List Path := []
  workers : List (Worker Path OID)
  softDeletes : List Path := []

variable [DecidableEq Path]

/-! ## Statements -/

def setRow (s : State Path OID) (path : Path) (row : Option (Row OID)) : State Path OID :=
  { s with rows := Function.update s.rows path row }

def findByPath (s : State Path OID) (path : Path) : Option (Row OID) :=
  (s.rows path).filter fun row => !row.deleted

def indexPath (s : State Path OID) (path : Path) (objectID : OID) (modTime : ℕ) : State Path OID :=
  let deleted := (s.rows path).elim false Row.deleted
  setRow s path (some { dataID := objectID, modTime, checked := true, deleted })

def validatePath (s : State Path OID) (path : Path) : State Path OID :=
  setRow s path ((s.rows path).map fun row => { row with checked := true, deleted := false })

def invalidatePath (s : State Path OID) (path : Path) : State Path OID :=
  setRow s path ((s.rows path).map fun row => { row with checked := false })

def deletePath (s : State Path OID) (path : Path) : State Path OID := setRow s path none

def softDeletePath (s : State Path OID) (path : Path) : State Path OID :=
  setRow s path ((s.rows path).map fun row => { row with deleted := true })

/-! ## Steps -/

def workqueueSize : ℕ := 50000

inductive Op (Path : Type)
  /-- The file is created or changed, and has a modification time. -/
  | write (path : Path) (modTime : ℕ)
  | remove (path : Path)
  | notify
  /-- A call of `requeuePath` without a change. -/
  | requeue (path : Path)
  | advance (k : ℕ)
  | take (i : ℕ)
  | work (i : ℕ)
  | flush (k : ℕ)
  deriving DecidableEq, Repr

def notify (s : State Path OID) : State Path OID :=
  match s.events with
  | [] => s
  | .changed path :: events => { s with events, requeues := s.requeues ++ [.invalidate path] }
  | .removed path :: events => deletePath { s with events } path

def advance (s : State Path OID) (k : ℕ) (call : Requeue Path) : State Path OID :=
  match call with
  | .invalidate path => invalidatePath { s with requeues := s.requeues.set k (.add path) } path
  | .add path =>
    if path ∈ s.pending then { s with requeues := s.requeues.eraseIdx k }
    else { s with pending := path :: s.pending, requeues := s.requeues.set k (.push path) }
  | .push path =>
    if s.workqueue.length < workqueueSize then
      { s with workqueue := s.workqueue ++ [path], requeues := s.requeues.eraseIdx k }
    else s

def setWorker (s : State Path OID) (i : ℕ) (w : Worker Path OID) : State Path OID :=
  { s with workers := s.workers.set i w }

def take (s : State Path OID) (i : ℕ) : State Path OID :=
  match s.workqueue, s.workers[i]? with
  | path :: rest, some .idle => setWorker { s with workqueue := rest } i (.received path)
  | _, _ => s

variable (underRoot : Path → Bool) (content : Path → ℕ → OID)

/-- The next step of a worker that is not waiting for the queue. -/
def work (s : State Path OID) (i : ℕ) (w : Worker Path OID) : State Path OID :=
  match w with
  | .idle => s
  | .received path =>
    let s := { s with pending := s.pending.filter (· ≠ path) }
    if underRoot path then setWorker s i (.taken path)
    else setWorker { s with softDeletes := s.softDeletes ++ [path] } i .idle
  | .taken path =>
    match s.files path with
    | none => setWorker s i (.missing path)
    | some modTime => setWorker s i (.stated path modTime)
  | .missing path => setWorker (deletePath s path) i .idle
  | .stated path modTime =>
    match findByPath s path with
    | some row =>
      if row.modTime = modTime then setWorker s i (.matched path) else setWorker s i (.hashing path modTime)
    | none => setWorker s i (.hashing path modTime)
  | .matched path => setWorker (validatePath s path) i .idle
  | .hashing path modTime =>
    -- the file that is read is the one that is there now
    match s.files path with
    | none => setWorker s i .idle
    | some modTime' => setWorker s i (.hashed path modTime (content path modTime'))
  | .hashed path modTime objectID => setWorker (indexPath s path objectID modTime) i .idle

def step (s : State Path OID) : Op Path → State Path OID
  | .write path modTime =>
    { s with files := Function.update s.files path (some modTime), events := s.events ++ [.changed path] }
  | .remove path =>
    if (s.files path).isSome then
      { s with files := Function.update s.files path none, events := s.events ++ [.removed path] }
    else s
  | .notify => notify s
  | .requeue path => { s with requeues := s.requeues ++ [.invalidate path] }
  | .advance k => (s.requeues[k]?).elim s (advance s k)
  | .take i => take s i
  | .work i => (s.workers[i]?).elim s (work underRoot content s i)
  | .flush k =>
    (s.softDeletes[k]?).elim s fun path =>
      softDeletePath { s with softDeletes := s.softDeletes.eraseIdx k } path

def init (files : Path → Option ℕ) (workers : ℕ) : State Path OID where
  files := files
  rows path := (files path).map fun modTime =>
    { dataID := content path modTime, modTime, checked := true, deleted := false }
  workers := List.replicate workers .idle

def exec (files : Path → Option ℕ) (workers : ℕ) : List (Op Path) → State Path OID :=
  Trace.exec (step underRoot content) (init content files workers)

/-! ## What is to come -/

section

omit [DecidableEq Path]

/-- The watcher or a worker has still to look at the path. -/
def Awaits (s : State Path OID) (path : Path) : Prop :=
  (∃ e ∈ s.events, e.path = path) ∨ (∃ call ∈ s.requeues, call.path = path) ∨ path ∈ s.workqueue ∨
    .received path ∈ s.workers ∨ .taken path ∈ s.workers

def Current (s : State Path OID) (path : Path) : Prop :=
  s.rows path = (s.files path).map fun modTime =>
    { dataID := content path modTime, modTime, checked := true, deleted := false }

/-- The worker has seen the file as it is and will write the row. -/
def Rewrites (s : State Path OID) (path : Path) : Worker Path OID → Prop
  | .stated path' modTime | .hashing path' modTime => path' = path ∧ s.files path = some modTime
  | .hashed path' modTime objectID =>
    path' = path ∧ s.files path = some modTime ∧ objectID = content path modTime
  | .missing path' => path' = path ∧ s.files path = none
  | _ => False

/-- The worker is about to mark the row of the file as it is. -/
def Validates (s : State Path OID) (path : Path) : Worker Path OID → Prop
  | .matched path' => path' = path ∧ ∃ modTime checked, s.files path = some modTime ∧
      s.rows path = some { dataID := content path modTime, modTime, checked, deleted := false }
  | _ => False

/-- A path that nothing awaits is indexed, or a worker is about to index it. -/
def Settled (s : State Path OID) (path : Path) : Prop :=
  ¬ Awaits s path → Current content s path ∨
    ∃ w ∈ s.workers, Rewrites content s path w ∨ Validates content s path w

/-- The path is looked at later, or another worker than `i` writes its row later. -/
def Covered (s : State Path OID) (path : Path) (i : ℕ) : Prop :=
  Awaits s path ∨ ∃ j < s.workers.length, j ≠ i ∧ ∃ w ∈ s.workers[j]?, Rewrites content s path w

end

/-- What is kept for a path under a root. -/
structure Kept (path : Path) (s : State Path OID) : Prop where
  pending : path ∈ s.pending → path ∈ s.workqueue ∨ .push path ∈ s.requeues ∨ .received path ∈ s.workers
  order : (s.events.filter fun e => e.path = path).getLast? = some (.removed path) → s.files path = none
  undeleted : ∀ row, s.rows path = some row → row.deleted = false
  soft : path ∉ s.softDeletes
  settled : Settled content s path

/-! ## Steps about other paths -/

def Worker.path? : Worker Path OID → Option Path
  | .idle => none
  | .received path | .taken path | .missing path | .stated path _ | .matched path | .hashing path _
  | .hashed path _ _ => some path

section

omit [DecidableEq Path]

variable {content} {s s' : State Path OID} {path : Path}

variable {w : Worker Path OID}

theorem Rewrites.about (h : Rewrites content s path w) : w.path? = some path := by
  cases w with
  | stated q m | hashing q m | hashed q m oid | missing q => exact congrArg some h.1
  | idle | received q | taken q | matched q => exact absurd h id

theorem Validates.about (h : Validates content s path w) : w.path? = some path := by
  cases w with
  | matched q => exact congrArg some h.1
  | idle | received q | taken q | missing q | stated q m | hashing q m | hashed q m oid => exact absurd h id

theorem Rewrites.of_files (h : Rewrites content s path w) (hfiles : s'.files path = s.files path) :
    Rewrites content s' path w := by
  cases w with
  | stated q m | hashing q m | missing q => exact ⟨h.1, hfiles.trans h.2⟩
  | hashed q m oid => exact ⟨h.1, hfiles.trans h.2.1, h.2.2⟩
  | idle | received q | taken q | matched q => exact absurd h id

theorem Validates.of_files (h : Validates content s path w) (hfiles : s'.files path = s.files path)
    (hrows : s'.rows path = s.rows path) : Validates content s' path w := by
  cases w with
  | matched q =>
    obtain ⟨hq, modTime, checked, hfile, hrow⟩ := h
    exact ⟨hq, modTime, checked, hfiles.trans hfile, hrows.trans hrow⟩
  | idle | received q | taken q | missing q | stated q m | hashing q m | hashed q m oid => exact absurd h id

/-- The file, the row and the workers of a path are as they were, and nothing that is to come for
it is lost. -/
theorem Settled.frame (h : Settled content s path) (hfiles : s'.files path = s.files path)
    (hrows : s'.rows path = s.rows path) (hawaits : Awaits s path → Awaits s' path)
    (hworkers : ∀ w ∈ s.workers, w.path? = some path → w ∈ s'.workers) : Settled content s' path := by
  intro hnot
  rcases h fun ha => hnot (hawaits ha) with hcurrent | ⟨w, hw, hfix⟩
  · left
    rw [Current, hfiles, hrows]
    exact hcurrent
  · right
    rcases hfix with hfix | hfix
    · exact ⟨w, hworkers w hw hfix.about, .inl (hfix.of_files hfiles)⟩
    · exact ⟨w, hworkers w hw hfix.about, .inr (hfix.of_files hfiles hrows)⟩

end

namespace Kept

variable {content} {s s' : State Path OID} {path : Path}

/-- A path that is awaited has nothing to keep but its bookkeeping. -/
theorem of_awaits (hawaits : Awaits s' path)
    (hpending : path ∈ s'.pending → path ∈ s'.workqueue ∨ .push path ∈ s'.requeues ∨ .received path ∈ s'.workers)
    (horder : (s'.events.filter fun e => e.path = path).getLast? = some (.removed path) → s'.files path = none)
    (hrows : ∀ row, s'.rows path = some row → row.deleted = false) (hsoft : path ∉ s'.softDeletes) :
    Kept content path s' :=
  ⟨hpending, horder, hrows, hsoft, fun hnot => absurd hawaits hnot⟩

section

variable (h : Kept content path s)
include h

theorem frame (hfiles : s'.files path = s.files path) (hrows : s'.rows path = s.rows path)
    (hevents : s'.events.filter (fun e => e.path = path) = s.events.filter fun e => e.path = path)
    (hrequeues : ∀ call ∈ s.requeues, call.path = path → call ∈ s'.requeues)
    (hqueue : path ∈ s.workqueue → path ∈ s'.workqueue) (hpending : path ∈ s'.pending → path ∈ s.pending)
    (hworkers : ∀ w ∈ s.workers, w.path? = some path → w ∈ s'.workers) (hsoft : path ∉ s'.softDeletes) :
    Kept content path s' where
  pending hp := by
    rcases h.pending (hpending hp) with hq | hq | hq
    · exact .inl (hqueue hq)
    · exact .inr (.inl (hrequeues _ hq rfl))
    · exact .inr (.inr (hworkers _ hq rfl))
  order hlast := by
    rw [hevents] at hlast
    rw [hfiles]
    exact h.order hlast
  undeleted row hrow := h.undeleted row (hrows ▸ hrow)
  soft := hsoft
  settled := by
    refine h.settled.frame hfiles hrows ?_ hworkers
    rintro (⟨e, he, hpath⟩ | ⟨call, hcall, hpath⟩ | hq | hq | hq)
    · have hmem : e ∈ s'.events.filter fun e => e.path = path := by
        rw [hevents]
        exact mem_filter.mpr ⟨he, by simpa using hpath⟩
      exact .inl ⟨e, (mem_filter.mp hmem).1, hpath⟩
    · exact .inr (.inl ⟨call, hrequeues call hcall hpath, hpath⟩)
    · exact .inr (.inr (.inl (hqueue hq)))
    · exact .inr (.inr (.inr (.inl (hworkers _ hq rfl))))
    · exact .inr (.inr (.inr (.inr (hworkers _ hq rfl))))

/-! ## Files and the watcher -/

/-- A change of a file that the watcher is told of. -/
theorem change (e : Event Path) (file : Option ℕ) (hfile : e = .removed path → file = none) :
    Kept content path { s with files := update s.files e.path file, events := s.events ++ [e] } := by
  by_cases hq : e.path = path
  · refine of_awaits (.inl ⟨e, by simp, hq⟩) h.pending (fun hlast => ?_) h.undeleted h.soft
    rw [filter_append, filter_cons_of_pos (by simpa using hq), filter_nil, getLast?_concat] at hlast
    rw [hq]
    exact (update_self ..).trans (hfile (Option.some.inj hlast))
  · refine h.frame (update_of_ne (Ne.symm hq) _ _) rfl ?_ (fun _ hc _ => hc) (fun hp => hp)
      (fun hp => hp) (fun _ hw _ => hw) h.soft
    simp [filter_append, hq]

theorem requeue (q : Path) : Kept content path { s with requeues := s.requeues ++ [.invalidate q] } :=
  h.frame rfl rfl rfl (fun _ hc _ => mem_append_left _ hc) (fun hp => hp) (fun hp => hp)
    (fun _ hw _ => hw) h.soft

end

/-- An event that is not the last of its path says nothing about the file. -/
theorem order_tail {e : Event Path} {events : List (Event Path)} {file : Option ℕ}
    (h : ((e :: events).filter fun e => e.path = path).getLast? = some (.removed path) → file = none) :
    (events.filter fun e => e.path = path).getLast? = some (.removed path) → file = none := by
  intro hlast
  refine h ?_
  by_cases he : e.path = path
  · rw [filter_cons_of_pos (by simpa using he), List.getLast?_cons, hlast]
    rfl
  · rw [filter_cons_of_neg (by simpa using he)]
    exact hlast

variable (h : Kept content path s)
include h

theorem notify : Kept content path (Fs.notify s) := by
  rw [Fs.notify]
  split
  · exact h
  · rename_i q events hevents
    have horder := h.order
    rw [hevents] at horder
    by_cases hq : q = path
    · subst hq
      exact of_awaits (.inr (.inl ⟨.invalidate q, by simp, rfl⟩))
        (fun hp => (h.pending hp).imp_right fun hp => hp.imp_left (mem_append_left _))
        (order_tail horder)
        h.undeleted h.soft
    · refine h.frame rfl rfl ?_ (fun _ hc _ => mem_append_left _ hc) (fun hp => hp) (fun hp => hp)
        (fun _ hw _ => hw) h.soft
      rw [hevents, filter_cons_of_neg (by simp [Event.path, hq])]
  · rename_i q events hevents
    have horder := h.order
    rw [hevents] at horder
    by_cases hq : q = path
    · subst hq
      refine ⟨h.pending, order_tail horder, ?_, h.soft, fun hnot => .inl ?_⟩
      · intro row hrow
        rw [show (Fs.deletePath { s with events } q).rows q = none from update_self _ _ _] at hrow
        exact absurd hrow (by simp)
      · -- nothing came after the removal, so the file is gone
        have hnone : events.filter (fun e => e.path = q) = [] := by
          refine filter_eq_nil_iff.mpr fun e he hpath => hnot (.inl ⟨e, he, by simpa using hpath⟩)
        have hfile : s.files q = none := by
          refine horder ?_
          rw [filter_cons_of_pos (by simp [Event.path]), hnone]
          rfl
        show update s.rows q none q = (s.files q).map _
        rw [update_self, hfile, Option.map_none]
    · refine h.frame rfl (update_of_ne (Ne.symm hq) _ _) ?_ (fun _ hc _ => hc) (fun hp => hp) (fun hp => hp)
        (fun _ hw _ => hw) h.soft
      show events.filter _ = _
      rw [hevents, filter_cons_of_neg (by simp [Event.path, hq])]

theorem advance {k : ℕ} {call : Requeue Path} (hk : s.requeues[k]? = some call) :
    Kept content path (Fs.advance s k call) := by
  have hset : ∀ call', ∀ c ∈ s.requeues, c.path = path → call.path ≠ path → c ∈ s.requeues.set k call' := by
    intro call' c hc hpath hcall
    exact Pool.mem_set_of_ne hk hc fun he => hcall (he ▸ hpath)
  have herase : ∀ c ∈ s.requeues, c ≠ call → c ∈ s.requeues.eraseIdx k :=
    fun c hc hne => Pool.mem_eraseIdx_of_ne hk hc hne
  have hlt : k < s.requeues.length := (List.getElem?_eq_some_iff.mp hk).1
  cases call with
  | invalidate q =>
    by_cases hq : q = path
    · subst hq
      refine of_awaits (.inr (.inl ⟨.add q, mem_set hlt _, rfl⟩)) ?_ h.order ?_ h.soft
      · intro hp
        refine (h.pending hp).imp_right fun hp => hp.imp_left fun hp => ?_
        exact Pool.mem_set_of_ne hk hp (by simp)
      · intro row hrow
        have hrow' : (s.rows q).map (fun row => { row with checked := false }) = some row := by
          rw [← hrow]
          exact (update_self q _ s.rows).symm
        obtain ⟨old, hold, rfl⟩ := Option.map_eq_some_iff.mp hrow'
        exact h.undeleted old hold
    · exact h.frame rfl (update_of_ne (Ne.symm hq) _ _) rfl (fun c hc hpath => hset _ c hc hpath hq)
        (fun hp => hp) (fun hp => hp) (fun _ hw _ => hw) h.soft
  | add q =>
    rw [Fs.advance]
    split
    · rename_i hpending
      by_cases hq : q = path
      · subst hq
        have hlater := h.pending hpending
        refine of_awaits ?_ ?_ h.order h.undeleted h.soft
        · rcases hlater with hp | hp | hp
          · exact .inr (.inr (.inl hp))
          · exact .inr (.inl ⟨.push q, herase _ hp (by simp), rfl⟩)
          · exact .inr (.inr (.inr (.inl hp)))
        · exact fun _ => hlater.imp_right fun hp => hp.imp_left fun hp => herase _ hp (by simp)
      · refine h.frame rfl rfl rfl (fun c hc hpath => herase c hc ?_) (fun hp => hp) (fun hp => hp)
          (fun _ hw _ => hw) h.soft
        rintro rfl
        exact hq hpath
    · by_cases hq : q = path
      · subst hq
        exact of_awaits (.inr (.inl ⟨.push q, mem_set hlt _, rfl⟩)) (fun _ => .inr (.inl (mem_set hlt _)))
          h.order h.undeleted h.soft
      · refine h.frame rfl rfl rfl (fun c hc hpath => hset _ c hc hpath hq) (fun hp => hp) (fun hp => ?_)
          (fun _ hw _ => hw) h.soft
        exact (mem_cons.mp hp).resolve_left (Ne.symm hq)
  | push q =>
    rw [Fs.advance]
    split
    · by_cases hq : q = path
      · subst hq
        have hqueue : q ∈ s.workqueue ++ [q] := by simp
        exact of_awaits (.inr (.inr (.inl hqueue))) (fun _ => .inl hqueue) h.order h.undeleted h.soft
      · refine h.frame rfl rfl rfl (fun c hc hpath => herase c hc ?_) (fun hp => mem_append_left _ hp)
          (fun hp => hp) (fun _ hw _ => hw) h.soft
        rintro rfl
        exact hq hpath
    · exact h

theorem take (i : ℕ) : Kept content path (Fs.take s i) := by
  rw [Fs.take]
  split
  · rename_i q rest hqueue hi
    have hworkers : ∀ w ∈ s.workers, w.path? = some path → w ∈ s.workers.set i (.received q) := by
      intro w hw hpath
      refine Pool.mem_set_of_ne hi hw ?_
      rintro rfl
      exact absurd hpath (by simp [Worker.path?])
    by_cases hq : q = path
    · subst hq
      have hreceived : .received q ∈ s.workers.set i (.received q) :=
        mem_set (List.getElem?_eq_some_iff.mp hi).1 _
      exact of_awaits (.inr (.inr (.inr (.inl hreceived)))) (fun _ => .inr (.inr hreceived)) h.order
        h.undeleted h.soft
    · refine h.frame rfl rfl rfl (fun _ hc _ => hc) (fun hp => ?_) (fun hp => hp) hworkers h.soft
      rw [hqueue] at hp
      exact (mem_cons.mp hp).resolve_left (Ne.symm hq)
  · exact h

theorem flush {k : ℕ} {q : Path} (hk : s.softDeletes[k]? = some q) :
    Kept content path (softDeletePath { s with softDeletes := s.softDeletes.eraseIdx k } q) := by
  have hq : path ≠ q := by
    rintro rfl
    exact h.soft (mem_of_getElem? hk)
  refine h.frame rfl (update_of_ne hq _ _) rfl (fun _ hc _ => hc) (fun hp => hp)
    (fun hp => hp) (fun _ hw _ => hw) ?_
  exact fun hp => h.soft (mem_of_mem_eraseIdx hp)

/-! ## Workers -/

/-- A worker that is about another path. -/
theorem other {i : ℕ} {w : Worker Path OID} (hi : s.workers[i]? = some w)
    (hw : w.path? ≠ some path) (w' : Worker Path OID) {t : State Path OID} (hfiles : t.files = s.files)
    (hrows : t.rows path = s.rows path) (hevents : t.events = s.events) (hrequeues : t.requeues = s.requeues)
    (hqueue : t.workqueue = s.workqueue) (hpending : path ∈ t.pending → path ∈ s.pending)
    (hworkers : t.workers = s.workers) (hsoft : path ∉ t.softDeletes) :
    Kept content path (setWorker t i w') := by
  refine h.frame (congrFun hfiles path) hrows (by rw [← hevents]; rfl) (fun c hc _ => hrequeues ▸ hc)
    (fun hp => hqueue ▸ hp) hpending (fun v hv hpath => ?_) hsoft
  show v ∈ t.workers.set i w'
  rw [hworkers]
  refine Pool.mem_set_of_ne hi hv ?_
  rintro rfl
  exact hw hpath

/-- A worker that has looked at the path: its step writes at most the row. -/
theorem looked {i : ℕ} {w : Worker Path OID} (hi : s.workers[i]? = some w)
    (hview : w ≠ .received path ∧ w ≠ .taken path) (w' : Worker Path OID) (rows : Path → Option (Row OID))
    (hundeleted : ∀ row, rows path = some row → row.deleted = false)
    (hsettled : ¬ Awaits s path → Current content { s with rows } path ∨
      ∃ v ∈ s.workers.set i w', Rewrites content s path v ∨ Validates content { s with rows } path v) :
    Kept content path (setWorker { s with rows } i w') where
  pending hp := (h.pending hp).imp_right fun hp => hp.imp_right fun hp => Pool.mem_set_of_ne hi hp
    hview.1.symm
  order := h.order
  undeleted := hundeleted
  soft := h.soft
  settled := by
    intro hnot
    have hnot' : ¬ Awaits s path := by
      rintro (he | hc | hq | hr | ht)
      · exact hnot (.inl he)
      · exact hnot (.inr (.inl hc))
      · exact hnot (.inr (.inr (.inl hq)))
      · exact hnot (.inr (.inr (.inr (.inl (Pool.mem_set_of_ne hi hr hview.1.symm)))))
      · exact hnot (.inr (.inr (.inr (.inr (Pool.mem_set_of_ne hi ht hview.2.symm)))))
    rcases hsettled hnot' with hcurrent | ⟨v, hv, hfix⟩
    · exact .inl hcurrent
    · refine .inr ⟨v, hv, ?_⟩
      rcases hfix with hfix | hfix
      · exact .inl (hfix.of_files rfl)
      · exact .inr (hfix.of_files rfl rfl)

end Kept

/-- The worker's step is not too late: what it writes is what the file is, or is written over; and
a row that it takes for the file's by its time is the file's, or is written over. -/
def InTime (s : State Path OID) (i : ℕ) : Worker Path OID → Prop
  | .hashed path modTime objectID =>
    s.files path = some modTime ∧ objectID = content path modTime ∨ Covered content s path i
  | .missing path => s.files path = none ∨ Covered content s path i
  | .stated path modTime => s.files path = some modTime →
      ∀ row ∈ s.rows path, row.modTime = modTime →
        row.dataID = content path modTime ∨ Covered content s path i
  | _ => True

section

omit [DecidableEq Path]

variable {content} {s : State Path OID} {path : Path} {i : ℕ}

theorem Covered.rewritten (h : Covered content s path i) (hnot : ¬ Awaits s path) (w' : Worker Path OID) :
    ∃ v ∈ s.workers.set i w', Rewrites content s path v := by
  obtain ⟨j, -, hj, v, hv, hfix⟩ := h.resolve_left hnot
  refine ⟨v, mem_iff_getElem?.mpr ⟨j, ?_⟩, hfix⟩
  rw [List.getElem?_set_ne hj.symm, hv]

end

namespace Kept

variable {content} {s s' : State Path OID} {path : Path}

variable {i : ℕ}

variable (h : Kept content path s)
include h

/-- The step of a worker that is about another path. -/
theorem elsewhere {w : Worker Path OID} (hi : s.workers[i]? = some w) (hother : w.path? ≠ some path) :
    Kept content path (Fs.work underRoot content s i w) := by
  have hframe : ∀ w', Kept content path (setWorker s i w') := fun w' =>
    h.other hi hother w' rfl rfl rfl rfl rfl (fun hp => hp) rfl h.soft
  have hrow : ∀ q row, w.path? = some q → Kept content path (setWorker (setRow s q row) i .idle) := by
    intro q row hq
    refine h.other hi hother _ rfl (update_of_ne ?_ _ _) rfl rfl rfl (fun hp => hp) rfl h.soft
    rintro rfl
    exact hother hq
  cases w with
  | idle => exact h
  | received q =>
    have hpending : path ∈ s.pending.filter (· ≠ q) → path ∈ s.pending := fun hp => (mem_filter.mp hp).1
    rw [Fs.work]
    split
    · exact h.other hi hother _ rfl rfl rfl rfl rfl hpending rfl h.soft
    · refine h.other hi hother _ rfl rfl rfl rfl rfl hpending rfl fun hp => ?_
      rcases mem_append.mp hp with hp | hp
      · exact h.soft hp
      · exact hother (congrArg some (mem_singleton.mp hp).symm)
  | taken q | hashing q m =>
    rw [Fs.work]
    split
    · exact hframe _
    · exact hframe _
  | stated q m =>
    rw [Fs.work]
    split
    · split
      · exact hframe _
      · exact hframe _
    · exact hframe _
  | missing q | matched q | hashed q m oid => exact hrow q _ rfl

theorem worker_received (hroot : underRoot path = true) (hi : s.workers[i]? = some (.received path)) :
    Kept content path (Fs.work underRoot content s i (.received path)) := by
  rw [Fs.work, if_pos hroot]
  have htaken : .taken path ∈ s.workers.set i (.taken path) := mem_set (List.getElem?_eq_some_iff.mp hi).1 _
  exact of_awaits (.inr (.inr (.inr (.inr htaken)))) (fun hp => absurd (mem_filter.mp hp).2 (by simp)) h.order
    h.undeleted h.soft

theorem worker_taken (hi : s.workers[i]? = some (.taken path)) :
    Kept content path (Fs.work underRoot content s i (.taken path)) := by
  have hlt := (List.getElem?_eq_some_iff.mp hi).1
  rw [Fs.work]
  have hpending : ∀ w', path ∈ s.pending →
      path ∈ s.workqueue ∨ .push path ∈ s.requeues ∨ .received path ∈ s.workers.set i w' := fun w' hp =>
    (h.pending hp).imp_right fun hp => hp.imp_right fun hp => Pool.mem_set_of_ne hi hp (by simp)
  split
  · rename_i hfile
    exact { h with pending := hpending _, settled := fun _ => .inr ⟨.missing path, mem_set hlt _, .inl ⟨rfl, hfile⟩⟩ }
  · rename_i modTime hfile
    exact { h with pending := hpending _, settled := fun _ => .inr ⟨.stated path modTime, mem_set hlt _, .inl ⟨rfl, hfile⟩⟩ }

theorem worker_missing (hi : s.workers[i]? = some (.missing path)) (htime : InTime content s i (.missing path)) :
    Kept content path (Fs.work underRoot content s i (.missing path)) := by
  have hrow : (Fs.deletePath s path).rows path = none := update_self _ _ _
  refine h.looked hi (by simp) .idle (Fs.deletePath s path).rows ?_ fun hnot => ?_
  · intro row hrow'
    exact absurd (hrow.symm.trans hrow') (by simp)
  · rcases htime with hfile | hcovered
    · left
      show (Fs.deletePath s path).rows path = (s.files path).map _
      rw [hrow, hfile, Option.map_none]
    · obtain ⟨v, hv, hfix⟩ := hcovered.rewritten hnot .idle
      exact .inr ⟨v, hv, .inl hfix⟩

theorem worker_stated {m : ℕ} (hi : s.workers[i]? = some (.stated path m))
    (htime : InTime content s i (.stated path m)) :
    Kept content path (Fs.work underRoot content s i (.stated path m)) := by
  have hlt := (List.getElem?_eq_some_iff.mp hi).1
  -- what settles the path is this worker, or something else that its step leaves alone
  have hstep : ∀ w', (¬ Awaits s path → s.files path = some m →
      ∃ v ∈ s.workers.set i w', Rewrites content s path v ∨ Validates content s path v) →
      Kept content path (setWorker s i w') := by
    intro w' hfix
    refine h.looked hi (by simp) w' s.rows h.undeleted fun hnot => ?_
    by_cases hfile : s.files path = some m
    · exact .inr (hfix hnot hfile)
    · rcases h.settled hnot with hcurrent | ⟨v, hv, hfix⟩
      · exact .inl hcurrent
      · refine .inr ⟨v, Pool.mem_set_of_ne hi hv ?_, hfix⟩
        rintro rfl
        rcases hfix with hfix | hfix
        · exact hfile hfix.2
        · exact hfix
  have hhashing : Kept content path (setWorker s i (.hashing path m)) :=
    hstep _ fun _ hfile => ⟨.hashing path m, mem_set hlt _, .inl ⟨rfl, hfile⟩⟩
  rw [Fs.work]
  split
  · rename_i row hfind
    obtain ⟨hrow, hdeleted⟩ := Option.filter_eq_some_iff.mp hfind
    refine Trace.when_keeps hhashing fun hmod => ?_
    refine hstep _ fun hnot hfile => ?_
    rcases htime hfile row hrow hmod with hdata | hcovered
    · refine ⟨.matched path, mem_set hlt _, .inr ⟨rfl, m, row.checked, hfile, ?_⟩⟩
      rw [hrow, ← hdata, ← hmod]
      have hundeleted : row.deleted = false := by simpa using hdeleted
      rw [← hundeleted]
    · obtain ⟨v, hv, hfix⟩ := hcovered.rewritten hnot (.matched path)
      exact ⟨v, hv, .inl hfix⟩
  · exact hhashing

theorem worker_matched (hi : s.workers[i]? = some (.matched path)) :
    Kept content path (Fs.work underRoot content s i (.matched path)) := by
  have hrow : (Fs.validatePath s path).rows path =
      (s.rows path).map fun row => { row with checked := true, deleted := false } :=
    update_self _ _ _
  refine h.looked hi (by simp) .idle (Fs.validatePath s path).rows ?_ fun hnot => ?_
  · intro row hrow'
    obtain ⟨old, -, rfl⟩ := Option.map_eq_some_iff.mp (hrow.symm.trans hrow')
    rfl
  · rcases h.settled hnot with hcurrent | ⟨v, hv, hfix | hfix⟩
    · -- the row is checked already
      left
      show (Fs.validatePath s path).rows path = (s.files path).map _
      rw [hrow, show s.rows path = _ from hcurrent, Option.map_map]
      rfl
    · refine .inr ⟨v, Pool.mem_set_of_ne hi hv ?_, .inl hfix⟩
      rintro rfl
      exact hfix
    · left
      obtain ⟨modTime, checked, hfile, hold⟩ : ∃ modTime checked, s.files path = some modTime ∧
          s.rows path = some { dataID := content path modTime, modTime, checked, deleted := false } := by
        cases v with
        | matched path' => exact hfix.2
        | idle | received path' | taken path' | missing path' | stated path' m | hashing path' m | hashed path' m oid =>
          exact absurd hfix id
      show (Fs.validatePath s path).rows path = (s.files path).map _
      rw [hrow, hold, hfile]
      rfl

theorem worker_hashing {m : ℕ} (hi : s.workers[i]? = some (.hashing path m)) :
    Kept content path (Fs.work underRoot content s i (.hashing path m)) := by
  have hlt := (List.getElem?_eq_some_iff.mp hi).1
  have hstep : ∀ w', (s.files path = some m → Rewrites content s path w') →
      Kept content path (setWorker s i w') := by
    intro w' hfix
    refine h.looked hi (by simp) w' s.rows h.undeleted fun hnot => ?_
    rcases h.settled hnot with hcurrent | ⟨v, hv, hfixes⟩
    · exact .inl hcurrent
    · by_cases hv' : v = .hashing path m
      · subst hv'
        rcases hfixes with hfixes | hfixes
        · exact .inr ⟨w', mem_set hlt _, .inl (hfix hfixes.2)⟩
        · exact absurd hfixes id
      · exact .inr ⟨v, Pool.mem_set_of_ne hi hv hv', hfixes⟩
  rw [Fs.work]
  split
  · rename_i hfile
    exact hstep _ fun hfile' => absurd (hfile.symm.trans hfile') (by simp)
  · rename_i m' hfile
    refine hstep _ fun hfile' => ⟨rfl, hfile', ?_⟩
    rw [Option.some.inj (hfile.symm.trans hfile')]

theorem worker_hashed {m : ℕ} {oid : OID} (hi : s.workers[i]? = some (.hashed path m oid))
    (htime : InTime content s i (.hashed path m oid)) :
    Kept content path (Fs.work underRoot content s i (.hashed path m oid)) := by
  have hdeleted : (s.rows path).elim false Row.deleted = false := by
    cases hrow : s.rows path with
    | none => rfl
    | some row => exact h.undeleted row hrow
  have hrow : (Fs.indexPath s path oid m).rows path =
      some { dataID := oid, modTime := m, checked := true, deleted := false } := by
    rw [← hdeleted]
    exact update_self _ _ _
  refine h.looked hi (by simp) .idle (Fs.indexPath s path oid m).rows ?_ fun hnot => ?_
  · intro row hrow'
    rw [← Option.some.inj (hrow.symm.trans hrow')]
  · rcases htime with ⟨hfile, hoid⟩ | hcovered
    · left
      show (Fs.indexPath s path oid m).rows path = (s.files path).map _
      rw [hrow, hfile, hoid]
      rfl
    · obtain ⟨v, hv, hfix⟩ := hcovered.rewritten hnot .idle
      exact .inr ⟨v, hv, .inl hfix⟩

theorem work (hroot : underRoot path = true) {w : Worker Path OID} (hi : s.workers[i]? = some w)
    (htime : InTime content s i w) : Kept content path (Fs.work underRoot content s i w) := by
  by_cases hpath : w.path? = some path
  · cases w with
    | idle => exact h
    | received q =>
      cases hpath
      exact h.worker_received underRoot hroot hi
    | taken q =>
      cases hpath
      exact h.worker_taken underRoot hi
    | missing q =>
      cases hpath
      exact h.worker_missing underRoot hi htime
    | stated q m =>
      cases hpath
      exact h.worker_stated underRoot hi htime
    | matched q =>
      cases hpath
      exact h.worker_matched underRoot hi
    | hashing q m =>
      cases hpath
      exact h.worker_hashing underRoot hi
    | hashed q m oid =>
      cases hpath
      exact h.worker_hashed underRoot hi htime
  · exact h.elsewhere underRoot hi hpath

end Kept

/-! ## Whole runs -/

def Timely (s : State Path OID) : Op Path → Prop
  | .work i => ∀ w ∈ s.workers[i]?, InTime content s i w
  | _ => True

section

variable [DecidableEq OID] (s : State Path OID)

instance (path : Path) : Decidable (Awaits s path) := inferInstanceAs (Decidable (_ ∨ _))

instance (path : Path) : DecidablePred (Rewrites content s path)
  | .stated _ _ | .hashing _ _ | .hashed _ _ _ | .missing _ => inferInstanceAs (Decidable (_ ∧ _))
  | .idle | .received _ | .taken _ | .matched _ => inferInstanceAs (Decidable False)

instance (path : Path) (i : ℕ) : Decidable (Covered content s path i) := inferInstanceAs (Decidable (_ ∨ _))

instance (i : ℕ) : DecidablePred (InTime content s i)
  | .hashed _ _ _ | .missing _ => inferInstanceAs (Decidable (_ ∨ _))
  | .stated path modTime => inferInstanceAs (Decidable (s.files path = some modTime →
      ∀ row ∈ s.rows path, row.modTime = modTime →
        row.dataID = content path modTime ∨ Covered content s path i))
  | .idle | .received _ | .taken _ | .matched _ | .hashing _ _ => inferInstanceAs (Decidable True)

instance : DecidablePred (Timely content s)
  | .work i => inferInstanceAs (Decidable (∀ w ∈ s.workers[i]?, InTime content s i w))
  | .write _ _ | .remove _ | .notify | .requeue _ | .advance _ | .take _ | .flush _ =>
    inferInstanceAs (Decidable True)

end

theorem Kept.step {s : State Path OID} {path : Path} (h : Kept content path s) (hroot : underRoot path = true)
    (op : Op Path) (hop : Timely content s op) : Kept content path (step underRoot content s op) := by
  cases op with
  | write q m => exact h.change (.changed q) (some m) (by simp)
  | remove q =>
    rw [Fs.step]
    split
    · exact h.change (.removed q) none fun _ => rfl
    · exact h
  | notify => exact h.notify
  | requeue q => exact h.requeue q
  | advance k => exact Trace.elim_keeps h _ _ fun call hk => h.advance hk
  | take i => exact h.take i
  | work i => exact Trace.elim_keeps h _ _ fun w hw => h.work underRoot hroot hw (hop w hw)
  | flush k => exact Trace.elim_keeps h _ _ fun q hk => h.flush hk

omit [DecidableEq Path] in
def Quiet (s : State Path OID) : Prop :=
  s.events = [] ∧ s.requeues = [] ∧ s.workqueue = [] ∧ ∀ w ∈ s.workers, w = .idle

instance [DecidableEq OID] (s : State Path OID) : Decidable (Quiet s) := inferInstanceAs (Decidable (_ ∧ _))

/-- **The index.** From files that are indexed, over every interleaving of changes, the watcher's
calls and any number of workers whose steps are in time: with everything idle, every path under a
root has a row that is checked and not deleted exactly when its file exists, and the row has the
file's object id and modification time. -/
theorem index_current (files : Path → Option ℕ) (workers : ℕ) (ops : List (Op Path))
    (hops : Trace.Along (fun past op => Timely content (exec underRoot content files workers past) op) ops)
    (hquiet : Quiet (exec underRoot content files workers ops)) (path : Path)
    (hroot : underRoot path = true) :
    let s := exec underRoot content files workers ops
    ((∃ row, s.rows path = some row ∧ row.checked = true ∧ row.deleted = false) ↔ (s.files path).isSome) ∧
      ∀ row modTime, s.rows path = some row → s.files path = some modTime →
        row.dataID = content path modTime ∧ row.modTime = modTime := by
  have hkept : Kept content path (exec underRoot content files workers ops) := by
    refine hops.invariant ?_ fun op _ hop ih => ih.step underRoot content hroot op hop
    refine ⟨fun hp => absurd hp not_mem_nil, fun hlast => absurd hlast (by simp [init]), ?_,
      not_mem_nil, fun _ => .inl rfl⟩
    intro row hrow
    obtain ⟨modTime, -, rfl⟩ := Option.map_eq_some_iff.mp hrow
    rfl
  intro s
  have hcurrent : Current content s path := by
    obtain ⟨hevents, hrequeues, hqueue, hidle⟩ := hquiet
    have hnot : ¬ Awaits s path := by
      rintro (⟨e, he, -⟩ | ⟨call, hcall, -⟩ | hq | hw | hw)
      · rw [hevents] at he
        exact not_mem_nil he
      · rw [hrequeues] at hcall
        exact not_mem_nil hcall
      · rw [hqueue] at hq
        exact not_mem_nil hq
      · exact absurd (hidle _ hw) (by simp)
      · exact absurd (hidle _ hw) (by simp)
    rcases hkept.settled hnot with hcurrent | ⟨w, hw, hfix⟩
    · exact hcurrent
    · obtain rfl := hidle w hw
      exact (hfix.elim id id).elim
  rw [Current] at hcurrent
  cases hfile : s.files path with
  | none =>
    rw [hfile, Option.map_none] at hcurrent
    simp [hcurrent]
  | some modTime =>
    rw [hfile, Option.map_some] at hcurrent
    simp [hcurrent]

/-- A file is written again while a worker is at it: what the worker writes is out of date, and the
path is in the queue. -/
theorem index_current_rewritten :
    ∃ ops : List (Op ℕ), ∃ row : Row ℕ,
      (exec (fun _ => true) (fun path m => path + m) (fun _ => none) 2 ops).rows 7 = some row ∧
        row.checked = true ∧ row.deleted = false := by
  have hrun := index_current (fun _ => true) (fun path m => path + m) (fun _ => none) 2
    [.work 1, .work 1, .work 1, .work 1, .work 1, .take 1, .work 0, .work 0, .advance 0, .advance 0,
      .advance 0,
      .notify, .write 7 2, .work 0, .work 0, .work 0, .take 0, .advance 0, .advance 0, .advance 0,
        .notify, .write 7 1]
    (by decide) (by decide) 7 rfl
  exact ⟨_, hrun.1.mpr (by decide)⟩

/-- Two runs in which a worker's write is late: the file was written and indexed again meanwhile,
or removed and its row deleted. With everything idle the row of the first file has the older object
id and time, and the removed file has a row. -/
theorem late_write_stays :
    (∃ ops : List (Op ℕ), let s := exec (fun _ => true) (fun path m => path + m) (fun _ => none) 4 ops
      Quiet s ∧ s.files 7 = some 2 ∧
        s.rows 7 = some { dataID := 8, modTime := 1, checked := true, deleted := false }) ∧
    ∃ ops : List (Op ℕ), let s := exec (fun _ => true) (fun path m => path + m) (fun _ => none) 4 ops
      Quiet s ∧ s.files 7 = none ∧
        s.rows 7 = some { dataID := 8, modTime := 1, checked := true, deleted := false } := by
  refine ⟨⟨[.work 0, .work 1, .work 1, .work 1, .work 1, .work 1, .take 1, .advance 0, .advance 0, .advance 0,
      .notify, .write 7 2, .work 0, .work 0, .work 0, .work 0, .take 0, .advance 0, .advance 0,
        .advance 0, .notify,
      .write 7 1], by decide⟩,
    ⟨[.work 0, .notify, .remove 7, .work 0, .work 0, .work 0, .work 0, .take 0, .advance 0, .advance 0,
      .advance 0,
      .notify, .write 7 1], by decide⟩⟩

end

end Astrald.Fs
