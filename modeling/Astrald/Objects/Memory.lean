import Mathlib
import Astrald.Lib.Table
import Astrald.Lib.Trace

/-!
# The in-memory repository and its quota

`mem.Repository` keeps objects by the hash of their content and counts the bytes it answers for in
one atomic word. Writers reserve bytes as they buffer them; `Commit` hands the reservation over to
the stored object, or gives it back when the object is there already; `Discard` and `Delete` give
it back. Every atomic operation of the source is one step here: the load and the compare-and-swap
of `reserve`, the swap of `closed`, `Set` and `Delete` of the map, the addition in `release`.

* `Accounted`: what the counter answers for at any moment, calls in progress included;
* `Accounted.apply`: every step keeps it;
* `used_accounted`: with no call in progress the counter is the stored bytes and the buffered ones,
  it never leaves the quota, and a duplicate is counted once.
-/

namespace Astrald.Objects.Mem

abbrev Bytes := List UInt8

inductive Err
  | closedPipe
  | noSpaceLeft
  | notFound
  deriving DecidableEq, Repr

section

variable {Hash : Type}

/-! ## Writers and deletions -/

/-- Where a call on a writer stands, between two of its atomic operations. -/
inductive Call (Hash : Type)
  | idle
  /-- `Write`, about to load `used`. -/
  | reserve (p : Bytes)
  /-- `Write`, about to swap; `used` is the value it loaded. -/
  | swap (p : Bytes) (used : ℤ)
  /-- `Write`, with its bytes reserved. -/
  | buffer (p : Bytes)
  /-- `Commit`, about to store what it took out of the buffer. -/
  | store (data : Bytes)
  /-- `Commit` of a duplicate, or `Discard`. -/
  | release (n : ℕ)
  /-- `Commit`, about to tell the followers. -/
  | pushAdded (id : Hash)
  deriving DecidableEq, Repr

structure Writer (Hash : Type) where
  buf : Bytes := []
  closed : Bool := false
  call : Call Hash := .idle
  err : Option Err := none
  deriving DecidableEq, Repr

inductive Deletion (Hash : Type)
  | found (id : Hash)
  | release (n : ℕ)
  | done (err : Option Err)
  deriving DecidableEq, Repr

abbrev Contents (Hash : Type) := Table (ρ := Hash × Bytes) Prod.fst

structure Repository (Hash : Type) where
  objects : Contents Hash := Table.empty
  used : ℤ := 0
  size : ℕ
  addQueue : List Hash := []
  writers : List (Writer Hash) := []
  deletions : List (Deletion Hash) := []

def defaultSize : ℕ := 64 * 1024 * 1024

def new (size : ℕ) : Repository Hash := { size := if size = 0 then defaultSize else size }

def setWriter (repo : Repository Hash) (i : ℕ) (w : Writer Hash) : Repository Hash :=
  { repo with writers := repo.writers.set i w }

def setDeletion (repo : Repository Hash) (k : ℕ) (d : Deletion Hash) : Repository Hash :=
  { repo with deletions := repo.deletions.set k d }

/-! ## The operations -/

def release (repo : Repository Hash) (n : ℕ) : Repository Hash := { repo with used := repo.used - n }

def free (repo : Repository Hash) : ℤ := repo.size - repo.used

def create (repo : Repository Hash) (alloc : Option ℕ) : Repository Hash :=
  match alloc with
  | some n => if (n : ℤ) > free repo then repo else { repo with writers := repo.writers ++ [{}] }
  | none => { repo with writers := repo.writers ++ [{}] }

/-- A call on a writer, up to its first atomic operation. -/
def Writer.write (w : Writer Hash) (p : Bytes) : Writer Hash :=
  if w.closed then { w with err := some .closedPipe } else { w with call := .reserve p }

def Writer.commit (w : Writer Hash) : Writer Hash :=
  if w.closed then { w with err := some .closedPipe }
  else { w with closed := true, buf := [], call := .store w.buf }

def Writer.discard (w : Writer Hash) : Writer Hash :=
  if w.closed then w else { w with closed := true, buf := [], call := .release w.buf.length }

/-- A writer's calls are made one after the other. -/
def begin (repo : Repository Hash) (i : ℕ) (f : Writer Hash → Writer Hash) : Repository Hash :=
  match repo.writers[i]? with
  | some w => if w.call matches .idle then setWriter repo i (f w) else repo
  | none => repo

variable [DecidableEq Hash]

def findObject (repo : Repository Hash) (id : Hash) (size : ℕ) : Option Bytes :=
  match repo.objects.find id with
  | none => none
  | some object => if size ≠ 0 ∧ size ≠ object.2.length then none else some object.2

def delete (repo : Repository Hash) (id : Hash) (size : ℕ) : Repository Hash :=
  { repo with
    deletions := repo.deletions ++
      [if (findObject repo id size).isSome then .found id else .done (some .notFound)] }

variable (hash : Bytes → Hash)

/-- The next atomic operation of writer `i`'s call. `bytes.Buffer` takes every byte it is given. -/
def advance (repo : Repository Hash) (i : ℕ) (w : Writer Hash) : Repository Hash :=
  match w.call with
  | .idle => repo
  | .reserve p => setWriter repo i { w with call := .swap p repo.used }
  | .swap p used =>
    if used + p.length > repo.size then setWriter repo i { w with call := .idle, err := some .noSpaceLeft }
    else if repo.used = used then
      setWriter { repo with used := used + p.length } i { w with call := .buffer p }
    else setWriter repo i { w with call := .reserve p }
  | .buffer p => setWriter repo i { w with call := .idle, buf := w.buf ++ p }
  | .store data =>
    -- Set keeps the entry that is there
    match repo.objects.find (hash data) with
    | some _ => setWriter repo i { w with call := .release data.length }
    | none =>
      setWriter { repo with objects := repo.objects.insert (hash data, data) } i
        { w with call := .pushAdded (hash data) }
  | .release n => setWriter (release repo n) i { w with call := .idle }
  | .pushAdded id => setWriter { repo with addQueue := repo.addQueue ++ [id] } i { w with call := .idle }

def advanceDelete (repo : Repository Hash) (k : ℕ) (d : Deletion Hash) : Repository Hash :=
  match d with
  | .found id =>
    match repo.objects.find id with
    | some old =>
      setDeletion { repo with objects := repo.objects.erase id } k (.release old.2.length)
    | none => setDeletion repo k (.done (some .notFound))
  | .release n => setDeletion (release repo n) k (.done none)
  | .done _ => repo

inductive Op (Hash : Type)
  | create (alloc : Option ℕ)
  | write (i : ℕ) (p : Bytes)
  | commit (i : ℕ)
  | discard (i : ℕ)
  | advance (i : ℕ)
  | delete (id : Hash) (size : ℕ)
  | advanceDelete (k : ℕ)
  deriving DecidableEq, Repr

def step (repo : Repository Hash) : Op Hash → Repository Hash
  | .create alloc => create repo alloc
  | .write i p => begin repo i (·.write p)
  | .commit i => begin repo i Writer.commit
  | .discard i => begin repo i Writer.discard
  | .advance i => (repo.writers[i]?).elim repo (advance hash repo i)
  | .delete id size => delete repo id size
  | .advanceDelete k => (repo.deletions[k]?).elim repo (advanceDelete repo k)

variable {repo : Repository Hash}

variable {w : Writer Hash}

theorem step_advance {i : ℕ} (hw : repo.writers[i]? = some w) :
    step hash repo (.advance i) = advance hash repo i w := by
  rw [step, hw, Option.elim_some]

omit [DecidableEq Hash] in
theorem getElem?_setWriter {i : ℕ} (hw : repo.writers[i]? = some w) (w' : Writer Hash) :
    (setWriter repo i w').writers[i]? = some w' :=
  List.getElem?_set_self (List.getElem?_eq_some_iff.mp hw).1

/-! ## What the counter answers for -/

omit [DecidableEq Hash] in
def stored (repo : Repository Hash) : ℕ := repo.objects.weight fun object => object.2.length

/-- The bytes a call has reserved and not handed over or given back, the buffer apart. -/
def Call.held : Call Hash → ℕ
  | .idle | .reserve _ | .swap _ _ | .pushAdded _ => 0
  | .buffer p => p.length
  | .store data => data.length
  | .release n => n

def Writer.held (w : Writer Hash) : ℕ := w.buf.length + w.call.held

def Deletion.held : Deletion Hash → ℕ
  | .found _ | .done _ => 0
  | .release n => n

/-- Every reserved byte has exactly one holder, and the reservations fit. -/
structure Accounted (repo : Repository Hash) : Prop where
  used : repo.used =
    stored repo + Pool.total Writer.held repo.writers + Pool.total Deletion.held repo.deletions
  fits : repo.used ≤ repo.size

namespace Accounted

section

omit [DecidableEq Hash]

theorem fresh (size : ℕ) : Accounted ({ size := size } : Repository Hash) :=
  ⟨rfl, Int.natCast_nonneg size⟩

section

variable (h : Accounted repo)
include h

theorem nonneg : 0 ≤ repo.used := by
  rw [h.used]
  positivity

/-- A writer's step that keeps the sum of the counter's holders. -/
theorem setWriter {repo' : Repository Hash} {i : ℕ} {w w' : Writer Hash}
    (hw : repo.writers[i]? = some w) (hwriters : repo'.writers = repo.writers)
    (hdeletions : repo'.deletions = repo.deletions)
    (hsum : repo'.used + stored repo + w.held = repo.used + stored repo' + w'.held)
    (hfits : repo'.used ≤ repo'.size) : Accounted (Mem.setWriter repo' i w') := by
  refine ⟨?_, hfits⟩
  have htotal := Pool.total_set Writer.held hw w'
  have hused := h.used
  show repo'.used = stored repo' + Pool.total Writer.held (repo'.writers.set i w')
    + Pool.total Deletion.held repo'.deletions
  rw [hwriters, hdeletions]
  omega

theorem setDeletion {repo' : Repository Hash} {k : ℕ} {d d' : Deletion Hash}
    (hd : repo.deletions[k]? = some d) (hwriters : repo'.writers = repo.writers)
    (hdeletions : repo'.deletions = repo.deletions)
    (hsum : repo'.used + stored repo + d.held = repo.used + stored repo' + d'.held)
    (hfits : repo'.used ≤ repo'.size) : Accounted (Mem.setDeletion repo' k d') := by
  refine ⟨?_, hfits⟩
  have htotal := Pool.total_set Deletion.held hd d'
  have hused := h.used
  show repo'.used = stored repo' + Pool.total Writer.held repo'.writers
    + Pool.total Deletion.held (repo'.deletions.set k d')
  rw [hwriters, hdeletions]
  omega

theorem create (alloc : Option ℕ) : Accounted (Mem.create repo alloc) := by
  have hnew : Accounted { repo with writers := repo.writers ++ [{}] } := by
    refine ⟨?_, h.fits⟩
    show repo.used = stored repo + Pool.total Writer.held (repo.writers ++ [({} : Writer Hash)]) + _
    rw [Pool.total_append, h.used]
    rfl
  cases alloc with
  | none => exact hnew
  | some n =>
    show Accounted (if (n : ℤ) > free repo then repo else _)
    split
    · exact h
    · exact hnew

/-- A call that begins moves no byte out of its writer. -/
theorem begin (i : ℕ) (f : Writer Hash → Writer Hash)
    (hf : ∀ w : Writer Hash, w.call = .idle → (f w).held = w.held) : Accounted (Mem.begin repo i f) := by
  rw [Mem.begin]
  split
  · rename_i w hw
    split
    · rename_i hidle
      have hcall : w.call = .idle := by
        revert hidle
        cases w.call <;> simp
      exact h.setWriter hw rfl rfl (by rw [hf w hcall]) h.fits
    · exact h
  · exact h

end

theorem held_write (p : Bytes) (w : Writer Hash) (h : w.call = .idle) : (w.write p).held = w.held := by
  rw [Writer.write]
  split
  · rfl
  · simp [Writer.held, h, Call.held]

theorem held_commit (w : Writer Hash) (h : w.call = .idle) : w.commit.held = w.held := by
  rw [Writer.commit]
  split
  · rfl
  · simp [Writer.held, h, Call.held]

theorem held_discard (w : Writer Hash) (h : w.call = .idle) : w.discard.held = w.held := by
  rw [Writer.discard]
  split
  · rfl
  · simp [Writer.held, h, Call.held]

end

variable (h : Accounted repo)
include h

theorem advance {i : ℕ} (hw : repo.writers[i]? = some w) :
    Accounted (Mem.advance hash repo i w) := by
  rw [Mem.advance]
  split
  case h_1 => exact h
  case h_2 p hcall => exact h.setWriter hw rfl rfl (by simp [Writer.held, hcall, Call.held]) h.fits
  case h_3 p used hcall =>
    split
    · exact h.setWriter hw rfl rfl (by simp [Writer.held, hcall, Call.held]) h.fits
    · rename_i hroom
      split
      · -- the swap succeeds on the value that was compared with the quota
        rename_i hused
        refine h.setWriter hw rfl rfl ?_ (not_lt.mp hroom)
        simp only [Writer.held, hcall, Call.held, hused, stored]
        omega
      · exact h.setWriter hw rfl rfl (by simp [Writer.held, hcall, Call.held]) h.fits
  case h_4 p hcall => exact h.setWriter hw rfl rfl (by simp [Writer.held, hcall, Call.held]) h.fits
  case h_5 data hcall =>
    split
    · exact h.setWriter hw rfl rfl (by simp [Writer.held, hcall, Call.held]) h.fits
    · rename_i hfree
      refine h.setWriter hw rfl rfl ?_ h.fits
      have hweight := Table.weight_insert (fun object : Hash × Bytes => object.2.length)
        (r := (hash data, data)) hfree
      simp only [Writer.held, hcall, Call.held, stored, hweight]
      omega
  case h_6 n hcall =>
    refine h.setWriter hw rfl rfl ?_ ?_
    · simp only [Writer.held, hcall, Call.held, release, stored]
      omega
    · have hfits := h.fits
      show repo.used - n ≤ repo.size
      omega
  case h_7 id hcall => exact h.setWriter hw rfl rfl (by simp [Writer.held, hcall, Call.held, stored]) h.fits

theorem delete (id : Hash) (size : ℕ) : Accounted (Mem.delete repo id size) := by
  refine ⟨?_, h.fits⟩
  show repo.used = stored repo + Pool.total Writer.held repo.writers
    + Pool.total Deletion.held (repo.deletions ++ [_])
  rw [Pool.total_append, h.used]
  split <;> rfl

theorem advanceDelete {k : ℕ} {d : Deletion Hash}
    (hd : repo.deletions[k]? = some d) : Accounted (Mem.advanceDelete repo k d) := by
  cases d with
  | found id =>
    rw [Mem.advanceDelete]
    split
    · -- the map gives the object to one deletion only
      rename_i old hfound
      refine h.setDeletion hd rfl rfl ?_ h.fits
      have hweight := Table.weight_erase (fun object : Hash × Bytes => object.2.length) hfound
      simp only [Deletion.held, stored]
      omega
    · exact h.setDeletion hd rfl rfl rfl h.fits
  | release n =>
    refine h.setDeletion hd rfl rfl ?_ ?_
    · simp only [Deletion.held, release, stored]
      omega
    · have hfits := h.fits
      show repo.used - n ≤ repo.size
      omega
  | done err => exact h

theorem apply (op : Op Hash) : Accounted (step hash repo op) := by
  cases op with
  | create alloc => exact h.create alloc
  | write i p => exact h.begin i _ (held_write p)
  | commit i => exact h.begin i _ held_commit
  | discard i => exact h.begin i _ held_discard
  | advance i =>
    refine Trace.elim_keeps h _ _ fun w hw => ?_
    exact h.advance hash hw
  | delete id size => exact h.delete id size
  | advanceDelete k =>
    refine Trace.elim_keeps h _ _ fun d hd => ?_
    exact h.advanceDelete hd

end Accounted

/-! ## Closed writers -/

def Call.writing : Call Hash → Bool
  | .reserve _ | .swap _ _ | .buffer _ => true
  | .idle | .store _ | .release _ | .pushAdded _ => false

/-- A writer that is closed buffers nothing, and no `Write` of it is in progress. -/
def Writer.Sealed (w : Writer Hash) : Prop := w.closed = true → w.buf = [] ∧ w.call.writing = false

def SealedAll (repo : Repository Hash) : Prop := ∀ w ∈ repo.writers, w.Sealed

namespace SealedAll

section

omit [DecidableEq Hash]

theorem setWriter {repo' : Repository Hash} {i : ℕ} {w' : Writer Hash} (h : SealedAll repo)
    (hwriters : repo'.writers = repo.writers) (hw' : w'.Sealed) : SealedAll (Mem.setWriter repo' i w') := by
  intro v hv
  rcases List.mem_or_eq_of_mem_set hv with hv | rfl
  · exact h v (hwriters ▸ hv)
  · exact hw'

theorem create (h : SealedAll repo) (alloc : Option ℕ) : SealedAll (Mem.create repo alloc) := by
  have hnew : SealedAll { repo with writers := repo.writers ++ [{}] } := by
    intro v hv
    rcases List.mem_append.mp hv with hv | hv
    · exact h v hv
    · rw [List.mem_singleton.mp hv]
      exact fun hclosed => absurd hclosed Bool.false_ne_true
  cases alloc with
  | none => exact hnew
  | some n =>
    show SealedAll (if (n : ℤ) > free repo then repo else _)
    split
    · exact h
    · exact hnew

theorem begin (h : SealedAll repo) (i : ℕ) (f : Writer Hash → Writer Hash)
    (hf : ∀ w : Writer Hash, w.Sealed → (f w).Sealed) : SealedAll (Mem.begin repo i f) := by
  rw [Mem.begin]
  split
  · rename_i w hw
    split
    · exact h.setWriter rfl (hf w (h w (List.mem_of_getElem? hw)))
    · exact h
  · exact h

theorem write (p : Bytes) (w : Writer Hash) (h : w.Sealed) : (w.write p).Sealed := by
  rw [Writer.write]
  split
  · exact h
  · rename_i hopen
    exact fun hclosed => absurd hclosed hopen

theorem commit (w : Writer Hash) (h : w.Sealed) : w.commit.Sealed := by
  rw [Writer.commit]
  split
  · exact h
  · exact fun _ => ⟨rfl, rfl⟩

theorem discard (w : Writer Hash) (h : w.Sealed) : w.discard.Sealed := by
  rw [Writer.discard]
  split
  · exact h
  · exact fun _ => ⟨rfl, rfl⟩

end

theorem advance (h : SealedAll repo) {i : ℕ} (hw : repo.writers[i]? = some w) :
    SealedAll (Mem.advance hash repo i w) := by
  have hsealed : w.Sealed := h w (List.mem_of_getElem? hw)
  -- a call of a closed writer is not a Write, so what it leaves is not one either
  have hopen : w.call.writing = true → w.closed = false := by
    intro hwriting
    by_contra hclosed
    simp [(hsealed (Bool.eq_true_of_not_eq_false hclosed)).2] at hwriting
  rw [Mem.advance]
  split
  case h_1 => exact h
  case h_2 p hcall =>
    exact h.setWriter rfl fun hclosed => absurd hclosed (by simp [hopen (by rw [hcall]; rfl)])
  case h_3 p used hcall =>
    have hshut : ∀ (call : Call Hash) err, Writer.Sealed { w with call := call, err := err } := by
      intro call err hclosed
      exact absurd hclosed (by simp [hopen (by rw [hcall]; rfl)])
    split
    · exact h.setWriter rfl (hshut _ _)
    · split
      · exact h.setWriter rfl (hshut _ _)
      · exact h.setWriter rfl (hshut _ _)
  case h_4 p hcall =>
    exact h.setWriter rfl fun hclosed => absurd hclosed (by simp [hopen (by rw [hcall]; rfl)])
  case h_5 data hcall =>
    split
    · exact h.setWriter rfl fun hclosed => ⟨(hsealed hclosed).1, rfl⟩
    · exact h.setWriter rfl fun hclosed => ⟨(hsealed hclosed).1, rfl⟩
  case h_6 n hcall => exact h.setWriter rfl fun hclosed => ⟨(hsealed hclosed).1, rfl⟩
  case h_7 id hcall => exact h.setWriter rfl fun hclosed => ⟨(hsealed hclosed).1, rfl⟩

theorem writers_advanceDelete (k : ℕ) (d : Deletion Hash) :
    (Mem.advanceDelete repo k d).writers = repo.writers := by
  cases d with
  | found id =>
    rw [Mem.advanceDelete]
    split <;> rfl
  | release n | done err => rfl

theorem apply (h : SealedAll repo) (op : Op Hash) : SealedAll (step hash repo op) := by
  cases op with
  | create alloc => exact h.create alloc
  | write i p => exact h.begin i _ (write p)
  | commit i => exact h.begin i _ commit
  | discard i => exact h.begin i _ discard
  | advance i =>
    refine Trace.elim_keeps h _ _ fun w hw => ?_
    exact h.advance hash hw
  | delete id size => exact h
  | advanceDelete k =>
    refine Trace.elim_keeps h _ _ fun d hd w hw => ?_
    rw [writers_advanceDelete] at hw
    exact h w hw

end SealedAll

/-! ## Whole runs -/

theorem size_step (repo : Repository Hash) (op : Op Hash) : (step hash repo op).size = repo.size := by
  cases op with
  | create alloc =>
    cases alloc with
    | none => rfl
    | some n =>
      show (if (n : ℤ) > free repo then repo else _).size = repo.size
      split <;> rfl
  | write i p | commit i | discard i =>
    simp only [step, begin]
    split
    · split <;> rfl
    · rfl
  | advance i =>
    refine Trace.elim_keeps (P := fun r : Repository Hash => r.size = repo.size) rfl _ _ fun w _ => ?_
    rw [advance]
    repeat' split
    all_goals rfl
  | delete id size => rfl
  | advanceDelete k =>
    refine Trace.elim_keeps (P := fun r : Repository Hash => r.size = repo.size) rfl _ _ fun d _ => ?_
    rw [advanceDelete.eq_def]
    repeat' split
    all_goals rfl

omit [DecidableEq Hash] in
def Quiet (repo : Repository Hash) : Prop :=
  (∀ w ∈ repo.writers, w.call = .idle) ∧ ∀ d ∈ repo.deletions, ∃ err, d = .done err

/-- The bytes in the buffers of the writers that are neither committed nor discarded. -/
def buffered (repo : Repository Hash) : ℕ :=
  Pool.total (fun w : Writer Hash => if w.closed then 0 else w.buf.length) repo.writers

omit [DecidableEq Hash] in
theorem Accounted.used_of_quiet {repo : Repository Hash} (h : Accounted repo) (hsealed : SealedAll repo)
    (hquiet : Quiet repo) : repo.used = stored repo + buffered repo := by
  have hwriters : Pool.total Writer.held repo.writers = buffered repo := by
    refine congrArg List.sum (List.map_congr_left fun w hw => ?_)
    rw [Writer.held, hquiet.1 w hw]
    by_cases hclosed : w.closed = true
    · rw [if_pos hclosed, (hsealed w hw hclosed).1]
      rfl
    · rw [if_neg hclosed]
      rfl
  have hdeletions : Pool.total Deletion.held repo.deletions = 0 := by
    refine List.sum_eq_zero fun n hn => ?_
    obtain ⟨d, hd, rfl⟩ := List.mem_map.mp hn
    obtain ⟨err, rfl⟩ := hquiet.2 d hd
    rfl
  rw [h.used, hwriters, hdeletions]
  simp

/-- `Commit` of an object that is there takes its bytes off the counter. -/
theorem commit_duplicate {repo : Repository Hash} {i : ℕ} {object : Hash × Bytes}
    (hw : repo.writers[i]? = some w) (hcall : w.call = .idle) (hopen : w.closed = false)
    (hfound : repo.objects.find (hash w.buf) = some object) :
    let repo' := Trace.exec (step hash) repo [.advance i, .advance i, .commit i]
    repo'.objects = repo.objects ∧ repo'.used = repo.used - w.buf.length := by
  let taken : Writer Hash := { w with closed := true, buf := [], call := .store w.buf }
  let repo₁ := setWriter repo i taken
  let repo₂ := setWriter repo₁ i { taken with call := .release w.buf.length }
  have hcommit : step hash repo (.commit i) = repo₁ := by
    simp only [step, begin, hw, hcall, Writer.commit, hopen]
    rfl
  have hw₁ : repo₁.writers[i]? = some taken := getElem?_setWriter hw taken
  have hstore : step hash repo₁ (.advance i) = repo₂ := by
    rw [step_advance hash hw₁]
    show (match repo.objects.find (hash w.buf) with | some _ => _ | none => _) = _
    rw [hfound]
  have hw₂ : repo₂.writers[i]? = some { taken with call := .release w.buf.length } := getElem?_setWriter hw₁ _
  show (step hash (step hash (step hash repo (.commit i)) (.advance i)) (.advance i)).objects = _ ∧
    (step hash (step hash (step hash repo (.commit i)) (.advance i)) (.advance i)).used = _
  rw [hcommit, hstore, step_advance hash hw₂]
  exact ⟨rfl, rfl⟩

/-- **The quota.** In every interleaving of writers and deletions the counter stays within the
quota; with no call in progress it is the bytes of the stored objects and of the open writers'
buffers; a hash has one entry, and a commit of an object that is stored only gives bytes back. -/
theorem used_accounted (size : ℕ) (ops : List (Op Hash)) :
    let repo := Trace.exec (step hash) { size := size } ops
    (0 ≤ repo.used ∧ repo.used ≤ size) ∧
      (Quiet repo → repo.used = stored repo + buffered repo) ∧
      (repo.objects.rows.map Prod.fst).Nodup ∧
      ∀ i w object, repo.writers[i]? = some w → w.call = .idle → w.closed = false →
        repo.objects.find (hash w.buf) = some object →
        let repo' := Trace.exec (step hash) repo [.advance i, .advance i, .commit i]
        repo'.objects = repo.objects ∧ repo'.used = repo.used - w.buf.length := by
  have hrun : Accounted (Trace.exec (step hash) { size := size } ops) ∧
      SealedAll (Trace.exec (step hash) { size := size } ops) ∧
      (Trace.exec (step hash) { size := size } ops).size = size := by
    refine Trace.invariant (I := fun _ (repo : Repository Hash) =>
      Accounted repo ∧ SealedAll repo ∧ repo.size = size) ⟨Accounted.fresh size, ?_, rfl⟩ ?_ ops
    · exact fun w hw => absurd hw List.not_mem_nil
    · rintro op past ⟨haccounted, hsealed, hsize⟩
      exact ⟨haccounted.apply hash op, hsealed.apply hash op, (size_step hash _ op).trans hsize⟩
  obtain ⟨haccounted, hsealed, hsize⟩ := hrun
  have hfits := haccounted.fits
  rw [hsize] at hfits
  exact ⟨⟨haccounted.nonneg, hfits⟩, haccounted.used_of_quiet hsealed,
    (Trace.exec (step hash) _ ops).objects.unique, fun i w object hw hcall hopen hfound =>
      commit_duplicate hash hw hcall hopen hfound⟩

end

/-- Two writers commit the same two bytes: with one of them done the counter holds both copies, and
the second commit gives its copy back. -/
theorem used_accounted_duplicate :
    let twice : List (Op Bytes) :=
      [.advance 0, .advance 0, .commit 0, .advance 1, .advance 1, .advance 1, .write 1 [7, 7],
        .advance 0, .advance 0, .advance 0, .write 0 [7, 7], .create none, .create none]
    let repo := Trace.exec (step id) { size := 5 } twice
    let repo' := Trace.exec (step id) repo [.advance 1, .advance 1, .commit 1]
    repo.used = 4 ∧ repo'.objects = repo.objects ∧ repo'.used = 2 := by
  intro twice repo repo'
  obtain ⟨-, -, -, hdup⟩ := used_accounted (id : Bytes → Bytes) 5 twice
  have hcommit := hdup 1 { buf := [7, 7] } ([7, 7], [7, 7]) (by decide) rfl rfl (by decide)
  exact ⟨by decide, hcommit.1, hcommit.2⟩

end Astrald.Objects.Mem
