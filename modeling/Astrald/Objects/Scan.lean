import Astrald.Objects.Memory
import Astrald.Objects.ReadSeeker

/-!
# Reading and scanning the in-memory repository

`Read` hands out a window of a stored object. `Scan` with `follow` subscribes to the queue of the added ids,
then clones the map, sends the ids of the clone, a nil, and what the queue brings; objects are stored and
deleted all the while.

* `read_intact`: what is read belongs to bytes with the hash of the id;
* `scan_complete`: a follower is sent every object that is there, or is about to be.
-/

namespace Astrald.Objects.Mem

open List

variable {Hash : Type}

/-- What a follower is sent that subscribed at position `start` of the queue and cloned `objects`. -/
def scan (start : ℕ) (objects : Contents Hash) (repo : Repository Hash) : List (Option Hash) :=
  objects.rows.map (fun object => some object.1) ++ none :: (repo.addQueue.drop start).map some

/-- A writer that has stored `id` is to tell the followers. -/
def Pending (repo : Repository Hash) (id : Hash) : Prop := ∃ w ∈ repo.writers, w.call = .pushAdded id

variable (hash : Bytes → Hash) {repo : Repository Hash}

/-- What a step can do to the objects, to the announcements that are due and to the queue. -/
structure Moves (repo repo' : Repository Hash) : Prop where
  objects : ∀ object ∈ repo'.objects.rows,
    object ∈ repo.objects.rows ∨ hash object.2 = object.1 ∧ Pending repo' object.1
  pending : ∀ id, Pending repo id → Pending repo' id ∨ repo'.addQueue = repo.addQueue ++ [id]
  queue : ∃ ids, repo'.addQueue = repo.addQueue ++ ids

variable {hash} {repo' : Repository Hash} {i : ℕ} {w : Writer Hash}

theorem Moves.of_silent (hobjects : ∀ object ∈ repo'.objects.rows, object ∈ repo.objects.rows)
    (hpending : ∀ id, Pending repo id → Pending repo' id) (hqueue : repo'.addQueue = repo.addQueue) :
    Moves hash repo repo' :=
  ⟨fun object h => .inl (hobjects object h), fun id h => .inl (hpending id h), [], by rw [hqueue, append_nil]⟩

theorem Moves.refl : Moves hash repo repo := of_silent (fun _ h => h) (fun _ h => h) rfl

/-- A writer that is not about to announce anything goes on. -/
theorem Moves.setWriter (hw : repo.writers[i]? = some w) (hcall : ∀ id, w.call ≠ .pushAdded id)
    (hobjects : repo'.objects = repo.objects) (hwriters : repo'.writers = repo.writers)
    (hqueue : repo'.addQueue = repo.addQueue) (w' : Writer Hash) : Moves hash repo (Mem.setWriter repo' i w') := by
  refine of_silent (fun object h => hobjects ▸ h) (fun id h => ?_) hqueue
  rw [Pending, Mem.setWriter, hwriters]
  exact Pool.exists_mem_set hw h fun hp => absurd hp (hcall id)

theorem moves_begin (f : Writer Hash → Writer Hash) : Moves hash repo (Mem.begin repo i f) := by
  rw [Mem.begin]
  split
  · rename_i w hw
    split
    · rename_i hidle
      exact .setWriter hw (fun id hp => by simp [hp] at hidle) rfl rfl rfl _
    · exact .refl
  · exact .refl

variable [DecidableEq Hash]

theorem moves_advance (hw : repo.writers[i]? = some w) : Moves hash repo (advance hash repo i w) := by
  rw [advance]
  split
  case h_1 => exact .refl
  case h_5 data hcall =>
    split
    · exact .setWriter hw (by simp [hcall]) rfl rfl rfl _
    · rename_i hfree
      refine ⟨fun object h => ?_, fun id h => .inl ?_, [], (append_nil _).symm⟩
      · have hrows : object ∈ (repo.objects.insert (hash data, data)).rows := h
        rw [Table.rows_insert hfree, mem_append, mem_singleton] at hrows
        rcases hrows with hold | rfl
        · exact .inl hold
        · exact .inr ⟨rfl, _, mem_of_getElem? (getElem?_setWriter hw _), rfl⟩
      · exact Pool.exists_mem_set hw h fun hp => absurd (hcall.symm.trans hp) (by simp)
  case h_7 id hcall =>
    refine ⟨fun object h => .inl h, fun id' h => ?_, [id], rfl⟩
    by_cases hid : id = id'
    · exact .inr (hid ▸ rfl)
    · exact .inl (Pool.exists_mem_set hw h fun hp => absurd (Call.pushAdded.inj (hcall.symm.trans hp)) hid)
  all_goals
    rename_i hcall
    have hcall' : ∀ id, w.call ≠ .pushAdded id := by simp [hcall]
    repeat' split
    all_goals exact .setWriter hw hcall' (by rfl) (by rfl) (by rfl) _

theorem moves_step (op : Op Hash) : Moves hash repo (step hash repo op) := by
  cases op with
  | create alloc =>
    have hnew : Moves hash repo { repo with writers := repo.writers ++ [{}] } :=
      .of_silent (fun _ h => h) (fun _ ⟨w, hw, hcall⟩ => ⟨w, mem_append_left _ hw, hcall⟩) rfl
    simp only [step, create]
    repeat' split
    · exact .refl
    all_goals exact hnew
  | write i p | commit i | discard i => exact moves_begin _
  | advance i => exact Trace.elim_keeps .refl _ _ fun w hw => moves_advance hw
  | delete id size => exact .of_silent (fun _ h => h) (fun _ h => h) rfl
  | advanceDelete k =>
    refine Trace.elim_keeps .refl _ _ fun d _ => ?_
    have hpending : ∀ id, Pending repo id → Pending (advanceDelete repo k d) id := by
      simp [Pending, SealedAll.writers_advanceDelete]
    revert hpending
    rw [advanceDelete.eq_def]
    repeat' split
    · exact fun h => .of_silent (fun object hobject => (Table.mem_erase.mp hobject).1) h rfl
    all_goals exact fun h => .of_silent (fun _ h => h) h rfl

inductive ReadErr
  | zoneExcluded
  | notFound
  | outOfBounds
  deriving DecidableEq, Repr

/-- `Read`: the bytes that the reader is over. -/
def read (repo : Repository Hash) (device : Bool) (id : Hash) (size : ℕ) (offset limit : ℤ) : Except ReadErr Bytes :=
  if !device then .error .zoneExcluded
  else
    match findObject repo id size with
    | none => .error .notFound
    | some data =>
      match openReader data offset limit with
      | none => .error .outOfBounds
      | some window => .ok window

variable (hash)

/-- **Integrity.** In every run: what `Read` gives is a window of bytes that have the hash of the id, and its size
if it has one. -/
theorem read_intact (size : ℕ) (ops : List (Op Hash)) {id : Hash} {n : ℕ} {offset limit : ℤ} {window : Bytes}
    (h : read (Trace.exec (step hash) { size := size } ops) true id n offset limit = .ok window) :
    ∃ data, hash data = id ∧ (n = 0 ∨ data.length = n) ∧ openReader data offset limit = some window := by
  have hintact : ∀ object ∈ (Trace.exec (step hash) { size := size } ops).objects.rows, hash object.2 = object.1 := by
    clear h
    induction ops with
    | nil => simp [Trace.exec, Table.empty]
    | cons op ops ih =>
      intro object hobject
      rcases (moves_step op).objects object hobject with hold | hnew
      · exact ih object hold
      · exact hnew.1
  generalize Trace.exec (step hash) { size := size } ops = repo at h hintact
  unfold read findObject at h
  cases hfind : repo.objects.find id with
  | none => simp [hfind] at h
  | some object =>
    obtain ⟨hmem, hid⟩ := Table.find_eq_some.mp hfind
    refine ⟨object.2, (hintact object hmem).trans hid, ?_⟩
    by_cases hn : n ≠ 0 ∧ n ≠ object.2.length
    · simp [hfind, hn] at h
    · cases hopen : openReader object.2 offset limit with
      | none => simp [hfind, hn, hopen] at h
      | some window' =>
        simp [hfind, hn, hopen] at h
        exact ⟨by omega, by rw [h]⟩

/-- Two bytes are written and stored, and the second is read. -/
theorem read_intact_second : ∃ data : Bytes, id data = [7, 8] ∧ (2 = 0 ∨ data.length = 2) ∧
    openReader data 1 0 = some [8] :=
  read_intact id 5 [.advance 0, .commit 0, .advance 0, .advance 0, .advance 0, .write 0 [7, 8], .create none]
    (by decide)

theorem length_queue (op : Op Hash) : repo.addQueue.length ≤ (step hash repo op).addQueue.length := by
  obtain ⟨ids, hids⟩ := (moves_step op : Moves hash repo _).queue
  simp [hids]

/-- What is there has been sent or is about to be announced. -/
def Announced (start : ℕ) (objects : Contents Hash) (repo : Repository Hash) : Prop :=
  start ≤ repo.addQueue.length ∧
    ∀ object ∈ repo.objects.rows, some object.1 ∈ scan start objects repo ∨ Pending repo object.1

theorem Announced.step {start : ℕ} {objects : Contents Hash} (h : Announced start objects repo) (op : Op Hash) :
    Announced start objects (Mem.step hash repo op) := by
  obtain ⟨hstart, hsent⟩ := h
  have hmoves : Moves hash repo (Mem.step hash repo op) := moves_step op
  obtain ⟨ids, hids⟩ := hmoves.queue
  have hscan : scan start objects (Mem.step hash repo op) = scan start objects repo ++ ids.map some := by
    simp [scan, hids, drop_append_of_le_length hstart]
  refine ⟨hstart.trans (length_queue hash op), fun object hobject => ?_⟩
  rw [hscan]
  rcases hmoves.objects object hobject with hold | ⟨-, hnew⟩
  · rcases hsent object hold with hmem | hpending
    · exact .inl (mem_append_left _ hmem)
    · rcases hmoves.pending object.1 hpending with hstill | hqueue
      · exact .inr hstill
      · -- the announcement is what the step has put into the queue
        have hone : ids = [object.1] := append_cancel_left (hids.symm.trans hqueue)
        exact .inl (mem_append_right _ (by simp [hone]))
  · exact .inr hnew

/-- **A follower misses nothing.** Whatever is stored and deleted before it subscribes, until it clones the map and
after that: an object that is there has been sent, or its writer is about to announce it. -/
theorem scan_complete (size : ℕ) (before between after : List (Op Hash)) :
    let opened := Trace.exec (step hash) { size := size } before
    let cloned := Trace.exec (step hash) opened between
    let repo := Trace.exec (step hash) cloned after
    ∀ object ∈ repo.objects.rows,
      some object.1 ∈ scan opened.addQueue.length cloned.objects repo ∨ Pending repo object.1 := by
  intro opened cloned repo
  have hstart : opened.addQueue.length ≤ cloned.addQueue.length :=
    Trace.invariant (I := fun _ (r : Repository Hash) => opened.addQueue.length ≤ r.addQueue.length) le_rfl
      (fun op _ h => h.trans (length_queue hash op)) between
  have hcloned : Announced opened.addQueue.length cloned.objects cloned := by
    refine ⟨hstart, fun object hobject => .inl ?_⟩
    exact mem_append_left _ (mem_map.mpr ⟨object, hobject, rfl⟩)
  have hrepo : Announced opened.addQueue.length cloned.objects repo :=
    Trace.invariant (I := fun _ r => Announced opened.addQueue.length cloned.objects r) hcloned
      (fun op _ h => h.step hash op) after
  exact hrepo.2

end Astrald.Objects.Mem
