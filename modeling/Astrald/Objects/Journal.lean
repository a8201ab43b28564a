import Mathlib
import Astrald.Lib.Trace

/-!
# The journal of object reads

The model of `objects_reads_journal.go` with `UpdateReadAt` of `db.go` as its sink: any number of `Mark` and
`Flush` calls, each of them cut where it gives up the lock. A sink call is one transaction, so it changes
every row of its batch or none. The clock does not run backwards.

* `Kept`: the newest mark is pending, in the hands of a `Flush`, or was sunk;
* `Ordered`: with one `Flush` at a time, what is sunk is older than what is held, and that than what is
  pending;
* `reads_kept`: no mark is lost; with one `Flush` at a time `read_at` never falls;
* `older_batch_last`: two `Flush` calls that overlap write the newer batch first.
-/

namespace Astrald.Objects.Reads

variable {ID : Type}

abbrev Batch (ID : Type) : Type := ID → Option ℕ

/-- Where a `Flush` stands: it holds the batch that it has drained, or one that the sink has refused. -/
inductive Flush (ID : Type)
  | returned
  | drained (batch : Batch ID)
  | failed (batch : Batch ID)

def Flush.batch : Flush ID → ID → Option ℕ
  | .returned, _ => none
  | .drained batch, id | .failed batch, id => batch id

/-- The tracking rows with their `read_at`, none of it in the future. -/
structure Rows (ID : Type) where
  now : ℕ
  readAt : Batch ID
  past : ∀ id r, readAt id = some r → r ≤ now

/-- `objectsReadsJournal` and the table behind it. `marked` and `sunk` are histories: the newest mark of each
object and the batches that the sink has taken. -/
structure Journal (ID : Type) where
  now : ℕ
  readAt : Batch ID
  pending : Batch ID := fun _ => none
  flushes : ℕ → Flush ID := fun _ => .returned
  marked : Batch ID := fun _ => none
  sunk : List (Batch ID) := []

inductive Op (ID : Type)
  | tick
  | mark (id : ID)
  /-- `Flush` number `k` begins. An empty batch, which never gets to the sink, changes no row there. -/
  | drain (k : ℕ)
  | sink (k : ℕ) (ok : Bool)
  | remerge (k : ℕ)

/-- `UpdateReadAt`: an update of the rows that exist. -/
def updateReadAt (readAt batch : Batch ID) : Batch ID := fun id =>
  match readAt id, batch id with
  | none, _ => none
  | some r, none => some r
  | some _, some v => some v

namespace Journal

def goes (s : Journal ID) (k : ℕ) (f : Flush ID) : ℕ → Flush ID := fun j => if j = k then f else s.flushes j

theorem goes_batch (s : Journal ID) (k j : ℕ) (f : Flush ID) (id : ID) :
    (s.goes k f j).batch id = if j = k then f.batch id else (s.flushes j).batch id := by
  unfold goes
  split <;> rfl

theorem exists_goes (s : Journal ID) (k : ℕ) (f : Flush ID) (id : ID) (t : ℕ) :
    (∃ j, (if j = k then f.batch id else (s.flushes j).batch id) = some t) ↔
      f.batch id = some t ∨ ∃ j, j ≠ k ∧ (s.flushes j).batch id = some t := by
  constructor
  · rintro ⟨j, h⟩
    grind
  · rintro (h | ⟨j, hj, h⟩)
    · exact ⟨k, by simpa using h⟩
    · exact ⟨j, by simpa [hj] using h⟩

variable [DecidableEq ID]

def mark (s : Journal ID) (id : ID) : Journal ID :=
  { s with
    pending := fun i => if i = id then some s.now else s.pending i
    marked := fun i => if i = id then some s.now else s.marked i }

def drain (s : Journal ID) (k : ℕ) : Journal ID :=
  { s with pending := fun _ => none, flushes := s.goes k (.drained s.pending) }

def sink (s : Journal ID) (k : ℕ) (batch : Batch ID) : Journal ID :=
  { s with
    readAt := updateReadAt s.readAt batch
    flushes := s.goes k .returned
    sunk := batch :: s.sunk }

def remerge (s : Journal ID) (k : ℕ) (batch : Batch ID) : Journal ID :=
  { s with
    -- A failed batch is put back without clobbering newer marks.
    pending := fun id =>
      match batch id, s.pending id with
      | some v, some cur => some (if cur < v then v else cur)
      | some v, none => some v
      | none, cur => cur
    flushes := s.goes k .returned }

/-- The sink has failed, and no row has changed. -/
def refuse (s : Journal ID) (k : ℕ) (batch : Batch ID) : Journal ID :=
  { s with flushes := s.goes k (.failed batch) }

def step (s : Journal ID) : Op ID → Journal ID
  | .tick => { s with now := s.now + 1 }
  | .mark id => s.mark id
  | .drain k =>
    match s.flushes k with
    | .returned => s.drain k
    | _ => s
  | .sink k ok =>
    match s.flushes k with
    | .drained batch => if ok then s.sink k batch else s.refuse k batch
    | _ => s
  | .remerge k =>
    match s.flushes k with
    | .failed batch => s.remerge k batch
    | _ => s

def start (rows : Rows ID) : Journal ID := { now := rows.now, readAt := rows.readAt }

def exec (rows : Rows ID) : List (Op ID) → Journal ID := Trace.exec step (start rows)

def Quiet (s : Journal ID) : Prop := ∀ k, s.flushes k = .returned

variable {s : Journal ID} (rows : Rows ID) (ops : List (Op ID))

/-- What a step can do: a property of the journal that each of its parts keeps is kept by the step. -/
theorem step_rule {P : Journal ID → Prop} (op : Op ID) (here : P s) (tick : P { s with now := s.now + 1 })
    (mark : ∀ id, P (s.mark id)) (drain : ∀ k, op = .drain k → s.flushes k = .returned → P (s.drain k))
    (sink : ∀ k b, s.flushes k = .drained b → P (s.sink k b))
    (refuse : ∀ k b, s.flushes k = .drained b → P (s.refuse k b))
    (remerge : ∀ k b, s.flushes k = .failed b → P (s.remerge k b)) : P (s.step op) := by
  cases op with
  | tick => exact tick
  | mark id => exact mark id
  | drain k => cases h : s.flushes k <;> simp [step, h, here, drain]
  | sink k ok => cases h : s.flushes k <;> cases ok <;> simp [step, h, here, sink, refuse]
  | remerge k => cases h : s.flushes k <;> simp [step, h, here, remerge]

omit [DecidableEq ID] in
theorem refuse_batch {k : ℕ} {b : Batch ID} (hk : s.flushes k = .drained b) (j : ℕ) (id : ID) :
    ((s.refuse k b).flushes j).batch id = (s.flushes j).batch id := by
  simp only [refuse, goes_batch]
  split
  · next h => rw [h, hk]; rfl
  · rfl

/-- No time that the journal holds is newer than the newest mark, and the newest mark has not been lost. -/
structure Kept (s : Journal ID) : Prop where
  pending_le : ∀ id v, s.pending id = some v → ∃ t, s.marked id = some t ∧ v ≤ t
  held_le : ∀ k id v, (s.flushes k).batch id = some v → ∃ t, s.marked id = some t ∧ v ≤ t
  marked_le : ∀ id t, s.marked id = some t → t ≤ s.now
  somewhere : ∀ id t, s.marked id = some t →
    s.pending id = some t ∨ (∃ k, (s.flushes k).batch id = some t) ∨ ∃ b ∈ s.sunk, b id = some t

theorem Kept.step (kept : s.Kept) (op : Op ID) : (s.step op).Kept := by
  obtain ⟨pending_le, held_le, marked_le, somewhere⟩ := kept
  refine step_rule op ⟨pending_le, held_le, marked_le, somewhere⟩ ?tick (fun id => ?mark) (fun k _ hk => ?drain)
    (fun k b hk => ?sink) (fun k b hk => ?refuse) (fun k b hk => ?remerge)
  case tick => exact ⟨pending_le, held_le, fun id t h => (marked_le id t h).trans (Nat.le_succ _), somewhere⟩
  case mark => constructor <;> simp only [Journal.mark] <;> grind
  case drain => constructor <;> simp only [Journal.drain, exists_goes, goes_batch] <;> grind [goes, Flush.batch]
  case sink => constructor <;> simp only [Journal.sink, exists_goes, goes_batch, List.mem_cons,
    exists_eq_or_imp] <;> grind [goes, Flush.batch]
  case refuse =>
    refine ⟨pending_le, ?_, marked_le, ?_⟩ <;> simp only [refuse_batch hk]
    · exact held_le
    · exact somewhere
  case remerge =>
    have hb := held_le k
    simp only [hk, Flush.batch] at hb
    constructor <;> simp only [Journal.remerge, exists_goes, goes_batch] <;> grind [Flush.batch]

/-- With one `Flush` at a time: what a row has is no newer than what is held for it, and that no newer than
what is pending; the newest mark is in the last of the three that has a time for the object. -/
structure Ordered (s : Journal ID) : Prop where
  one : ∀ k j, s.flushes k ≠ .returned → s.flushes j ≠ .returned → k = j
  row_le : ∀ id r, s.readAt id = some r → r ≤ s.now ∧ ∀ t, s.marked id = some t → r ≤ t
  pending_eq : ∀ id v, s.pending id = some v → s.marked id = some v
  row_le_held : ∀ k id r v, s.readAt id = some r → (s.flushes k).batch id = some v → r ≤ v
  held_eq : ∀ k id v, (s.flushes k).batch id = some v → s.pending id = none → s.marked id = some v
  row_eq : ∀ id r t, s.readAt id = some r → s.marked id = some t → s.pending id = none →
    (∀ k, (s.flushes k).batch id = none) → r = t

/-- The next `Flush` begins after the last one has returned. -/
def Apart (s : Journal ID) : Op ID → Prop
  | .drain _ => s.Quiet
  | _ => True

theorem Ordered.step (kept : s.Kept) (ordered : s.Ordered) {op : Op ID} (apart : s.Apart op) :
    (s.step op).Ordered := by
  obtain ⟨pending_le, held_le, marked_le, -⟩ := kept
  obtain ⟨one, row_le, pending_eq, row_le_held, held_eq, row_eq⟩ := ordered
  refine step_rule op ⟨one, row_le, pending_eq, row_le_held, held_eq, row_eq⟩ ?tick (fun id => ?mark)
    (fun k h hk => ?drain) (fun k b hk => ?sink) (fun k b hk => ?refuse) (fun k b hk => ?remerge)
  case tick =>
    exact ⟨one, fun id r h => ⟨(row_le id r h).1.trans (Nat.le_succ _), (row_le id r h).2⟩, pending_eq,
      row_le_held, held_eq, row_eq⟩
  case mark => constructor <;> simp only [Journal.mark] <;> grind
  case drain =>
    subst h
    have quiet : s.Quiet := apart
    constructor <;> simp only [Journal.drain, goes_batch] <;> grind [goes, Flush.batch, Quiet]
  case sink =>
    have hb := held_le k
    have hr := row_le_held k
    have he := held_eq k
    simp only [hk, Flush.batch] at hb hr he
    constructor <;> simp only [Journal.sink, goes_batch] <;> grind [goes, Flush.batch, updateReadAt]
  case refuse =>
    refine ⟨by simp only [refuse]; grind [goes], row_le, pending_eq, ?_, ?_, ?_⟩ <;> simp only [refuse_batch hk]
    · exact row_le_held
    · exact held_eq
    · exact row_eq
  case remerge =>
    have hb := held_le k
    have hr := row_le_held k
    have he := held_eq k
    simp only [hk, Flush.batch] at hb hr he
    constructor <;> simp only [Journal.remerge, goes_batch] <;> grind [goes, Flush.batch]

/-- With one `Flush` at a time, no step takes a row back. -/
theorem Ordered.readAt_le (ordered : s.Ordered) (op : Op ID) {id : ID} {r : ℕ} (h : s.readAt id = some r) :
    ∃ r', (s.step op).readAt id = some r' ∧ r ≤ r' := by
  refine step_rule (P := fun s' => ∃ r', s'.readAt id = some r' ∧ r ≤ r') op ⟨r, h, le_rfl⟩ ⟨r, h, le_rfl⟩
    (fun _ => ⟨r, h, le_rfl⟩) (fun _ _ _ => ⟨r, h, le_rfl⟩) (fun k b hk => ?sink) (fun _ _ _ => ⟨r, h, le_rfl⟩)
    (fun _ _ _ => ⟨r, h, le_rfl⟩)
  have held := ordered.row_le_held k id r
  simp only [hk, Flush.batch] at held
  cases hb : b id with
  | none => exact ⟨r, by simp [Journal.sink, updateReadAt, h, hb], le_rfl⟩
  | some v => exact ⟨v, by simp [Journal.sink, updateReadAt, h, hb], held v h hb⟩

/-! ## Runs -/

theorem exec_kept : (exec rows ops).Kept := by
  induction ops with
  | nil => constructor <;> simp [exec, start, Trace.exec, Flush.batch]
  | cons op past ih => exact ih.step op

/-- No `Flush` begins before the last one has returned. -/
def OneAtATime (rows : Rows ID) : List (Op ID) → Prop :=
  Trace.Along fun past op => (exec rows past).Apart op

theorem exec_ordered (h : OneAtATime rows ops) : (exec rows ops).Ordered := by
  refine Trace.Along.invariant h ?_ fun op past hop ih => ih.step (exec_kept rows past) hop
  exact ⟨fun _ _ h => absurd rfl h, fun id r h => ⟨rows.past id r h, nofun⟩, nofun, nofun, nofun, nofun⟩

theorem readAt_mono (h : OneAtATime rows ops) {past : List (Op ID)} (hpast : past <:+ ops) {id : ID} {r : ℕ}
    (hr : (exec rows past).readAt id = some r) : ∃ r', (exec rows ops).readAt id = some r' ∧ r ≤ r' := by
  induction ops with
  | nil => exact ⟨r, List.suffix_nil.mp hpast ▸ hr, le_rfl⟩
  | cons op ops ih =>
    rcases List.suffix_cons_iff.mp hpast with rfl | hpast
    · exact ⟨r, hr, le_rfl⟩
    · obtain ⟨r₁, h₁, hle⟩ := ih h.2 hpast
      obtain ⟨r₂, h₂, hle'⟩ := (exec_ordered rows ops h.2).readAt_le op h₁
      exact ⟨r₂, h₂, hle.trans hle'⟩

/-- Once every `Flush` has returned, the newest mark of every object is pending or was in a batch that the
sink took. While no `Flush` begins before the last one has returned, `read_at` never falls, and when nothing
is pending it is the newest mark. -/
theorem reads_kept :
    ((exec rows ops).Quiet → ∀ id t, (exec rows ops).marked id = some t →
      (exec rows ops).pending id = some t ∨ ∃ b ∈ (exec rows ops).sunk, b id = some t) ∧
    (OneAtATime rows ops →
      (∀ past, past <:+ ops → ∀ id r, (exec rows past).readAt id = some r →
        ∃ r', (exec rows ops).readAt id = some r' ∧ r ≤ r') ∧
      ((exec rows ops).Quiet → (∀ id, (exec rows ops).pending id = none) →
        ∀ id r t, (exec rows ops).readAt id = some r → (exec rows ops).marked id = some t → r = t)) := by
  refine ⟨fun quiet id t h => ?_, fun one => ⟨fun past hpast id r => readAt_mono rows ops one hpast,
    fun quiet none id r t hr ht => ?_⟩⟩
  · rcases (exec_kept rows ops).somewhere id t h with h | ⟨k, h⟩ | h
    · exact .inl h
    · rw [quiet k] at h
      cases h
    · exact .inr h
  · exact (exec_ordered rows ops one).row_eq id r t hr ht (none id) fun k => by rw [quiet k]; rfl

def tracked : Rows Unit := { now := 0, readAt := fun _ => some 0, past := by simp }

/-- A mark, a flush whose sink fails, a newer mark, and the flush that writes it. -/
def refusedOnce : List (Op Unit) :=
  [.sink 0 true, .drain 0, .remerge 0, .mark (), .tick, .sink 0 false, .drain 0, .mark (), .tick]

theorem reads_kept_refusedOnce :
    (exec tracked refusedOnce).readAt () = some 2 ∧ (exec tracked refusedOnce).marked () = some 2 := by
  have quiet : ∀ k, (exec tracked refusedOnce).flushes k = .returned := by rintro (_ | k) <;> rfl
  have one : OneAtATime tracked refusedOnce := by
    refine ⟨trivial, ?_, trivial, trivial, trivial, trivial, ?_, trivial, trivial, trivial⟩ <;>
      exact fun k => by cases k <;> rfl
  have eq := ((reads_kept tracked refusedOnce).2 one).2 quiet (fun _ => rfl) () 2 2 rfl rfl
  exact ⟨by rw [← eq]; rfl, rfl⟩

/-- Two overlapping `Flush` calls: the first has drained the older mark, the second drains and writes the newer
one, and then the first writes. -/
def overlapping : List (Op Unit) :=
  [.sink 0 true, .sink 1 true, .drain 1, .mark (), .tick, .drain 0, .mark (), .tick]

/-- The row goes back to the older mark, and nothing is pending that would put it right. -/
theorem older_batch_last :
    (exec tracked overlapping.tail).readAt () = some 2 ∧ (exec tracked overlapping).readAt () = some 1 ∧
    (exec tracked overlapping).marked () = some 2 ∧ (∀ id, (exec tracked overlapping).pending id = none) ∧
    (exec tracked overlapping).Quiet := by
  refine ⟨rfl, rfl, rfl, fun _ => rfl, ?_⟩
  rintro (_ | _ | k) <;> rfl

end Journal
end Astrald.Objects.Reads
