import Mathlib
import Astrald.Lib.Trace
import Astrald.Messaging.Store

/-!
# Conversations

The messages of one node under concurrent sends and deliveries, and what follows for the relation
between a message and the one it answers. `sendMessage` and `storeMessage` ask whether the parent
is held before they write, and another goroutine can run in between: a request that has passed its
checks waits in the state until its write.

* `Earlier.append`: a row whose parent is held can follow, if it makes no older id younger;
* `sound_exec`: when no delivery is stored under an older id than its parent's, every parent was
  first held before the message that names it;
* `acyclic_exec`: then no message answers itself, at any distance, and the parents and the
  children of a message can be followed to an end;
* `conversation_cycle`: a delivery under the id of a sent message closes a cycle.
-/

namespace Astrald.Messaging

open List

variable {Who ID : Type} [DecidableEq Who] [DecidableEq ID]

/-! ## Where an owner's id was first held -/

def names (owner : Who) (id : ID) (r : Row Who ID) : Bool := r.owner = owner && r.id = id

/-- The place of the first row that the owner holds under an id. -/
def place (rows : List (Row Who ID)) (owner : Who) (id : ID) : ℕ := rows.findIdx (names owner id)

theorem names_iff {owner : Who} {id : ID} {r : Row Who ID} :
    names owner id r = true ↔ r.owner = owner ∧ r.id = id := by
  simp [names]

variable {rows : List (Row Who ID)}

theorem place_lt {owner : Who} {id : ID} :
    place rows owner id < rows.length ↔ ∃ r ∈ rows, r.owner = owner ∧ r.id = id := by
  unfold place
  rw [findIdx_lt_length]
  exact exists_congr fun r => and_congr_right fun _ => names_iff

theorem place_append {owner : Who} {id : ID} (h : place rows owner id < rows.length) (r : Row Who ID) :
    place (rows ++ [r]) owner id = place rows owner id := by
  unfold place
  rw [findIdx_append]
  exact if_pos h

theorem place_append_of_fresh {r : Row Who ID} (h : ¬ place rows r.owner r.id < rows.length) :
    place (rows ++ [r]) r.owner r.id = rows.length := by
  have hself : names r.owner r.id r = true := names_iff.mpr ⟨rfl, rfl⟩
  unfold place at h ⊢
  rw [findIdx_append, if_neg h, findIdx_cons, hself]
  exact Nat.zero_add _

/-- What the conversations are made of. -/
def Row.edge (r : Row Who ID) : (Who × Box × ID) × ID := (r.key, r.parentID)

/-- The place depends on the keys of the rows alone. -/
theorem place_congr {rows' : List (Row Who ID)} (h : rows'.map Row.edge = rows.map Row.edge) (owner : Who)
    (id : ID) : place rows' owner id = place rows owner id := by
  have hedges : ∀ l : List (Row Who ID), place l owner id
      = (l.map Row.edge).findIdx fun e => e.1.1 = owner && e.1.2.2 = id := by
    intro l
    rw [findIdx_map]
    rfl
  rw [hedges, hedges, h]

/-! ## The node -/

/-- A send that has passed its checks. -/
structure Draft (Who ID : Type) where
  sender : Who
  recipient : Who
  content : String
  parentID : ID

/-- A delivery that has passed its checks. -/
structure Arrival (Who ID : Type) where
  sender : Who
  recipient : Who
  msg : Message ID

structure Module (Who ID : Type) where
  store : Store Who ID
  drafts : List (Draft Who ID)
  arrivals : List (Arrival Who ID)

namespace Module

/-- `draft` is `sendMessage` up to its row and `post` the writing of the row, under an id that the
node has drawn; `arrive` is `storeMessage` up to its write and `store` the rest. -/
inductive Op (Who ID : Type)
  | draft (faults : Faults) (d : Draft Who ID)
  | post (k : ℕ) (id : ID) (now : ℕ)
  | arrive (faults : Faults) (a : Arrival Who ID)
  | store (faults : Faults) (k : ℕ) (now : ℕ)
  | archive (owner : Who) (box : Box) (id : ID) (now : ℕ)
  | unarchive (owner : Who) (box : Box) (id : ID)
  | markRead (owner : Who) (id : ID) (now : ℕ)

def start : Module Who ID := ⟨Store.empty, [], []⟩

variable [Zero ID]

/-- `NewMessageID` draws an id at random: it is under no row of the node. -/
def fresh (m : Module Who ID) (id : ID) : Bool := m.store.rows.all fun r => r.id ≠ id

def draft (maxPayloadBytes : ℕ) (faults : Faults) (m : Module Who ID) (d : Draft Who ID) : Module Who ID :=
  match checkSend maxPayloadBytes faults m.store d.sender d.content d.parentID with
  | .error _ => m
  | .ok () => { m with drafts := m.drafts ++ [d] }

omit [Zero ID] in
def post (m : Module Who ID) (k : ℕ) (id : ID) (now : ℕ) : Module Who ID :=
  match m.drafts[k]? with
  | none => m
  | some d =>
    if m.fresh id then
      match m.store.insertOutbox id d.sender d.recipient d.content d.parentID now with
      | none => m
      | some s => { m with store := s, drafts := m.drafts.eraseIdx k }
    else m

def arrive (maxPayloadBytes : ℕ) (faults : Faults) (m : Module Who ID) (a : Arrival Who ID) : Module Who ID :=
  match checkMessage maxPayloadBytes faults m.store a.recipient a.msg with
  | .error _ => m
  | .ok () => { m with arrivals := m.arrivals ++ [a] }

def put (faults : Faults) (m : Module Who ID) (k : ℕ) (now : ℕ) : Module Who ID :=
  match m.arrivals[k]? with
  | none => m
  | some a =>
    { m with store := (write faults m.store a.sender a.recipient a.msg now).2, arrivals := m.arrivals.eraseIdx k }

def step (maxPayloadBytes : ℕ) (m : Module Who ID) : Op Who ID → Module Who ID
  | .draft faults d => m.draft maxPayloadBytes faults d
  | .post k id now => m.post k id now
  | .arrive faults a => m.arrive maxPayloadBytes faults a
  | .store faults k now => m.put faults k now
  | .archive owner box id now => { m with store := m.store.archive owner box id now }
  | .unarchive owner box id => { m with store := m.store.unarchive owner box id }
  | .markRead owner id now => { m with store := m.store.markRead owner id now }

def exec (maxPayloadBytes : ℕ) : List (Op Who ID) → Module Who ID := Trace.exec (step maxPayloadBytes) start

end Module

/-! ## Parents come first -/

section

variable [Zero ID]

/-- The owner holds a row under `x` that answers `y`. -/
def Answers (rows : List (Row Who ID)) (owner : Who) (x y : ID) : Prop :=
  ∃ r ∈ rows, r.owner = owner ∧ r.id = x ∧ r.parentID = y ∧ y ≠ 0

instance (rows : List (Row Who ID)) (owner : Who) (x y : ID) : Decidable (Answers rows owner x y) :=
  inferInstanceAs (Decidable (∃ r ∈ rows, r.owner = owner ∧ r.id = x ∧ r.parentID = y ∧ y ≠ 0))

/-- Every parent was first held before the message that names it. -/
def Earlier (rows : List (Row Who ID)) : Prop :=
  ∀ r ∈ rows, r.parentID ≠ 0 → place rows r.owner r.parentID < place rows r.owner r.id

variable {rows : List (Row Who ID)}

theorem Earlier.congr {rows' : List (Row Who ID)} (h : Earlier rows)
    (hedges : rows'.map Row.edge = rows.map Row.edge) : Earlier rows' := by
  intro r' hr' hparent
  obtain ⟨r, hr, hedge⟩ : ∃ r ∈ rows, r.edge = r'.edge := by
    rw [← mem_map, ← hedges]
    exact mem_map_of_mem hr'
  have howner : r.owner = r'.owner := congrArg (fun e => e.1.1) hedge
  have hid : r.id = r'.id := congrArg (fun e => e.1.2.2) hedge
  have hpid : r.parentID = r'.parentID := congrArg (fun e => e.2) hedge
  have hplace := h r hr (by rw [hpid]; exact hparent)
  rw [howner, hid, hpid] at hplace
  rw [place_congr hedges, place_congr hedges]
  exact hplace

/-- A row whose parent is held, and was held before the row's id if that is held too, may follow. -/
theorem Earlier.append (h : Earlier rows) {r : Row Who ID}
    (hparent : r.parentID ≠ 0 → place rows r.owner r.parentID < rows.length)
    (hid : place rows r.owner r.id < rows.length → r.parentID ≠ 0 →
      place rows r.owner r.parentID < place rows r.owner r.id) :
    Earlier (rows ++ [r]) := by
  intro q hq hne
  rcases mem_append.mp hq with hold | hnew
  · have hlt := h q hold hne
    have hself : place rows q.owner q.id < rows.length := place_lt.mpr ⟨q, hold, rfl, rfl⟩
    rw [place_append (hlt.trans hself), place_append hself]
    exact hlt
  · obtain rfl := mem_singleton.mp hnew
    rw [place_append (hparent hne)]
    by_cases hheld : place rows q.owner q.id < rows.length
    · rw [place_append hheld]
      exact hid hheld hne
    · rw [place_append_of_fresh hheld]
      exact hparent hne

theorem Earlier.answers (h : Earlier rows) {owner : Who} {x y : ID} (hans : Answers rows owner x y) :
    place rows owner y < place rows owner x ∧ place rows owner x < rows.length := by
  obtain ⟨r, hr, rfl, rfl, rfl, hne⟩ := hans
  exact ⟨h r hr hne, place_lt.mpr ⟨r, hr, rfl, rfl⟩⟩

/-- Where parents come first, a conversation has no cycle and ends in both directions. -/
theorem Earlier.acyclic (h : Earlier rows) (owner : Who) :
    (∀ x, ¬ Relation.TransGen (Answers rows owner) x x) ∧
      WellFounded (fun y x => Answers rows owner x y) ∧ WellFounded (Answers rows owner) := by
  have hparents : WellFounded fun y x => Answers rows owner x y :=
    Subrelation.wf (fun hans => (h.answers hans).1) (measure (place rows owner)).wf
  have hchildren : WellFounded (Answers rows owner) := by
    refine Subrelation.wf (fun {x y} hans => ?_) (measure fun x => rows.length - place rows owner x).wf
    show rows.length - place rows owner x < rows.length - place rows owner y
    have := h.answers hans
    omega
  refine ⟨fun x hcycle => ?_, hparents, hchildren⟩
  exact hchildren.transGen.irrefl.irrefl x hcycle

namespace Module

/-- Every parent comes first, and what waits for its write has its parent held. -/
structure Sound (m : Module Who ID) : Prop where
  earlier : Earlier m.store.rows
  drafts : ∀ d ∈ m.drafts, d.parentID ≠ 0 → place m.store.rows d.sender d.parentID < m.store.rows.length
  arrivals : ∀ a ∈ m.arrivals, a.msg.parentID ≠ 0 →
    place m.store.rows a.recipient a.msg.parentID < m.store.rows.length

/-- A delivery about to be stored beside a row with its id, whose parent is held for no longer. -/
def backdated (m : Module Who ID) (a : Arrival Who ID) : Bool :=
  place m.store.rows a.recipient a.msg.id < m.store.rows.length
    && (m.store.find a.recipient .inbox a.msg.id).isNone && a.msg.parentID ≠ 0
    && place m.store.rows a.recipient a.msg.id ≤ place m.store.rows a.recipient a.msg.parentID

/-- No delivery is stored under an id that its recipient holds, unless the parent was held first. -/
def inOrder (m : Module Who ID) : Op Who ID → Bool
  | .store faults k _ => faults.insert.isSome || m.arrivals[k]?.all fun a => !m.backdated a
  | _ => true

omit [Zero ID] in
theorem held_place {s : Store Who ID} {owner : Who} {id : ID} (h : s.holds owner id = true) :
    place s.rows owner id < s.rows.length :=
  place_lt.mpr (Store.holds_iff.mp h)

variable {m : Module Who ID}

/-- A statement that writes no key and no parent keeps the state sound. -/
theorem Sound.congr (h : m.Sound) {s : Store Who ID} (hedges : s.rows.map Row.edge = m.store.rows.map Row.edge) :
    ({ m with store := s } : Module Who ID).Sound := by
  have hlen : s.rows.length = m.store.rows.length := by
    simpa using congrArg List.length hedges
  refine ⟨h.earlier.congr hedges, fun d hd hne => ?_, fun a ha hne => ?_⟩
  · rw [place_congr hedges, hlen]
    exact h.drafts d hd hne
  · rw [place_congr hedges, hlen]
    exact h.arrivals a ha hne

theorem Sound.append (h : m.Sound) {s : Store Who ID} {r : Row Who ID} (hrows : s.rows = m.store.rows ++ [r])
    (hearlier : Earlier (m.store.rows ++ [r])) {drafts : List (Draft Who ID)} (hdrafts : drafts ⊆ m.drafts)
    {arrivals : List (Arrival Who ID)} (harrivals : arrivals ⊆ m.arrivals) :
    (⟨s, drafts, arrivals⟩ : Module Who ID).Sound := by
  have hgrow : ∀ owner id, place m.store.rows owner id < m.store.rows.length →
      place s.rows owner id < s.rows.length := by
    intro owner id hlt
    rw [hrows, place_append hlt, length_append]
    exact Nat.lt_add_right _ hlt
  refine ⟨hrows ▸ hearlier, fun d hd hne => ?_, fun a ha hne => ?_⟩
  · exact hgrow _ _ (h.drafts d (hdrafts hd) hne)
  · exact hgrow _ _ (h.arrivals a (harrivals ha) hne)

theorem Sound.draft (h : m.Sound) (maxPayloadBytes : ℕ) (faults : Faults) (d : Draft Who ID) :
    (m.draft maxPayloadBytes faults d).Sound := by
  unfold Module.draft
  split
  · exact h
  · rename_i hok
    refine { h with drafts := fun q hq hne => ?_ }
    rcases mem_append.mp hq with hold | hnew
    · exact h.drafts q hold hne
    · obtain rfl := mem_singleton.mp hnew
      exact held_place (held_of_checkSend hok hne)

theorem Sound.arrive (h : m.Sound) (maxPayloadBytes : ℕ) (faults : Faults) (a : Arrival Who ID) :
    (m.arrive maxPayloadBytes faults a).Sound := by
  unfold Module.arrive
  split
  · exact h
  · rename_i hok
    refine { h with arrivals := fun q hq hne => ?_ }
    rcases mem_append.mp hq with hold | hnew
    · exact h.arrivals q hold hne
    · obtain rfl := mem_singleton.mp hnew
      exact held_place (held_of_checkMessage hok hne)

/-- A send stores its row under an id that nothing holds. -/
theorem Sound.post (h : m.Sound) (k : ℕ) (id : ID) (now : ℕ) : (m.post k id now).Sound := by
  unfold Module.post
  split
  · exact h
  · rename_i d hd
    refine Trace.when_keeps h fun hfresh => ?_
    split
    · exact h
    · rename_i s hins
      obtain ⟨-, hrows⟩ := Store.insert_some hins
      have hmem : d ∈ m.drafts := mem_of_getElem? hd
      refine h.append hrows (h.earlier.append (h.drafts d hmem) fun hheld => ?_)
        (eraseIdx_subset) (List.Subset.refl _)
      obtain ⟨r, hr, -, hid⟩ := place_lt.mp hheld
      have hne : r.id ≠ id := of_decide_eq_true (all_eq_true.mp hfresh r hr)
      exact absurd hid hne

/-- A delivery in order may follow the rows. -/
theorem Sound.put (h : m.Sound) {faults : Faults} {k now : ℕ} (hord : m.inOrder (.store faults k now) = true) :
    (m.put faults k now).Sound := by
  unfold Module.put
  split
  · exact h
  · rename_i a ha
    have hkept : (⟨m.store, m.drafts, m.arrivals.eraseIdx k⟩ : Module Who ID).Sound :=
      { h with arrivals := fun q hq => h.arrivals q (eraseIdx_subset hq) }
    rcases write_cases faults m.store a.sender a.recipient a.msg now with
      ⟨s, hwrite, hrows, hfree⟩ | ⟨res, hwrite, -⟩
    · cases hf : faults.insert with
      | some text =>
        unfold write
        rw [hf]
        exact hkept
      | none =>
        rw [hwrite]
        refine h.append hrows (h.earlier.append (h.arrivals a (mem_of_getElem? ha)) fun hheld hne => ?_)
          (List.Subset.refl _) eraseIdx_subset
        have hfind : m.store.find a.recipient .inbox a.msg.id = none := Store.find_none hfree
        by_contra hlate
        have hback : m.backdated a = true := by
          unfold backdated
          rw [hfind]
          simpa using ⟨⟨hheld, hne⟩, not_lt.mp hlate⟩
        simp [inOrder, hf, ha, hback] at hord
    · rw [hwrite]
      exact hkept

omit [DecidableEq Who] [DecidableEq ID] [Zero ID] in
theorem edge_eq_of_body {r q : Row Who ID} (h : r.body = q.body) : r.edge = q.edge := by
  have hparent : r.parentID = q.parentID := congrArg (fun b => b.2.2.2.2.2) h
  simp [Row.edge, Row.key_eq_of_body h, hparent]

theorem Sound.update (h : m.Sound) {f : Row Who ID → Row Who ID} (hf : ∀ r, (f r).body = r.body) :
    ({ m with store := m.store.update f hf } : Module Who ID).Sound :=
  h.congr (Store.map_map_of_keeps (fun r => edge_eq_of_body (hf r)) m.store.rows)

theorem Sound.step (h : m.Sound) (maxPayloadBytes : ℕ) {op : Op Who ID} (hord : m.inOrder op = true) :
    (m.step maxPayloadBytes op).Sound := by
  cases op with
  | draft faults d => exact h.draft maxPayloadBytes faults d
  | post k id now => exact h.post k id now
  | arrive faults a => exact h.arrive maxPayloadBytes faults a
  | store faults k now => exact h.put hord
  | archive owner box id now => exact h.update (Store.body_mark .archived owner box id now)
  | unarchive owner box id => exact h.update (Store.body_clear owner box id)
  | markRead owner id now => exact h.update (Store.body_mark .read owner .inbox id now)

theorem sound_start : (start : Module Who ID).Sound where
  earlier _ hr := absurd hr not_mem_nil
  drafts _ hd := absurd hd not_mem_nil
  arrivals _ ha := absurd ha not_mem_nil

theorem sound_exec (maxPayloadBytes : ℕ) {ops : List (Op Who ID)}
    (hord : Trace.Along (fun before op => (exec maxPayloadBytes before).inOrder op = true) ops) :
    (exec maxPayloadBytes ops).Sound :=
  hord.invariant sound_start fun _ _ hop ih => ih.step maxPayloadBytes hop

/-- **Conversations are acyclic.** In every run in which no delivery is stored under an id that its
recipient holds and whose parent was not held first, no message of an owner answers itself at any
distance, and following parents or children ends. -/
theorem acyclic_exec (maxPayloadBytes : ℕ) (ops : List (Op Who ID))
    (hord : Trace.Along (fun before op => (exec maxPayloadBytes before).inOrder op = true) ops)
    (owner : Who) :
    (∀ x, ¬ Relation.TransGen (Answers (exec maxPayloadBytes ops).store.rows owner) x x) ∧
      WellFounded (fun y x => Answers (exec maxPayloadBytes ops).store.rows owner x y) ∧
      WellFounded (Answers (exec maxPayloadBytes ops).store.rows owner) :=
  (sound_exec maxPayloadBytes hord).earlier.acyclic owner

/-- Identity 1 sends message 5 to identity 2, and is answered by message 6. -/
def answered : List (Op ℕ ℕ) :=
  [.store Faults.none 0 4, .arrive Faults.none ⟨2, 1, ⟨6, "answer", 5⟩⟩, .post 0 5 2,
    .draft Faults.none ⟨1, 2, "question", 0⟩]

/-- Then identity 3 delivers to identity 1 a message under the id 5 that answers message 6. -/
def reused : List (Op ℕ ℕ) :=
  [.store Faults.none 0 6, .arrive Faults.none ⟨3, 1, ⟨5, "reuse", 6⟩⟩] ++ answered

theorem acyclic_answered :
    Answers (exec 100 answered).store.rows 1 6 5 ∧
      ∀ x, ¬ Relation.TransGen (Answers (exec 100 answered).store.rows 1) x x :=
  ⟨by decide, (acyclic_exec 100 answered (by decide) 1).1⟩

/-- Both rows are stored, and the conversation has a cycle. -/
theorem conversation_cycle : Relation.TransGen (Answers (exec 100 reused).store.rows 1) 5 5 := by
  have hfirst : Answers (exec 100 reused).store.rows 1 5 6 := by decide
  have hsecond : Answers (exec 100 reused).store.rows 1 6 5 := by decide
  exact (Relation.TransGen.single hfirst).tail hsecond

end Module

end

end Astrald.Messaging
