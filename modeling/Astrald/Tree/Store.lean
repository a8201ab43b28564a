import Mathlib
import Astrald.Lib.Table
import Astrald.Lib.Trace

/-!
# The stored tree

Nodes are rows of one table: an id, the parent's id, a name that is unique among siblings, and a
value. Callers hold nodes as handles, an id and a name read once, and go on using them after others
delete the node. `Get` reads the row and then subscribes to the node's queue, `Set` writes the row
and then pushes to the queue, `Delete` looks for children, closes the queue and then deletes the
row: every statement and every critical section is one step.

* `WellFormed`: what the rows should always be;
* `wellFormed_exec`: they are, as long as the steps on stale handles leave the rows alone;
* `stale_handle_breaks`: a handle to a deleted node, and a `Delete` that races a `Create`, do not.
-/

namespace Astrald.Tree

open List

section

variable {Value : Type}

/-! ## Rows, handles and calls -/

structure Row (Value : Type) where
  id : ℕ
  parentID : ℕ
  name : String
  /-- No value while the row's type is empty. -/
  value : Option Value := none
  deriving DecidableEq, Repr

abbrev Rows (Value : Type) := Table (@Row.id Value)

structure Node where
  id : ℕ
  name : String
  deriving DecidableEq, Repr

/-- The root has no row. -/
def root : Node := ⟨0, ""⟩

/-- A reader of a followed `Get`: the values on their way to it, and those it has received. -/
structure Follower (Value : Type) where
  id : ℕ
  received : List Value := []
  queued : List Value
  cancelled : Bool := false
  /-- The node's queue was closed. -/
  closed : Bool := false
  deriving DecidableEq, Repr

structure Deletion where
  id : ℕ
  /-- The queue is closed and the row is to be deleted. -/
  queueClosed : Bool := false
  deriving DecidableEq, Repr

structure Store (Value : Type) where
  rows : Rows Value := Table.empty
  handles : List Node := [root]
  queues : List ℕ := []
  /-- Calls of `Get` between the read and the subscription, with the value read. -/
  gets : List (ℕ × Value) := []
  /-- Calls of `Set` between the write and the push. -/
  sets : List (ℕ × Value) := []
  deletions : List Deletion := []
  followers : List (Follower Value) := []

/-! ## Statements -/

/-- The unique index over parent and name. -/
def taken (rows : Rows Value) (parentID : ℕ) (name : String) : Bool :=
  rows.rows.any fun row => row.parentID = parentID && row.name = name

def insertRow (rows : Rows Value) (row : Row Value) : Rows Value :=
  if taken rows row.parentID row.name then rows else rows.insert row

/-- An upsert on the id; a new row has the zero values for its parent and its name. -/
def setNodeValue (rows : Rows Value) (id : ℕ) (value : Value) :
    Rows Value :=
  match rows.find id with
  | some _ => rows.update id (fun row => { row with value := some value }) fun _ => rfl
  | none => insertRow rows { id, parentID := 0, name := "", value := some value }

def canSet (rows : Rows Value) (id : ℕ) : Bool := (rows.find id).isSome || !taken rows 0 ""

def getSubNodes (rows : Rows Value) (parentID : ℕ) : List (Row Value) :=
  rows.rows.filter fun row => row.parentID = parentID

/-! ## Steps -/

inductive Op (Value : Type)
  /-- The database picks the new row's id. -/
  | create (h : ℕ) (name : String) (id : ℕ)
  | sub (h : ℕ)
  | set (h : ℕ) (object : Option Value)
  | push (i : ℕ)
  | get (h : ℕ)
  | subscribe (i : ℕ)
  | delete (h : ℕ)
  | closeQueue (j : ℕ)
  | unlink (j : ℕ)
  | receive (k : ℕ)
  | cancel (k : ℕ)
  deriving DecidableEq, Repr

def create (s : Store Value) (node : Node) (name : String) (id : ℕ) : Store Value :=
  if name = "" ∨ id = 0 ∨ (s.rows.find id).isSome ∨ taken s.rows node.id name then s
  else
    { s with
      rows := insertRow s.rows { id, parentID := node.id, name }
      handles := s.handles ++ [⟨id, name⟩] }

def sub (s : Store Value) (node : Node) : Store Value :=
  { s with handles := s.handles ++ (getSubNodes s.rows node.id).map fun row => ⟨row.id, row.name⟩ }

variable (nil : Value)

def set (s : Store Value) (node : Node) (object : Option Value) : Store Value :=
  if node.name = "" ∨ canSet s.rows node.id = false then s
  else
    { s with
      rows := setNodeValue s.rows node.id (object.getD nil)
      sets := s.sets ++ [(node.id, object.getD nil)] }

/-- A push reaches those who subscribed to the queue that the node has. -/
def Follower.offer (f : Follower Value) (id : ℕ) (value : Value) : Follower Value :=
  if f.id = id ∧ f.closed = false then { f with queued := f.queued ++ [value] } else f

def pushNodeValue (s : Store Value) (id : ℕ) (value : Value) : Store Value :=
  if id ∈ s.queues then { s with followers := s.followers.map fun f => f.offer id value } else s

def Row.content (row : Row Value) : Value := row.value.getD nil

def get (s : Store Value) (node : Node) : Store Value :=
  match s.rows.find node.id with
  | some row => if node.name = "" then s else { s with gets := s.gets ++ [(node.id, row.content nil)] }
  | none => s

/-- The value read is the first on its way to the reader. -/
def subscribeNodeValue (s : Store Value) (id : ℕ) (value : Value) : Store Value :=
  { s with
    queues := if id ∈ s.queues then s.queues else s.queues ++ [id]
    followers := s.followers ++ [{ id, queued := [value] }] }

def delete (s : Store Value) (node : Node) : Store Value :=
  if getSubNodes s.rows node.id = [] then { s with deletions := s.deletions ++ [{ id := node.id }] } else s

def closeQueue (s : Store Value) (j : ℕ) (d : Deletion) : Store Value :=
  if d.queueClosed then s
  else
    { s with
      queues := s.queues.filter (· ≠ d.id)
      followers := s.followers.map fun f => if f.id = d.id then { f with closed := true } else f
      deletions := s.deletions.set j { d with queueClosed := true } }

def unlink (s : Store Value) (j : ℕ) (d : Deletion) : Store Value :=
  if d.queueClosed then { s with rows := s.rows.erase d.id, deletions := s.deletions.eraseIdx j } else s

def receive (s : Store Value) (k : ℕ) (f : Follower Value) : Store Value :=
  match f.queued with
  | [] => s
  | value :: rest =>
    { s with followers := s.followers.set k { f with received := f.received ++ [value], queued := rest } }

def step (s : Store Value) : Op Value → Store Value
  | .create h name id => (s.handles[h]?).elim s fun node => create s node name id
  | .sub h => (s.handles[h]?).elim s (sub s)
  | .set h object => (s.handles[h]?).elim s fun node => set nil s node object
  | .push i =>
    (s.sets[i]?).elim s fun p => pushNodeValue { s with sets := s.sets.eraseIdx i } p.1 p.2
  | .get h => (s.handles[h]?).elim s (get nil s)
  | .subscribe i =>
    (s.gets[i]?).elim s fun p => subscribeNodeValue { s with gets := s.gets.eraseIdx i } p.1 p.2
  | .delete h => (s.handles[h]?).elim s (delete s)
  | .closeQueue j => (s.deletions[j]?).elim s (closeQueue s j)
  | .unlink j => (s.deletions[j]?).elim s (unlink s j)
  | .receive k => (s.followers[k]?).elim s (receive s k)
  | .cancel k =>
    (s.followers[k]?).elim s fun f => { s with followers := s.followers.set k { f with cancelled := true } }

def exec : List (Op Value) → Store Value := Trace.exec (step nil) {}

/-! ## What the rows should be -/

/-- The row under an id names another id as its parent. -/
def ParentOf (rows : Rows Value) (id parentID : ℕ) : Prop :=
  ∃ row ∈ rows.rows, row.id = id ∧ row.parentID = parentID

structure WellFormed (rows : Rows Value) : Prop where
  named : ∀ row ∈ rows.rows, row.name ≠ ""
  parented : ∀ row ∈ rows.rows, row.parentID = 0 ∨ ∃ q ∈ rows.rows, q.id = row.parentID
  siblings : ∀ row ∈ rows.rows, ∀ q ∈ rows.rows, row.parentID = q.parentID → row.name = q.name → row = q
  acyclic : ∀ id, ¬ Relation.TransGen (ParentOf rows) id id

/-! ## What a statement keeps -/

namespace WellFormed

variable {rows : Rows Value}

theorem parentOf_ne (h : WellFormed rows) {id a b : ℕ} (hid : id ≠ 0) (hfree : rows.find id = none)
    (hab : ParentOf rows a b) : b ≠ id := by
  obtain ⟨row, hrow, -, rfl⟩ := hab
  rcases h.parented row hrow with hzero | ⟨q, hq, hparent⟩
  · exact fun he => hid (he.symm.trans hzero)
  · exact fun he => Table.find_eq_none.mp hfree q hq (hparent.trans he)

/-- Nothing leads to a new leaf, so a way through the parents starts there or does not meet it. -/
theorem transGen_insert (h : WellFormed rows) {row : Row Value} (hid : row.id ≠ 0)
    (hfree : rows.find row.id = none) (hparent : row.parentID ≠ row.id) {a b : ℕ}
    (hab : Relation.TransGen (ParentOf (rows.insert row)) a b) :
    b ≠ row.id ∧ (a ≠ row.id → Relation.TransGen (ParentOf rows) a b) := by
  have hedge : ∀ {c d : ℕ}, ParentOf (rows.insert row) c d →
      d ≠ row.id ∧ (c ≠ row.id → ParentOf rows c d) := by
    rintro c d ⟨q, hq, rfl, rfl⟩
    rw [Table.rows_insert hfree] at hq
    rcases mem_append.mp hq with hq | hq
    · exact ⟨h.parentOf_ne hid hfree ⟨q, hq, rfl, rfl⟩, fun _ => ⟨q, hq, rfl, rfl⟩⟩
    · rw [mem_singleton.mp hq]
      exact ⟨hparent, fun hne => absurd rfl hne⟩
  induction hab with
  | single hcd => exact ⟨(hedge hcd).1, fun hne => .single ((hedge hcd).2 hne)⟩
  | tail _ hcd ih => exact ⟨(hedge hcd).1, fun hne => .tail (ih.2 hne) ((hedge hcd).2 ih.1)⟩

theorem insert (h : WellFormed rows) {row : Row Value} (hid : row.id ≠ 0) (hname : row.name ≠ "")
    (hfree : rows.find row.id = none) (htaken : taken rows row.parentID row.name = false)
    (hparent : row.parentID = 0 ∨ (rows.find row.parentID).isSome) : WellFormed (rows.insert row) := by
  have hmem : ∀ q, q ∈ (rows.insert row).rows ↔ q ∈ rows.rows ∨ q = row := by
    intro q
    rw [Table.rows_insert hfree, mem_append, mem_singleton]
  have hsingle : ∀ q ∈ rows.rows, q.parentID = row.parentID → q.name ≠ row.name := by
    intro q hq hparent hname
    rw [taken, any_eq_false] at htaken
    exact htaken q hq (by simp [hparent, hname])
  refine ⟨?_, ?_, ?_, ?_⟩
  · intro q hq
    rcases (hmem q).mp hq with hq | rfl
    · exact h.named q hq
    · exact hname
  · intro q hq
    rcases (hmem q).mp hq with hq | rfl
    · rcases h.parented q hq with hzero | ⟨p, hp, hid⟩
      · exact .inl hzero
      · exact .inr ⟨p, (hmem p).mpr (.inl hp), hid⟩
    · rcases hparent with hzero | hsome
      · exact .inl hzero
      · obtain ⟨p, hfind⟩ := Option.isSome_iff_exists.mp hsome
        obtain ⟨hp, hid⟩ := Table.find_eq_some.mp hfind
        exact .inr ⟨p, (hmem p).mpr (.inl hp), hid⟩
  · intro p hp q hq hparents hnames
    rcases (hmem p).mp hp with hp' | hp' <;> rcases (hmem q).mp hq with hq' | hq'
    · exact h.siblings p hp' q hq' hparents hnames
    · rw [hq'] at hparents hnames
      exact absurd hnames (hsingle p hp' hparents)
    · rw [hp'] at hparents hnames
      exact absurd hnames.symm (hsingle q hq' hparents.symm)
    · exact hp'.trans hq'.symm
  · intro id hcycle
    have hself : row.parentID ≠ row.id := by
      rintro heq
      rcases hparent with hzero | hsome
      · exact hid (heq.symm.trans hzero)
      · rw [heq, hfree] at hsome
        exact absurd hsome Bool.false_ne_true
    obtain ⟨hne, hold⟩ := h.transGen_insert hid hfree hself hcycle
    exact h.acyclic id (hold hne)

theorem parentOf_mono {rows' : Rows Value} (hsub : ∀ a b, ParentOf rows' a b → ParentOf rows a b)
    (h : WellFormed rows) (id : ℕ) : ¬ Relation.TransGen (ParentOf rows') id id :=
  fun hcycle => h.acyclic id (Relation.TransGen.mono hsub id id hcycle)

theorem erase (h : WellFormed rows) {id : ℕ} (hleaf : getSubNodes rows id = []) :
    WellFormed (rows.erase id) := by
  refine ⟨?_, ?_, ?_, ?_⟩
  · exact fun row hrow => h.named row (Table.mem_erase.mp hrow).1
  · intro row hrow
    obtain ⟨hrow, -⟩ := Table.mem_erase.mp hrow
    rcases h.parented row hrow with hzero | ⟨q, hq, hparent⟩
    · exact .inl hzero
    · refine .inr ⟨q, Table.mem_erase.mpr ⟨hq, fun hid => ?_⟩, hparent⟩
      -- the row would be a child of the one that goes
      have hchild : row ∈ getSubNodes rows id := mem_filter.mpr ⟨hrow, by simp [← hparent, hid]⟩
      rw [hleaf] at hchild
      exact not_mem_nil hchild
  · exact fun row hrow q hq => h.siblings row (Table.mem_erase.mp hrow).1 q (Table.mem_erase.mp hq).1
  · refine h.parentOf_mono ?_
    rintro a b ⟨row, hrow, hid, hparent⟩
    exact ⟨row, (Table.mem_erase.mp hrow).1, hid, hparent⟩

theorem setValue (h : WellFormed rows) (id : ℕ) (value : Value) :
    WellFormed (rows.update id (fun row => { row with value := some value }) fun _ => rfl) := by
  -- a row after the statement has the id, the parent and the name of one before it
  have hface : ∀ row ∈ (rows.update id (fun row => { row with value := some value }) fun _ => rfl).rows,
      ∃ q ∈ rows.rows, q.id = row.id ∧ q.parentID = row.parentID ∧ q.name = row.name := by
    intro row hrow
    obtain ⟨q, hq, rfl⟩ := mem_map.mp hrow
    refine ⟨q, hq, ?_⟩
    split <;> exact ⟨rfl, rfl, rfl⟩
  have hback : ∀ q ∈ rows.rows,
      ∃ row ∈ (rows.update id (fun row => { row with value := some value }) fun _ => rfl).rows, row.id =
        q.id := by
    intro q hq
    refine ⟨_, mem_map_of_mem hq, ?_⟩
    split <;> rfl
  refine ⟨?_, ?_, ?_, ?_⟩
  · intro row hrow
    obtain ⟨q, hq, -, -, hname⟩ := hface row hrow
    exact hname ▸ h.named q hq
  · intro row hrow
    obtain ⟨q, hq, -, hparent, -⟩ := hface row hrow
    rw [← hparent]
    rcases h.parented q hq with hzero | ⟨p, hp, hid⟩
    · exact .inl hzero
    · obtain ⟨p', hp', hid'⟩ := hback p hp
      exact .inr ⟨p', hp', hid'.trans hid⟩
  · intro row hrow row' hrow' hparents hnames
    obtain ⟨q, hq, hid, hparent, hname⟩ := hface row hrow
    obtain ⟨q', hq', hid', hparent', hname'⟩ := hface row' hrow'
    have hsame := h.siblings q hq q' hq' (hparent.trans (hparents.trans hparent'.symm))
      (hname.trans (hnames.trans hname'.symm))
    exact Table.eq_of_key hrow hrow' (hid.symm.trans ((congrArg Row.id hsame).trans hid'))
  · refine h.parentOf_mono ?_
    rintro a b ⟨row, hrow, hid, hparent⟩
    obtain ⟨q, hq, hid', hparent', -⟩ := hface row hrow
    exact ⟨q, hq, hid'.trans hid, hparent'.trans hparent⟩

end WellFormed

/-! ## Whole runs -/

/-- A step through a handle finds the node it is about: `Set` its row, `Create` the parent, and the
delete statement of `Delete` no child that came after the check. -/
def Attached (s : Store Value) : Op Value → Prop
  | .create h _ _ => ∀ node ∈ s.handles[h]?, node.id = 0 ∨ (s.rows.find node.id).isSome
  | .set h _ => ∀ node ∈ s.handles[h]?, node.name ≠ "" → (s.rows.find node.id).isSome
  | .unlink j => ∀ d ∈ s.deletions[j]?, d.queueClosed = true → getSubNodes s.rows d.id = []
  | _ => True

instance [DecidableEq Value] (s : Store Value) : (op : Op Value) → Decidable (Attached s op)
  | .create h _ _ => inferInstanceAs (Decidable (∀ node ∈ s.handles[h]?, _))
  | .set h _ => inferInstanceAs (Decidable (∀ node ∈ s.handles[h]?, _))
  | .unlink j => inferInstanceAs (Decidable (∀ d ∈ s.deletions[j]?, _))
  | .sub _ | .push _ | .get _ | .subscribe _ | .delete _ | .closeQueue _ | .receive _ | .cancel _ =>
    instDecidableTrue

/-- The step runs a statement that writes rows. -/
def Op.writes : Op Value → Bool
  | .create _ _ _ | .set _ _ | .unlink _ => true
  | _ => false

theorem rows_step (s : Store Value) (op : Op Value) (hop : op.writes = false) :
    (step nil s op).rows = s.rows := by
  have helim : ∀ {α : Type} (o : Option α) (f : α → Store Value), (∀ a, (f a).rows = s.rows) →
      (o.elim s f).rows = s.rows := fun o f hf =>
    Trace.elim_keeps (P := fun t => t.rows = s.rows) rfl o f fun a _ => hf a
  cases op with
  | create k name id | set k object | unlink j => exact absurd hop (by simp [Op.writes])
  | sub k | subscribe i | cancel k => exact helim _ _ fun _ => rfl
  | push i =>
    refine helim _ _ fun p => ?_
    rw [pushNodeValue]
    split <;> rfl
  | get k =>
    refine helim _ _ fun node => ?_
    rw [get]
    split
    · split <;> rfl
    · rfl
  | delete k =>
    refine helim _ _ fun node => ?_
    rw [delete]
    split <;> rfl
  | closeQueue j =>
    refine helim _ _ fun d => ?_
    rw [closeQueue]
    split <;> rfl
  | receive k =>
    refine helim _ _ fun f => ?_
    rw [receive]
    split <;> rfl

theorem WellFormed.step {s : Store Value} (h : WellFormed s.rows) (op : Op Value) (hop : Attached s op) :
    WellFormed (step nil s op).rows := by
  cases op with
  | create k name id =>
    cases hk : s.handles[k]? with
    | none => simpa only [Tree.step, hk, Option.elim_none] using h
    | some node =>
      simp only [Tree.step, hk, Option.elim_some, create]
      split
      · exact h
      · rename_i hok
        simp only [not_or, Bool.not_eq_true, Option.isSome_eq_false_iff, Option.isNone_iff_eq_none] at hok
        obtain ⟨hname, hid, hfree, htaken⟩ := hok
        show WellFormed (insertRow s.rows _)
        rw [insertRow, if_neg (by simp [htaken])]
        exact h.insert hid hname hfree htaken (hop node hk)
  | set k object =>
    cases hk : s.handles[k]? with
    | none => simpa only [Tree.step, hk, Option.elim_none] using h
    | some node =>
      simp only [Tree.step, hk, Option.elim_some, set]
      split
      · exact h
      · rename_i hok
        obtain ⟨row, hrow⟩ := Option.isSome_iff_exists.mp (hop node hk fun hname => hok (.inl hname))
        show WellFormed (setNodeValue s.rows node.id (object.getD nil))
        rw [setNodeValue, hrow]
        exact h.setValue node.id _
  | unlink j =>
    cases hj : s.deletions[j]? with
    | none => simpa only [Tree.step, hj, Option.elim_none] using h
    | some d =>
      simp only [Tree.step, hj, Option.elim_some, unlink]
      split
      · rename_i hclosed
        exact h.erase (hop d hj hclosed)
      · exact h
  | sub k | push k | get k | subscribe k | delete k | closeQueue k | receive k | cancel k =>
    rw [rows_step nil s _ rfl]
    exact h

theorem wellFormed_empty : WellFormed (Table.empty : Rows Value) where
  named := fun _ hrow => absurd hrow not_mem_nil
  parented := fun _ hrow => absurd hrow not_mem_nil
  siblings := fun _ hrow => absurd hrow not_mem_nil
  acyclic := by
    intro id hcycle
    obtain ⟨b, ⟨row, hrow, -⟩, -⟩ := Relation.TransGen.head'_iff.mp hcycle
    exact not_mem_nil hrow

/-- **The tree.** Over every interleaving of calls on handles of any age, as long as the steps find
the nodes they are about, the rows are a tree under the root with distinct names among siblings. -/
theorem wellFormed_exec (ops : List (Op Value))
    (hops : Trace.Along (fun past op => Attached (exec nil past) op) ops) :
    WellFormed (exec nil ops).rows := by
  refine hops.invariant (I := fun s : Store Value => WellFormed s.rows) wellFormed_empty ?_
  exact fun op _ hop ih => ih.step nil op hop

end

/-- A node with a child is created and written, then the child is deleted and its name taken again. -/
theorem wellFormed_exec_renewed :
    let ops : List (Op ℕ) :=
      [.create 1 "b" 3, .unlink 0, .closeQueue 0, .delete 2, .set 2 (some 7), .create 1 "b" 2,
        .create 0 "a" 1]
    (exec 0 ops).rows.rows = [⟨1, 0, "a", none⟩, ⟨3, 1, "b", none⟩] ∧ WellFormed (exec 0 ops).rows :=
  ⟨by decide, wellFormed_exec 0 _ (by decide)⟩

/-- `Set` through the handle of a deleted node makes a row without a name. A `Create` between the
check and the statement of a `Delete` leaves a row whose parent is gone. After a node is deleted the
database gives its id again, the next after the largest: `Create` through the handle of the deleted
node then makes a row that is its own parent. -/
theorem stale_handle_breaks :
    (∃ ops : List (Op ℕ), (exec 0 ops).rows.rows = [⟨1, 0, "", some 7⟩] ∧ ¬ WellFormed (exec 0 ops).rows) ∧
      (∃ ops : List (Op ℕ), (exec 0 ops).rows.rows = [⟨2, 1, "b", none⟩] ∧ ¬ WellFormed (exec 0 ops).rows) ∧
      ∃ ops : List (Op ℕ), (exec 0 ops).rows.rows = [⟨1, 1, "b", none⟩] ∧
        Relation.TransGen (ParentOf (exec 0 ops).rows) 1 1 := by
  refine ⟨⟨[.set 1 (some 7), .unlink 0, .closeQueue 0, .delete 1, .create 0 "a" 1], by decide, ?_⟩,
    ⟨[.unlink 0, .closeQueue 0, .create 1 "b" 2, .delete 1, .create 0 "a" 1], by decide, ?_⟩,
    ⟨[.create 1 "b" 1, .unlink 0, .closeQueue 0, .delete 1, .create 0 "a" 1], by decide, ?_⟩⟩
  · intro h
    exact h.named ⟨1, 0, "", some 7⟩ (by decide) rfl
  · intro h
    obtain hzero | ⟨q, hq, hid⟩ := h.parented ⟨2, 1, "b", none⟩ (by decide)
    · exact absurd hzero (by decide)
    · revert q
      decide
  · exact .single ⟨⟨1, 1, "b", none⟩, by decide, rfl, rfl⟩

end Astrald.Tree
