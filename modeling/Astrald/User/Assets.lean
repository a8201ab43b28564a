import Mathlib
import Astrald.Lib.Table

/-!
# Assets of a node

Every node of a swarm has a table of assets. An asset is known by its nonce and is never deleted: a
removal marks its row. Each write gives the row the next height of the table. Methods of the database
are several statements and hold no transaction, so other calls of the node run between the statement
that reads the height and the one that writes the row.

* `write_spec`: the rows after a write;
* `Knows.write`: no write forgets an asset or a removal;
* `statement_db`: a statement is a write, or leaves the table;
* `statement_draws`: what a method writes has the objects of its nonces.
-/

namespace Astrald.User

/-! ## Tables -/

section Tables

variable {Nonce ObjectID : Type}

structure Asset (Nonce ObjectID : Type) where
  nonce : Nonce
  removed : Bool
  objectID : ObjectID
  height : ℕ
  deriving DecidableEq, Repr

/-- The table of a node, with the nonce as its primary key. -/
abbrev DB (Nonce ObjectID : Type) := Table (Asset.nonce : Asset Nonce ObjectID → Nonce)

/-- What a method is about to write, but for the height: a new row, or the row that it read, marked. -/
inductive Change (Nonce ObjectID : Type)
  | create (nonce : Nonce) (objectID : ObjectID) (removed : Bool)
  | remove (nonce : Nonce) (objectID : ObjectID)
  deriving DecidableEq, Repr

namespace Change

def nonce : Change Nonce ObjectID → Nonce
  | .create nonce _ _ | .remove nonce _ => nonce

def objectID : Change Nonce ObjectID → ObjectID
  | .create _ objectID _ | .remove _ objectID => objectID

def removed : Change Nonce ObjectID → Bool
  | .create _ _ removed => removed
  | .remove _ _ => true

def row (change : Change Nonce ObjectID) (height : ℕ) : Asset Nonce ObjectID where
  nonce := change.nonce
  removed := change.removed
  objectID := change.objectID
  height := height

end Change

/-- `MAX(height)`; without rows it is `NULL`, which is an error. -/
def assetHeight (db : DB Nonce ObjectID) : ℤ := (db.rows.map Asset.height).max?.elim (-1) Int.ofNat

variable [DecidableEq Nonce]

def assetExists [DecidableEq ObjectID] (db : DB Nonce ObjectID) (objectID : ObjectID) : Bool :=
  db.rows.any fun row => row.objectID = objectID && !row.removed

/-- The unique index of heights has the height for another row. -/
def heightTaken (db : DB Nonce ObjectID) (nonce : Nonce) (height : ℕ) : Bool :=
  db.rows.any fun row => row.height = height && row.nonce ≠ nonce

/-- The statement that writes a row, which may violate an index. `Create` wants a new nonce; `Save`
updates the row, and inserts one that is not there. -/
def write (db : DB Nonce ObjectID) (change : Change Nonce ObjectID) (height : ℕ) :
    Option (DB Nonce ObjectID) :=
  if heightTaken db change.nonce height then none
  else
    match db.find change.nonce with
    | none => some (db.insert (change.row height))
    | some _ =>
      match change with
      | .create _ _ _ => none
      | .remove nonce _ =>
        some (db.update nonce (fun row => { change.row height with nonce := row.nonce }) fun _ => rfl)

variable {db db' : DB Nonce ObjectID} {change : Change Nonce ObjectID}

/-- The rows after a write; a nonce that is there already is only written to be marked. -/
theorem write_spec {height : ℕ} (h : write db change height = some db') :
    (∀ row, row ∈ db'.rows ↔ row = change.row height ∨ row ∈ db.rows ∧ row.nonce ≠ change.nonce) ∧
      (change.removed = true ∨ ∀ row ∈ db.rows, row.nonce ≠ change.nonce) := by
  unfold write at h
  split at h
  · exact absurd h (by simp)
  · split at h
    · rename_i hnone
      obtain rfl := Option.some.inj h
      have hfree := Table.find_eq_none.mp hnone
      have hrows : (db.insert (change.row height)).rows = db.rows ++ [change.row height] :=
        Table.rows_insert hnone
      refine ⟨fun row => ?_, .inr hfree⟩
      rw [hrows, List.mem_append, List.mem_singleton]
      constructor
      · rintro (hrow | hrow)
        · exact .inr ⟨hrow, hfree row hrow⟩
        · exact .inl hrow
      · rintro (hrow | hrow)
        · exact .inr hrow
        · exact .inl hrow.1
    · rename_i old hold
      split at h
      · exact absurd h (by simp)
      · obtain rfl := Option.some.inj h
        obtain ⟨hmem, rfl⟩ := Table.find_eq_some.mp hold
        refine ⟨fun row => ?_, .inl rfl⟩
        show row ∈ db.rows.map _ ↔ _
        rw [List.mem_map]
        constructor
        · rintro ⟨q, hq, rfl⟩
          split
          · rename_i hkey
            obtain rfl : q = old := Table.eq_of_key hq hmem hkey
            exact .inl rfl
          · rename_i hkey
            exact .inr ⟨hq, hkey⟩
        · rintro (rfl | ⟨hrow, hne⟩)
          · exact ⟨old, hmem, if_pos rfl⟩
          · exact ⟨row, hrow, if_neg hne⟩

/-! ## Knowledge -/

/-- The table has the nonce, marked if `removed`. -/
def Knows (db : DB Nonce ObjectID) (nonce : Nonce) (removed : Bool) : Prop :=
  ∃ row ∈ db.rows, row.nonce = nonce ∧ removed ≤ row.removed

instance (db : DB Nonce ObjectID) (nonce : Nonce) (removed : Bool) : Decidable (Knows db nonce removed) :=
  inferInstanceAs (Decidable (∃ row ∈ db.rows, _))

omit [DecidableEq Nonce] in
theorem Knows.of_le {nonce : Nonce} {removed removed' : Bool} (h : Knows db nonce removed)
    (hle : removed' ≤ removed) : Knows db nonce removed' := by
  obtain ⟨row, hrow, hnonce, hremoved⟩ := h
  exact ⟨row, hrow, hnonce, hle.trans hremoved⟩

theorem knows_written {height : ℕ} (h : write db change height = some db') :
    Knows db' change.nonce change.removed :=
  ⟨change.row height, ((write_spec h).1 _).mpr (.inl rfl), rfl, le_rfl⟩

theorem Knows.write {nonce : Nonce} {removed : Bool} (hknows : Knows db nonce removed) {height : ℕ}
    (h : write db change height = some db') : Knows db' nonce removed := by
  obtain ⟨row, hrow, rfl, hremoved⟩ := hknows
  obtain ⟨hrows, hmarks⟩ := write_spec h
  by_cases hne : row.nonce = change.nonce
  · have hmarked : change.removed = true := hmarks.resolve_right fun hfree => hfree row hrow hne
    refine ⟨change.row height, (hrows _).mpr (.inl rfl), hne.symm, ?_⟩
    show removed ≤ change.removed
    rw [hmarked]
    exact Bool.le_true removed
  · exact ⟨row, (hrows row).mpr (.inr ⟨hrow, hne⟩), rfl, hremoved⟩

/-! ## Methods of the database -/

/-- A method, before each of its statements. -/
inductive Call (Nonce ObjectID : Type)
  /-- `AddAsset`, with the nonce that it draws. -/
  | assetExists (nonce : Nonce) (objectID : ObjectID)
  /-- `RemoveAsset`. -/
  | liveRows (objectID : ObjectID)
  /-- `AddAssetWithNonce`. -/
  | nonceExists (nonce : Nonce) (objectID : ObjectID)
  /-- `RemoveAssetByNonce`. -/
  | first (nonce : Nonce) (objectID : ObjectID)
  | height (change : Change Nonce ObjectID) (rest : List (Change Nonce ObjectID))
  | write (change : Change Nonce ObjectID) (height : ℕ) (rest : List (Change Nonce ObjectID))
  deriving DecidableEq, Repr

inductive Outcome (Nonce ObjectID : Type)
  | running (call : Call Nonce ObjectID)
  | done
  | failed
  deriving DecidableEq, Repr

variable [DecidableEq ObjectID]

def writeAll : List (Change Nonce ObjectID) → Outcome Nonce ObjectID
  | [] => .done
  | change :: rest => .running (.height change rest)

/-- The next statement of a method. The rows of a query come in any order, which is `order`. -/
def statement (db : DB Nonce ObjectID) (order : List (Asset Nonce ObjectID)) :
    Call Nonce ObjectID → DB Nonce ObjectID × Outcome Nonce ObjectID
  | .assetExists nonce objectID =>
    (db, if assetExists db objectID then .failed else .running (.height (.create nonce objectID false) []))
  | .liveRows objectID =>
    if order.Perm (db.rows.filter fun row => row.objectID = objectID && !row.removed) then
      (db, writeAll (order.map fun row => .remove row.nonce row.objectID))
    else (db, .running (.liveRows objectID))
  | .nonceExists nonce objectID =>
    (db, if (db.find nonce).isSome then .done else .running (.height (.create nonce objectID false) []))
  | .first nonce objectID =>
    match db.find nonce with
    | none => (db, .running (.height (.create nonce objectID true) []))
    | some row => (db, if row.removed then .done else .running (.height (.remove row.nonce row.objectID) []))
  | .height change rest => (db, .running (.write change (assetHeight db + 1).toNat rest))
  | .write change height rest =>
    match write db change height with
    | some db' => (db', writeAll rest)
    | none => (db, .failed)

/-- A statement leaves the table or is a write. -/
theorem statement_db (db : DB Nonce ObjectID) (order : List (Asset Nonce ObjectID))
    (call : Call Nonce ObjectID) :
    (statement db order call).1 = db ∨
      ∃ change height rest, call = .write change height rest ∧
        write db change height = some (statement db order call).1 := by
  cases call with
  | assetExists nonce objectID | nonceExists nonce objectID | height change rest => exact .inl rfl
  | liveRows objectID | first nonce objectID =>
    left
    rw [statement]
    split
    · rfl
    · rfl
  | write change height rest =>
    rw [statement]
    split
    · rename_i db' hwrite
      exact .inr ⟨change, height, rest, rfl, hwrite⟩
    · exact .inl rfl

/-! ### What a method is about -/

/-- What the method will write has the objects that the nonces were drawn for. -/
def Call.Draws (drawn : Nonce → Option ObjectID) : Call Nonce ObjectID → Prop
  | .assetExists nonce objectID | .nonceExists nonce objectID | .first nonce objectID => drawn nonce = some objectID
  | .liveRows _ => True
  | .height change rest | .write change _ rest => ∀ c ∈ change :: rest, drawn c.nonce = some c.objectID

def Outcome.Draws (drawn : Nonce → Option ObjectID) : Outcome Nonce ObjectID → Prop
  | .running call => call.Draws drawn
  | .done | .failed => True

omit [DecidableEq Nonce] [DecidableEq ObjectID] in
theorem writeAll_draws {drawn : Nonce → Option ObjectID} {changes : List (Change Nonce ObjectID)}
    (h : ∀ c ∈ changes, drawn c.nonce = some c.objectID) : (writeAll changes).Draws drawn := by
  cases changes with
  | nil => trivial
  | cons change rest => exact h

theorem statement_draws {drawn : Nonce → Option ObjectID}
    (hrows : ∀ row ∈ db.rows, drawn row.nonce = some row.objectID) (order : List (Asset Nonce ObjectID))
    {call : Call Nonce ObjectID} (hcall : call.Draws drawn) :
    (∀ row ∈ (statement db order call).1.rows, drawn row.nonce = some row.objectID) ∧
      (statement db order call).2.Draws drawn := by
  constructor
  · intro row hrow
    rcases statement_db db order call with hdb | ⟨change, height, rest, rfl, hwrite⟩
    · rw [hdb] at hrow
      exact hrows row hrow
    · rcases ((write_spec hwrite).1 row).mp hrow with rfl | ⟨hrow, -⟩
      · exact hcall change List.mem_cons_self
      · exact hrows row hrow
  · have hone : ∀ change : Change Nonce ObjectID, drawn change.nonce = some change.objectID →
        ∀ c ∈ [change], drawn c.nonce = some c.objectID := by
      intro change hchange c hc
      rw [List.mem_singleton.mp hc]
      exact hchange
    cases call with
    | assetExists nonce objectID | nonceExists nonce objectID =>
      rw [statement]
      split
      · trivial
      · exact hone (.create nonce objectID false) hcall
    | liveRows objectID =>
      rw [statement]
      split
      · rename_i hperm
        refine writeAll_draws fun c hc => ?_
        obtain ⟨row, hrow, rfl⟩ := List.mem_map.mp hc
        exact hrows row (List.mem_of_mem_filter (hperm.mem_iff.mp hrow))
      · trivial
    | first nonce objectID =>
      rw [statement]
      split
      · exact hone (.create nonce objectID true) hcall
      · rename_i row hfind
        split
        · trivial
        · exact hone (.remove row.nonce row.objectID) (hrows row (Table.find_eq_some.mp hfind).1)
    | height change rest => exact hcall
    | write change height rest =>
      rw [statement]
      split
      · exact writeAll_draws fun c hc => hcall c (List.mem_cons_of_mem _ hc)
      · trivial

end Tables

end Astrald.User
