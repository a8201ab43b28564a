import Mathlib
import Astrald.Lib.Table
import Astrald.Lib.Trace
import Astrald.User.Assets

/-!
# Syncs of assets

A node that syncs from a peer reads the height at which its last sync ended, asks for the rows from
that height on, applies what it receives one by one, and stores the height that the peer sends last.
Any number of syncs and of local calls run at once, on every node, and a sync may end at any step.

* `step_db`: a step changes one table by one write, if any;
* `knows_step`: no node forgets an asset or a removal;
* `step_pulls`: what a step of a sync can do;
* `sound_exec`: a nonce has one object everywhere, and what a peer sends it knows.
-/

namespace Astrald.User

open List Function

/-! ## Syncs -/

section Network

variable {Node Nonce ObjectID : Type}

structure Update (Nonce ObjectID : Type) where
  nonce : Nonce
  objectID : ObjectID
  removed : Bool
  deriving DecidableEq, Repr

def Asset.update (row : Asset Nonce ObjectID) : Update Nonce ObjectID where
  nonce := row.nonce
  objectID := row.objectID
  removed := row.removed

/-- Where a run of `syncAssets` stands. -/
inductive Stage (Nonce ObjectID : Type)
  /-- The stored height is to be read. -/
  | reading
  | asking (start : ℕ)
  /-- The peer has read its rows; what it sends is yet to be received. -/
  | receiving (updates : List (Update Nonce ObjectID)) (next : ℕ)
  | applying (update : Update Nonce ObjectID) (call : Call Nonce ObjectID) (updates : List (Update Nonce ObjectID))
      (next : ℕ)
  | done
  | failed
  deriving DecidableEq, Repr

structure Sync (Node Nonce ObjectID : Type) where
  node : Node
  peer : Node
  stage : Stage Nonce ObjectID
  deriving DecidableEq, Repr

structure State (Node Nonce ObjectID : Type) where
  db : Node → DB Nonce ObjectID
  /-- What a node has stored as the next height of a peer. -/
  nextHeight : Node → Node → Option ℕ
  /-- Calls of `AddAsset` and `RemoveAsset`. -/
  calls : List (Node × Outcome Nonce ObjectID)
  syncs : List (Sync Node Nonce ObjectID)
  /-- The nonces that have been drawn, with the objects they were drawn for. -/
  drawn : Nonce → Option ObjectID

inductive Op (Node Nonce ObjectID : Type)
  | addAsset (node : Node) (objectID : ObjectID) (force : Bool) (nonce : Nonce)
  | removeAsset (node : Node) (objectID : ObjectID)
  | call (k : ℕ) (order : List (Asset Nonce ObjectID))
  | syncAssets (node peer : Node)
  | sync (k : ℕ) (order : List (Asset Nonce ObjectID))
  | interrupt (k : ℕ)

/-- The height that `OpSyncAssets` sends after the rows. -/
def answerHeight (start : ℕ) (rows : List (Asset Nonce ObjectID)) : ℕ :=
  if rows.isEmpty then start else rows.foldl (fun height row => max height row.height) 0 + 1

def Update.call (u : Update Nonce ObjectID) : Call Nonce ObjectID :=
  if u.removed then .first u.nonce u.objectID else .nonceExists u.nonce u.objectID

/-- The method applies the update, and nothing else. -/
def Call.Applies (u : Update Nonce ObjectID) : Call Nonce ObjectID → Prop
  | .nonceExists nonce _ => nonce = u.nonce ∧ u.removed = false
  | .first nonce _ => nonce = u.nonce ∧ u.removed = true
  | .height change rest | .write change _ rest =>
    change.nonce = u.nonce ∧ change.removed = u.removed ∧ rest = []
  | .assetExists _ _ | .liveRows _ => False

theorem Update.call_applies (u : Update Nonce ObjectID) : u.call.Applies u := by
  rw [Update.call]
  split
  · rename_i hremoved
    exact ⟨rfl, hremoved⟩
  · rename_i hremoved
    exact ⟨rfl, by simpa using hremoved⟩

/-- A method that applies an update goes on doing so, and when it is done the table knows the update;
it writes nothing but the update. -/
theorem statement_applies [DecidableEq Nonce] [DecidableEq ObjectID] {u : Update Nonce ObjectID}
    (db : DB Nonce ObjectID) (order : List (Asset Nonce ObjectID)) {call : Call Nonce ObjectID}
    (h : call.Applies u) :
    (∀ call', (statement db order call).2 = .running call' → call'.Applies u) ∧
      ((statement db order call).2 = .done → Knows (statement db order call).1 u.nonce u.removed) ∧
      ∀ row ∈ (statement db order call).1.rows, row ∈ db.rows ∨ row.nonce = u.nonce ∧
        row.removed = u.removed := by
  cases call with
  | assetExists nonce objectID | liveRows objectID => exact h.elim
  | nonceExists nonce objectID =>
    obtain ⟨rfl, hremoved⟩ := h
    refine ⟨?_, ?_, fun row hrow => .inl hrow⟩
    · rw [statement]
      split
      · rintro call' ⟨⟩
      · rintro call' ⟨⟩
        exact ⟨rfl, hremoved.symm, rfl⟩
    · rw [statement]
      split
      · rename_i hfind
        obtain ⟨row, hrow⟩ := Option.isSome_iff_exists.mp hfind
        obtain ⟨hmem, hnonce⟩ := Table.find_eq_some.mp hrow
        refine fun _ => ⟨row, hmem, hnonce, ?_⟩
        rw [hremoved]
        exact Bool.false_le row.removed
      · rintro ⟨⟩
  | first nonce objectID =>
    obtain ⟨rfl, hremoved⟩ := h
    rw [statement]
    split
    · refine ⟨?_, ?_, fun row hrow => .inl hrow⟩
      · rintro call' ⟨⟩
        exact ⟨rfl, hremoved.symm, rfl⟩
      · rintro ⟨⟩
    · rename_i row hfind
      obtain ⟨hmem, hnonce⟩ := Table.find_eq_some.mp hfind
      refine ⟨?_, ?_, fun row hrow => .inl hrow⟩
      · split
        · rintro call' ⟨⟩
        · rintro call' ⟨⟩
          exact ⟨hnonce, hremoved.symm, rfl⟩
      · split
        · rename_i hmarked
          refine fun _ => ⟨row, hmem, hnonce, ?_⟩
          rw [hmarked]
          exact Bool.le_true u.removed
        · rintro ⟨⟩
  | height change rest =>
    refine ⟨?_, ?_, fun row hrow => .inl hrow⟩
    · rintro call' ⟨⟩
      exact h
    · rintro ⟨⟩
  | write change height rest =>
    obtain ⟨hnonce, hremoved, rfl⟩ := h
    rw [statement]
    split
    · rename_i db' hwrite
      refine ⟨?_, fun _ => hnonce ▸ hremoved ▸ knows_written hwrite, fun row hrow => ?_⟩
      · rintro call' ⟨⟩
      · rcases ((write_spec hwrite).1 row).mp hrow with rfl | ⟨hrow, -⟩
        · exact .inr ⟨hnonce, hremoved⟩
        · exact .inl hrow
    · refine ⟨?_, ?_, fun row hrow => .inl hrow⟩
      · rintro call' ⟨⟩
      · rintro ⟨⟩

def setStage (s : State Node Nonce ObjectID) (k : ℕ) (sync : Sync Node Nonce ObjectID)
    (stage : Stage Nonce ObjectID) :
    State Node Nonce ObjectID :=
  { s with syncs := s.syncs.set k { sync with stage } }

variable [DecidableEq Node] [DecidableEq Nonce] [DecidableEq ObjectID]

def setDB (s : State Node Nonce ObjectID) (node : Node) (db : DB Nonce ObjectID) :
    State Node Nonce ObjectID :=
  { s with db := Function.update s.db node db }

def setNextHeight (s : State Node Nonce ObjectID) (node peer : Node) (next : ℕ) : State Node Nonce ObjectID :=
  { s with nextHeight := Function.update s.nextHeight node (Function.update (s.nextHeight node) peer (some next)) }

/-- The next step of a sync. -/
def advance (s : State Node Nonce ObjectID) (k : ℕ) (order : List (Asset Nonce ObjectID))
    (sync : Sync Node Nonce ObjectID) : State Node Nonce ObjectID :=
  match sync.stage with
  | .reading => setStage s k sync (.asking ((s.nextHeight sync.node sync.peer).getD 0))
  | .asking start =>
    if order.Perm ((s.db sync.peer).rows.filter fun row => start ≤ row.height) then
      setStage s k sync (.receiving (order.map Asset.update) (answerHeight start order))
    else s
  | .receiving (u :: updates) next => setStage s k sync (.applying u u.call updates next)
  | .receiving [] next => setStage (setNextHeight s sync.node sync.peer next) k sync .done
  | .applying u call updates next =>
    let (db, outcome) := statement (s.db sync.node) order call
    setStage (setDB s sync.node db) k sync <|
      match outcome with
      | .running call => .applying u call updates next
      | .done => .receiving updates next
      | .failed => .failed
  | .done | .failed => s

def step (s : State Node Nonce ObjectID) : Op Node Nonce ObjectID → State Node Nonce ObjectID
  | .addAsset node objectID force nonce =>
    -- nonces are unique
    if s.drawn nonce = none then
      let call := if force then .height (.create nonce objectID false) [] else .assetExists nonce objectID
      { s with drawn := Function.update s.drawn nonce (some objectID), calls := s.calls ++ [(node, .running call)] }
    else s
  | .removeAsset node objectID => { s with calls := s.calls ++ [(node, .running (.liveRows objectID))] }
  | .call k order =>
    match s.calls[k]? with
    | some (node, .running call) =>
      let (db, outcome) := statement (s.db node) order call
      { setDB s node db with calls := s.calls.set k (node, outcome) }
    | _ => s
  | .syncAssets node peer => { s with syncs := s.syncs ++ [{ node, peer, stage := .reading }] }
  | .sync k order => (s.syncs[k]?).elim s (advance s k order)
  | .interrupt k => (s.syncs[k]?).elim s fun sync => if sync.stage = .done then s else setStage s k sync .failed

def init : State Node Nonce ObjectID where
  db _ := Table.empty
  nextHeight _ _ := none
  calls := []
  syncs := []
  drawn _ := none

def exec : List (Op Node Nonce ObjectID) → State Node Nonce ObjectID := Trace.exec step init

/-! ## Writes -/

/-- The write that an operation makes, unless it violates an index. -/
def lands (s : State Node Nonce ObjectID) : Op Node Nonce ObjectID → Option (Node × Change Nonce ObjectID × ℕ)
  | .call k _ =>
    match s.calls[k]? with
    | some (node, .running (.write change height _)) => some (node, change, height)
    | _ => none
  | .sync k _ =>
    match s.syncs[k]? with
    | some ⟨node, _, .applying _ (.write change height _) _ _⟩ => some (node, change, height)
    | _ => none
  | _ => none

/-- The tables after a step: as they were, or one of them with the row that lands. -/
theorem step_db (s : State Node Nonce ObjectID) (op : Op Node Nonce ObjectID) :
    (step s op).db = s.db ∨
      ∃ node change height db, lands s op = some (node, change, height) ∧
        write (s.db node) change height = some db ∧ (step s op).db = update s.db node db := by
  have hstatement : ∀ node order call, (update s.db node (statement (s.db node) order call).1 = s.db) ∨
      ∃ change height rest db, call = .write change height rest ∧ write (s.db node) change height = some db ∧
        update s.db node (statement (s.db node) order call).1 = update s.db node db := by
    intro node order call
    rcases statement_db (s.db node) order call with hdb | ⟨change, height, rest, hcall, hwrite⟩
    · left
      rw [hdb, update_eq_self]
    · exact .inr ⟨change, height, rest, _, hcall, hwrite, rfl⟩
  have hkeeps : ∀ {t u : State Node Nonce ObjectID} {p : Prop} [Decidable p], t.db = s.db → u.db = s.db →
      (if p then t else u).db = s.db := by
    intro t u p _ ht hu
    split
    · exact ht
    · exact hu
  cases op with
  | addAsset node objectID force nonce => exact .inl (hkeeps rfl rfl)
  | removeAsset node objectID | syncAssets node peer => exact .inl rfl
  | call k order =>
    rw [step]
    split
    · rename_i node call hk
      rcases hstatement node order call with hdb | ⟨change, height, rest, db, rfl, hwrite, hdb⟩
      · exact .inl hdb
      · exact .inr ⟨node, change, height, db, by rw [lands, hk], hwrite, hdb⟩
    · exact .inl rfl
  | interrupt k =>
    rw [step]
    cases s.syncs[k]? with
    | none => exact .inl rfl
    | some sync => exact .inl (hkeeps rfl rfl)
  | sync k order =>
    rw [step]
    cases hk : s.syncs[k]? with
    | none => exact .inl rfl
    | some sync =>
      obtain ⟨node, peer, stage⟩ := sync
      cases stage with
      | reading | done | failed => exact .inl rfl
      | asking start => exact .inl (hkeeps rfl rfl)
      | receiving updates next =>
        cases updates with
        | nil | cons u updates => exact .inl rfl
      | applying u call updates next =>
        rcases hstatement node order call with hdb | ⟨change, height, rest, db, rfl, hwrite, hdb⟩
        · exact .inl hdb
        · exact .inr ⟨node, change, height, db, by rw [lands, hk], hwrite, hdb⟩

variable {s : State Node Nonce ObjectID}

section

variable {node : Node} {nonce : Nonce} {removed : Bool} (h : Knows (s.db node) nonce removed)
include h

/-- No node forgets an asset or a removal. -/
theorem knows_step (op : Op Node Nonce ObjectID) : Knows ((step s op).db node) nonce removed := by
  rcases step_db s op with hdb | ⟨node', change, height, db, -, hwrite, hdb⟩
  · rw [hdb]
    exact h
  · rw [hdb]
    by_cases hnode : node = node'
    · subst hnode
      rw [update_self]
      exact h.write hwrite
    · rw [update_of_ne hnode]
      exact h

theorem knows_run
    (ops : List (Op Node Nonce ObjectID)) : Knows ((Trace.exec step s ops).db node) nonce removed := by
  induction ops with
  | nil => exact h
  | cons op ops ih => exact knows_step ih op

end

/-! ## Moves of a sync -/

/-- What the next step of a sync or an interruption does: the new stage, and the state but for it. -/
inductive Moves (s : State Node Nonce ObjectID) (node peer : Node) :
    Stage Nonce ObjectID → Stage Nonce ObjectID → State Node Nonce ObjectID → Prop
  | read : Moves s node peer .reading (.asking ((s.nextHeight node peer).getD 0)) s
  | answered {start : ℕ} {order : List (Asset Nonce ObjectID)}
      (h : order.Perm ((s.db peer).rows.filter fun row => start ≤ row.height)) :
      Moves s node peer (.asking start) (.receiving (order.map Asset.update) (answerHeight start order)) s
  | received {u : Update Nonce ObjectID} {updates : List (Update Nonce ObjectID)} {next : ℕ} :
      Moves s node peer (.receiving (u :: updates) next) (.applying u u.call updates next) s
  | stored {next : ℕ} : Moves s node peer (.receiving [] next) .done (setNextHeight s node peer next)
  | ran {u : Update Nonce ObjectID} {call call' : Call Nonce ObjectID} {updates : List (Update Nonce ObjectID)}
      {next : ℕ} (order : List (Asset Nonce ObjectID)) (h : (statement (s.db node) order call).2 = .running call') :
      Moves s node peer (.applying u call updates next) (.applying u call' updates next)
        (setDB s node (statement (s.db node) order call).1)
  | applied {u : Update Nonce ObjectID} {call : Call Nonce ObjectID} {updates : List (Update Nonce ObjectID)}
      {next : ℕ} (order : List (Asset Nonce ObjectID)) (h : (statement (s.db node) order call).2 = .done) :
      Moves s node peer (.applying u call updates next) (.receiving updates next)
        (setDB s node (statement (s.db node) order call).1)
  | refused {u : Update Nonce ObjectID} {call : Call Nonce ObjectID} {updates : List (Update Nonce ObjectID)}
      {next : ℕ} (order : List (Asset Nonce ObjectID)) (h : (statement (s.db node) order call).2 = .failed) :
      Moves s node peer (.applying u call updates next) .failed (setDB s node (statement (s.db node) order call).1)
  | interrupted {stage : Stage Nonce ObjectID} (h : stage ≠ .done) : Moves s node peer stage .failed s

/-- An operation on a sync. -/
def Op.pulls : Op Node Nonce ObjectID → Bool
  | .syncAssets _ _ | .sync _ _ | .interrupt _ => true
  | .addAsset _ _ _ _ | .removeAsset _ _ | .call _ _ => false

theorem step_pulls {op : Op Node Nonce ObjectID} (hop : op.pulls = true) :
    step s op = s ∨
      (∃ node peer, step s op = { s with syncs := s.syncs ++ [{ node, peer, stage := .reading }] }) ∨
      ∃ k node peer stage stage' t, s.syncs[k]? = some ⟨node, peer, stage⟩ ∧ Moves s node peer stage stage' t ∧
        step s op = setStage t k ⟨node, peer, stage⟩ stage' := by
  cases op with
  | addAsset node objectID force nonce | removeAsset node objectID | call k order => simp [Op.pulls] at hop
  | syncAssets node peer => exact .inr (.inl ⟨node, peer, rfl⟩)
  | interrupt k =>
    rw [step]
    cases hk : s.syncs[k]? with
    | none => exact .inl rfl
    | some sync =>
      obtain ⟨node, peer, stage⟩ := sync
      show (if stage = .done then s else setStage s k ⟨node, peer, stage⟩ .failed) = s ∨ _
      by_cases hdone : stage = .done
      · rw [if_pos hdone]
        exact .inl rfl
      · exact .inr (.inr ⟨k, node, peer, stage, .failed, s, hk, .interrupted hdone, if_neg hdone⟩)
  | sync k order =>
    rw [step]
    cases hk : s.syncs[k]? with
    | none => exact .inl rfl
    | some sync =>
      obtain ⟨node, peer, stage⟩ := sync
      cases stage with
      | done | failed => exact .inl rfl
      | reading => exact .inr (.inr ⟨k, node, peer, _, _, _, hk, .read, rfl⟩)
      | asking start =>
        by_cases hperm : order.Perm ((s.db peer).rows.filter fun row => start ≤ row.height)
        · exact .inr (.inr ⟨k, node, peer, _, _, _, hk, .answered hperm, if_pos hperm⟩)
        · exact .inl (if_neg hperm)
      | receiving updates next =>
        cases updates with
        | nil => exact .inr (.inr ⟨k, node, peer, _, _, _, hk, .stored, rfl⟩)
        | cons u updates => exact .inr (.inr ⟨k, node, peer, _, _, _, hk, .received, rfl⟩)
      | applying u call updates next =>
        have hadvance : ∀ stage', (match (statement (s.db node) order call).2 with
            | .running call => .applying u call updates next
            | .done => .receiving updates next
            | .failed => .failed) = stage' →
            advance s k order ⟨node, peer, .applying u call updates next⟩ =
              setStage (setDB s node (statement (s.db node) order call).1) k
                ⟨node, peer, .applying u call updates next⟩ stage' := by
          rintro stage' rfl
          rfl
        cases houtcome : (statement (s.db node) order call).2 with
        | running call' =>
          exact .inr (.inr ⟨k, node, peer, _, _, _, hk, .ran order houtcome, hadvance _ (by rw [houtcome])⟩)
        | done => exact .inr (.inr ⟨k, node, peer, _, _, _, hk, .applied order houtcome,
          hadvance _ (by rw [houtcome])⟩)
        | failed => exact .inr (.inr ⟨k, node, peer, _, _, _, hk, .refused order houtcome,
          hadvance _ (by rw [houtcome])⟩)

theorem step_local {op : Op Node Nonce ObjectID} (hop : op.pulls = false) :
    (step s op).nextHeight = s.nextHeight ∧ (step s op).syncs = s.syncs := by
  cases op with
  | syncAssets node peer | sync k order | interrupt k => simp [Op.pulls] at hop
  | removeAsset node objectID => exact ⟨rfl, rfl⟩
  | addAsset node objectID force nonce | call k order =>
    rw [step]
    split
    · exact ⟨rfl, rfl⟩
    · exact ⟨rfl, rfl⟩

section

variable {s t : State Node Nonce ObjectID} {node peer : Node} {stage stage' : Stage Nonce ObjectID}

theorem Moves.same (h : Moves s node peer stage stage' t) :
    t.drawn = s.drawn ∧ t.calls = s.calls ∧ t.syncs = s.syncs := by
  cases h with
  | read | answered | received | stored | ran | applied | refused | interrupted => exact ⟨rfl, rfl, rfl⟩

end

/-! ## Nonces and objects -/

/-- The updates that the sync has still to apply. -/
def Stage.updates : Stage Nonce ObjectID → List (Update Nonce ObjectID)
  | .receiving updates _ => updates
  | .applying u _ updates _ => u :: updates
  | .reading | .asking _ | .done | .failed => []

/-- The updates have the objects of their nonces and are known to the peer, and the method that runs
applies the first. -/
structure Stage.Sound (drawn : Nonce → Option ObjectID) (db : DB Nonce ObjectID) (stage : Stage Nonce ObjectID) :
    Prop where
  updates : ∀ u ∈ stage.updates, drawn u.nonce = some u.objectID ∧ Knows db u.nonce u.removed
  applying : ∀ u call updates next, stage = .applying u call updates next → call.Draws drawn ∧ call.Applies u

structure Sound (s : State Node Nonce ObjectID) : Prop where
  rows : ∀ node, ∀ row ∈ (s.db node).rows, s.drawn row.nonce = some row.objectID
  calls : ∀ call ∈ s.calls, call.2.Draws s.drawn
  syncs : ∀ sync ∈ s.syncs, sync.stage.Sound s.drawn (s.db sync.peer)

section

omit [DecidableEq Node] [DecidableEq Nonce] [DecidableEq ObjectID]

variable {drawn drawn' : Nonce → Option ObjectID} (hdrawn : ∀ nonce objectID, drawn nonce = some objectID →
  drawn' nonce = some objectID)

include hdrawn

theorem Call.Draws.mono {call : Call Nonce ObjectID} (h : call.Draws drawn) : call.Draws drawn' := by
  cases call with
  | assetExists nonce objectID | nonceExists nonce objectID | first nonce objectID => exact hdrawn _ _ h
  | liveRows objectID => trivial
  | height change rest | write change height rest => exact fun c hc => hdrawn _ _ (h c hc)

theorem Outcome.Draws.mono {outcome : Outcome Nonce ObjectID} (h : outcome.Draws drawn) :
    outcome.Draws drawn' := by
  cases outcome with
  | running call => exact Call.Draws.mono hdrawn h
  | done | failed => trivial

theorem Stage.Sound.mono {db db' : DB Nonce ObjectID}
    (hknows : ∀ nonce removed, Knows db nonce removed → Knows db' nonce removed)
    {stage : Stage Nonce ObjectID}
    (h : stage.Sound drawn db) : stage.Sound drawn' db' where
  updates u hu := ⟨hdrawn _ _ (h.updates u hu).1, hknows _ _ (h.updates u hu).2⟩
  applying u call updates next hstage := by
    obtain ⟨hdraws, happlies⟩ := h.applying u call updates next hstage
    exact ⟨hdraws.mono hdrawn, happlies⟩

end

/-- The objects of the nonces, in the tables after a statement. -/
theorem Sound.statement (h : Sound s) (node : Node) (order : List (Asset Nonce ObjectID))
    {call : Call Nonce ObjectID} (hcall : call.Draws s.drawn) (n : Node) :
    ∀ row ∈ (update s.db node (statement (s.db node) order call).1 n).rows,
      s.drawn row.nonce = some row.objectID := by
  intro row hrow
  by_cases hn : n = node
  · subst hn
    rw [update_self] at hrow
    exact (statement_draws (h.rows n) order hcall).1 row hrow
  · rw [update_of_ne hn] at hrow
    exact h.rows n row hrow

theorem Moves.sound {t : State Node Nonce ObjectID} {node peer : Node} {stage stage' : Stage Nonce ObjectID}
    (h : Moves s node peer stage stage' t) (hs : Sound s) (hstage : stage.Sound s.drawn (s.db peer))
    (hknows : ∀ nonce removed, Knows (s.db peer) nonce removed → Knows (t.db peer) nonce removed) :
    stage'.Sound s.drawn (t.db peer) ∧ ∀ n, ∀ row ∈ (t.db n).rows, s.drawn row.nonce = some row.objectID := by
  cases h with
  | read | stored | interrupted => exact ⟨⟨fun u hu => absurd hu not_mem_nil, nofun⟩, hs.rows⟩
  | answered hperm =>
    refine ⟨⟨fun u hu => ?_, nofun⟩, hs.rows⟩
    obtain ⟨row, hrow, rfl⟩ := mem_map.mp hu
    have hmem := mem_of_mem_filter (hperm.mem_iff.mp hrow)
    exact ⟨hs.rows peer row hmem, row, hmem, rfl, le_rfl⟩
  | received =>
    rename_i u updates next
    refine ⟨⟨hstage.updates, ?_⟩, hs.rows⟩
    rintro _ _ _ _ ⟨⟩
    refine ⟨?_, u.call_applies⟩
    have hdrawn := (hstage.updates u mem_cons_self).1
    rw [Update.call]
    split
    · exact hdrawn
    · exact hdrawn
  | ran order houtcome =>
    rename_i u call call' updates next
    obtain ⟨hdraws, happlies⟩ := hstage.applying _ _ _ _ rfl
    refine ⟨⟨fun v hv => ⟨(hstage.updates v hv).1, hknows _ _ (hstage.updates v hv).2⟩, ?_⟩, hs.statement node order hdraws⟩
    rintro _ _ _ _ ⟨⟩
    refine ⟨?_, (statement_applies (s.db node) order happlies).1 call' houtcome⟩
    have hdraws' := (statement_draws (hs.rows node) order hdraws).2
    rw [houtcome] at hdraws'
    exact hdraws'
  | applied order houtcome =>
    rename_i u call updates next
    refine ⟨⟨fun v hv => ?_, nofun⟩, hs.statement node order (hstage.applying _ _ _ _ rfl).1⟩
    obtain ⟨hdrawn, hknown⟩ := hstage.updates v (mem_cons_of_mem _ hv)
    exact ⟨hdrawn, hknows _ _ hknown⟩
  | refused order houtcome =>
    rename_i u call updates next
    exact ⟨⟨fun v hv => absurd hv not_mem_nil, nofun⟩,
      hs.statement node order (hstage.applying _ _ _ _ rfl).1⟩

theorem Sound.step (h : Sound s) (op : Op Node Nonce ObjectID) : Sound (step s op) := by
  have hsyncs : ∀ {t : State Node Nonce ObjectID}, (∀ n nonce removed, Knows (s.db n) nonce removed →
      Knows (t.db n) nonce removed) → (∀ nonce objectID, s.drawn nonce = some objectID →
        t.drawn nonce = some objectID) →
      ∀ sync ∈ s.syncs, sync.stage.Sound t.drawn (t.db sync.peer) := fun hknows hdrawn sync hsync =>
    (h.syncs sync hsync).mono hdrawn (hknows sync.peer)
  have hknows : ∀ n nonce removed, Knows (s.db n) nonce removed → Knows ((User.step s op).db n) nonce removed :=
    fun n nonce removed hknown => knows_step hknown op
  cases hop : op.pulls with
  | true =>
    rcases step_pulls hop with hstep | ⟨node, peer, hstep⟩ | ⟨k, node, peer, stage, stage', t, hk, hmove, hstep⟩
    · rw [hstep]
      exact h
    · rw [hstep]
      refine { h with syncs := fun sync hsync => ?_ }
      rcases mem_append.mp hsync with hsync | hsync
      · exact h.syncs sync hsync
      · rw [mem_singleton.mp hsync]
        exact ⟨fun u hu => absurd hu not_mem_nil, nofun⟩
    · rw [hstep] at hknows ⊢
      obtain ⟨hstage, hrows⟩ := hmove.sound h (h.syncs _ (mem_of_getElem? hk)) (hknows peer)
      obtain ⟨hdrawn, hcalls, hsame⟩ := hmove.same
      refine ⟨?_, ?_, fun sync hsync => ?_⟩
      · show ∀ n, ∀ row ∈ (t.db n).rows, t.drawn row.nonce = some row.objectID
        rw [hdrawn]
        exact hrows
      · show ∀ call ∈ t.calls, call.2.Draws t.drawn
        rw [hdrawn, hcalls]
        exact h.calls
      · show sync.stage.Sound t.drawn (t.db sync.peer)
        rw [hdrawn]
        have hsync' : sync ∈ s.syncs.set k ⟨node, peer, stage'⟩ := hsame ▸ hsync
        rcases mem_or_eq_of_mem_set hsync' with hsync | rfl
        · exact (h.syncs sync hsync).mono (fun _ _ hdrawn => hdrawn) (hknows sync.peer)
        · exact hstage
  | false =>
    cases op with
    | syncAssets node peer | sync k order | interrupt k => simp [Op.pulls] at hop
    | addAsset node objectID force nonce =>
      rw [User.step] at hknows ⊢
      split
      · rename_i hfresh
        rw [if_pos hfresh] at hknows
        have hdrawn : ∀ n o, s.drawn n = some o → update s.drawn nonce (some objectID) n = some o := by
          intro n o hn
          rw [update_of_ne (by rintro rfl; simp [hfresh] at hn)]
          exact hn
        have hself : update s.drawn nonce (some objectID) nonce = some objectID := update_self _ _ _
        refine ⟨fun n row hrow => hdrawn _ _ (h.rows n row hrow), fun call hcall => ?_, hsyncs hknows hdrawn⟩
        rcases mem_append.mp hcall with hcall | hcall
        · exact (h.calls call hcall).mono hdrawn
        · rw [mem_singleton.mp hcall]
          show Call.Draws _ (if force then _ else _)
          split
          · intro c hc
            rw [mem_singleton.mp hc]
            exact hself
          · exact hself
      · exact h
    | removeAsset node objectID =>
      refine { h with calls := fun call hcall => ?_ }
      rcases mem_append.mp hcall with hcall | hcall
      · exact h.calls call hcall
      · rw [mem_singleton.mp hcall]
        trivial
    | call k order =>
      rw [User.step] at hknows ⊢
      split at hknows
      · rename_i node call hk
        have hcall : call.Draws s.drawn := h.calls _ (mem_of_getElem? hk)
        refine ⟨h.statement node order hcall, fun c hc => ?_, hsyncs hknows fun _ _ hdrawn => hdrawn⟩
        rcases mem_or_eq_of_mem_set hc with hc | rfl
        · exact h.calls c hc
        · exact (statement_draws (h.rows node) order hcall).2
      · exact h

theorem sound_exec (ops : List (Op Node Nonce ObjectID)) : Sound (exec ops) := by
  refine Trace.invariant (I := fun _ s => Sound s) ?_ (fun op past ih => ih.step op) ops
  exact ⟨fun _ _ hrow => absurd hrow not_mem_nil, fun _ hcall => absurd hcall not_mem_nil,
    fun _ hsync => absurd hsync not_mem_nil⟩

end Network

end Astrald.User
