import Mathlib
import Astrald.Lib.Table
import Astrald.Lib.Trace
import Astrald.User.Assets
import Astrald.User.Syncs

/-!
# Replication of assets

A peer never sends again what is below the height from which it is asked, so a row must not get
there unseen. The height of a row is read before the row is written, and other writes may land in
between, and be marked at another height: the row then lands where the peer has passed.

* `Seen`: a row below the height from which a node asks next is known to the node, or on its way;
* `Caught`: a sync that was begun after the last local write ends with all that its peer had then;
* `replication`: the rows below a stored height are known, removals last, and a round of syncs makes
  all nodes equal, as long as no write lands where a peer has passed unseen;
* `late_add_skipped`: a late write is skipped for good.
-/

namespace Astrald.User

open List Function

section Network

variable {Node Nonce ObjectID : Type} [DecidableEq Node] [DecidableEq Nonce] [DecidableEq ObjectID]

/-! ## Rows that a peer has passed -/

/-- The table knows the row, or one of the updates says it. -/
def Owed (db : DB Nonce ObjectID) (row : Asset Nonce ObjectID) (updates : List (Update Nonce ObjectID)) :
    Prop :=
  Knows db row.nonce row.removed ∨ ∃ u ∈ updates, u.nonce = row.nonce ∧ row.removed ≤ u.removed

/-- The height from which the node asks next, if the sync ends as it is. -/
def Stage.bound : Stage Nonce ObjectID → Option ℕ
  | .asking start => some start
  | .receiving _ next | .applying _ _ _ next => some next
  | .reading | .done | .failed => none

/-- A row of `peer` below the height from which a node asks next, stored or to be stored, is known to
the node or on its way. -/
def Seen (s : State Node Nonce ObjectID) (peer : Node) (row : Asset Nonce ObjectID) : Prop :=
  (∀ node, ∀ next ∈ s.nextHeight node peer, row.height < next → Knows (s.db node) row.nonce row.removed) ∧
    ∀ sync ∈ s.syncs, sync.peer = peer → ∀ bound ∈ sync.stage.bound, row.height < bound →
      Owed (s.db sync.node) row sync.stage.updates

section

omit [DecidableEq Node] [DecidableEq Nonce] [DecidableEq ObjectID]

variable {db : DB Nonce ObjectID} {row : Asset Nonce ObjectID}

theorem Owed.mono {db' : DB Nonce ObjectID}
    (hknows : ∀ nonce removed, Knows db nonce removed → Knows db' nonce removed)
    {updates : List (Update Nonce ObjectID)} (h : Owed db row updates) : Owed db' row updates :=
  h.imp_left (hknows _ _)

theorem Owed.knows (h : Owed db row []) : Knows db row.nonce row.removed := by
  rcases h with h | ⟨u, hu, -⟩
  · exact h
  · exact absurd hu not_mem_nil

/-- What a newer row of the same nonce is owed. -/
theorem Owed.of_le {row' : Asset Nonce ObjectID} {updates : List (Update Nonce ObjectID)}
    (h : Owed db row' updates) (hnonce : row'.nonce = row.nonce) (hle : row.removed ≤ row'.removed) :
    Owed db row updates := by
  rcases h with h | ⟨u, hu, hu', hremoved⟩
  · rw [hnonce] at h
    exact .inl (h.of_le hle)
  · exact .inr ⟨u, hu, hu'.trans hnonce, hle.trans hremoved⟩

end

section

variable {s t : State Node Nonce ObjectID} {node peer : Node} {stage stage' : Stage Nonce ObjectID}

variable {row : Asset Nonce ObjectID}

/-- A sync that does not fail loses nothing that it owes. -/
theorem Moves.owed (h : Moves s node peer stage stage' t) (hstage : stage.Sound s.drawn (s.db peer))
    (hknows : ∀ nonce removed, Knows (s.db node) nonce removed → Knows (t.db node) nonce removed)
    (hfailed : stage' ≠ .failed) (howed : Owed (s.db node) row stage.updates) :
    Owed (t.db node) row stage'.updates := by
  cases h with
  | read | received | stored => exact howed
  | answered hperm => exact .inl howed.knows
  | ran order houtcome => exact howed.mono hknows
  | applied order houtcome =>
    rename_i u call updates next
    rcases howed with howed | ⟨v, hv, hnonce, hremoved⟩
    · exact .inl (hknows _ _ howed)
    · rcases mem_cons.mp hv with rfl | hv
      · -- the method is done, so the table knows the update
        have happlies := (hstage.applying _ _ _ _ rfl).2
        have hknown : Knows (statement (s.db node) order call).1 v.nonce v.removed :=
          (statement_applies (s.db node) order happlies).2.1 houtcome
        left
        show Knows (update s.db node _ node) row.nonce row.removed
        rw [update_self, ← hnonce]
        exact hknown.of_le hremoved
      · exact .inr ⟨v, hv, hnonce, hremoved⟩
  | refused order houtcome | interrupted hdone => exact absurd rfl hfailed

omit [DecidableEq Node] [DecidableEq Nonce] [DecidableEq ObjectID] in
/-- A row of the peer after the answer: below the height that was asked for, or sent. -/
theorem owed_answered {start : ℕ} {order : List (Asset Nonce ObjectID)} {db db' : DB Nonce ObjectID}
    (hperm : order.Perm (db'.rows.filter fun row => start ≤ row.height)) (hrow : row ∈ db'.rows)
    (hbelow : row.height < start → Owed db row []) : Owed db row (order.map Asset.update) := by
  by_cases hlt : row.height < start
  · exact .inl (hbelow hlt).knows
  · have hsent : row ∈ order := by
      refine hperm.mem_iff.mpr (mem_filter.mpr ⟨hrow, ?_⟩)
      simpa using hlt
    exact .inr ⟨row.update, mem_map_of_mem hsent, rfl, le_rfl⟩

theorem Seen.moves {j : Node} (h : Seen s j row) {k : ℕ} (hk : s.syncs[k]? = some ⟨node, peer, stage⟩)
    (hmove : Moves s node peer stage stage' t) (hstage : stage.Sound s.drawn (s.db peer))
    (hknows : ∀ n nonce removed, Knows (s.db n) nonce removed → Knows (t.db n) nonce removed)
    (hrow : ∀ start, stage = .asking start → row ∈ (s.db j).rows) :
    Seen (setStage t k ⟨node, peer, stage⟩ stage') j row := by
  have hmem := mem_of_getElem? hk
  constructor
  · intro n next hnext hlt
    cases hmove with
    | read | answered | received | interrupted => exact h.1 n next hnext hlt
    | ran | applied | refused => exact hknows _ _ _ (h.1 n next hnext hlt)
    | stored =>
      rename_i bound
      have hnext' : next ∈ update s.nextHeight node (update (s.nextHeight node) peer (some bound)) n j :=
        hnext
      by_cases hn : n = node
      · subst hn
        rw [update_self] at hnext'
        by_cases hj : j = peer
        · -- nothing is left to apply
          subst hj
          rw [update_self] at hnext'
          obtain rfl : bound = next := Option.some.inj hnext'
          exact (h.2 _ hmem rfl bound rfl hlt).knows
        · rw [update_of_ne hj] at hnext'
          exact h.1 n next hnext' hlt
      · rw [update_of_ne hn] at hnext'
        exact h.1 n next hnext' hlt
  · intro sync hsync hpeer bound hbound hlt
    have hsync' : sync ∈ s.syncs.set k ⟨node, peer, stage'⟩ := hmove.same.2.2 ▸ hsync
    rcases mem_or_eq_of_mem_set hsync' with hold | rfl
    · exact (h.2 sync hold hpeer bound hbound hlt).mono (hknows sync.node)
    · obtain rfl : peer = j := hpeer
      have hsame : bound ∈ stage.bound → Owed (t.db node) row stage'.updates := by
        intro hbound'
        refine hmove.owed hstage (hknows node) ?_ (h.2 _ hmem rfl bound hbound' hlt)
        rintro rfl
        cases hbound
      show Owed (t.db node) row stage'.updates
      cases hmove with
      | stored | refused | interrupted => cases hbound
      | received | ran | applied => exact hsame hbound
      | answered hperm =>
        exact owed_answered hperm (hrow _ rfl) fun hlt => h.2 _ hmem rfl _ rfl hlt
      | read =>
        left
        obtain rfl : (s.nextHeight node peer).getD 0 = bound := Option.some.inj hbound
        cases hnext : s.nextHeight node peer with
        | none =>
          rw [hnext] at hlt
          exact absurd hlt (Nat.not_lt_zero _)
        | some next =>
          rw [hnext] at hlt
          exact h.1 node next hnext hlt

end

instance (db : DB Nonce ObjectID) (row : Asset Nonce ObjectID) (updates : List (Update Nonce ObjectID)) :
    Decidable (Owed db row updates) :=
  inferInstanceAs (Decidable (_ ∨ _))

instance [Fintype Node] (s : State Node Nonce ObjectID) (peer : Node) (row : Asset Nonce ObjectID) :
    Decidable (Seen s peer row) :=
  inferInstanceAs (Decidable (_ ∧ _))

/-- A write lands on a row that no peer has passed without knowing it. -/
def Timely (s : State Node Nonce ObjectID) (op : Op Node Nonce ObjectID) : Prop :=
  ∀ w ∈ lands s op, (write (s.db w.1) w.2.1 w.2.2).isSome → Seen s w.1 (w.2.1.row w.2.2)

instance [Fintype Node] (s : State Node Nonce ObjectID) : DecidablePred (Timely s) := fun op =>
  inferInstanceAs (Decidable (∀ w ∈ lands s op, _))

variable {s : State Node Nonce ObjectID}

variable {op : Op Node Nonce ObjectID}

theorem mem_step {node : Node} {row : Asset Nonce ObjectID}
    (hrow : row ∈ ((step s op).db node).rows) :
    row ∈ (s.db node).rows ∨ ∃ change height, lands s op = some (node, change, height) ∧
      (write (s.db node) change height).isSome ∧ row = change.row height := by
  rcases step_db s op with hdb | ⟨node', change, height, db, hlands, hwrite, hdb⟩
  · rw [hdb] at hrow
    exact .inl hrow
  · rw [hdb] at hrow
    by_cases hnode : node = node'
    · subst hnode
      rw [update_self] at hrow
      rcases ((write_spec hwrite).1 row).mp hrow with rfl | ⟨hrow, -⟩
      · exact .inr ⟨change, height, hlands, by rw [hwrite]; rfl, rfl⟩
      · exact .inl hrow
    · rw [update_of_ne hnode] at hrow
      exact .inl hrow

theorem seen_step (hsound : Sound s) (hseen : ∀ peer, ∀ row ∈ (s.db peer).rows, Seen s peer row)
    (hop : Timely s op) (peer : Node) (row : Asset Nonce ObjectID)
    (hrow : row ∈ ((step s op).db peer).rows) : Seen (step s op) peer row := by
  have hknows : ∀ n nonce removed, Knows (s.db n) nonce removed → Knows ((step s op).db n) nonce removed :=
    fun n nonce removed hknown => knows_step hknown op
  -- before the step the row was seen, there or not
  have hbefore : Seen s peer row := by
    rcases mem_step hrow with hrow | ⟨change, height, hlands, hwrite, rfl⟩
    · exact hseen peer row hrow
    · exact hop _ hlands hwrite
  cases hpulls : op.pulls with
  | true =>
    rcases step_pulls hpulls with hstep | ⟨node, peer', hstep⟩ |
      ⟨k, node, peer', stage, stage', t, hk, hmove, hstep⟩
    · rw [hstep]
      exact hbefore
    · rw [hstep]
      refine ⟨hbefore.1, fun sync hsync hpeer bound hbound hlt => ?_⟩
      rcases mem_append.mp hsync with hsync | hsync
      · exact hbefore.2 sync hsync hpeer bound hbound hlt
      · rw [mem_singleton.mp hsync] at hbound
        cases hbound
    · rw [hstep] at hknows hrow ⊢
      refine hbefore.moves hk hmove (hsound.syncs _ (mem_of_getElem? hk)) hknows ?_
      rintro start rfl
      cases hmove with
      | answered | interrupted => exact hrow
  | false =>
    obtain ⟨hnext, hsyncs⟩ := step_local (s := s) hpulls
    constructor
    · intro n next hn hlt
      rw [hnext] at hn
      exact hknows _ _ _ (hbefore.1 n next hn hlt)
    · intro sync hsync hpeer bound hbound hlt
      rw [hsyncs] at hsync
      exact (hbefore.2 sync hsync hpeer bound hbound hlt).mono (hknows sync.node)

theorem seen_exec (ops : List (Op Node Nonce ObjectID))
    (hops : Trace.Along (fun past op => Timely (exec past) op) ops) (peer : Node) :
    ∀ row ∈ ((exec ops).db peer).rows, Seen (exec ops) peer row := by
  revert peer
  refine hops.invariant (I := fun s => ∀ peer, ∀ row ∈ (s.db peer).rows, Seen s peer row) ?_ ?_
  · exact fun peer row hrow => absurd hrow not_mem_nil
  · exact fun op past hop ih => seen_step (sound_exec past) ih hop

/-! ## Rounds -/

/-- The peer has sent its rows to the sync, and the sync has not failed. -/
def Stage.answered : Stage Nonce ObjectID → Bool
  | .receiving _ _ | .applying _ _ _ _ | .done => true
  | .reading | .asking _ | .failed => false

/-- What holds while only syncs run, from tables `base` on: the syncs from number `first` on have
been sent all rows of the base, and no table or update says more than the base. -/
structure Caught (base : Node → DB Nonce ObjectID) (first : ℕ) (s : State Node Nonce ObjectID) : Prop where
  grown : ∀ node nonce removed, Knows (base node) nonce removed → Knows (s.db node) nonce removed
  owed : ∀ k sync, first ≤ k → s.syncs[k]? = some sync → sync.stage.answered = true →
    ∀ row ∈ (base sync.peer).rows, Owed (s.db sync.node) row sync.stage.updates
  rows : ∀ node, ∀ row ∈ (s.db node).rows, ∃ origin, Knows (base origin) row.nonce row.removed
  updates : ∀ sync ∈ s.syncs, ∀ u ∈ sync.stage.updates, ∃ origin, Knows (base origin) u.nonce u.removed

omit [DecidableEq Node] [DecidableEq Nonce] [DecidableEq ObjectID] in
theorem Sound.caught (h : Sound s) : Caught s.db s.syncs.length s where
  grown _ _ _ hknows := hknows
  owed _ _ hk hsync := absurd (List.getElem?_eq_some_iff.mp hsync).1 (Nat.not_lt.mpr hk)
  rows node row hrow := ⟨node, row, hrow, rfl, le_rfl⟩
  updates sync hsync u hu := ⟨sync.peer, ((h.syncs sync hsync).updates u hu).2⟩

section

variable {base : Node → DB Nonce ObjectID} {first : ℕ} {s t : State Node Nonce ObjectID} {node peer : Node}
  {stage stage' : Stage Nonce ObjectID}

theorem Caught.owed_moves (h : Caught base first s) (hsound : stage.Sound s.drawn (s.db peer))
    (hseen : ∀ peer, ∀ row ∈ (s.db peer).rows, Seen s peer row) {k : ℕ} (hfirst : first ≤ k)
    (hk : s.syncs[k]? = some ⟨node, peer, stage⟩) (hmove : Moves s node peer stage stage' t)
    (hknows : ∀ nonce removed, Knows (s.db node) nonce removed → Knows (t.db node) nonce removed)
    (hanswered : stage'.answered = true) (row : Asset Nonce ObjectID) (hrow : row ∈ (base peer).rows) :
    Owed (t.db node) row stage'.updates := by
  have hsame : stage.answered = true → Owed (t.db node) row stage'.updates := by
    intro hstage
    refine hmove.owed hsound hknows ?_ (h.owed k _ hfirst hk hstage row hrow)
    rintro rfl
    cases hanswered
  cases hmove with
  | received | stored | ran | applied => exact hsame rfl
  | read | refused | interrupted => cases hanswered
  | answered hperm =>
    -- the peer has the row still, or a newer one of its nonce
    obtain ⟨row', hrow', hnonce, hle⟩ := h.grown peer _ _ ⟨row, hrow, rfl, le_rfl⟩
    have hbelow := (hseen peer row' hrow').2 _ (mem_of_getElem? hk) rfl _ rfl
    exact (owed_answered hperm hrow' hbelow).of_le hnonce hle

theorem Caught.rows_moves (h : Caught base first s) (hsound : stage.Sound s.drawn (s.db peer))
    (hmem : ⟨node, peer, stage⟩ ∈ s.syncs) (hmove : Moves s node peer stage stage' t) :
    (∀ n, ∀ row ∈ (t.db n).rows, ∃ origin, Knows (base origin) row.nonce row.removed) ∧
      ∀ u ∈ stage'.updates, ∃ origin, Knows (base origin) u.nonce u.removed := by
  have hupdates := h.updates _ hmem
  have hrows : ∀ {u call updates next} (order : List (Asset Nonce ObjectID)), stage =
      .applying u call updates next →
      ∀ n, ∀ row ∈ (update s.db node (statement (s.db node) order call).1 n).rows,
        ∃ origin, Knows (base origin) row.nonce row.removed := by
    intro u call updates next order hstage n row hrow
    by_cases hn : n = node
    · subst hn
      rw [update_self] at hrow
      have happlies := (hsound.applying _ _ _ _ hstage).2
      rcases (statement_applies (s.db n) order happlies).2.2 row hrow with hrow | ⟨hnonce, hremoved⟩
      · exact h.rows n row hrow
      · rw [hnonce, hremoved]
        refine hupdates u ?_
        show u ∈ stage.updates
        rw [hstage]
        exact mem_cons_self
    · rw [update_of_ne hn] at hrow
      exact h.rows n row hrow
  have hnone : ∀ u ∈ ([] : List (Update Nonce ObjectID)), ∃ origin, Knows (base origin) u.nonce u.removed :=
    fun u hu => absurd hu not_mem_nil
  cases hmove with
  | read | stored | interrupted => exact ⟨h.rows, hnone⟩
  | answered hperm =>
    refine ⟨h.rows, fun u hu => ?_⟩
    obtain ⟨row, hrow, rfl⟩ := mem_map.mp hu
    exact h.rows peer row (mem_of_mem_filter (hperm.mem_iff.mp hrow))
  | received => exact ⟨h.rows, hupdates⟩
  | ran order houtcome => exact ⟨hrows order rfl, hupdates⟩
  | applied order houtcome => exact ⟨hrows order rfl, fun u hu => hupdates u (mem_cons_of_mem _ hu)⟩
  | refused order houtcome => exact ⟨hrows order rfl, hnone⟩

theorem Caught.step (h : Caught base first s) (hsound : Sound s)
    (hseen : ∀ peer, ∀ row ∈ (s.db peer).rows, Seen s peer row) (hop : op.pulls = true) :
    Caught base first (step s op) := by
  have hknows : ∀ n nonce removed, Knows (s.db n) nonce removed →
      Knows ((User.step s op).db n) nonce removed :=
    fun n nonce removed hknown => knows_step hknown op
  rcases step_pulls hop with hstep | ⟨node, peer, hstep⟩ | ⟨k, node, peer, stage, stage', t, hk, hmove, hstep⟩
  · rw [hstep]
    exact h
  · rw [hstep]
    refine ⟨h.grown, fun l sync hl hsync hanswered => ?_, h.rows, fun sync hsync => ?_⟩
    · by_cases hlt : l < s.syncs.length
      · have hold : (s.syncs ++ [⟨node, peer, .reading⟩])[l]? = s.syncs[l]? := List.getElem?_append_left hlt
        exact h.owed l sync hl (hold.symm.trans hsync) hanswered
      · have hnew : (s.syncs ++ [⟨node, peer, .reading⟩])[l]? =
            [⟨node, peer, .reading⟩][l - s.syncs.length]? :=
          List.getElem?_append_right (Nat.not_lt.mp hlt)
        have hmem := mem_of_getElem? (hnew.symm.trans hsync)
        rw [mem_singleton.mp hmem] at hanswered
        cases hanswered
    · rcases mem_append.mp hsync with hsync | hsync
      · exact h.updates sync hsync
      · rw [mem_singleton.mp hsync]
        exact fun u hu => absurd hu not_mem_nil
  · rw [hstep] at hknows ⊢
    have hmem := mem_of_getElem? hk
    obtain ⟨hrows, hupdates⟩ := h.rows_moves (hsound.syncs _ hmem) hmem hmove
    have hsyncs : (setStage t k ⟨node, peer, stage⟩ stage').syncs = s.syncs.set k ⟨node, peer, stage'⟩ := by
      rw [← hmove.same.2.2]
      rfl
    refine ⟨fun n nonce removed hknown => hknows _ _ _ (h.grown n _ _ hknown), ?_, hrows,
      fun sync hsync => ?_⟩
    · intro l sync hl hsync hanswered
      rw [hsyncs] at hsync
      by_cases hlk : k = l
      · subst hlk
        rw [List.getElem?_set_self (List.getElem?_eq_some_iff.mp hk).1] at hsync
        obtain rfl := Option.some.inj hsync
        show ∀ row ∈ (base peer).rows, Owed (t.db node) row stage'.updates
        exact h.owed_moves (hsound.syncs _ hmem) hseen hl hk hmove (hknows node) hanswered
      · rw [List.getElem?_set_ne hlk] at hsync
        exact fun row hrow => (h.owed l sync hl hsync hanswered row hrow).mono (hknows sync.node)
    · rw [hsyncs] at hsync
      rcases mem_or_eq_of_mem_set hsync with hsync | rfl
      · exact h.updates sync hsync
      · exact hupdates

end

theorem caught_exec {earlier later : List (Op Node Nonce ObjectID)}
    (hops : Trace.Along (fun past op => Timely (exec past) op) (later ++ earlier))
    (hpulls : ∀ op ∈ later, op.pulls = true) :
    Caught (exec earlier).db (exec earlier).syncs.length (exec (later ++ earlier)) := by
  induction later with
  | nil => exact (sound_exec earlier).caught
  | cons op later ih =>
    have hrest := ih hops.2 fun op hop => hpulls op (mem_cons_of_mem _ hop)
    exact hrest.step (sound_exec _) (seen_exec _ hops.2) (hpulls op mem_cons_self)

/-- Every node has completed a sync from every other, begun since the first `first` syncs. -/
def Round (first : ℕ) (s : State Node Nonce ObjectID) : Prop :=
  ∀ node peer, node ≠ peer → ⟨node, peer, .done⟩ ∈ s.syncs.drop first

instance [Fintype Node] (first : ℕ) (s : State Node Nonce ObjectID) : Decidable (Round first s) :=
  inferInstanceAs (Decidable (∀ node peer, node ≠ peer → ⟨node, peer, .done⟩ ∈ s.syncs.drop first))

omit [DecidableEq Nonce] [DecidableEq ObjectID] in
/-- After a round every node knows what any node knows. -/
theorem Caught.agree {base : Node → DB Nonce ObjectID} {first : ℕ} (h : Caught base first s)
    (hround : Round first s) (i j : Node) {row : Asset Nonce ObjectID} (hrow : row ∈ (s.db i).rows) :
    Knows (s.db j) row.nonce row.removed := by
  obtain ⟨origin, row', hrow', hnonce, hle⟩ := h.rows i row hrow
  have hknows : Knows (s.db j) row'.nonce row'.removed := by
    by_cases hj : j = origin
    · subst hj
      exact h.grown j _ _ ⟨row', hrow', rfl, le_rfl⟩
    · obtain ⟨k, hk⟩ := mem_iff_getElem?.mp (hround j origin hj)
      rw [List.getElem?_drop] at hk
      exact (h.owed _ _ (Nat.le_add_right first k) hk rfl row' hrow').knows
  rw [← hnonce]
  exact hknows.of_le hle

/-- The assets of a node, without their heights. -/
def contents (db : DB Nonce ObjectID) : List (Nonce × ObjectID × Bool) :=
  db.rows.map fun row => (row.nonce, row.objectID, row.removed)

/-- **Replication.** Over every run of any number of nodes in which no write lands on a row that a
peer has passed without knowing it: a row below the height that a node has stored for a peer is
known to the node, with its object and its removal; a nonce that is marked stays marked; and when
only syncs run, one round of them leaves all nodes with the same assets. -/
theorem replication (ops : List (Op Node Nonce ObjectID))
    (hops : Trace.Along (fun past op => Timely (exec past) op) ops) :
    (∀ node peer, ∀ next ∈ (exec ops).nextHeight node peer, ∀ row ∈ ((exec ops).db peer).rows, row.height < next →
      ∃ row' ∈ ((exec ops).db node).rows, row'.nonce = row.nonce ∧ row'.objectID = row.objectID ∧
        (row.removed = true → row'.removed = true)) ∧
    (∀ later earlier, ops = later ++ earlier → ∀ node, ∀ row ∈ ((exec earlier).db node).rows, row.removed = true →
      ∃ row' ∈ ((exec ops).db node).rows, row'.nonce = row.nonce ∧ row'.removed = true ∧
        ∀ row'' ∈ ((exec ops).db node).rows, row''.nonce = row.nonce → row''.removed = true) ∧
    ∀ later earlier, ops = later ++ earlier → (∀ op ∈ later, op.pulls = true) →
      Round (exec earlier).syncs.length (exec ops) →
      ∀ i j asset, asset ∈ contents ((exec ops).db i) ↔ asset ∈ contents ((exec ops).db j) := by
  have hsound := sound_exec ops
  refine ⟨?_, ?_, ?_⟩
  · intro node peer next hnext row hrow hlt
    obtain ⟨row', hrow', hnonce, hle⟩ := (seen_exec ops hops peer row hrow).1 node next hnext hlt
    refine ⟨row', hrow', hnonce, ?_, hle⟩
    have hdrawn := hsound.rows node row' hrow'
    rw [hnonce, hsound.rows peer row hrow] at hdrawn
    exact (Option.some.inj hdrawn).symm
  · rintro later earlier rfl node row hrow hremoved
    have hknows : Knows ((exec (later ++ earlier)).db node) row.nonce row.removed := by
      rw [exec, Trace.exec_append]
      exact knows_run ⟨row, hrow, rfl, le_rfl⟩ later
    obtain ⟨row', hrow', hnonce, hle⟩ := hknows
    refine ⟨row', hrow', hnonce, hle hremoved, fun row'' hrow'' hnonce'' => ?_⟩
    rw [Table.eq_of_key hrow'' hrow' (hnonce''.trans hnonce.symm)]
    exact hle hremoved
  · rintro later earlier rfl hpulls hround
    have hcaught := caught_exec hops hpulls
    have hsub : ∀ i j asset, asset ∈ contents ((exec (later ++ earlier)).db i) →
        asset ∈ contents ((exec (later ++ earlier)).db j) := by
      intro i j asset hasset
      obtain ⟨row, hrow, rfl⟩ := mem_map.mp hasset
      obtain ⟨row', hrow', hnonce, hle⟩ := hcaught.agree hround i j hrow
      obtain ⟨row'', hrow'', hnonce'', hle'⟩ := hcaught.agree hround j i hrow'
      obtain rfl : row'' = row := Table.eq_of_key hrow'' hrow (hnonce''.trans hnonce)
      have hdrawn := hsound.rows j row' hrow'
      rw [hnonce, hsound.rows i row'' hrow''] at hdrawn
      refine mem_map.mpr ⟨row', hrow', ?_⟩
      rw [hnonce, le_antisymm hle hle', Option.some.inj hdrawn]
    exact fun i j asset => ⟨hsub i j asset, hsub j i asset⟩

/-- **No disagreement.** In every run, whatever is interrupted and however late a write lands: rows of one nonce,
on whichever nodes, have one object; and a node forgets neither an asset nor a removal. -/
theorem assets_never_conflict (later earlier : List (Op Node Nonce ObjectID)) (i j : Node) :
    (∀ row ∈ ((exec (later ++ earlier)).db i).rows, ∀ row' ∈ ((exec (later ++ earlier)).db j).rows,
      row.nonce = row'.nonce → row.objectID = row'.objectID) ∧
    ∀ row ∈ ((exec earlier).db i).rows, ∃ row' ∈ ((exec (later ++ earlier)).db i).rows,
      row'.nonce = row.nonce ∧ (row.removed = true → row'.removed = true) := by
  have hsound := sound_exec (later ++ earlier)
  refine ⟨fun row hrow row' hrow' hnonce => ?_, fun row hrow => ?_⟩
  · have hdrawn := hsound.rows i row hrow
    rw [hnonce, hsound.rows j row' hrow'] at hdrawn
    exact (Option.some.inj hdrawn).symm
  · have hknows : Knows ((exec (later ++ earlier)).db i) row.nonce row.removed := by
      rw [exec, Trace.exec_append]
      exact knows_run ⟨row, hrow, rfl, le_rfl⟩ later
    exact hknows

end Network

/-- A node adds an asset and removes it again; a round of syncs brings the other node the removal. -/
theorem replication_removed :
    ∃ earlier later : List (Op Bool ℕ ℕ), Round (exec earlier).syncs.length (exec (later ++ earlier)) ∧
      ∀ asset, asset ∈ contents ((exec (later ++ earlier)).db false) ↔
        asset ∈ contents ((exec (later ++ earlier)).db true) := by
  refine ⟨[.call 1 [], .call 1 [], .call 1 [⟨1, false, 10, 0⟩], .removeAsset false 10,
      .call 0 [], .call 0 [], .call 0 [], .addAsset false 10 false 1],
    [.sync 1 [], .sync 1 [], .sync 1 [], .sync 1 [⟨1, true, 10, 0⟩], .sync 1 [], .syncAssets false true,
      .sync 0 [], .sync 0 [], .sync 0 [], .sync 0 [], .sync 0 [], .sync 0 [⟨1, true, 10, 1⟩], .sync 0 [],
      .syncAssets true false], by decide +kernel, ?_⟩
  exact (replication (_ ++ _) (by decide +kernel)).2.2 _ _ rfl (by decide) (by decide +kernel) false true

/-- Two adds run at once on a node, and the second takes the height that the first has read. Then the
one that took it is removed, at the next height; a peer syncs and stores the height after that; and
the first add lands. -/
def lateAdd : List (Op Bool ℕ ℕ) :=
  [.call 1 [], .sync 0 [], .sync 0 [], .sync 0 [], .sync 0 [], .sync 0 [], .sync 0 [], .sync 0 [], .sync 0 [],
    .sync 0 [], .sync 0 [⟨1, false, 10, 0⟩, ⟨3, true, 30, 2⟩], .sync 0 [], .syncAssets true false,
    .call 3 [], .call 3 [], .call 3 [⟨3, false, 30, 1⟩], .removeAsset false 30,
    .call 2 [], .call 2 [], .call 2 [], .addAsset false 30 false 3,
    .call 1 [], .call 1 [], .addAsset false 20 false 2,
    .call 0 [], .call 0 [], .call 0 [], .addAsset false 10 false 1]

/-- The next two rounds of syncs between the two nodes. -/
def firstRound : List (Op Bool ℕ ℕ) :=
  [.sync 2 [], .sync 2 [], .sync 2 [], .sync 2 [], .sync 2 [], .sync 2 [], .sync 2 [],
    .sync 2 [⟨1, false, 10, 0⟩, ⟨3, true, 30, 1⟩], .sync 2 [], .syncAssets false true,
    .sync 1 [], .sync 1 [], .sync 1 [], .syncAssets true false]

def secondRound : List (Op Bool ℕ ℕ) :=
  [.sync 4 [], .sync 4 [], .sync 4 [], .syncAssets false true,
    .sync 3 [], .sync 3 [], .sync 3 [], .syncAssets true false]

/-- The late row is below the height that the peer has stored, and two rounds later the peer still
has no row of its nonce. -/
theorem late_add_skipped :
    Round (exec lateAdd).syncs.length (exec (firstRound ++ lateAdd)) ∧
      Round (exec (firstRound ++ lateAdd)).syncs.length (exec (secondRound ++ (firstRound ++ lateAdd))) ∧
      (exec (secondRound ++ (firstRound ++ lateAdd))).nextHeight true false = some 3 ∧
      (⟨2, false, 20, 1⟩ : Asset ℕ ℕ) ∈ ((exec (secondRound ++ (firstRound ++ lateAdd))).db false).rows ∧
      ∀ row ∈ ((exec (secondRound ++ (firstRound ++ lateAdd))).db true).rows, row.nonce ≠ 2 := by
  decide +kernel

end Astrald.User
