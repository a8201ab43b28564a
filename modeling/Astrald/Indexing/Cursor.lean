import Astrald.Indexing.Changelog

/-!
# Cursors of an indexer

The model of `indexing/src/indexers.go` and `indexing/src/op_subscribe.go` for one registered
indexer: its cursor nodes in the tree, and any number of subscriptions that pick a change, send
it, wait for the acknowledgement and move the cursor. Every read and every write of the tree is
one step; `setState` reads the cursor in `state`, compares, makes the nodes that are missing and
writes, so another subscription can get in between its comparison and its write.

* `sound_exec`: a stored cursor `c` means that the changes `1..c` were sent and acknowledged, in
  every run;
* `cursor_law`: the cursor does not fall either, as long as no subscription passes its comparison
  for a change while another one still owes the write of the change before it;
* `late_write`: without that condition it falls.

The tree API is not part of the repository: what `tree.Get` gives for a node without a value is
a parameter, an error or zero.
-/

namespace Astrald.Indexing

open List Function

/-- What `tree.Get` answers for a node that holds no value; `none` is an error. -/
structure TreeAPI where
  getEmpty : Option ℕ
  getEmpty_zero : ∀ n, getEmpty = some n → n = 0

/-- The sub-node `cursors` of a registration: whether it exists, and its children by repository. -/
structure CursorTree where
  present : Bool
  nodes : String → Option (Option ℕ)

namespace CursorTree

def cursor (t : CursorTree) (repo : String) : ℕ := ((t.nodes repo).getD none).getD 0

/-- `tree.Query` with `create`, its two nodes one after the other, and `Set`. -/
def createCursors (t : CursorTree) : CursorTree := { t with present := true }

def createRepo (t : CursorTree) (repo : String) : CursorTree :=
  { t with nodes := Function.update t.nodes repo (some ((t.nodes repo).getD none)) }

def set (t : CursorTree) (repo : String) (v : ℕ) : CursorTree :=
  { t with nodes := Function.update t.nodes repo (some (some v)) }

end CursorTree

/-- The reads of `state`: the registration's sub-nodes, those of `cursors`, the value. -/
inductive Probe
  | registration
  | cursors
  | value
  deriving DecidableEq, Repr

/-- The outcome of one read: the next read, or what `state` returns. -/
inductive ProbeResult
  | goOn (next : Probe)
  | done (current : ℕ)
  | failed
  deriving DecidableEq, Repr

/-- One read of `state`. -/
def Probe.read (api : TreeAPI) (t : CursorTree) (repo : String) : Probe → ProbeResult
  | .registration => if t.present then .goOn .cursors else .done 0
  | .cursors =>
    match t.nodes repo with
    | none => .done 0
    | some _ => .goOn .value
  | .value =>
    match t.nodes repo with
    | none => .failed
    | some (some v) => .done v
    | some none =>
      match api.getEmpty with
      | none => .failed
      | some n => .done n

section

variable {ID : Type}

def nextChange (rows : List (Entry ID)) (repo : String) (after : ℕ) : Option (Entry ID) :=
  first (fun a b => a.version < b.version) ((entries rows repo).filter fun e => after < e.version)

end

/-- Where a subscription is in the loop of `OpSubscribe`. -/
inductive SubStage (ID : Type)
  | ended
  | idle
  /-- In `pickNextChange`: the repositories left to look at, and the read of the first one's cursor. -/
  | picking (repos : List String) (probe : Probe)
  /-- In `pickNextChange`, about to query the changes of the first repository after `current`. -/
  | querying (repos : List String) (current : ℕ)
  | sending (change : Entry ID)
  | awaiting (change : Entry ID)
  /-- In `setState`: the read of the cursor. -/
  | updating (change : Entry ID) (probe : Probe)
  /-- In `setState`, past the comparison: making the nodes and writing the version. -/
  | creating (change : Entry ID)
  | creatingRepo (change : Entry ID)
  | writing (change : Entry ID)

inductive Answer
  | ack (repo : String) (version : ℕ)
  | temporarilyFailed
  | error

inductive SubOp (ID : Type)
  | enable (repo : String)
  | disable (repo : String)
  | append (repo : String) (id : ID) (exist : Bool)
  | subscribe
  /-- Subscription `j` takes the enabled repositories, in the order the map gives them. -/
  | pick (j : ℕ) (repos : List String)
  /-- Subscription `j` makes its next call. -/
  | step (j : ℕ)
  | answer (j : ℕ) (a : Answer)
  | disconnect (j : ℕ)

/-- The indexer. `sent` and `acked` are histories: the changes sent and those acknowledged. -/
structure Indexer (ID : Type) where
  rows : List (Entry ID)
  enabled : List String
  tree : CursorTree
  subs : ℕ → SubStage ID
  nSubs : ℕ
  sent : List (Entry ID)
  acked : List (Entry ID)

namespace Indexer

variable {ID : Type}

def new : Indexer ID where
  rows := []
  enabled := []
  tree := ⟨false, fun _ => none⟩
  subs _ := .ended
  nSubs := 0
  sent := []
  acked := []

def setSub (s : Indexer ID) (j : ℕ) (st : SubStage ID) : Indexer ID :=
  { s with subs := Function.update s.subs j st }

def stepSub (api : TreeAPI) (s : Indexer ID) (j : ℕ) : Indexer ID :=
  match s.subs j with
  | .ended => s
  | .idle => s
  | .picking [] _ => s.setSub j .idle
  | .picking (repo :: repos) probe =>
    match probe.read api s.tree repo with
    | .goOn next => s.setSub j (.picking (repo :: repos) next)
    | .done current => s.setSub j (.querying (repo :: repos) current)
    | .failed => s.setSub j .ended
  | .querying [] _ => s.setSub j .idle
  | .querying (repo :: repos) current =>
    match nextChange s.rows repo current with
    | some change => s.setSub j (.sending change)
    | none => s.setSub j (.picking repos .registration)
  | .sending change => { s.setSub j (.awaiting change) with sent := s.sent ++ [change] }
  | .awaiting _ => s
  | .updating change probe =>
    match probe.read api s.tree change.repo with
    | .goOn next => s.setSub j (.updating change next)
    | .done current =>
      if change.version ≠ current + 1 then s.setSub j .ended else s.setSub j (.creating change)
    | .failed => s.setSub j .ended
  | .creating change => { s.setSub j (.creatingRepo change) with tree := s.tree.createCursors }
  | .creatingRepo change => { s.setSub j (.writing change) with tree := s.tree.createRepo change.repo }
  | .writing change => { s.setSub j .idle with tree := s.tree.set change.repo change.version }

def answer (s : Indexer ID) (j : ℕ) (a : Answer) : Indexer ID :=
  match s.subs j, a with
  | .awaiting change, .ack repo version =>
    if repo ≠ change.repo ∨ version ≠ change.version then s.setSub j .ended
    else { s.setSub j (.updating change .registration) with acked := s.acked ++ [change] }
  | .awaiting change, .temporarilyFailed => s.setSub j (.sending change)
  | .awaiting _, .error => s.setSub j .ended
  | _, _ => s

def pick (s : Indexer ID) (j : ℕ) (repos : List String) : Indexer ID :=
  match s.subs j with
  | .idle => if ∀ r ∈ repos, r ∈ s.enabled then s.setSub j (.picking repos .registration) else s
  | _ => s

def step (api : TreeAPI) (s : Indexer ID) : SubOp ID → Indexer ID
  | .enable repo => { s with enabled := repo :: s.enabled }
  | .disable repo => { s with enabled := s.enabled.filter (· ≠ repo) }
  | .append repo id exist => { s with rows := s.rows ++ [⟨repo, nextVersion s.rows repo, id, exist⟩] }
  | .subscribe => { s.setSub s.nSubs .idle with nSubs := s.nSubs + 1 }
  | .pick j repos => s.pick j repos
  | .step j => s.stepSub api j
  | .answer j a => s.answer j a
  | .disconnect j => s.setSub j .ended

def exec (api : TreeAPI) (ops : List (SubOp ID)) : Indexer ID := Trace.exec (step api) new ops

end Indexer

/-! ## What is stored was acknowledged -/

variable {ID : Type}

/-- The changes `1..c` of a repository were sent and acknowledged. -/
def Indexer.Acknowledged (s : Indexer ID) (repo : String) (c : ℕ) : Prop :=
  ∀ v, 1 ≤ v → v ≤ c → ∃ change ∈ s.rows, change.repo = repo ∧ change.version = v ∧
    change ∈ s.sent ∧ change ∈ s.acked

/-- The change whose write a subscription owes: it has passed the comparison. -/
def SubStage.owes : SubStage ID → Option (Entry ID)
  | .creating change => some change
  | .creatingRepo change => some change
  | .writing change => some change
  | _ => none

/-- What is known of the change that a subscription handles. -/
def Indexer.Knows (s : Indexer ID) : SubStage ID → Prop
  | .sending change => change ∈ s.rows
  | .awaiting change => change ∈ s.rows ∧ change ∈ s.sent
  | .updating change _ => change ∈ s.rows ∧ change ∈ s.sent ∧ change ∈ s.acked
  | .creating change => s.Acknowledged change.repo change.version
  | .creatingRepo change => s.Acknowledged change.repo change.version
  | .writing change => s.Acknowledged change.repo change.version
  | _ => True

/-- A read of `state` that ends gives the stored cursor. -/
theorem probe_done {api : TreeAPI} {t : CursorTree} {repo : String} {probe : Probe} {current : ℕ}
    (ht : t.present = false → ∀ r, t.nodes r = none)
    (h : probe.read api t repo = .done current) : t.cursor repo = current := by
  unfold CursorTree.cursor
  cases probe with
  | registration =>
    dsimp only [Probe.read] at h
    split at h
    · cases h
    · rename_i hp
      cases h
      rw [ht (by simpa using hp)]
      rfl
  | cursors =>
    dsimp only [Probe.read] at h
    split at h
    · rename_i hn
      cases h
      rw [hn]
      rfl
    · cases h
  | value =>
    dsimp only [Probe.read] at h
    split at h
    · cases h
    · rename_i v hn
      cases h
      rw [hn]
      rfl
    · rename_i hn
      rw [hn]
      split at h
      · cases h
      · rename_i n hempty
        cases h
        exact (api.getEmpty_zero _ hempty).symm

theorem nextChange_mem {rows : List (Entry ID)} {repo : String} {after : ℕ} {change : Entry ID}
    (h : nextChange rows repo after = some change) : change ∈ rows :=
  mem_of_mem_filter (mem_of_mem_filter (first_mem h))

namespace CursorTree

theorem cursor_createRepo (t : CursorTree) (repo r : String) :
    (t.createRepo repo).cursor r = t.cursor r := by
  show ((update t.nodes repo (some ((t.nodes repo).getD none)) r).getD none).getD 0 = t.cursor r
  by_cases h : r = repo
  · rw [h, update_self]
    rfl
  · rw [update_of_ne h]
    rfl

theorem cursor_set_self (t : CursorTree) (repo : String) (v : ℕ) : (t.set repo v).cursor repo = v := by
  show ((update t.nodes repo (some (some v)) repo).getD none).getD 0 = v
  rw [update_self]
  rfl

theorem cursor_set_of_ne (t : CursorTree) {repo r : String} (v : ℕ) (h : r ≠ repo) :
    (t.set repo v).cursor r = t.cursor r := by
  show ((update t.nodes repo (some (some v)) r).getD none).getD 0 = t.cursor r
  rw [update_of_ne h]
  rfl

end CursorTree

namespace Indexer

structure Sound (s : Indexer ID) : Prop where
  tree : s.tree.present = false → ∀ r, s.tree.nodes r = none
  making : ∀ j change, s.subs j = .creatingRepo change ∨ s.subs j = .writing change → s.tree.present = true
  stored : ∀ repo, s.Acknowledged repo (s.tree.cursor repo)
  knows : ∀ j, s.Knows (s.subs j)

structure Grows (s s' : Indexer ID) : Prop where
  rows : s.rows ⊆ s'.rows
  sent : s.sent ⊆ s'.sent
  acked : s.acked ⊆ s'.acked

variable {s s' : Indexer ID} {j : ℕ} {st : SubStage ID} {change : Entry ID}

theorem grows_of_eq (hr : s'.rows = s.rows) (hs : s'.sent = s.sent) (ha : s'.acked = s.acked) : Grows s s' :=
  ⟨fun _ h => hr ▸ h, fun _ h => hs ▸ h, fun _ h => ha ▸ h⟩

theorem Grows.acknowledged (h : Grows s s') {repo : String} {c : ℕ} (ha : s.Acknowledged repo c) :
    s'.Acknowledged repo c := by
  intro v h1 hc
  obtain ⟨change, hrow, hr, hv, hsent, hack⟩ := ha v h1 hc
  exact ⟨change, h.rows hrow, hr, hv, h.sent hsent, h.acked hack⟩

theorem Grows.knows (h : Grows s s') (hk : s.Knows st) : s'.Knows st := by
  cases st with
  | sending change => exact h.rows hk
  | awaiting change => exact ⟨h.rows hk.1, h.sent hk.2⟩
  | updating change probe => exact ⟨h.rows hk.1, h.sent hk.2.1, h.acked hk.2.2⟩
  | creating change | creatingRepo change | writing change => exact h.acknowledged hk
  | ended | idle | picking repos probe | querying repos current => trivial

section

variable (h : Sound s)
include h

/-- Subscription `j` goes to `st`; the log and the histories grow, the tree stays. -/
theorem Sound.goto (hg : Grows s s') (htree : s'.tree = s.tree)
    (hsubs : s'.subs = update s.subs j st) (hk : s'.Knows st)
    (hmake : ∀ change, st ≠ .creatingRepo change ∧ st ≠ .writing change) : Sound s' := by
  refine ⟨?_, ?_, ?_, ?_⟩
  · rw [htree]
    exact h.tree
  · intro k change hst
    rw [hsubs] at hst
    rw [htree]
    by_cases hkj : k = j
    · rw [hkj, update_self] at hst
      rcases hst with hst | hst
      · exact absurd hst (hmake change).1
      · exact absurd hst (hmake change).2
    · rw [update_of_ne hkj] at hst
      exact h.making k change hst
  · intro repo
    rw [htree]
    exact hg.acknowledged (h.stored repo)
  · rw [hsubs]
    exact (forall_update_iff _ fun _ => s'.Knows).mpr ⟨hk, fun k _ => hg.knows (h.knows k)⟩

theorem Sound.setSub (j : ℕ) (hk : s.Knows st)
    (hmake : ∀ change, st ≠ .creatingRepo change ∧ st ≠ .writing change) : Sound (s.setSub j st) :=
  h.goto (grows_of_eq rfl rfl rfl) rfl rfl hk hmake

/-- Changing the tree on the way to a write. -/
theorem Sound.retree {t : CursorTree} (hk : s.Knows st) (hp : t.present = true)
    (hcur : ∀ repo, s.Acknowledged repo (t.cursor repo)) : Sound { s.setSub j st with tree := t } := by
  refine ⟨?_, ?_, hcur, ?_⟩
  · intro hf
    rw [show ({ s.setSub j st with tree := t } : Indexer ID).tree = t from rfl, hp] at hf
    cases hf
  · intro _ _ _
    exact hp
  · exact (forall_update_iff _ fun _ => s.Knows).mpr ⟨hk, fun k _ => h.knows k⟩

/-- The comparison of `setState`: what is acknowledged reaches the change. -/
theorem Sound.extend (hrow : change ∈ s.rows) (hsent : change ∈ s.sent) (hack : change ∈ s.acked)
    (hnext : change.version = s.tree.cursor change.repo + 1) : s.Acknowledged change.repo change.version := by
  intro v h1 hv
  by_cases hlast : v = change.version
  · exact ⟨change, hrow, rfl, hlast.symm, hsent, hack⟩
  · exact h.stored change.repo v h1 (by omega)

theorem Sound.stepSub (api : TreeAPI) (j : ℕ) : Sound (s.stepSub api j) := by
  unfold Indexer.stepSub
  have hknows := h.knows j
  cases hst : s.subs j with
  | ended | idle | awaiting change => exact h
  | picking repos probe =>
    cases repos with
    | nil => exact h.setSub j trivial (by simp)
    | cons repo repos =>
      dsimp only
      cases probe.read api s.tree repo with
      | goOn next | done current | failed => exact h.setSub j trivial (by simp)
  | querying repos current =>
    cases repos with
    | nil => exact h.setSub j trivial (by simp)
    | cons repo repos =>
      dsimp only
      cases hnext : nextChange s.rows repo current with
      | some change => exact h.setSub j (nextChange_mem hnext) (by simp)
      | none => exact h.setSub j trivial (by simp)
  | sending change =>
    rw [hst] at hknows
    refine h.goto ⟨List.Subset.refl _, ?_, List.Subset.refl _⟩ rfl rfl ?_ (by simp)
    · exact subset_append_left _ _
    · exact ⟨hknows, mem_append_right _ (mem_singleton_self change)⟩
  | updating change probe =>
    rw [hst] at hknows
    obtain ⟨hrow, hsent, hack⟩ := hknows
    dsimp only
    cases hread : probe.read api s.tree change.repo with
    | goOn next => exact h.setSub j ⟨hrow, hsent, hack⟩ (by simp)
    | failed => exact h.setSub j trivial (by simp)
    | done current =>
      dsimp only
      by_cases hv : change.version ≠ current + 1
      · rw [if_pos hv]
        exact h.setSub j trivial (by simp)
      · rw [if_neg hv]
        rw [not_not, ← probe_done h.tree hread] at hv
        exact h.setSub j (h.extend hrow hsent hack hv) (by simp)
  | creating change =>
    rw [hst] at hknows
    exact h.retree hknows rfl h.stored
  | creatingRepo change =>
    rw [hst] at hknows
    refine h.retree hknows (h.making j change (.inl hst)) ?_
    intro repo
    rw [CursorTree.cursor_createRepo]
    exact h.stored repo
  | writing change =>
    rw [hst] at hknows
    refine h.retree trivial (h.making j change (.inr hst)) ?_
    intro repo
    by_cases hr : repo = change.repo
    · rw [hr, CursorTree.cursor_set_self]
      exact hknows
    · rw [CursorTree.cursor_set_of_ne _ _ hr]
      exact h.stored repo

theorem Sound.answer (j : ℕ) (a : Answer) : Sound (s.answer j a) := by
  unfold Indexer.answer
  have hknows := h.knows j
  split
  · rename_i change repo version hst
    rw [hst] at hknows
    by_cases hbad : repo ≠ change.repo ∨ version ≠ change.version
    · rw [if_pos hbad]
      exact h.setSub j trivial (by simp)
    · rw [if_neg hbad]
      refine h.goto ⟨List.Subset.refl _, List.Subset.refl _, ?_⟩ rfl rfl ?_ (by simp)
      · exact subset_append_left _ _
      · exact ⟨hknows.1, hknows.2, mem_append_right _ (mem_singleton_self change)⟩
  · rename_i change hst
    rw [hst] at hknows
    exact h.setSub j hknows.1 (by simp)
  · exact h.setSub j trivial (by simp)
  · exact h

theorem Sound.step (api : TreeAPI) (op : SubOp ID) : Sound (s.step api op) := by
  cases op with
  | enable repo | disable repo => exact { h with }
  | append repo id exist =>
    have hg : Grows s (s.step api (.append repo id exist)) :=
      ⟨subset_append_left _ _, List.Subset.refl _, List.Subset.refl _⟩
    exact ⟨h.tree, h.making, fun r => hg.acknowledged (h.stored r), fun k => hg.knows (h.knows k)⟩
  | subscribe => exact h.goto (grows_of_eq rfl rfl rfl) rfl rfl trivial (by simp)
  | pick j repos =>
    show Sound (s.pick j repos)
    unfold Indexer.pick
    split
    · split
      · exact h.setSub j trivial (by simp)
      · exact h
    · exact h
  | step j => exact h.stepSub api j
  | answer j a => exact h.answer j a
  | disconnect j => exact h.setSub j trivial (by simp)

end

theorem sound_exec (api : TreeAPI) (ops : List (SubOp ID)) : Sound (exec api ops) := by
  apply Trace.invariant (I := fun _ (s : Indexer ID) => Sound s)
  · refine ⟨fun _ _ => rfl, ?_, ?_, fun _ => trivial⟩
    · intro j change hst
      rcases hst with hst | hst <;> cases hst
    · intro repo v h1 h0
      have : v ≤ 0 := h0
      omega
  · intro op before h
    exact h.step api op

/-! ## The cursor does not fall -/

/-- A subscription reads the cursor for a change in `setState` only while no other subscription owes
the write of the change before it. -/
def exclusive (s : Indexer ID) : SubOp ID → Bool
  | .step j =>
    match s.subs j with
    | .updating change _ => (List.range s.nSubs).all fun k => k = j ||
        match (s.subs k).owes with
        | some other => other.repo ≠ change.repo || other.version + 1 ≠ change.version
        | none => true
    | _ => true
  | _ => true

/-- What the condition keeps: the subscriptions that owe a write to a repository owe the same one,
and the cursor stands at it or just before it. -/
structure Ordered (s : Indexer ID) : Prop where
  ended : ∀ j, s.nSubs ≤ j → s.subs j = .ended
  owed : ∀ j change, (s.subs j).owes = some change →
    change.version ≤ s.tree.cursor change.repo + 1 ∧ s.tree.cursor change.repo ≤ change.version
  same : ∀ j k change other, (s.subs j).owes = some change → (s.subs k).owes = some other →
    other.repo = change.repo → other.version = change.version

/-- Subscription `j` goes to a stage in which it owes nothing, or what it owed before. -/
theorem owes_update {subs : ℕ → SubStage ID} (ho : st.owes = none ∨ st.owes = (subs j).owes) {k : ℕ}
    (hk : (update subs j st k).owes = some change) : (subs k).owes = some change := by
  by_cases hkj : k = j
  · rw [hkj, update_self] at hk
    rcases ho with ho | ho
    · rw [ho] at hk
      cases hk
    · rw [hkj, ← ho]
      exact hk
  · rwa [update_of_ne hkj] at hk

section

variable (h : Ordered s)
include h

theorem Ordered.ended_update (hj : j < s.nSubs) (st : SubStage ID) (k : ℕ) (hk : s.nSubs ≤ k) :
    update s.subs j st k = .ended := by
  rw [update_of_ne (by omega)]
  exact h.ended k hk

theorem Ordered.goto (hj : j < s.nSubs) (hsubs : s'.subs = update s.subs j st)
    (hn : s'.nSubs = s.nSubs) (hcur : ∀ r, s'.tree.cursor r = s.tree.cursor r)
    (howes : st.owes = none ∨ st.owes = (s.subs j).owes) : Ordered s' := by
  have hback : ∀ k change, (s'.subs k).owes = some change → (s.subs k).owes = some change := by
    intro k change hk
    rw [hsubs] at hk
    exact owes_update howes hk
  refine ⟨?_, ?_, ?_⟩
  · rw [hn, hsubs]
    exact h.ended_update hj st
  · intro k change hk
    rw [hcur]
    exact h.owed k change (hback k change hk)
  · intro k l change other hk hl
    exact h.same k l change other (hback k change hk) (hback l other hl)

theorem Ordered.lt (hne : s.subs j ≠ .ended) : j < s.nSubs := by
  by_contra hlt
  exact hne (h.ended j (by omega))

theorem Ordered.setSub (hne : s.subs j ≠ .ended) (ho : st.owes = none) :
    Ordered (s.setSub j st) ∧ ∀ repo, s.tree.cursor repo ≤ (s.setSub j st).tree.cursor repo :=
  ⟨h.goto (h.lt hne) rfl rfl (fun _ => rfl) (.inl ho), fun _ => Nat.le_refl _⟩

/-- The comparison passes: the cursor is just before the change, and whoever owes a write to the
repository owes the same one. -/
theorem Ordered.passes (hj : j < s.nSubs) (hnext : change.version = s.tree.cursor change.repo + 1)
    (hexcl : ∀ k, k < s.nSubs → k ≠ j → ∀ other, (s.subs k).owes = some other → other.repo = change.repo →
      other.version + 1 ≠ change.version) :
    Ordered (s.setSub j (.creating change)) := by
  -- what another subscription owes to the repository is this change
  have hsame : ∀ k other, k ≠ j → (s.subs k).owes = some other → other.repo = change.repo →
      other.version = change.version := by
    intro k other hkj hk hr
    have hkn : k < s.nSubs := h.lt (by intro hend; rw [hend] at hk; cases hk)
    have hne := hexcl k hkn hkj other hk hr
    have howed := h.owed k other hk
    rw [hr] at howed
    omega
  refine ⟨h.ended_update hj _, ?_, ?_⟩
  · intro k other hk
    change (update s.subs j (.creating change) k).owes = some other at hk
    show other.version ≤ s.tree.cursor other.repo + 1 ∧ s.tree.cursor other.repo ≤ other.version
    by_cases hkj : k = j
    · rw [hkj, update_self] at hk
      obtain rfl : change = other := Option.some.inj hk
      omega
    · rw [update_of_ne hkj] at hk
      exact h.owed k other hk
  · intro k l one other hk hl hr
    change (update s.subs j (.creating change) k).owes = some one at hk
    change (update s.subs j (.creating change) l).owes = some other at hl
    by_cases hkj : k = j
    · rw [hkj, update_self] at hk
      obtain rfl : change = one := Option.some.inj hk
      by_cases hlj : l = j
      · rw [hlj, update_self] at hl
        obtain rfl : change = other := Option.some.inj hl
        rfl
      · rw [update_of_ne hlj] at hl
        exact hsame l other hlj hl hr
    · rw [update_of_ne hkj] at hk
      by_cases hlj : l = j
      · rw [hlj, update_self] at hl
        obtain rfl : change = other := Option.some.inj hl
        exact (hsame k one hkj hk hr.symm).symm
      · rw [update_of_ne hlj] at hl
        exact h.same k l one other hk hl hr

/-- The write: the cursor is at the change that everyone who owes a write owes. -/
theorem Ordered.writes (hst : s.subs j = .writing change) :
    Ordered { s.setSub j .idle with tree := s.tree.set change.repo change.version } := by
  have hj : j < s.nSubs := h.lt (by rw [hst]; simp)
  have howes : (s.subs j).owes = some change := by
    rw [hst]
    rfl
  refine ⟨h.ended_update hj _, ?_, ?_⟩
  · intro k other hk
    have hk' : (s.subs k).owes = some other := owes_update (.inl rfl) hk
    show other.version ≤ (s.tree.set change.repo change.version).cursor other.repo + 1 ∧
      (s.tree.set change.repo change.version).cursor other.repo ≤ other.version
    by_cases hr : other.repo = change.repo
    · have hv := h.same j k change other howes hk' hr
      rw [hr, CursorTree.cursor_set_self]
      omega
    · rw [CursorTree.cursor_set_of_ne _ _ hr]
      exact h.owed k other hk'
  · intro k l one other hk hl
    exact h.same k l one other (owes_update (.inl rfl) hk) (owes_update (.inl rfl) hl)

/-- One call keeps the order, and no cursor falls. -/
theorem Ordered.stepSub (hs : Sound s) (api : TreeAPI) (j : ℕ) (hexcl : s.exclusive (.step j) = true) :
    Ordered (s.stepSub api j) ∧ ∀ repo, s.tree.cursor repo ≤ (s.stepSub api j).tree.cursor repo := by
  unfold Indexer.stepSub
  cases hst : s.subs j with
  | ended | idle | awaiting change => exact ⟨h, fun _ => Nat.le_refl _⟩
  | picking repos probe =>
    have hne : s.subs j ≠ .ended := by simp [hst]
    cases repos with
    | nil => exact h.setSub hne rfl
    | cons repo repos =>
      dsimp only
      cases probe.read api s.tree repo with
      | goOn next | done current | failed => exact h.setSub hne rfl
  | querying repos current =>
    have hne : s.subs j ≠ .ended := by simp [hst]
    cases repos with
    | nil => exact h.setSub hne rfl
    | cons repo repos =>
      dsimp only
      cases nextChange s.rows repo current with
      | some change | none => exact h.setSub hne rfl
  | sending change =>
    have hj : j < s.nSubs := h.lt (by simp [hst])
    exact ⟨h.goto hj rfl rfl (fun _ => rfl) (.inl rfl), fun _ => Nat.le_refl _⟩
  | updating change probe =>
    have hne : s.subs j ≠ .ended := by simp [hst]
    dsimp only
    cases hread : probe.read api s.tree change.repo with
    | goOn next | failed => exact h.setSub hne rfl
    | done current =>
      dsimp only
      by_cases hv : change.version ≠ current + 1
      · rw [if_pos hv]
        exact h.setSub hne rfl
      · rw [if_neg hv]
        rw [not_not, ← probe_done hs.tree hread] at hv
        refine ⟨h.passes (h.lt hne) hv ?_, fun _ => Nat.le_refl _⟩
        intro k hk hkj other howes hr
        unfold exclusive at hexcl
        simp only [hst, all_eq_true, mem_range] at hexcl
        have hkey := hexcl k hk
        rw [howes] at hkey
        simpa [hkj, hr] using hkey
  | creating change =>
    have hj : j < s.nSubs := h.lt (by simp [hst])
    refine ⟨h.goto hj rfl rfl (fun _ => rfl) (.inr ?_), fun _ => Nat.le_refl _⟩
    rw [hst]
    rfl
  | creatingRepo change =>
    have hj : j < s.nSubs := h.lt (by simp [hst])
    have hcur := s.tree.cursor_createRepo change.repo
    refine ⟨h.goto hj rfl rfl hcur (.inr ?_), fun repo => Nat.le_of_eq (hcur repo).symm⟩
    rw [hst]
    rfl
  | writing change =>
    refine ⟨h.writes hst, ?_⟩
    intro repo
    by_cases hr : repo = change.repo
    · rw [hr, CursorTree.cursor_set_self]
      exact (h.owed j change (by rw [hst]; rfl)).2
    · rw [CursorTree.cursor_set_of_ne _ _ hr]

theorem Ordered.step (hs : Sound s) (api : TreeAPI) (op : SubOp ID) (hexcl : s.exclusive op = true) :
    Ordered (s.step api op) ∧ ∀ repo, s.tree.cursor repo ≤ (s.step api op).tree.cursor repo := by
  cases op with
  | enable repo | disable repo | append repo id exist =>
    exact ⟨{ h with }, fun _ => Nat.le_refl _⟩
  | subscribe =>
    refine ⟨⟨?_, ?_, ?_⟩, fun _ => Nat.le_refl _⟩
    · intro k hk
      have hk' : s.nSubs + 1 ≤ k := hk
      show update s.subs s.nSubs .idle k = .ended
      rw [update_of_ne (by omega)]
      exact h.ended k (by omega)
    · intro k change hk
      exact h.owed k change (owes_update (.inl rfl) hk)
    · intro k l change other hk hl
      exact h.same k l change other (owes_update (.inl rfl) hk) (owes_update (.inl rfl) hl)
  | pick j repos =>
    show Ordered (s.pick j repos) ∧ ∀ repo, s.tree.cursor repo ≤ (s.pick j repos).tree.cursor repo
    unfold Indexer.pick
    split
    · rename_i hst
      split
      · exact h.setSub (by simp [hst]) rfl
      · exact ⟨h, fun _ => Nat.le_refl _⟩
    · exact ⟨h, fun _ => Nat.le_refl _⟩
  | step j => exact h.stepSub hs api j hexcl
  | answer j a =>
    show Ordered (s.answer j a) ∧ ∀ repo, s.tree.cursor repo ≤ (s.answer j a).tree.cursor repo
    unfold Indexer.answer
    split
    · rename_i change repo version hst
      split
      · exact h.setSub (by simp [hst]) rfl
      · have hj : j < s.nSubs := h.lt (by simp [hst])
        exact ⟨h.goto hj rfl rfl (fun _ => rfl) (.inl rfl), fun _ => Nat.le_refl _⟩
    · rename_i hst
      exact h.setSub (by simp [hst]) rfl
    · rename_i hst
      exact h.setSub (by simp [hst]) rfl
    · exact ⟨h, fun _ => Nat.le_refl _⟩
  | disconnect j =>
    refine ⟨?_, fun _ => Nat.le_refl _⟩
    by_cases hst : s.subs j = .ended
    · have hself : s.step api (.disconnect j) = s := by
        show { s with subs := update s.subs j .ended } = s
        rw [← hst, update_eq_self]
      rw [hself]
      exact h
    · exact (h.setSub hst rfl).1

end

theorem ordered_exec (api : TreeAPI) {ops : List (SubOp ID)}
    (h : Trace.Along (fun before op => (exec api before).exclusive op = true) ops) :
    Ordered (exec api ops) := by
  refine h.invariant ?_ fun op ops hop ih => (ih.step (sound_exec api ops) api op hop).1
  refine ⟨fun _ _ => rfl, ?_, ?_⟩
  · intro j change hj
    cases hj
  · intro j k change other hj
    cases hj

/-- **Cursor safety.** If no subscription reads the cursor for a change in `setState` while another
one owes the write of the change before it, the cursor of a repository never falls; and the
changes up to a stored cursor were all sent and acknowledged. -/
theorem cursor_law (api : TreeAPI) (ops : List (SubOp ID))
    (h : Trace.Along (fun before op => (exec api before).exclusive op = true) ops) (repo : String) :
    (exec api ops).Acknowledged repo ((exec api ops).tree.cursor repo) ∧
      ∀ later before, ops = later ++ before →
        (exec api before).tree.cursor repo ≤ (exec api ops).tree.cursor repo := by
  refine ⟨(sound_exec api ops).stored repo, ?_⟩
  intro later
  induction later generalizing ops with
  | nil =>
    rintro before rfl
    exact Nat.le_refl _
  | cons op later ih =>
    rintro before rfl
    calc (exec api before).tree.cursor repo
        ≤ (exec api (later ++ before)).tree.cursor repo := ih (later ++ before) h.2 before rfl
      _ ≤ (exec api (op :: (later ++ before))).tree.cursor repo :=
          ((ordered_exec api h.2).step (sound_exec api _) api op h.1).2 repo

/-- The tree answers an error for a node without a value. -/
def strictTree : TreeAPI := ⟨none, by simp⟩

/-- Subscription `j` takes the first change and passes the comparison for it, with no cursor stored. -/
def takesFirst (j : ℕ) : List (SubOp ℕ) :=
  [.pick j ["r"], .step j, .step j, .step j, .answer j (.ack "r" 1), .step j]

/-- Subscription `j` makes the nodes it needs, up to the write. -/
def makesNodes (j : ℕ) : List (SubOp ℕ) := [.step j, .step j]

/-- Subscription `j` takes the second change and stores its version. -/
def storesSecond (j : ℕ) : List (SubOp ℕ) :=
  [.pick j ["r"], .step j, .step j, .step j, .step j, .step j, .answer j (.ack "r" 2), .step j,
    .step j, .step j] ++
    makesNodes j ++ [.step j]

def twoSubscriptions : List (SubOp ℕ) :=
  [.append "r" 7 true, .append "r" 8 true, .enable "r", .subscribe, .subscribe]

def inTurn : List (SubOp ℕ) :=
  (twoSubscriptions ++ takesFirst 0 ++ makesNodes 0 ++ .step 0 :: storesSecond 1).reverse

theorem cursor_law_inTurn :
    (exec strictTree inTurn).tree.cursor "r" = 2 ∧
      (exec strictTree inTurn).Acknowledged "r" ((exec strictTree inTurn).tree.cursor "r") :=
  ⟨by decide, (cursor_law strictTree inTurn (by decide) "r").1⟩

/-- Both subscriptions have the first change acknowledged and pass the comparison; one of them
stores it and the second change, and then the other makes its write. -/
def overtaken : List (SubOp ℕ) :=
  (twoSubscriptions ++ takesFirst 0 ++ takesFirst 1 ++ makesNodes 0 ++ .step 0 :: storesSecond 0 ++
    makesNodes 1).reverse

theorem late_write :
    (exec strictTree overtaken).tree.cursor "r" = 2 ∧
      (exec strictTree (.step 1 :: overtaken)).tree.cursor "r" = 1 := by
  decide

end Indexer

end Astrald.Indexing
