import Mathlib
import Astrald.Lib.Trace
import Astrald.Lib.Table
import Astrald.Messaging.Query

/-!
# Waiting for mail

The model of `polling.go`, `waiters.go`, of the end of `storeMessage` in `receive.go` and of
`archiving.go`: any number of waits, deliveries and archivings, for any owners. A wait registers a channel
of one slot, looks, and blocks; a writer commits its change and then wakes the owner's waits. The lock of
the registry is held over a whole wake, so nobody registers or leaves meanwhile.

* `Wakes`: a wait that is blocked without a token has nothing to see, or a writer has still to wake it;
* `no_lost_wakeup`: once no writer has, there is nothing to see; and a wait that has left is not
  registered.
-/

namespace Astrald.Messaging

open List Function

namespace Mail

variable {Who ID : Type}

def next (m : Mail Who ID) : ℕ := (m.entries.map Entry.seq).foldr max 0 + 1

theorem lt_next (m : Mail Who ID) {e : Entry Who ID} (he : e ∈ m.entries) : e.seq < m.next := by
  unfold next
  generalize m.entries = rows at he
  induction rows with
  | nil => exact absurd he not_mem_nil
  | cons d rest ih =>
    rw [map_cons, foldr_cons]
    rcases mem_cons.mp he with rfl | he
    · omega
    · have := ih he
      omega

/-- An update of columns that are not part of the message. -/
def restamp (m : Mail Who ID) (f : Row Who ID → Row Who ID) (hf : ∀ r, (f r).body = r.body) :
    Mail Who ID where
  entries := m.entries.map fun e => { e with row := f e.row }
  increasing := List.pairwise_map.mpr m.increasing
  positive := by
    intro e he
    obtain ⟨d, hd, rfl⟩ := List.mem_map.mp he
    exact m.positive d hd
  unique := by
    have hkeys : (m.entries.map fun e => { e with row := f e.row }).map (fun e => e.row.key) =
        m.entries.map fun e => e.row.key := by
      rw [List.map_map]
      apply List.map_congr_left
      intro e _
      exact Row.key_eq_of_body (hf e.row)
    rw [hkeys]
    exact m.unique

variable [DecidableEq Who] [DecidableEq ID]

/-- An insert; `none` on a conflict with the unique index. -/
def insert (m : Mail Who ID) (r : Row Who ID) : Option (Mail Who ID) :=
  if h : ∀ e ∈ m.entries, e.row.key ≠ r.key then
    some
      { entries := m.entries ++ [⟨m.next, r⟩]
        increasing := by
          refine List.pairwise_append.mpr ⟨m.increasing, List.pairwise_singleton _ _, ?_⟩
          intro e he d hd
          rw [List.mem_singleton.mp hd]
          exact m.lt_next he
        positive := by
          intro e he
          rcases List.mem_append.mp he with he | he
          · exact m.positive e he
          · rw [List.mem_singleton.mp he]
            exact Nat.succ_pos _
        unique := by
          rw [List.map_append]
          refine List.nodup_append.mpr ⟨m.unique, List.nodup_singleton _, ?_⟩
          intro a ha b hb hab
          rw [List.map_singleton, List.mem_singleton] at hb
          obtain ⟨e, he, rfl⟩ := List.mem_map.mp ha
          exact h e he (hab.trans hb) }
  else none

theorem entries_insert {m m' : Mail Who ID} {r : Row Who ID} (h : m.insert r = some m') :
    m'.entries = m.entries ++ [⟨m.next, r⟩] := by
  unfold insert at h
  split at h
  · cases h
    rfl
  · cases h

def archive (m : Mail Who ID) (owner : Who) (box : Box) (id : ID) (now : ℕ) : Mail Who ID :=
  m.restamp (Store.mark .archived owner box id now) (Store.body_mark .archived owner box id now)

def unarchive (m : Mail Who ID) (owner : Who) (box : Box) (id : ID) : Mail Who ID :=
  m.restamp (Store.clear owner box id) (Store.body_clear owner box id)

/-- A statement that undoes an archiving finds a row. -/
def holdsArchived (m : Mail Who ID) (owner : Who) (box : Box) (id : ID) : Bool :=
  m.entries.any fun e => e.row.key = (owner, box, id) && (e.row.stamps .archived).isSome

end Mail

namespace Waiting

/-- Where a call of `pollMessages` is: before `ListMessages`, in the `select`, on its way out, or gone. -/
inductive Stage
  | looking
  | blocked
  | leaving
  | left
  deriving DecidableEq, Repr

structure Waiter (Who : Type) where
  owner : Who
  sentBy : Option Who
  since : ℕ
  stage : Stage
  token : Bool
  deriving DecidableEq, Repr

def Waiter.query {Who : Type} (w : Waiter Who) : MessageQuery Who :=
  ⟨listInbox, w.sentBy, none, false, false, w.since, 0, 0⟩

/-- Where a writer is after its commit: before its wake, in it with channels still to send to, or done. -/
inductive Waking
  | owed
  | sending (todo : List ℕ)
  | done
  deriving DecidableEq, Repr

structure Writer (Who : Type) where
  owner : Who
  waking : Waking
  deriving DecidableEq, Repr

/-- The writer holds the lock of the registry. -/
def Writer.sends {Who : Type} (wr : Writer Who) : Bool :=
  match wr.waking with
  | .sending _ => true
  | _ => false

/-- The writer has still to wake waiter `i`, if that is registered for its owner. -/
def Waking.owes (i : ℕ) : Waking → Prop
  | .owed => True
  | .sending todo => i ∈ todo
  | .done => False

instance (i : ℕ) : (w : Waking) → Decidable (w.owes i)
  | .owed => instDecidableTrue
  | .sending todo => inferInstanceAs (Decidable (i ∈ todo))
  | .done => instDecidableFalse

/-- Waiters and writers are numbered as they come. -/
structure State (Who ID : Type) where
  mail : Mail Who ID
  waiters : List (Waiter Who)
  registry : Who → List ℕ
  writers : List (Writer Who)

inductive Op (Who ID : Type)
  | park (owner : Who) (sentBy : Option Who) (since : ℕ)
  | look (i : ℕ)
  | fail (i : ℕ)
  | woke (i : ℕ)
  | floor (i : ℕ)
  /-- The deadline, or the end of the caller's context. -/
  | giveUp (i : ℕ)
  | leave (i : ℕ)
  /-- `InsertInbox` in `storeMessage`. -/
  | deliver (sender recipient : Who) (id : ID) (content : String) (parentID : ID) (now : ℕ)
  | archive (owner : Who) (box : Box) (id : ID) (now : ℕ)
  | unarchive (owner : Who) (box : Box) (id : ID)
  /-- `wake` takes the lock. -/
  | wake (j : ℕ)
  | send (j i : ℕ)
  /-- `wake` returns. -/
  | unlock (j : ℕ)

variable {Who ID : Type} [DecidableEq Who]

namespace State

def start (mail : Mail Who ID) : State Who ID := ⟨mail, [], fun _ => [], []⟩

def locked (s : State Who ID) : Bool := s.writers.any Writer.sends

def move (s : State Who ID) (i : ℕ) (here : Stage) (f : Waiter Who → Waiter Who) : State Who ID :=
  match s.waiters[i]? with
  | none => s
  | some w => if w.stage = here then { s with waiters := s.waiters.set i (f w) } else s

def park (s : State Who ID) (owner : Who) (sentBy : Option Who) (since : ℕ) : State Who ID :=
  if s.locked then s
  else
    { s with
      waiters := s.waiters ++ [⟨owner, sentBy, since, .looking, false⟩]
      registry := Function.update s.registry owner (s.waiters.length :: s.registry owner) }

def look (s : State Who ID) (w : Waiter Who) : Waiter Who :=
  { w with stage := if s.mail.listMessages w.owner w.query = [] then .blocked else .leaving }

def leave (s : State Who ID) (i : ℕ) : State Who ID :=
  match s.waiters[i]? with
  | none => s
  | some w =>
    if w.stage = .leaving ∧ s.locked = false then
      { s with
        waiters := s.waiters.set i { w with stage := .left }
        registry := Function.update s.registry w.owner ((s.registry w.owner).erase i) }
    else s

def wake (s : State Who ID) (j : ℕ) : State Who ID :=
  match s.writers[j]? with
  | none => s
  | some wr =>
    if wr.waking = .owed ∧ s.locked = false then
      { s with writers := s.writers.set j { wr with waking := .sending (s.registry wr.owner) } }
    else s

/-- The send that does not block: a token that is there stays. -/
def send (s : State Who ID) (j i : ℕ) : State Who ID :=
  match s.writers[j]? with
  | none => s
  | some wr =>
    match wr.waking with
    | .sending todo =>
      match s.waiters[i]? with
      | none => s
      | some w =>
        if i ∈ todo then
          { s with
            writers := s.writers.set j { wr with waking := .sending (todo.erase i) }
            waiters := s.waiters.set i { w with token := true } }
        else s
    | _ => s

def unlock (s : State Who ID) (j : ℕ) : State Who ID :=
  match s.writers[j]? with
  | none => s
  | some wr =>
    if wr.waking = .sending [] then { s with writers := s.writers.set j { wr with waking := .done } } else s

/-- A change that was committed, and whose writer will wake the owner. -/
def commit (s : State Who ID) (mail : Mail Who ID) (owner : Who) : State Who ID :=
  { s with mail := mail, writers := s.writers ++ [⟨owner, .owed⟩] }

variable [DecidableEq ID] in
def step (s : State Who ID) : Op Who ID → State Who ID
  | .park owner sentBy since => s.park owner sentBy since
  | .look i => s.move i .looking s.look
  | .fail i => s.move i .looking fun w => { w with stage := .leaving }
  | .woke i => s.move i .blocked fun w => if w.token then { w with stage := .looking, token := false } else w
  | .floor i => s.move i .blocked fun w => { w with stage := .looking }
  | .giveUp i => s.move i .blocked fun w => { w with stage := .leaving }
  | .leave i => s.leave i
  | .deliver sender recipient id content parentID now =>
    match s.mail.insert (newRow .inbox id sender recipient content parentID now) with
    | some mail => s.commit mail recipient
    | none => s
  | .archive owner box id now => { s with mail := s.mail.archive owner box id now }
  | .unarchive owner box id =>
    if s.mail.holdsArchived owner box id then s.commit (s.mail.unarchive owner box id) owner else s
  | .wake j => s.wake j
  | .send j i => s.send j i
  | .unlock j => s.unlock j

variable [DecidableEq ID] in
def after (mail : Mail Who ID) (ops : List (Op Who ID)) : State Who ID := Trace.exec step (start mail) ops

end State

/-! ## What a wait sees -/

def Waiter.sees (w : Waiter Who) (e : Entry Who ID) : Bool :=
  w.query.selects w.owner e.row && w.query.inRange e.seq

def Quiet (m : Mail Who ID) (w : Waiter Who) : Prop := m.listMessages w.owner w.query = []

variable {w : Waiter Who} {m : Mail Who ID}

theorem quiet_iff : Quiet m w ↔ ∀ e ∈ m.entries, w.sees e = false := by
  have hlist : m.listMessages w.owner w.query = m.narrowed w.owner w.query := rfl
  rw [Quiet, hlist, Mail.narrowed, filter_eq_nil_iff]
  simp only [Bool.not_eq_true]
  rfl

theorem sees_other {e : Entry Who ID} (h : e.row.owner ≠ w.owner) : w.sees e = false := by
  unfold Waiter.sees MessageQuery.selects
  rw [decide_eq_false h]
  rfl

theorem sees_archived {e : Entry Who ID} (h : e.row.stamps .archived ≠ none) : w.sees e = false := by
  have hnone : (e.row.stamps .archived).isNone = false := by
    cases hs : e.row.stamps .archived with
    | none => exact absurd hs h
    | some t => rfl
  have hlist : (if w.query.list = listArchive then (e.row.stamps .archived).isSome
      else if w.query.list = listOutbox then e.row.box = .outbox && (e.row.stamps .archived).isNone
      else e.row.box = .inbox && (e.row.stamps .archived).isNone) = false := by
    show (decide (e.row.box = .inbox) && (e.row.stamps .archived).isNone) = false
    rw [hnone, Bool.and_false]
  unfold Waiter.sees MessageQuery.selects
  rw [hlist]
  simp

variable [DecidableEq ID] in
/-- A delivery to another owner shows nothing. -/
theorem Quiet.insert {m' : Mail Who ID} (h : Quiet m w) {r : Row Who ID} (hins : m.insert r = some m')
    (howner : r.owner ≠ w.owner) : Quiet m' w := by
  rw [quiet_iff] at h ⊢
  rw [Mail.entries_insert hins]
  intro e he
  rcases mem_append.mp he with he | he
  · exact h e he
  · rw [mem_singleton.mp he]
    exact sees_other howner

variable [DecidableEq ID] in
theorem Quiet.archive (h : Quiet m w) (owner : Who) (box : Box) (id : ID) (now : ℕ) :
    Quiet (m.archive owner box id now) w := by
  rw [quiet_iff] at h ⊢
  intro e he
  obtain ⟨d, hd, rfl⟩ := mem_map.mp he
  by_cases hmark : d.row.key = (owner, box, id) ∧ d.row.stamps .archived = none
  · apply sees_archived
    rw [Store.mark, if_pos hmark]
    show update d.row.stamps .archived (some now) .archived ≠ none
    exact Option.some_ne_none now
  · rw [Store.mark, if_neg hmark]
    exact h d hd

variable [DecidableEq ID] in
/-- What another owner takes out of its archive shows nothing. -/
theorem Quiet.unarchive (h : Quiet m w) {owner : Who} (howner : owner ≠ w.owner) (box : Box) (id : ID) :
    Quiet (m.unarchive owner box id) w := by
  rw [quiet_iff] at h ⊢
  intro e he
  obtain ⟨d, hd, rfl⟩ := mem_map.mp he
  by_cases hkey : d.row.key = (owner, box, id)
  · apply sees_other
    have hsame := Row.key_eq_of_body (Store.body_clear owner box id d.row)
    rw [hkey, Row.key, Prod.mk.injEq] at hsame
    rw [hsame.1]
    exact howner
  · rw [Store.clear, if_neg hkey]
    exact h d hd

/-! ## The invariant -/

namespace State

/-- A writer has still to wake waiter `i` of the owner. -/
def Owed (s : State Who ID) (owner : Who) (i : ℕ) : Prop :=
  ∃ wr ∈ s.writers, wr.owner = owner ∧ wr.waking.owes i

/-- The waiters that are registered are those that have not left, and one that is blocked without a token
has nothing to see, unless a writer has still to wake it. -/
structure Wakes (s : State Who ID) : Prop where
  nodup : ∀ o, (s.registry o).Nodup
  registered : ∀ o i, i ∈ s.registry o ↔ ∃ w, s.waiters[i]? = some w ∧ w.owner = o ∧ w.stage ≠ .left
  quiet : ∀ i w, s.waiters[i]? = some w → w.stage = .blocked → w.token = false →
    Quiet s.mail w ∨ s.Owed w.owner i

theorem wakes_start (mail : Mail Who ID) : (start mail).Wakes := by
  refine ⟨fun _ => nodup_nil, ?_, ?_⟩
  · intro o i
    constructor
    · intro hi
      exact absurd hi not_mem_nil
    · rintro ⟨w, hw, -⟩
      cases hw
  · intro i w hw
    cases hw

variable {s : State Who ID}

/-- A step of one waiter that stays registered. -/
theorem Wakes.move (h : s.Wakes) {i : ℕ} {here : Stage} {f : Waiter Who → Waiter Who} (hhere : here ≠ .left)
    (hf : ∀ w, s.waiters[i]? = some w → w.stage = here →
      (f w).owner = w.owner ∧ (f w).stage ≠ .left ∧
      ((f w).stage = .blocked → (f w).token = false → Quiet s.mail (f w) ∨ s.Owed (f w).owner i)) :
    (s.move i here f).Wakes := by
  unfold State.move
  cases hw : s.waiters[i]? with
  | none => exact h
  | some w =>
    dsimp only
    by_cases hstage : w.stage = here
    · rw [if_pos hstage]
      obtain ⟨howner, hleft, hquiet⟩ := hf w hw hstage
      refine ⟨h.nodup, ?_, ?_⟩
      · intro o j
        rw [h.registered]
        constructor
        · rintro ⟨v, hv, hvo, hvs⟩
          by_cases hj : j = i
          · subst hj
            cases hw.symm.trans hv
            exact ⟨f w, (Pool.getElem?_set_some hw).mpr (.inl ⟨rfl, rfl⟩), howner.trans hvo, hleft⟩
          · exact ⟨v, (Pool.getElem?_set_some hw).mpr (.inr ⟨hj, hv⟩), hvo, hvs⟩
        · rintro ⟨v, hv, hvo, hvs⟩
          rcases (Pool.getElem?_set_some hw).mp hv with ⟨rfl, rfl⟩ | ⟨-, hv⟩
          · refine ⟨w, hw, howner.symm.trans hvo, ?_⟩
            rw [hstage]
            exact hhere
          · exact ⟨v, hv, hvo, hvs⟩
      · intro j v hv
        rcases (Pool.getElem?_set_some hw).mp hv with ⟨rfl, rfl⟩ | ⟨-, hv⟩
        · exact hquiet
        · exact h.quiet j v hv
    · rw [if_neg hstage]
      exact h

theorem Wakes.park (h : s.Wakes) (owner : Who) (sentBy : Option Who) (since : ℕ) :
    (s.park owner sentBy since).Wakes := by
  refine Trace.unless_keeps h fun _ => ?_
  have hfresh : ∀ o, s.waiters.length ∉ s.registry o := by
    intro o hmem
    obtain ⟨w, hw, -⟩ := (h.registered o _).mp hmem
    rw [List.getElem?_eq_none (Nat.le_refl _)] at hw
    cases hw
  refine ⟨?_, ?_, ?_⟩
  · exact (forall_update_iff _ fun _ => Nodup).mpr
      ⟨nodup_cons.mpr ⟨hfresh owner, h.nodup owner⟩, fun o _ => h.nodup o⟩
  · intro o i
    have hmem : i ∈ update s.registry owner (s.waiters.length :: s.registry owner) o ↔
        i ∈ s.registry o ∨ i = s.waiters.length ∧ o = owner := by
      by_cases ho : o = owner
      · rw [ho, update_self, mem_cons]
        simp [or_comm]
      · simp [ho]
    rw [hmem, h.registered]
    constructor
    · rintro (⟨w, hw, hwo, hws⟩ | ⟨rfl, rfl⟩)
      · exact ⟨w, Pool.getElem?_snoc_some.mpr (.inl hw), hwo, hws⟩
      · exact ⟨_, Pool.getElem?_snoc_some.mpr (.inr ⟨rfl, rfl⟩), rfl, nofun⟩
    · rintro ⟨w, hw, hwo, hws⟩
      rcases Pool.getElem?_snoc_some.mp hw with hw | ⟨rfl, rfl⟩
      · exact .inl ⟨w, hw, hwo, hws⟩
      · exact .inr ⟨rfl, hwo.symm⟩
  · intro i w hw hblocked
    rcases Pool.getElem?_snoc_some.mp hw with hw | ⟨-, rfl⟩
    · exact h.quiet i w hw hblocked
    · cases hblocked

theorem Wakes.leave (h : s.Wakes) (i : ℕ) : (s.leave i).Wakes := by
  unfold State.leave
  cases hw : s.waiters[i]? with
  | none => exact h
  | some w =>
    refine Trace.when_keeps h fun _ => ?_
    refine ⟨?_, ?_, ?_⟩
    · exact (forall_update_iff _ fun _ => Nodup).mpr
        ⟨(h.nodup w.owner).erase i, fun o _ => h.nodup o⟩
    · intro o j
      have hmem : j ∈ update s.registry w.owner ((s.registry w.owner).erase i) o ↔
          j ∈ s.registry o ∧ j ≠ i := by
        by_cases ho : o = w.owner
        · rw [ho, update_self, (h.nodup w.owner).mem_erase_iff]
          exact and_comm
        · rw [update_of_ne ho]
          constructor
          · intro hj
            refine ⟨hj, ?_⟩
            rintro rfl
            obtain ⟨v, hv, hvo, -⟩ := (h.registered o j).mp hj
            cases hw.symm.trans hv
            exact ho hvo.symm
          · exact And.left
      rw [hmem, h.registered]
      constructor
      · rintro ⟨⟨v, hv, hvo, hvs⟩, hj⟩
        exact ⟨v, (Pool.getElem?_set_some hw).mpr (.inr ⟨hj, hv⟩), hvo, hvs⟩
      · rintro ⟨v, hv, hvo, hvs⟩
        rcases (Pool.getElem?_set_some hw).mp hv with ⟨-, rfl⟩ | ⟨hj, hv⟩
        · exact absurd rfl hvs
        · exact ⟨⟨v, hv, hvo, hvs⟩, hj⟩
    · intro j v hv hblocked
      rcases (Pool.getElem?_set_some hw).mp hv with ⟨-, rfl⟩ | ⟨-, hv⟩
      · cases hblocked
      · exact h.quiet j v hv hblocked

omit [DecidableEq Who] in
/-- Of the writers that owe a wake, those that are left as they were. -/
theorem Owed.append {owner : Who} {i : ℕ} (h : s.Owed owner i) (mail : Mail Who ID) (o : Who) :
    (s.commit mail o).Owed owner i := by
  obtain ⟨wr, hwr, howner, howes⟩ := h
  exact ⟨wr, mem_append_left _ hwr, howner, howes⟩

/-- A commit whose writer will wake the owner; other owners see nothing of it. -/
theorem Wakes.commit (h : s.Wakes) {mail : Mail Who ID} {owner : Who}
    (hothers : ∀ w : Waiter Who, owner ≠ w.owner → Quiet s.mail w → Quiet mail w) :
    (s.commit mail owner).Wakes := by
  refine { h with quiet := ?_ }
  intro i w hw hblocked htoken
  by_cases howner : owner = w.owner
  · exact .inr ⟨⟨owner, .owed⟩, mem_append_right _ (mem_singleton_self _), howner, trivial⟩
  · rcases h.quiet i w hw hblocked htoken with hquiet | howed
    · exact .inl (hothers w howner hquiet)
    · exact .inr (howed.append mail owner)

/-- A step of one writer: it owes the others what it owed. -/
theorem Owed.set {owner : Who} {i j : ℕ} {wr wr' : Writer Who} (h : s.Owed owner i)
    (hwr : s.writers[j]? = some wr) (howner : wr'.owner = wr.owner)
    (howes : wr.owner = owner → wr.waking.owes i → wr'.waking.owes i) :
    ∃ v ∈ s.writers.set j wr', v.owner = owner ∧ v.waking.owes i := by
  obtain ⟨v, hv, hvo, hvi⟩ := h
  have hlt : j < s.writers.length := (List.getElem?_eq_some_iff.mp hwr).1
  by_cases heq : v = wr
  · rw [heq] at hvo hvi
    exact ⟨wr', mem_set hlt _, howner.trans hvo, howes hvo hvi⟩
  · exact ⟨v, Pool.mem_set_of_ne hwr hv heq, hvo, hvi⟩

theorem Wakes.wake (h : s.Wakes) (j : ℕ) : (s.wake j).Wakes := by
  unfold State.wake
  cases hwr : s.writers[j]? with
  | none => exact h
  | some wr =>
    refine Trace.when_keeps h fun _ => ?_
    refine { h with quiet := ?_ }
    intro i w hw hblocked htoken
    rcases h.quiet i w hw hblocked htoken with hquiet | howed
    · exact .inl hquiet
    · refine .inr (howed.set hwr rfl ?_)
      intro howner _
      -- a blocked waiter is registered, so the wake will come to it
      show i ∈ s.registry wr.owner
      rw [h.registered]
      refine ⟨w, hw, howner.symm, ?_⟩
      rw [hblocked]
      decide

theorem Wakes.send (h : s.Wakes) (j i : ℕ) : (s.send j i).Wakes := by
  unfold State.send
  cases hwr : s.writers[j]? with
  | none => exact h
  | some wr =>
    dsimp only
    cases hwaking : wr.waking with
    | owed | done => exact h
    | sending todo =>
      cases hw : s.waiters[i]? with
      | none => exact h
      | some w =>
        refine Trace.when_keeps h fun _ => ?_
        refine ⟨h.nodup, ?_, ?_⟩
        · intro o k
          rw [h.registered]
          constructor
          · rintro ⟨v, hv, hvo, hvs⟩
            by_cases hk : k = i
            · subst hk
              cases hw.symm.trans hv
              exact ⟨_, (Pool.getElem?_set_some hw).mpr (.inl ⟨rfl, rfl⟩), hvo, hvs⟩
            · exact ⟨v, (Pool.getElem?_set_some hw).mpr (.inr ⟨hk, hv⟩), hvo, hvs⟩
          · rintro ⟨v, hv, hvo, hvs⟩
            rcases (Pool.getElem?_set_some hw).mp hv with ⟨rfl, rfl⟩ | ⟨-, hv⟩
            · exact ⟨w, hw, hvo, hvs⟩
            · exact ⟨v, hv, hvo, hvs⟩
        · intro k v hv hblocked htoken
          rcases (Pool.getElem?_set_some hw).mp hv with ⟨-, rfl⟩ | ⟨hk, hv⟩
          · cases htoken
          · rcases h.quiet k v hv hblocked htoken with hquiet | howed
            · exact .inl hquiet
            · refine .inr (howed.set hwr rfl ?_)
              intro _ howes
              rw [hwaking] at howes
              exact (mem_erase_of_ne hk).mpr howes

theorem Wakes.unlock (h : s.Wakes) (j : ℕ) : (s.unlock j).Wakes := by
  unfold State.unlock
  cases hwr : s.writers[j]? with
  | none => exact h
  | some wr =>
    refine Trace.when_keeps h fun hwaking => ?_
    refine { h with quiet := ?_ }
    intro i w hw hblocked htoken
    rcases h.quiet i w hw hblocked htoken with hquiet | howed
    · exact .inl hquiet
    · refine .inr (howed.set hwr rfl ?_)
      intro _ howes
      rw [hwaking] at howes
      exact absurd howes not_mem_nil

variable [DecidableEq ID]

theorem Wakes.step (h : s.Wakes) (op : Op Who ID) : (s.step op).Wakes := by
  cases op with
  | park owner sentBy since => exact h.park owner sentBy since
  | look i =>
    apply h.move (by decide)
    intro w _ _
    refine ⟨rfl, ?_, ?_⟩
    · show (if s.mail.listMessages w.owner w.query = [] then Stage.blocked else .leaving) ≠ .left
      split <;> decide
    · intro hblocked _
      by_cases hquiet : s.mail.listMessages w.owner w.query = []
      · exact .inl hquiet
      · have hstage : (s.look w).stage = .leaving := if_neg hquiet
        rw [hstage] at hblocked
        cases hblocked
  | fail i | floor i | giveUp i =>
    apply h.move (by decide)
    intro w _ _
    refine ⟨rfl, nofun, ?_⟩
    rintro ⟨⟩
  | woke i =>
    apply h.move (by decide)
    intro w hw hblocked
    by_cases htoken : w.token = true
    · rw [if_pos htoken]
      refine ⟨rfl, nofun, ?_⟩
      rintro ⟨⟩
    · rw [if_neg htoken]
      refine ⟨rfl, ?_, h.quiet i w hw⟩
      rw [hblocked]
      decide
  | leave i => exact h.leave i
  | deliver sender recipient id content parentID now =>
    show (match s.mail.insert (newRow .inbox id sender recipient content parentID now) with
      | some mail => s.commit mail recipient
      | none => s).Wakes
    cases hins : s.mail.insert (newRow .inbox id sender recipient content parentID now) with
    | none => exact h
    | some mail =>
      apply h.commit
      intro w howner hquiet
      exact hquiet.insert hins howner
  | archive owner box id now =>
    refine { h with quiet := ?_ }
    intro i w hw hblocked htoken
    rcases h.quiet i w hw hblocked htoken with hquiet | howed
    · exact .inl (hquiet.archive owner box id now)
    · exact .inr howed
  | unarchive owner box id =>
    show (if s.mail.holdsArchived owner box id then s.commit (s.mail.unarchive owner box id) owner
      else s).Wakes
    split
    · apply h.commit
      intro w howner hquiet
      exact hquiet.unarchive howner box id
    · exact h
  | wake j => exact h.wake j
  | send j i => exact h.send j i
  | unlock j => exact h.unlock j

theorem wakes_after (mail : Mail Who ID) (ops : List (Op Who ID)) : (after mail ops).Wakes := by
  induction ops with
  | nil => exact wakes_start mail
  | cons op ops ih => exact ih.step op

/-- **No lost wakeup.** After any run, a wait that is blocked without a token finds nothing, once every
writer of its owner has woken it; and a wait that has left is registered nowhere. -/
theorem no_lost_wakeup (mail : Mail Who ID) (ops : List (Op Who ID)) (i : ℕ) (w : Waiter Who)
    (hw : (after mail ops).waiters[i]? = some w) :
    (w.stage = .blocked → w.token = false →
      (∀ wr ∈ (after mail ops).writers, wr.owner = w.owner → ¬ wr.waking.owes i) →
      (after mail ops).mail.listMessages w.owner w.query = []) ∧
    (w.stage = .left → ∀ o, i ∉ (after mail ops).registry o) := by
  have hwakes := wakes_after mail ops
  refine ⟨?_, ?_⟩
  · intro hblocked htoken hdone
    rcases hwakes.quiet i w hw hblocked htoken with hquiet | ⟨wr, hwr, howner, howes⟩
    · exact hquiet
    · exact absurd howes (hdone wr hwr howner)
  · intro hleft o hmem
    obtain ⟨v, hv, -, hvs⟩ := (hwakes.registered o i).mp hmem
    cases hw.symm.trans hv
    exact hvs hleft

/-- Two waits for different correspondents; a message for the first of them. -/
def twoWaits : List (Op ℕ ℕ) :=
  [.leave 0, .look 0, .woke 0, .look 1, .woke 1, .unlock 0, .send 0 0, .send 0 1, .wake 0,
    .deliver 5 0 7 "" 0 0, .look 1, .look 0, .park 0 (some 6) 0, .park 0 (some 5) 0]

/-- The second looked again and is blocked, rightly; the first has left. -/
theorem no_lost_wakeup_twoWaits :
    (after ⟨[], by decide, by decide, by decide⟩ twoWaits).mail.listMessages 0
    (Waiter.query ⟨0, some 6, 0, .blocked, false⟩) =
      [] ∧ ∀ o, 0 ∉ (after ⟨[], by decide, by decide, by decide⟩ twoWaits).registry o := by
  refine ⟨?_, ?_⟩
  · exact (no_lost_wakeup ⟨[], by decide, by decide, by decide⟩ twoWaits 1 ⟨0, some 6, 0, .blocked, false⟩
      (by decide)).1 rfl rfl (by decide)
  · exact (no_lost_wakeup ⟨[], by decide, by decide, by decide⟩ twoWaits 0 ⟨0, some 5, 0, .left, false⟩
      (by decide)).2 rfl

end State

end Waiting

end Astrald.Messaging
