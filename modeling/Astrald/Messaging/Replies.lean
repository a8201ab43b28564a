import Mathlib
import Astrald.Messaging.Reading

/-!
# The replies of a message

`Children` and `ChildIDs` of `db_messages.go`, against the replies that an owner holds: the ids of
its rows that name the message and are not archived. A participant that writes to itself holds a
reply in both boxes, and the statement drops the outbox row of such a reply.

* `mem_childrenOf_iff`: the rows that the statement selects;
* `replies_complete`: each reply is answered once exactly if an outbox row is dropped only for an inbox
  row that is itself answered;
* `reply_hidden`: without that, archiving the inbox copy hides a reply whose outbox copy is there.
-/

namespace Astrald.Messaging

open List

variable {Who ID : Type} [DecidableEq Who] [DecidableEq ID]

namespace Store

def children (s : Store Who ID) (owner : Who) (parent : ID) (limit : ℕ) : List (Row Who ID) :=
  (s.childrenOf owner parent).take limit

def childIDs (s : Store Who ID) (owner : Who) (parent : ID) : List ID := (s.childrenOf owner parent).map Row.id

/-- A row of the owner that names the parent and is not archived. -/
def isReply (owner : Who) (parent : ID) (r : Row Who ID) : Prop :=
  r.owner = owner ∧ r.parentID = parent ∧ r.stamps .archived = none

instance (owner : Who) (parent : ID) (r : Row Who ID) : Decidable (isReply owner parent r) :=
  inferInstanceAs (Decidable (_ ∧ _))

/-- The ids of the replies that the owner holds and has not archived, each once. -/
def replyIDs (s : Store Who ID) (owner : Who) (parent : ID) : List ID :=
  ((s.rows.filter fun r => isReply owner parent r).map Row.id).dedup

/-- Each reply in the outbox whose id the owner also has in its inbox is, there, the same reply and not
archived. -/
def CopiesAgree (s : Store Who ID) (owner : Who) (parent : ID) : Prop :=
  ∀ sent ∈ s.rows, isReply owner parent sent → sent.box = .outbox →
    ∀ copy ∈ s.rows, copy.key = (owner, .inbox, sent.id) → isReply owner parent copy

instance (s : Store Who ID) (owner : Who) (parent : ID) : Decidable (s.CopiesAgree owner parent) :=
  inferInstanceAs (Decidable (∀ sent ∈ s.rows, _))

variable {s : Store Who ID} {owner : Who} {parent : ID}

theorem mem_replyIDs {id : ID} :
    id ∈ s.replyIDs owner parent ↔ ∃ r ∈ s.rows, isReply owner parent r ∧ r.id = id := by
  rw [replyIDs, mem_dedup, mem_map]
  constructor
  · rintro ⟨r, hr, hid⟩
    rw [mem_filter, decide_eq_true_eq] at hr
    exact ⟨r, hr.1, hr.2, hid⟩
  · rintro ⟨r, hr, hreply, hid⟩
    exact ⟨r, mem_filter.mpr ⟨hr, decide_eq_true hreply⟩, hid⟩

/-- The rows that the statement selects: the replies but for an outbox row whose id is in the inbox. -/
theorem mem_childrenOf_iff {r : Row Who ID} :
    r ∈ s.childrenOf owner parent ↔ r ∈ s.rows ∧ isReply owner parent r ∧
      ¬ (r.box = .outbox ∧ ∃ copy ∈ s.rows, copy.key = (owner, .inbox, r.id)) := by
  rw [childrenOf, mem_insertionSort, mem_filter, isChild, isReply]
  simp only [Bool.and_eq_true, decide_eq_true_eq, Option.isNone_iff_eq_none, Bool.not_eq_true',
    Bool.and_eq_false_iff, decide_eq_false_iff_not, any_eq_false]
  constructor
  · rintro ⟨hr, ⟨⟨howner, hparent⟩, harchived⟩, hcopy⟩
    refine ⟨hr, ⟨howner, hparent, harchived⟩, ?_⟩
    rintro ⟨hbox, copy, hmem, hkey⟩
    rcases hcopy with hbox' | hnone
    · exact hbox' hbox
    · exact hnone copy hmem (by rw [howner]; exact hkey)
  · rintro ⟨hr, ⟨howner, hparent, harchived⟩, hcopy⟩
    refine ⟨hr, ⟨⟨howner, hparent⟩, harchived⟩, ?_⟩
    by_cases hbox : r.box = .outbox
    · refine .inr fun copy hmem hkey => hcopy ⟨hbox, copy, hmem, ?_⟩
      rw [hkey, howner]
    · exact .inl hbox

theorem eq_of_childID {r q : Row Who ID} (hr : r ∈ s.childrenOf owner parent) (hq : q ∈ s.childrenOf owner parent)
    (hid : r.id = q.id) : r = q := by
  obtain ⟨hrmem, hrreply, hrcopy⟩ := mem_childrenOf_iff.mp hr
  obtain ⟨hqmem, hqreply, hqcopy⟩ := mem_childrenOf_iff.mp hq
  have hkey : ∀ x : Row Who ID, isReply owner parent x → x.key = (owner, x.box, x.id) := by
    intro x hx
    rw [Row.key, hx.1]
  cases hrbox : r.box with
  | inbox =>
    cases hqbox : q.box with
    | inbox =>
      apply eq_of_key hrmem hqmem
      rw [hkey r hrreply, hkey q hqreply, hrbox, hqbox, hid]
    | outbox =>
      exfalso
      apply hqcopy
      exact ⟨hqbox, r, hrmem, by rw [hkey r hrreply, hrbox, hid]⟩
  | outbox =>
    cases hqbox : q.box with
    | inbox =>
      exfalso
      apply hrcopy
      exact ⟨hrbox, q, hqmem, by rw [hkey q hqreply, hqbox, hid]⟩
    | outbox =>
      apply eq_of_key hrmem hqmem
      rw [hkey r hrreply, hkey q hqreply, hrbox, hqbox, hid]

theorem nodup_childIDs (s : Store Who ID) (owner : Who) (parent : ID) : (s.childIDs owner parent).Nodup := by
  have hrows : s.rows.Nodup := s.unique.of_map
  have hchildren : (s.childrenOf owner parent).Nodup :=
    (perm_insertionSort _ _).nodup_iff.mpr (hrows.filter _)
  exact hchildren.map_on fun r hr q hq hid => eq_of_childID hr hq hid

/-- The ids that the statement answers are those of the replies. -/
theorem mem_childIDs (h : s.CopiesAgree owner parent) (id : ID) :
    id ∈ s.childIDs owner parent ↔ id ∈ s.replyIDs owner parent := by
  rw [mem_replyIDs, childIDs, mem_map]
  constructor
  · rintro ⟨r, hr, hid⟩
    obtain ⟨hmem, hreply, -⟩ := mem_childrenOf_iff.mp hr
    exact ⟨r, hmem, hreply, hid⟩
  · rintro ⟨r, hmem, hreply, hid⟩
    by_cases hcopy : r.box = .outbox ∧ ∃ copy ∈ s.rows, copy.key = (owner, .inbox, r.id)
    · -- the outbox row is dropped: its inbox copy stands for it
      obtain ⟨hbox, copy, hcopy, hkey⟩ := hcopy
      have hagree := h r hmem hreply hbox copy hcopy hkey
      rw [Row.key, Prod.mk.injEq, Prod.mk.injEq] at hkey
      refine ⟨copy, mem_childrenOf_iff.mpr ⟨hcopy, hagree, ?_⟩, hkey.2.2.trans hid⟩
      rintro ⟨hout, -⟩
      rw [hkey.2.1] at hout
      cases hout
    · exact ⟨r, mem_childrenOf_iff.mpr ⟨hmem, hreply, hcopy⟩, hid⟩

theorem childIDs_perm (h : s.CopiesAgree owner parent) :
    (s.childIDs owner parent).Perm (s.replyIDs owner parent) := by
  apply (perm_ext_iff_of_nodup (nodup_childIDs s owner parent) (nodup_dedup _)).mpr
  exact mem_childIDs h

/-- A reply in the outbox that is answered is answered by its inbox copy. -/
theorem copiesAgree_of_answered (h : ∀ id ∈ s.replyIDs owner parent, id ∈ s.childIDs owner parent) :
    s.CopiesAgree owner parent := by
  intro sent hsent hreply hbox copy hcopy hkey
  have hanswered := h sent.id (mem_replyIDs.mpr ⟨sent, hsent, hreply, rfl⟩)
  rw [childIDs, mem_map] at hanswered
  obtain ⟨r, hr, hid⟩ := hanswered
  obtain ⟨hrmem, hrreply, hrcopy⟩ := mem_childrenOf_iff.mp hr
  cases hrbox : r.box with
  | inbox =>
    have hrkey : r.key = copy.key := by rw [hkey, Row.key, hrreply.1, hrbox, hid]
    rwa [← eq_of_key hrmem hcopy hrkey]
  | outbox => exact absurd ⟨hrbox, copy, hcopy, by rw [hkey, hid]⟩ hrcopy

/-- **Replies.** `ChildIDs`, and `Children` with room for them all, answer each reply that the owner
holds and has not archived exactly once, if and only if the copies agree. -/
theorem replies_complete (s : Store Who ID) (owner : Who) (parent : ID) (limit : ℕ)
    (hlimit : (s.replyIDs owner parent).length ≤ limit) :
    s.CopiesAgree owner parent ↔ (s.childIDs owner parent).Perm (s.replyIDs owner parent) ∧
      ((s.children owner parent limit).map Row.id).Perm (s.replyIDs owner parent) := by
  constructor
  swap
  · exact fun h => copiesAgree_of_answered fun id hid => h.1.mem_iff.mpr hid
  intro hcopies
  have hperm := childIDs_perm hcopies
  refine ⟨hperm, ?_⟩
  have hall : (s.childrenOf owner parent).length ≤ limit := by
    have hlen := hperm.length_eq
    rw [childIDs, length_map] at hlen
    omega
  rw [children, take_of_length_le hall]
  exact hperm

/-- A message to participant 0, and the answer that it sends to itself. -/
def selfReply : Store ℕ ℕ :=
  ((((empty.insertInbox 3 1 0 "" 0 0).1.insertOutbox 7 0 0 "" 3 1).getD empty).insertInbox 7 0 0 "" 3 1).1

/-- With its outbox copy archived, the reply is answered by its inbox copy. -/
theorem replies_complete_selfReply :
    ((selfReply.archive 0 .outbox 7 2).childIDs 0 3).Perm ((selfReply.archive 0 .outbox 7 2).replyIDs 0 3) ∧
      (((selfReply.archive 0 .outbox 7 2).children 0 3 5).map Row.id).Perm
        ((selfReply.archive 0 .outbox 7 2).replyIDs 0 3) :=
  (replies_complete (selfReply.archive 0 .outbox 7 2) 0 3 5 (by decide)).mp (by decide)

/-- With its inbox copy archived, the reply is still in the outbox and no statement answers it. -/
theorem reply_hidden :
    (selfReply.archive 0 .inbox 7 2).replyIDs 0 3 = [7] ∧ (selfReply.archive 0 .inbox 7 2).childIDs 0 3 = [] ∧
      ((selfReply.archive 0 .inbox 7 2).children 0 3 5).map Row.id = [] := by
  decide

end Store

end Astrald.Messaging
