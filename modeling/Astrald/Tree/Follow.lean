import Astrald.Tree.Store

/-!
# Followed values

A followed `Get` first yields the value it read and then what is pushed to the node's queue. For one
node of the tree, with the others going on as they like:

* `Kept`: the stored value is still to be pushed, or it is the last on its way to every reader;
* `followers_current`: with every `Set` returned and everything read, each reader's last value is
  the stored one, unless a push or a subscription came too late;
* `follower_left_behind`: those that come too late.
-/

namespace Astrald.Tree

open List

section

variable {Value : Type} (nil : Value)

def stored (s : Store Value) (n : ℕ) : Option Value := (s.rows.find n).map (Row.content nil)

/-- The last value that a reader has or will have. -/
def Follower.last (f : Follower Value) : Option Value := (f.received ++ f.queued).getLast?

structure Kept (n : ℕ) (s : Store Value) : Prop where
  absent : stored nil s n = none → (∀ f ∈ s.followers, f.id ≠ n) ∧ ∀ p ∈ s.gets, p.1 ≠ n
  subscribed : ∀ f ∈ s.followers, f.id = n → f.closed = false ∧ n ∈ s.queues
  current : ∀ v, stored nil s n = some v →
    (n, v) ∈ s.sets ∨ ∀ f ∈ s.followers, f.id = n → f.cancelled = false → f.last = some v

/-! ## Steps -/

theorem find_setNodeValue (rows : Rows Value) (id : ℕ) (value : Value) (hset : canSet rows id = true)
    (k : ℕ) :
    ((setNodeValue rows id value).find k).map (Row.content nil)
      = if id = k then some value else (rows.find k).map (Row.content nil) := by
  cases hrow : rows.find id with
  | some row =>
    rw [setNodeValue, hrow, Table.find_update, Option.map_map]
    by_cases hk : id = k
    · subst hk
      rw [if_pos rfl, hrow, Option.map_some]
      have hid := (Table.find_eq_some.mp hrow).2
      simp [hid, Row.content]
    · rw [if_neg hk]
      cases hother : rows.find k with
      | none => rfl
      | some q =>
        have hid := (Table.find_eq_some.mp hother).2
        have hne : q.id ≠ id := fun he => hk (he.symm.trans hid)
        simp [hne]
  | none =>
    have htaken : taken rows 0 "" = false := by simpa [canSet, hrow] using hset
    rw [setNodeValue, hrow, insertRow, if_neg (by simp [htaken]),
      Table.find_insert (r := ({ id, parentID := 0, name := "", value := some value } : Row Value)) hrow]
    by_cases hk : id = k
    · rw [if_pos hk, if_pos hk]
      rfl
    · rw [if_neg hk, if_neg hk]

def Undeleted (n : ℕ) (s : Store Value) : Op Value → Prop
  | .closeQueue j | .unlink j => ∀ d ∈ s.deletions[j]?, d.id ≠ n
  | _ => True

/-- A push of another value than the stored one comes before the stored one's, or finds no reader;
a subscription with another value than the stored one comes before the push of the stored one. -/
def InTime (n : ℕ) (s : Store Value) : Op Value → Prop
  | .push i => ∀ p ∈ s.sets[i]?, p.1 = n → ∀ v ∈ stored nil s n,
      p.2 = v ∨ (n, v) ∈ s.sets.eraseIdx i ∨ ∀ f ∈ s.followers, f.id = n → f.cancelled = true
  | .subscribe i => ∀ p ∈ s.gets[i]?, p.1 = n → ∀ v ∈ stored nil s n, p.2 = v ∨ (n, v) ∈ s.sets
  | _ => True

namespace Follower

variable {f : Follower Value} {id : ℕ} {value : Value}

theorem offer_id : (f.offer id value).id = f.id := by
  rw [offer]
  split <;> rfl

theorem offer_closed : (f.offer id value).closed = f.closed := by
  rw [offer]
  split <;> rfl

theorem offer_cancelled : (f.offer id value).cancelled = f.cancelled := by
  rw [offer]
  split <;> rfl

theorem offer_last (h : f.id = id ∧ f.closed = false) : (f.offer id value).last = some value := by
  rw [offer, if_pos h, last]
  simp

theorem offer_other (h : f.id ≠ id) : f.offer id value = f := by
  rw [offer, if_neg fun h' => h h'.1]

end Follower

namespace Kept

variable {nil} {n : ℕ} {s s' : Store Value}

variable (h : Kept nil n s)
include h

section

variable (hstored : stored nil s' n = stored nil s n) (hgets : ∀ p ∈ s'.gets, p.1 = n → p ∈ s.gets) (hsets : ∀ v, (n, v) ∈ s.sets → (n, v) ∈ s'.sets)
include hstored hgets hsets

/-- A step that leaves the node's row, its pending pushes and its readers as they are. -/
theorem frame (hqueues : n ∈ s.queues → n ∈ s'.queues)
    (hfollowers : ∀ f' ∈ s'.followers, f'.id = n → ∃ f ∈ s.followers, f.id = n ∧ f'.closed = f.closed ∧
      (f'.cancelled = false → f.cancelled = false ∧ f'.last = f.last)) : Kept nil n s' where
  absent := by
    intro hnone
    obtain ⟨hno, hnoget⟩ := h.absent (hstored.symm.trans hnone)
    refine ⟨fun f' hf' hid => ?_, fun p hp hid => hnoget p (hgets p hp hid) hid⟩
    obtain ⟨f, hf, hfid, -⟩ := hfollowers f' hf' hid
    exact hno f hf hfid
  subscribed := by
    intro f' hf' hid
    obtain ⟨f, hf, hfid, hclosed, -⟩ := hfollowers f' hf' hid
    obtain ⟨hopen, hqueue⟩ := h.subscribed f hf hfid
    exact ⟨hclosed.trans hopen, hqueues hqueue⟩
  current := by
    intro v hv
    refine (h.current v (hstored.symm.trans hv)).imp (hsets v) fun hcurrent f' hf' hid hlive => ?_
    obtain ⟨f, hf, hfid, -, hlast⟩ := hfollowers f' hf' hid
    obtain ⟨hlive, hlast⟩ := hlast hlive
    exact hlast.trans (hcurrent f hf hfid hlive)

theorem frame_same
    (hqueues : s'.queues = s.queues) (hfollowers : s'.followers = s.followers) : Kept nil n s' := by
  refine h.frame hstored hgets hsets (fun hq => hqueues ▸ hq) fun f hf hid => ?_
  exact ⟨f, hfollowers ▸ hf, hid, rfl, fun hlive => ⟨hlive, rfl⟩⟩

end

theorem create (node : Node) (name : String) (id : ℕ) : Kept nil n (Tree.create s node name id) := by
  rw [Tree.create]
  refine Trace.unless_keeps h fun hok => ?_
  simp only [not_or, Bool.not_eq_true, Option.isSome_eq_false_iff, Option.isNone_iff_eq_none] at hok
  obtain ⟨-, -, hfree, htaken⟩ := hok
  have hinsert : insertRow s.rows { id, parentID := node.id, name } =
      s.rows.insert { id, parentID := node.id, name } := by
    rw [insertRow, if_neg (by simp [htaken])]
  rw [hinsert]
  have hfind := Table.find_insert (r := ({ id, parentID := node.id, name } : Row Value)) hfree n
  by_cases hid : id = n
  · -- a node that was not there has no readers
    rw [if_pos hid] at hfind
    obtain ⟨hno, -⟩ := h.absent (by rw [stored, ← hid, hfree, Option.map_none])
    refine ⟨fun hnone => ?_, fun f hf hfid => absurd hfid (hno f hf), fun v _ => .inr ?_⟩
    · rw [stored, hfind] at hnone
      exact absurd hnone (by simp)
    · exact fun f hf hfid => absurd hfid (hno f hf)
  · rw [if_neg hid] at hfind
    exact h.frame_same (congrArg _ hfind) (fun p hp _ => hp) (fun v hv => hv) rfl rfl

theorem set (node : Node) (object : Option Value) : Kept nil n (Tree.set nil s node object) := by
  rw [Tree.set]
  refine Trace.unless_keeps h fun hok => ?_
  rw [not_or, Bool.not_eq_false] at hok
  have hfind := find_setNodeValue nil s.rows node.id (object.getD nil) hok.2 n
  by_cases hid : node.id = n
  · -- the value is stored and still to be pushed
    rw [if_pos hid] at hfind
    refine ⟨fun hnone => ?_, h.subscribed, fun v hv => .inl ?_⟩
    · exact absurd (hfind.symm.trans hnone) (by simp)
    · have hvalue : object.getD nil = v := Option.some.inj (hfind.symm.trans hv)
      refine mem_append_right _ (mem_singleton.mpr ?_)
      rw [hid, hvalue]
  · rw [if_neg hid] at hfind
    exact h.frame_same hfind (fun p hp _ => hp) (fun v hv => mem_append_left _ hv) rfl rfl

theorem push {i : ℕ} {p : ℕ × Value} (hp : s.sets[i]? = some p) (hop : InTime nil n s (.push i)) :
    Kept nil n (pushNodeValue { s with sets := s.sets.eraseIdx i } p.1 p.2) := by
  obtain ⟨m, value⟩ := p
  by_cases hm : m = n
  · subst hm
    have hlater : ∀ v, stored nil s m = some v → value = v ∨ (m, v) ∈ s.sets.eraseIdx i ∨
        ∀ f ∈ s.followers, f.id = m → f.cancelled = true := fun v hv => hop (m, value) hp rfl v hv
    rw [pushNodeValue]
    split
    · refine ⟨fun hnone => ⟨fun f' hf' => ?_, (h.absent hnone).2⟩, fun f' hf' hid => ?_, fun v hv => ?_⟩
      · obtain ⟨f, hf, rfl⟩ := mem_map.mp hf'
        rw [Follower.offer_id]
        exact (h.absent hnone).1 f hf
      · obtain ⟨f, hf, rfl⟩ := mem_map.mp hf'
        rw [Follower.offer_id] at hid
        rw [Follower.offer_closed]
        exact h.subscribed f hf hid
      · rcases hlater v hv with rfl | hpending | hcancelled
        · refine .inr fun f' hf' hid hlive => ?_
          obtain ⟨f, hf, rfl⟩ := mem_map.mp hf'
          rw [Follower.offer_id] at hid
          exact Follower.offer_last ⟨hid, (h.subscribed f hf hid).1⟩
        · exact .inl hpending
        · refine .inr fun f' hf' hid hlive => ?_
          obtain ⟨f, hf, rfl⟩ := mem_map.mp hf'
          rw [Follower.offer_id] at hid
          rw [Follower.offer_cancelled, hcancelled f hf hid] at hlive
          exact absurd hlive (by decide)
    · -- without a queue the node has no readers
      rename_i hqueue
      have hno : ∀ f ∈ s.followers, f.id ≠ m := fun f hf hid => hqueue (h.subscribed f hf hid).2
      exact ⟨fun hnone => h.absent hnone, fun f hf hid => absurd hid (hno f hf),
        fun v _ => .inr fun f hf hid => absurd hid (hno f hf)⟩
  · have hsets : ∀ v, (n, v) ∈ s.sets → (n, v) ∈ s.sets.eraseIdx i := fun v hv =>
      Pool.mem_eraseIdx_of_ne hp hv fun he => hm (congrArg Prod.fst he).symm
    rw [pushNodeValue]
    split
    · refine h.frame rfl (fun p hp _ => hp) hsets (fun hq => hq) fun f' hf' hid => ?_
      obtain ⟨f, hf, rfl⟩ := mem_map.mp hf'
      rw [Follower.offer_id] at hid
      rw [Follower.offer_other (hid.trans_ne (Ne.symm hm))]
      exact ⟨f, hf, hid, rfl, fun hlive => ⟨hlive, rfl⟩⟩
    · exact h.frame_same rfl (fun p hp _ => hp) hsets rfl rfl

theorem get (node : Node) : Kept nil n (Tree.get nil s node) := by
  rw [Tree.get]
  split
  · rename_i row hrow
    split
    · exact h
    · refine { h with absent := fun hnone => ⟨(h.absent hnone).1, fun p hp => ?_⟩ }
      rcases mem_append.mp hp with hp | hp
      · exact (h.absent hnone).2 p hp
      · rw [mem_singleton.mp hp]
        rintro rfl
        have hstored : stored nil s node.id = some (row.content nil) := by rw [stored, hrow, Option.map_some]
        exact absurd (hstored.symm.trans hnone) (by simp)
  · exact h

theorem subscribe {i : ℕ} {p : ℕ × Value} (hp : s.gets[i]? = some p) (hop : InTime nil n s (.subscribe i)) :
    Kept nil n (subscribeNodeValue { s with gets := s.gets.eraseIdx i } p.1 p.2) := by
  have hqueues : ∀ m, m ∈ s.queues → m ∈ if p.1 ∈ s.queues then s.queues else s.queues ++ [p.1] := by
    intro m hm
    split
    · exact hm
    · exact mem_append_left _ hm
  refine ⟨fun hnone => ⟨fun f hf => ?_, fun q hq => ?_⟩, fun f hf hid => ?_, fun v hv => ?_⟩
  · rcases mem_append.mp hf with hf | hf
    · exact (h.absent hnone).1 f hf
    · rw [mem_singleton.mp hf]
      exact (h.absent hnone).2 p (mem_of_getElem? hp)
  · exact (h.absent hnone).2 q (mem_of_mem_eraseIdx hq)
  · rcases mem_append.mp hf with hf | hf
    · exact ⟨(h.subscribed f hf hid).1, hqueues n (h.subscribed f hf hid).2⟩
    · rw [mem_singleton.mp hf] at hid ⊢
      refine ⟨rfl, ?_⟩
      show n ∈ if p.1 ∈ s.queues then s.queues else s.queues ++ [p.1]
      split
      · exact hid ▸ ‹p.1 ∈ s.queues›
      · exact mem_append_right _ (mem_singleton.mpr hid.symm)
  · rcases h.current v hv with hpending | hcurrent
    · exact .inl hpending
    · by_cases hid : p.1 = n
      · rcases hop p hp hid v hv with hvalue | hpending
        · refine .inr fun f hf hfid hlive => ?_
          rcases mem_append.mp hf with hf | hf
          · exact hcurrent f hf hfid hlive
          · rw [mem_singleton.mp hf, ← hvalue]
            rfl
        · exact .inl hpending
      · refine .inr fun f hf hfid hlive => ?_
        rcases mem_append.mp hf with hf | hf
        · exact hcurrent f hf hfid hlive
        · rw [mem_singleton.mp hf] at hfid
          exact absurd hfid hid

theorem closeQueue {j : ℕ} {d : Deletion} (hd : d.id ≠ n) : Kept nil n (Tree.closeQueue s j d) := by
  rw [Tree.closeQueue]
  split
  · exact h
  · refine h.frame rfl (fun p hp _ => hp) (fun v hv => hv) (fun hq => ?_) fun f' hf' hid => ?_
    · exact mem_filter.mpr ⟨hq, by simpa using hd.symm⟩
    · obtain ⟨f, hf, rfl⟩ := mem_map.mp hf'
      have hother : f.id ≠ d.id := by
        rintro he
        rw [if_pos he] at hid
        exact hd (he.symm.trans hid)
      rw [if_neg hother] at hid ⊢
      exact ⟨f, hf, hid, rfl, fun hlive => ⟨hlive, rfl⟩⟩

theorem unlink {j : ℕ} {d : Deletion} (hd : d.id ≠ n) : Kept nil n (Tree.unlink s j d) := by
  rw [Tree.unlink]
  split
  · refine h.frame_same ?_ (fun p hp _ => hp) (fun v hv => hv) rfl rfl
    show (Table.find (s.rows.erase d.id) n).map _ = (Table.find s.rows n).map _
    rw [Table.find_erase, if_neg hd.symm]
  · exact h

/-- One reader changes, and what it has or will have does not. -/
theorem setFollower {k : ℕ} {f f' : Follower Value} (hf : s.followers[k]? = some f)
    (hid : f'.id = f.id) (hclosed : f'.closed = f.closed)
    (hlast : f'.cancelled = false → f.cancelled = false ∧ f'.last = f.last) :
    Kept nil n { s with followers := s.followers.set k f' } := by
  refine h.frame rfl (fun p hp _ => hp) (fun v hv => hv) (fun hq => hq) fun g hg hgid => ?_
  rcases mem_or_eq_of_mem_set hg with hg | rfl
  · exact ⟨g, hg, hgid, rfl, fun hlive => ⟨hlive, rfl⟩⟩
  · exact ⟨f, mem_of_getElem? hf, hid.symm.trans hgid, hclosed, hlast⟩

theorem receive {k : ℕ} {f : Follower Value} (hf : s.followers[k]? = some f) :
    Kept nil n (Tree.receive s k f) := by
  rw [Tree.receive]
  split
  · exact h
  · rename_i value rest hqueued
    refine h.setFollower hf rfl rfl fun hlive => ⟨hlive, ?_⟩
    rw [Follower.last, Follower.last, hqueued]
    simp

theorem step (op : Op Value) (hdeleted : Undeleted n s op) (hop : InTime nil n s op) :
    Kept nil n (Tree.step nil s op) := by
  cases op with
  | create k name id => exact Trace.elim_keeps h _ _ fun node _ => h.create node name id
  | sub k =>
    exact Trace.elim_keeps h _ _ fun node _ => h.frame_same rfl (fun p hp _ => hp) (fun v hv => hv) rfl rfl
  | set k object => exact Trace.elim_keeps h _ _ fun node _ => h.set node object
  | push i => exact Trace.elim_keeps h _ _ fun p hp => h.push hp hop
  | get k => exact Trace.elim_keeps h _ _ fun node _ => h.get node
  | subscribe i => exact Trace.elim_keeps h _ _ fun p hp => h.subscribe hp hop
  | delete k =>
    refine Trace.elim_keeps h _ _ fun node _ => ?_
    rw [Tree.delete]
    split
    · exact h.frame_same rfl (fun p hp _ => hp) (fun v hv => hv) rfl rfl
    · exact h
  | closeQueue j => exact Trace.elim_keeps h _ _ fun d hd => h.closeQueue (hdeleted d hd)
  | unlink j => exact Trace.elim_keeps h _ _ fun d hd => h.unlink (hdeleted d hd)
  | receive k => exact Trace.elim_keeps h _ _ fun f hf => h.receive hf
  | cancel k =>
    exact Trace.elim_keeps h _ _ fun f hf => h.setFollower hf rfl rfl fun hlive => absurd hlive (by simp)

end Kept

/-! ## Whole runs -/

/-- **Followers.** Let no step of a run delete the node, and every push and subscription on it come
in time. When the node's calls of `Set` have returned, a reader that has read everything queued for
it and was not cancelled has received the stored value last. -/
theorem followers_current (n : ℕ) (ops : List (Op Value))
    (hdeleted : Trace.Along (fun past op => Undeleted n (exec nil past) op) ops)
    (hops : Trace.Along (fun past op => InTime nil n (exec nil past) op) ops)
    (hsets : ∀ p ∈ (exec nil ops).sets, p.1 ≠ n) :
    ∀ f ∈ (exec nil ops).followers, f.id = n → f.cancelled = false → f.queued = [] →
      ∃ v, stored nil (exec nil ops) n = some v ∧ f.received.getLast? = some v := by
  have hkept : Kept nil n (exec nil ops) := by
    refine Trace.invariant (I := fun ops (s : Store Value) =>
      Trace.Along (fun past op => Undeleted n (exec nil past) op) ops →
      Trace.Along (fun past op => InTime nil n (exec nil past) op) ops → Kept nil n s) ?_ ?_ ops hdeleted hops
    · intro _ _
      exact ⟨fun _ => ⟨fun f hf => absurd hf not_mem_nil, fun p hp => absurd hp not_mem_nil⟩,
        fun f hf => absurd hf not_mem_nil, fun v _ => .inr fun f hf => absurd hf not_mem_nil⟩
    · intro op past ih hdeleted hops
      exact (ih hdeleted.2 hops.2).step op hdeleted.1 hops.1
  intro f hf hid hlive hqueued
  cases hstored : stored nil (exec nil ops) n with
  | none => exact absurd hid ((hkept.absent hstored).1 f hf)
  | some v =>
    refine ⟨v, rfl, ?_⟩
    rcases hkept.current v hstored with hpending | hcurrent
    · exact absurd rfl (hsets _ hpending)
    · have hlast := hcurrent f hf hid hlive
      rwa [Follower.last, hqueued, append_nil] at hlast

instance [DecidableEq Value] (n : ℕ) (s : Store Value) : (op : Op Value) → Decidable (Undeleted n s op)
  | .closeQueue j | .unlink j => inferInstanceAs (Decidable (∀ d ∈ s.deletions[j]?, _))
  | .create _ _ _ | .sub _ | .set _ _ | .push _ | .get _ | .subscribe _ | .delete _ | .receive _ |
    .cancel _ =>
    instDecidableTrue

instance [DecidableEq Value] (n : ℕ) (s : Store Value) : (op : Op Value) → Decidable (InTime nil n s op)
  | .push i => inferInstanceAs (Decidable (∀ p ∈ s.sets[i]?, p.1 = n → ∀ v ∈ stored nil s n, _))
  | .subscribe i => inferInstanceAs (Decidable (∀ p ∈ s.gets[i]?, p.1 = n → ∀ v ∈ stored nil s n, _))
  | .create _ _ _ | .sub _ | .set _ _ | .get _ | .delete _ | .closeQueue _ | .unlink _ | .receive _ |
    .cancel _ =>
    instDecidableTrue

end

/-- A `Set` between the read and the subscription of a `Get`, pushed after it. -/
theorem followers_current_overtaken :
    let ops : List (Op ℕ) :=
      [.receive 0, .receive 0, .push 0, .subscribe 0, .set 1 (some 7), .get 1, .create 0 "a" 1]
    ∃ f ∈ (exec 0 ops).followers, f.received = [0, 7] ∧
      ∃ v, stored 0 (exec 0 ops) 1 = some v ∧ f.received.getLast? = some v := by
  intro ops
  refine ⟨{ id := 1, received := [0, 7], queued := [] }, by decide, rfl, ?_⟩
  exact followers_current 0 1 ops (by decide) (by decide) (by decide) _ (by decide) rfl rfl rfl

/-- The push of a `Set` between the read and the subscription of a `Get` reaches nobody: the reader
stays at the value before. Two calls of `Set` that push in the opposite order of their writes leave
the reader at the value that was overwritten. -/
theorem follower_left_behind :
    (∃ ops : List (Op ℕ), (exec 0 ops).sets = [] ∧ stored 0 (exec 0 ops) 1 = some 7 ∧
      (exec 0 ops).followers = [{ id := 1, received := [0], queued := [] }]) ∧
    ∃ ops : List (Op ℕ), (exec 0 ops).sets = [] ∧ stored 0 (exec 0 ops) 1 = some 8 ∧
      (exec 0 ops).followers = [{ id := 1, received := [0, 8, 7], queued := [] }] :=
  ⟨⟨[.receive 0, .subscribe 0, .push 0, .set 1 (some 7), .get 1, .create 0 "a" 1],
      by decide, by decide, by decide⟩,
    ⟨[.receive 0, .receive 0, .receive 0, .push 0, .push 1, .set 1 (some 8), .set 1 (some 7),
      .subscribe 0, .get 1,
      .create 0 "a" 1], by decide, by decide, by decide⟩⟩

end Astrald.Tree
