import Astrald.Services.Convergence
import Astrald.Services.Edits

/-!
# Who offers what

The last word a stream was given on a key comes from its contributors: the local sources
that answer for it and the swarm members that carry its discovery.

* `agreed_exec`: the last word is that some contributor offers the key, in every run in which
  nobody withdraws a key that another contributor offers;
* `view_iff_offered`: then so is the consumer's view, whenever the stream is quiet;
* `lost_takes_all`: without that condition a member that is lost takes the offering of a
  local source with it;
* `view_iff_owner_available`: among local sources the condition always holds, so the view of a
  quiet follow stream is what the owners of the offerings last answered.
-/

namespace Astrald.Services

open List

namespace Coordinator

/-! ## The members' key sets -/

/-- Members stay, and keep the keys that are not `gone`; new ones come only when some `joins`. -/
structure Retains (gone : ℕ → OfferingKey → Prop) (joins : Prop) (c c' : Coordinator) : Prop where
  nRemotes : c.nRemotes ≤ c'.nRemotes
  same : ¬joins → c'.nRemotes = c.nRemotes
  st : ∀ r < c.nRemotes, (c'.remotes r).st = (c.remotes r).st
  keys : ∀ r < c.nRemotes, ∀ k ∈ (c.remotes r).keys, ¬gone r k → k ∈ (c'.remotes r).keys

variable {gone : ℕ → OfferingKey → Prop} {joins : Prop}

variable (d : Draws) {c : Coordinator} {k : OfferingKey} {i s : ℕ} (ops : List Op) (op : Op)

theorem Retains.trans {a b : Coordinator} (h : Retains gone joins a b) (h' : Retains gone joins b c) :
    Retains gone joins a c where
  nRemotes := h.nRemotes.trans h'.nRemotes
  same hj := (h'.same hj).trans (h.same hj)
  st r hr := (h'.st r (hr.trans_le h.nRemotes)).trans (h.st r hr)
  keys r hr k hk hg := h'.keys r (hr.trans_le h.nRemotes) k (h.keys r hr k hk hg) hg

theorem retains_of_eq {c' : Coordinator} (hn : c'.nRemotes = c.nRemotes) (hr : c'.remotes = c.remotes) :
    Retains gone joins c c' :=
  ⟨hn.ge, fun _ => hn, fun r _ => by rw [hr], fun r _ k hk _ => by rwa [hr]⟩

theorem Retains.refl (c : Coordinator) : Retains gone joins c c := retains_of_eq rfl rfl

theorem retains_modRemote (c : Coordinator) (r : ℕ) (f : Remote → Remote) (hst : ∀ rm, (f rm).st = rm.st)
    (hk : ∀ rm, ∀ k ∈ rm.keys, ¬gone r k → k ∈ (f rm).keys) : Retains gone joins c (c.modRemote r f) := by
  refine ⟨le_rfl, fun _ => rfl, fun r' _ => ?_, fun r' _ k hm hg => ?_⟩
  · by_cases hr : r' = r
    · subst hr
      simp [modRemote, hst]
    · simp [modRemote, hr]
  · by_cases hr : r' = r
    · subst hr
      simpa [modRemote] using hk (c.remotes r') k hm hg
    · simpa [modRemote, hr] using hm

theorem Edits.retains {c' : Coordinator} {x : Scope} (h : Edits d x c c') : Retains x.forgets x.joins c c' := by
  refine Relation.ReflTransGen.head_induction_on h (.refl c') fun {a b} hab _ ih => Retains.trans ?_ ih
  cases hab with
  | remote r f hst hk => exact retains_modRemote a r f hst hk
  | obligeRemote i r name =>
    have h : Retains x.forgets x.joins a
        (a.modRemote r fun rm => { rm with opened := rm.opened.insert name a.nObligations }) :=
      retains_modRemote a r _ (fun _ => rfl) fun _ _ hk _ => hk
    exact { h with }
  | member i member hj =>
    refine ⟨Nat.le_succ _, fun hn => absurd hj hn, fun r hr => ?_, fun r hr k hk _ => ?_⟩
    · exact congrArg Remote.st (Function.update_of_ne (Nat.ne_of_lt hr) ..)
    · simpa [Nat.ne_of_lt hr] using hk
  | _ => exact retains_of_eq rfl rfl

/-- Every operation keeps every member and every contributed key that it does not forget. -/
theorem step_retains (hw : Wf d (.tight True) c) (op : Op) :
    Retains op.forgets (op.isLocal = false) c (c.step d op) := by
  obtain ⟨-, hremotes, hn⟩ := claimed_eq (c := c) op
  exact (retains_of_eq hn hremotes).trans ((edits_step hw op).retains d)

/-! ## Contributors -/

/-- What an offered view says about `k`. -/
def keyWord (off : Option (OfferingKey × Update)) (k : OfferingKey) : Option Bool :=
  off.bind fun p => if p.1 = k then some p.2.available else none

/-- What an answer of source `s` that is delivered to stream `i` says about `k`. -/
def delivered (i s : ℕ) (k : OfferingKey) (c : Coordinator) : Op → Option Bool
  | .answer s' a => if s' = s then keyWord (c.offerOf (.answer s' a) i) k else none
  | _ => none

/-- What member `r` tells stream `i` about `k`: its views, its removals, and that it is lost. -/
def told (i r : ℕ) (k : OfferingKey) (c : Coordinator) : Op → Option Bool
  | .remoteOffer r' u =>
    if r' = r ∧ i < c.nStreams then keyWord (c.offerOf (.remoteOffer r' u) i) k else none
  | .remoteRemove r' keys => if r' = r ∧ k ∈ keys then some false else none
  | .remoteLost r' => if r' = r then some false else none
  | _ => none

def lastDelivered (d : Draws) (ops : List Op) (i s : ℕ) (k : OfferingKey) : Option Bool :=
  Trace.latest (fun ops op => (exec d ops).delivered i s k op) ops

def lastTold (d : Draws) (ops : List Op) (i r : ℕ) (k : OfferingKey) : Option Bool :=
  Trace.latest (fun ops op => (exec d ops).told i r k op) ops

theorem lastDelivered_cons (ops : List Op) (i s : ℕ) (k : OfferingKey) :
    lastDelivered d (op :: ops) i s k =
      ((exec d ops).delivered i s k op).or (lastDelivered d ops i s k) := rfl

theorem lastTold_cons (ops : List Op) (i r : ℕ) (k : OfferingKey) :
    lastTold d (op :: ops) i r k = ((exec d ops).told i r k op).or (lastTold d ops i r k) := rfl

inductive Contributor
  | source (s : ℕ)
  | remote (r : ℕ)
  deriving DecidableEq

def contributors (c : Coordinator) : List Contributor :=
  (List.range c.nSources).map .source ++ (List.range c.nRemotes).map .remote

/-- After the run, `x` offers `k` to stream `i`: an open source whose last answer delivered to
the stream was available, or a member whose last word was an available view. -/
def offers (d : Draws) (ops : List Op) (i : ℕ) (k : OfferingKey) : Contributor → Prop
  | .source s => ((exec d ops).sources s).closed = false ∧ lastDelivered d ops i s k = some true
  | .remote r => lastTold d ops i r k = some true

instance (d : Draws) (ops : List Op) (i : ℕ) (k : OfferingKey) (x : Contributor) :
    Decidable (offers d ops i k x) :=
  match x with
  | .source _ => inferInstanceAs (Decidable (_ ∧ _))
  | .remote _ => inferInstanceAs (Decidable (_ = _))

def actor (c : Coordinator) : Op → Option Contributor
  | .answer s _ => some (.source s)
  | .remoteOffer r _ | .remoteRemove r _ | .remoteLost r => some (.remote r)
  | op => (c.sourceCloses op).map .source

/-- The keys an operation takes from stream `i`: by a retraction or by a negative view. -/
def withdrawn (c : Coordinator) (op : Op) (i : ℕ) : List OfferingKey :=
  c.retractsOf op i ++ ((c.offerOf op i).filter (!·.2.available)).toList.map (·.1)

/-- Nobody but the contributor that withdraws a key offers it. -/
def Uncontested (d : Draws) (ops : List Op) (op : Op) : Prop :=
  ∀ i < (exec d ops).nStreams, ∀ k ∈ (exec d ops).withdrawn op i, ∀ x ∈ (exec d ops).contributors,
    (exec d ops).actor op ≠ some x → ¬offers d ops i k x

instance (d : Draws) (ops : List Op) (op : Op) : Decidable (Uncontested d ops op) :=
  inferInstanceAs (Decidable (∀ i < _, _))

theorem keyWord_eq_some {off : Option (OfferingKey × Update)} {b : Bool} :
    keyWord off k = some b ↔ ∃ u, off = some (k, u) ∧ u.available = b := by
  cases off with
  | none => simp [keyWord]
  | some p =>
    obtain ⟨k', u⟩ := p
    by_cases hk : k' = k
    · simp [keyWord, hk]
    · simp [keyWord, hk]

theorem offerOf_answer {a : Answer} {u : Update} (h : c.offerOf (.answer s a) i = some (k, u)) :
    c.accepts s a = true ∧ c.delivers ((c.sources s).reqs a.requestID) i = true ∧
      k = keyOf (c.sources s).provider ((c.sources s).reqs a.requestID).service := by
  simp only [offerOf] at h
  split at h
  · rename_i hacc
    obtain ⟨hacc, hdel⟩ := Bool.and_eq_true_iff.mp hacc
    obtain ⟨upd, _, he⟩ := Option.map_eq_some_iff.mp h
    exact ⟨hacc, hdel, (Prod.mk.inj he).1.symm⟩
  · cases h

theorem accepts_iff {a : Answer} :
    c.accepts s a = true ↔ s < c.nSources ∧ (c.sources s).closed = false ∧
      a.requestID ∈ (c.sources s).pending ∧
      acceptable (c.sources s) ((c.sources s).reqs a.requestID) a = true := by
  simp [accepts, and_assoc]

theorem delivers_iff {req : Request} :
    c.delivers req i = true ↔ i ∈ c.byCaller req.caller ∧ req.service ∈ (c.streams i).services ∧
      (c.streams i).closed = false ∧ ((c.streams i).follow = true ∨ c.owes req i = true) := by
  simp [delivers, and_assoc]

theorem offerOf_remote {r : ℕ} {u u' : Update} (h : c.offerOf (.remoteOffer r u) i = some (k, u')) :
    r < c.nRemotes ∧ (c.remotes r).st = i ∧ (c.streams i).closed = false ∧
      u.name ∈ (c.streams i).services ∧ ∃ provider, u.providerID = some provider ∧
        k = keyOf provider u.name := by
  simp only [offerOf] at h
  split at h
  · rename_i hc
    obtain ⟨provider, hp, he⟩ := Option.map_eq_some_iff.mp h
    exact ⟨hc.1, hc.2.1, hc.2.2.1, hc.2.2.2, provider, hp, (Prod.mk.inj he).1.symm⟩
  · cases h

/-- A source has delivered only what it lists and the stream requests. -/
theorem delivered_known (i s : ℕ) (k : OfferingKey) (b : Bool) (h : lastDelivered d ops i s k = some b) :
    i < (exec d ops).nStreams ∧ s < (exec d ops).nSources ∧
      ((exec d ops).sources s).provider = k.provider ∧ k.name ∈ ((exec d ops).sources s).names ∧
      k.name ∈ ((exec d ops).streams i).services := by
  induction ops with
  | nil => cases h
  | cons op ops ih =>
    -- what is known before the operation is known after it
    have hkeep : i < (exec d ops).nStreams ∧ s < (exec d ops).nSources ∧
        ((exec d ops).sources s).provider = k.provider ∧ k.name ∈ ((exec d ops).sources s).names ∧
        k.name ∈ ((exec d ops).streams i).services := by
      rw [lastDelivered_cons, Option.or_eq_some_iff] at h
      rcases h with hd | ⟨_, hl⟩
      · cases op with
        | answer s' a =>
          simp only [delivered] at hd
          split at hd
          · rename_i hs
            subst hs
            obtain ⟨u, hoff, _⟩ := keyWord_eq_some.mp hd
            obtain ⟨hacc, hdel, rfl⟩ := offerOf_answer hoff
            obtain ⟨hs, _, hp, _⟩ := accepts_iff.mp hacc
            have hn := ((wf_exec d True ops fun _ _ => .inl trivial).source s').pending_names _ hp
            obtain ⟨hby, hsv, _⟩ := delivers_iff.mp hdel
            exact ⟨(((indexed_exec d ops).byCaller _ i).mp hby).1, hs, rfl, hn, hsv⟩
          · cases hd
        | _ => cases hd
      · exact ih hl
    obtain ⟨hi, hs, hp, hn, hsv⟩ := hkeep
    have hsrc := step_source d (exec d ops) op hs
    have hst := (step_turn d (exec d ops) op i hi).static
    refine ⟨?_, hs.trans_le (nSources_step d _ op), hsrc.provider.trans hp, ?_, ?_⟩
    · exact hi.trans_le (nStreams_le d (exec d ops) op)
    · exact hsrc.names ▸ hn
    · exact hst.2.1 ▸ hsv

/-- What a member last offered is in its set. -/
theorem told_known (i r : ℕ) (k : OfferingKey) (h : lastTold d ops i r k = some true) :
    i < (exec d ops).nStreams ∧ r < (exec d ops).nRemotes ∧ ((exec d ops).remotes r).st = i ∧
      k ∈ ((exec d ops).remotes r).keys := by
  induction ops with
  | nil => cases h
  | cons op ops ih =>
    have hret := step_retains d (wf_exec d True ops fun _ _ => .inl trivial) op
    have hmore : (exec d ops).nStreams ≤ (exec d (op :: ops)).nStreams := nStreams_le d _ op
    rw [lastTold_cons, Option.or_eq_some_iff] at h
    rcases h with ht | ⟨hnone, hl⟩
    · cases op with
      | remoteOffer r' u =>
        simp only [told] at ht
        split at ht
        · rename_i hr
          obtain ⟨rfl, hi⟩ := hr
          obtain ⟨u', hoff, _⟩ := keyWord_eq_some.mp ht
          obtain ⟨hr, hst, hc, hn, provider, hp, rfl⟩ := offerOf_remote hoff
          refine ⟨hi.trans_le hmore, hr.trans_le hret.nRemotes, (hret.st r' hr).trans hst, ?_⟩
          have hstep : exec d (.remoteOffer r' u :: ops) = (exec d ops).remoteOffer r' u := if_pos hr
          rw [hstep]
          unfold remoteOffer
          rw [hst]
          simp only [hp, hc, hn, not_true_eq_false, decide_false, Bool.or_self, Bool.false_eq_true, if_false]
          simp [modStream, modRemote]
        · cases ht
      | remoteRemove r' keys | remoteLost r' =>
        simp only [told] at ht
        split at ht <;> cases ht
      | _ => cases ht
    · obtain ⟨hi, hr, hst, hk⟩ := ih hl
      refine ⟨hi.trans_le hmore, hr.trans_le hret.nRemotes, (hret.st r hr).trans hst, hret.keys r hr k hk ?_⟩
      -- an operation that forgets the key has said so
      intro hg
      cases op with
      | remoteRemove r' keys =>
        obtain ⟨rfl, hm⟩ := hg
        simp [told, hm] at hnone
      | remoteLost r' =>
        cases hg
        simp [told] at hnone
      | _ => exact hg

/-- Only the actor's offers change. -/
theorem offers_of_ne (i : ℕ) (k : OfferingKey) (x : Contributor) (hx : (exec d ops).actor op ≠ some x) :
    offers d (op :: ops) i k x ↔ offers d ops i k x := by
  cases x with
  | source s =>
    have hd : (exec d ops).delivered i s k op = none := by
      cases op with
      | answer s' a =>
        simp only [delivered]
        rw [if_neg]
        rintro rfl
        exact hx rfl
      | _ => rfl
    have hlast : lastDelivered d (op :: ops) i s k = lastDelivered d ops i s k := by
      rw [lastDelivered_cons, hd, Option.none_or]
    simp only [offers, hlast]
    refine and_congr_left fun hl => ?_
    obtain ⟨_, hs, _⟩ := delivered_known d ops i s k true hl
    have hcl : (exec d ops).sourceCloses op ≠ some s := by
      intro hcl
      cases op with
      | answer s' a =>
        simp only [sourceCloses] at hcl
        split at hcl
        · cases hcl
          exact hx rfl
        · cases hcl
      | remoteOffer r u | remoteRemove r keys | remoteLost r => cases hcl
      | _ =>
        refine hx ?_
        simp only [actor, hcl, Option.map_some]
    have hc := (step_source d (exec d ops) op hs).closed
    simp only [hcl, decide_false, Bool.or_false] at hc
    rw [← hc]
    rfl
  | remote r =>
    have ht : (exec d ops).told i r k op = none := by
      cases op with
      | remoteOffer r' u | remoteRemove r' keys =>
        simp only [told]
        rw [if_neg]
        rintro ⟨rfl, _⟩
        exact hx rfl
      | remoteLost r' =>
        simp only [told]
        rw [if_neg]
        rintro rfl
        exact hx rfl
      | _ => rfl
    simp only [offers, lastTold_cons, ht, Option.none_or]

theorem offers_mem (i : ℕ) (k : OfferingKey) (x : Contributor) (h : offers d ops i k x) :
    x ∈ (exec d ops).contributors := by
  unfold contributors
  cases x with
  | source s => simpa using (delivered_known d ops i s k true h.2).2.1
  | remote r => simpa using (told_known d ops i r k h).2.1

/-! ## What the actor does -/

section

variable {op : Op} (h : c.sourceCloses op = some s)
include h

theorem sourceCloses_open : s < c.nSources ∧ (c.sources s).closed = false := by
  cases op with
  | closeSource t | answer t a | change t ch order =>
    simp only [sourceCloses] at h
    split at h
    · rename_i hc
      cases h
      simp_all
    · cases h
  | sendFailed t =>
    simp only [sourceCloses] at h
    split at h
    · split at h
      · rename_i hc
        cases h
        exact hc
      · cases h
    · cases h
  | _ => cases h

theorem actor_of_closes : c.actor op = some (.source s) := by
  cases op with
  | answer t a =>
    simp only [sourceCloses] at h
    split at h
    · cases h
      rfl
    · cases h
  | closeSource t | change t ch order | sendFailed t => simp only [actor, h, Option.map_some]
  | _ => cases h

theorem retractsOf_closes (i : ℕ) : c.retractsOf op i = c.lostKeys s i := by
  cases op with
  | closeSource t | answer t a | change t ch order | sendFailed t => simp only [retractsOf, h]
  | _ => cases h

end

/-- A closed source is closed, and offers nothing. -/
theorem not_offers_closes (i : ℕ) (k : OfferingKey) (h : (exec d ops).sourceCloses op = some s) :
    ¬offers d (op :: ops) i k (.source s) := by
  rintro ⟨hc, _⟩
  have hcl := (step_source d (exec d ops) op (sourceCloses_open h).1).closed
  rw [h] at hcl
  simp only [decide_true, Bool.or_true] at hcl
  have hc' : (((exec d ops).step d op).sources s).closed = false := hc
  rw [hcl] at hc'
  cases hc'

theorem mem_contributed {held keys : List OfferingKey} : k ∈ contributed held keys ↔ k ∈ keys ∧ k ∈ held := by
  induction keys generalizing held with
  | nil => simp [contributed]
  | cons k' keys ih =>
    unfold contributed
    by_cases hk : k = k'
    · subst hk
      split
      · rename_i hm
        simp [hm]
      · rename_i hm
        simp [hm, ih]
    · split
      · simp [ih, hk]
      · simp [ih, hk]

/-- Who retracts a key does not offer it afterwards. -/
theorem retracts_actor (i : ℕ) (k : OfferingKey) (h : k ∈ (exec d ops).retractsOf op i) :
    ∃ x, (exec d ops).actor op = some x ∧ ¬offers d (op :: ops) i k x := by
  cases hcl : (exec d ops).sourceCloses op with
  | some s => exact ⟨.source s, actor_of_closes hcl, not_offers_closes d ops op i k hcl⟩
  | none =>
    cases op with
    | remoteRemove r keys =>
      refine ⟨.remote r, rfl, ?_⟩
      simp only [retractsOf] at h
      split at h
      · have hk := (mem_contributed.mp h).1
        simp [offers, lastTold_cons, told, hk]
      · exact absurd h not_mem_nil
    | remoteLost r =>
      refine ⟨.remote r, rfl, ?_⟩
      simp [offers, lastTold_cons, told]
    | _ =>
      simp only [retractsOf, hcl] at h
      exact absurd h not_mem_nil

section

variable (hi : i < (exec d ops).nStreams)
include hi

/-- Who offers a view offers the key when the view does. -/
theorem offer_actor {u : Update} (h : (exec d ops).offerOf op i = some (k, u)) :
    ∃ x, (exec d ops).actor op = some x ∧ (offers d (op :: ops) i k x ↔ u.available = true) := by
  have hword : keyWord ((exec d ops).offerOf op i) k = some u.available :=
    keyWord_eq_some.mpr ⟨u, h, rfl⟩
  cases op with
  | answer s a =>
    refine ⟨.source s, rfl, ?_⟩
    obtain ⟨hs, hc, _, hacc⟩ := accepts_iff.mp (offerOf_answer h).1
    have hcl := (step_source d (exec d ops) (.answer s a) hs).closed
    have hnone : (exec d ops).sourceCloses (.answer s a) = none := by simp [sourceCloses, hacc]
    rw [hnone] at hcl
    simp only [reduceCtorEq, decide_false, Bool.or_false, hc] at hcl
    have hcl' : ((exec d (.answer s a :: ops)).sources s).closed = false := hcl
    simp only [offers, lastDelivered_cons, delivered, if_true, hword, hcl', true_and, Option.some_or,
      Option.some.injEq]
  | remoteOffer r u' =>
    refine ⟨.remote r, rfl, ?_⟩
    simp only [offers, lastTold_cons, told, hi, and_self, if_true, hword, Option.some_or, Option.some.injEq]
  | _ => cases h

/-- An operation that does not speak of `k` to the stream does not change who offers it. -/
theorem offers_of_silent (hopen : ((exec d ops).streams i).closed = false)
    (hks : k ∉ (exec d ops).retractsOf op i) (hoff : ∀ u, (exec d ops).offerOf op i ≠ some (k, u))
    (x : Contributor) : offers d (op :: ops) i k x ↔ offers d ops i k x := by
  have hword : keyWord ((exec d ops).offerOf op i) k = none := by
    cases hw : keyWord ((exec d ops).offerOf op i) k with
    | none => rfl
    | some b =>
      obtain ⟨u, hu, _⟩ := keyWord_eq_some.mp hw
      exact absurd hu (hoff u)
  by_cases hx : (exec d ops).actor op = some x
  · cases x with
    | source s =>
      have hd : (exec d ops).delivered i s k op = none := by
        cases op with
        | answer s' a =>
          simp only [delivered, hword, ite_self]
        | _ => rfl
      cases hcl : (exec d ops).sourceCloses op with
      | some t =>
        have ht : t = s := by
          have := (actor_of_closes hcl).symm.trans hx
          simpa using this
        subst ht
        refine iff_of_false (not_offers_closes d ops op i k hcl) ?_
        -- whatever it delivered it would have retracted
        rintro ⟨_, hl⟩
        obtain ⟨_, _, hp, hn, hsv⟩ := delivered_known d ops i t k true hl
        refine hks ?_
        have hen : (exec d ops).enrolled i := ((indexed_exec d ops).byCaller _ i).mpr ⟨hi, hopen, rfl⟩
        rw [retractsOf_closes hcl, lostKeys, if_pos ⟨hen, hopen⟩]
        refine mem_map.mpr ⟨k.name, mem_filter.mpr ⟨hn, by simpa using hsv⟩, ?_⟩
        rw [hp]
        rfl
      | none =>
        simp only [offers, lastDelivered_cons, hd, Option.none_or]
        refine and_congr_left fun hl => ?_
        obtain ⟨_, hs, _⟩ := delivered_known d ops i s k true hl
        have hc := (step_source d (exec d ops) op hs).closed
        simp only [hcl, reduceCtorEq, decide_false, Bool.or_false] at hc
        rw [← hc]
        rfl
    | remote r =>
      cases op with
      | remoteOffer r' u => simp only [offers, lastTold_cons, told, hword, ite_self, Option.none_or]
      | remoteRemove r' keys =>
        have hr : r' = r := by simpa [actor] using hx
        subst hr
        by_cases hk : k ∈ keys
        · refine iff_of_false (by simp [offers, lastTold_cons, told, hk]) fun ho => hks ?_
          obtain ⟨_, hr, hst, hm⟩ := told_known d ops i r' k ho
          simp only [retractsOf]
          rw [if_pos ⟨hr, hst, hopen⟩]
          exact mem_contributed.mpr ⟨hk, hm⟩
        · simp [offers, lastTold_cons, told, hk]
      | remoteLost r' =>
        have hr : r' = r := by simpa [actor] using hx
        subst hr
        refine iff_of_false (by simp [offers, lastTold_cons, told]) fun ho => hks ?_
        obtain ⟨_, hr, hst, hm⟩ := told_known d ops i r' k ho
        simp only [retractsOf]
        rw [if_pos ⟨hr, hst, hopen⟩]
        exact hm
      | _ => simp [actor] at hx
  · exact offers_of_ne d ops op i k x hx

/-! ## Agreement -/

/-- An uncontested withdrawal leaves nobody offering. -/
theorem not_offers_withdrawn (hun : Uncontested d ops op) (hk : k ∈ (exec d ops).withdrawn op i)
    (hact : ∃ x, (exec d ops).actor op = some x ∧ ¬offers d (op :: ops) i k x) (x : Contributor) :
    ¬offers d (op :: ops) i k x := by
  obtain ⟨y, hy, hnot⟩ := hact
  by_cases hx : x = y
  · rw [hx]
    exact hnot
  · intro ho
    have hne : (exec d ops).actor op ≠ some x := fun he => hx (Option.some.inj (he.symm.trans hy))
    have ho' := (offers_of_ne d ops op i k x hne).mp ho
    exact hun i hi k hk x (offers_mem d ops i k x ho') hne ho'

theorem agreed_step (hopen : ((exec d (op :: ops)).streams i).closed = false) (hun : Uncontested d ops op)
    (ih : ∀ k, lastWord ((exec d ops).streams i).log k = true ↔ ∃ x, offers d ops i k x) (k : OfferingKey) :
    lastWord ((exec d (op :: ops)).streams i).log k = true ↔ ∃ x, offers d (op :: ops) i k x := by
  have hturn := step_turn d (exec d ops) op i hi
  have hopen' := hturn.static.2.2.2 hopen
  have hlast : lastWord ((exec d (op :: ops)).streams i).log k =
      (!decide (k ∈ (exec d ops).retractsOf op i) &&
        lastWord (((exec d ops).streams i).offer? ((exec d ops).offerOf op i)).log k) := hturn.lastWord k
  rw [hlast]
  by_cases hks : k ∈ (exec d ops).retractsOf op i
  · have hnone := not_offers_withdrawn d ops op hi hun (mem_append_left _ hks)
      (retracts_actor d ops op i k hks)
    simp [hks, hnone]
  · simp only [hks, decide_false, Bool.not_false, Bool.true_and]
    cases hoff : (exec d ops).offerOf op i with
    | none =>
      have hsame := offers_of_silent d ops op hi hopen' hks (by simp [hoff])
      simp only [Stream.offer?, hsame]
      exact ih k
    | some p =>
      obtain ⟨k', u⟩ := p
      simp only [Stream.offer?, Stream.lastWord_offer]
      by_cases hk : k' = k
      · subst hk
        rw [if_pos rfl]
        obtain ⟨x, hx, hiff⟩ := offer_actor d ops op hi hoff
        constructor
        · exact fun hu => ⟨x, hiff.mpr hu⟩
        · rintro ⟨y, hy⟩
          by_contra hu
          have hu' : u.available = false := Bool.eq_false_iff.mpr hu
          refine not_offers_withdrawn d ops op hi hun (mem_append_right _ ?_)
            ⟨x, hx, fun ho => hu (hiff.mp ho)⟩ y hy
          simp [hoff, hu']
      · have hsame := offers_of_silent d ops op hi hopen' hks (by simp [hoff, hk])
        simp only [if_neg hk, hsame]
        exact ih k

end

/-- **Agreement.** In a run without contested withdrawals the last word on a key is that
some contributor offers it. -/
theorem agreed_exec (h : Trace.Along (Uncontested d) ops) (i : ℕ) (hi : i < (exec d ops).nStreams)
    (hopen : ((exec d ops).streams i).closed = false) (k : OfferingKey) :
    lastWord ((exec d ops).streams i).log k = true ↔ ∃ x, offers d ops i k x := by
  induction ops generalizing k with
  | nil => exact absurd hi (Nat.not_lt_zero i)
  | cons op ops ih =>
    by_cases hlt : i < (exec d ops).nStreams
    · have hopen' := (step_turn d (exec d ops) op i hlt).static.2.2.2 hopen
      exact agreed_step d ops op hlt hopen h.1 (fun k => ih h.2 hlt hopen' k) k
    · -- the stream is new: nobody has spoken to it
      obtain ⟨rfl, caller, names, follow, members, rfl⟩ := eq_discover_of_new d (exec d ops) op hi hlt
      refine iff_of_false ?_ ?_
      · obtain ⟨es, hes, hlog⟩ := (step_newStream d (exec d ops)
          (.discover caller names follow members) rfl).log
        have hlog' : ((exec d (.discover caller names follow members :: ops)).streams
            (exec d ops).nStreams).log = [] ++ es := hlog
        rw [hlog', lastWord_silent fun e he => hes e he k]
        simp [lastWord]
      · rintro ⟨x, hx⟩
        have hx' := (offers_of_ne d ops _ _ k x (by simp [actor, sourceCloses])).mp hx
        cases x with
        | source s => exact hlt (delivered_known d ops _ s k true hx'.2).1
        | remote r => exact hlt (told_known d ops _ r k hx').1

/-- **The view of a quiet stream.** In a run without contested withdrawals an open stream
with nothing left to write shows exactly what some contributor offers. -/
theorem view_iff_offered (d : Draws) (ops : List Op) (h : Trace.Along (Uncontested d) ops) (i : ℕ)
    (hi : i < (exec d ops).nStreams) (hopen : ((exec d ops).streams i).closed = false)
    (hq : ((exec d ops).streams i).queue = []) (hr : ((exec d ops).streams i).removed = [])
    (hf : ((exec d ops).streams i).inflight = none) (k : OfferingKey) :
    k ∈ consumerView ((exec d ops).streams i).log ↔ ∃ x, offers d ops i k x := by
  rw [(settles_exec d ops i hi).quiet hopen hq hr hf]
  exact agreed_exec d ops h i hi hopen k

def memberUpdate (provider : String) : Update :=
  { playerUpdate true "m" with providerID := some provider }

/-- A local source and a member offer `player`, of two providers; the member is lost; the
writer writes everything. Latest first. -/
def ownKeys : List Op :=
  [.wrote 0, .run 0, .wrote 0, .run 0, .remoteLost 0, .wrote 0, .run 0, .wrote 0, .run 0,
    .remoteOffer 0 (memberUpdate "q"), .answer 0 ⟨1, some (playerUpdate true "a")⟩,
    .discover "c" ["player"] true ["m"], .register "p" ["player"] []]

theorem view_iff_offered_ownKeys :
    (keyOf "p" "player" ∈ consumerView ((exec countingDraws ownKeys).streams 0).log ↔
      ∃ x, offers countingDraws ownKeys 0 (keyOf "p" "player") x) ∧
    (keyOf "q" "player" ∈ consumerView ((exec countingDraws ownKeys).streams 0).log ↔
      ∃ x, offers countingDraws ownKeys 0 (keyOf "q" "player") x) :=
  ⟨view_iff_offered countingDraws ownKeys (by decide) 0 (by decide) (by decide) (by decide)
      (by decide) (by decide) (keyOf "p" "player"),
    view_iff_offered countingDraws ownKeys (by decide) 0 (by decide) (by decide) (by decide)
      (by decide) (by decide) (keyOf "q" "player")⟩

/-- The same with one provider: the member repeats the offering of the local source. -/
def sharedKey : List Op :=
  [.wrote 0, .run 0, .wrote 0, .run 0, .remoteLost 0, .wrote 0, .run 0,
    .remoteOffer 0 (memberUpdate "p"), .answer 0 ⟨1, some (playerUpdate true "a")⟩,
    .discover "c" ["player"] true ["m"], .register "p" ["player"] []]

/-- The stream keeps one place per key, with no record of who contributed it: the loss of the
member takes the key from the consumer, although the source still offers it. -/
theorem lost_takes_all :
    0 < (exec countingDraws sharedKey).nStreams ∧
    ((exec countingDraws sharedKey).streams 0).closed = false ∧
    ((exec countingDraws sharedKey).streams 0).queue = [] ∧
    ((exec countingDraws sharedKey).streams 0).removed = [] ∧
    ((exec countingDraws sharedKey).streams 0).inflight = none ∧
    offers countingDraws sharedKey 0 (keyOf "p" "player") (.source 0) ∧
    keyOf "p" "player" ∉ consumerView ((exec countingDraws sharedKey).streams 0).log := by
  decide

/-! ## Local sources only -/

/-- What an answer that source `s` has accepted for the caller of stream `i` and for `name`, while
the stream is open, says. -/
def answered (i s : ℕ) (name : String) (c : Coordinator) : Op → Option Bool
  | .answer s' a =>
    let req := (c.sources s').reqs a.requestID
    if s' = s ∧ i < c.nStreams ∧ (c.streams i).closed = false ∧ c.accepts s' a = true ∧
        req.caller = (c.streams i).caller ∧ req.service = name then
      a.update.map (·.available)
    else none
  | _ => none

def lastAnswer (d : Draws) (ops : List Op) (i s : ℕ) (name : String) : Option Bool :=
  Trace.latest (fun ops op => (exec d ops).answered i s name op) ops

/-- A follow stream is delivered every answer for its caller and its services. -/
theorem answered_eq_delivered (hix : Indexed c)
    (hst : i < c.nStreams → (c.streams i).closed = false ∧ (c.streams i).follow = true ∧
      k.name ∈ (c.streams i).services)
    (hp : s < c.nSources → (c.sources s).provider = k.provider) (op : Op) :
    c.answered i s k.name op = c.delivered i s k op := by
  cases op with
  | answer s' a =>
    by_cases hs : s' = s
    · subst hs
      simp only [answered, delivered, true_and, if_true]
      by_cases hacc : c.accepts s' a = true
      · have hprov := hp (accepts_iff.mp hacc).1
        by_cases hreq : i < c.nStreams ∧ ((c.sources s').reqs a.requestID).caller = (c.streams i).caller ∧
            ((c.sources s').reqs a.requestID).service = k.name
        · obtain ⟨hi, hcaller, hservice⟩ := hreq
          obtain ⟨hopen, hfollow, hsv⟩ := hst hi
          have hdel : c.delivers ((c.sources s').reqs a.requestID) i = true :=
            delivers_iff.mpr ⟨(hix.byCaller _ i).mpr ⟨hi, hopen, hcaller.symm⟩, hservice ▸ hsv, hopen,
              .inl hfollow⟩
          have hk : keyOf k.provider k.name = k := rfl
          rw [if_pos ⟨hi, hopen, hacc, hcaller, hservice⟩]
          simp only [offerOf, hacc, hdel, Bool.and_self, if_true, hprov, hservice, hk]
          cases a.update with
          | none => rfl
          | some u => simp [keyWord]
        · rw [if_neg fun h => hreq ⟨h.1, h.2.2.2.1, h.2.2.2.2⟩]
          cases hw : keyWord (c.offerOf (.answer s' a) i) k with
          | none => rfl
          | some b =>
            -- the answer was delivered, so it was for the caller and the service
            obtain ⟨u, hoff, _⟩ := keyWord_eq_some.mp hw
            obtain ⟨_, hdel, hk⟩ := offerOf_answer hoff
            obtain ⟨hby, _⟩ := delivers_iff.mp hdel
            obtain ⟨hi, _, hcaller⟩ := (hix.byCaller _ i).mp hby
            exact absurd ⟨hi, hcaller.symm, by rw [hk]; rfl⟩ hreq
      · rw [if_neg fun h => hacc h.2.2.1]
        simp [offerOf, hacc, keyWord]
    · simp only [answered, delivered, hs, false_and, if_false]
  | _ => rfl

theorem lastAnswer_eq_lastDelivered
    (hst : i < (exec d ops).nStreams →
      ((exec d ops).streams i).closed = false ∧ ((exec d ops).streams i).follow = true ∧
        k.name ∈ ((exec d ops).streams i).services)
    (hp : s < (exec d ops).nSources → ((exec d ops).sources s).provider = k.provider) :
    lastAnswer d ops i s k.name = lastDelivered d ops i s k := by
  induction ops with
  | nil => rfl
  | cons op ops ih =>
    -- the stream was open before, with the same request, and the source had its provider
    have hst' : i < (exec d ops).nStreams → ((exec d ops).streams i).closed = false ∧
        ((exec d ops).streams i).follow = true ∧ k.name ∈ ((exec d ops).streams i).services := by
      intro hi
      obtain ⟨_, hsv, hfo, hcl⟩ := (step_turn d (exec d ops) op i hi).static
      obtain ⟨hc, hf, hn⟩ := hst (hi.trans_le (nStreams_le d (exec d ops) op))
      exact ⟨hcl hc, hfo.symm.trans hf, hsv ▸ hn⟩
    have hp' : s < (exec d ops).nSources → ((exec d ops).sources s).provider = k.provider := by
      intro hs
      have hprov := hp (hs.trans_le (nSources_step d (exec d ops) op))
      exact (step_source d (exec d ops) op hs).provider.symm.trans hprov
    have hlast : lastAnswer d (op :: ops) i s k.name =
        ((exec d ops).answered i s k.name op).or (lastAnswer d ops i s k.name) := rfl
    rw [hlast, lastDelivered_cons, ih hst' hp', answered_eq_delivered (indexed_exec d ops) hst' hp' op]

/-- Without members, who takes a key away is the source that owns it. -/
theorem owner_withdraws (hno : (exec d ops).nRemotes = 0) (hk : k ∈ (exec d ops).withdrawn op i) :
    ∃ s, (exec d ops).actor op = some (.source s) ∧ (exec d ops).owners k = some s := by
  have hix := indexed_exec d ops
  rcases mem_append.mp hk with hks | hoff
  · cases hcl : (exec d ops).sourceCloses op with
    | some s =>
      refine ⟨s, actor_of_closes hcl, ?_⟩
      rw [retractsOf_closes hcl, lostKeys] at hks
      split at hks
      · obtain ⟨name, hn, rfl⟩ := mem_map.mp hks
        obtain ⟨hs, hc⟩ := sourceCloses_open hcl
        exact (hix.owners _ s).mpr ⟨hs, hc, rfl, (mem_filter.mp hn).1⟩
      · exact absurd hks not_mem_nil
    | none =>
      cases op with
      | remoteRemove r keys | remoteLost r => simp [retractsOf, hno] at hks
      | _ =>
        simp only [retractsOf, hcl] at hks
        exact absurd hks not_mem_nil
  · obtain ⟨p, hp, rfl⟩ := mem_map.mp hoff
    have hp' : (exec d ops).offerOf op i = some p :=
      Option.eq_some_of_filter_eq_some (Option.mem_toList.mp hp)
    cases op with
    | answer s a =>
      obtain ⟨hacc, _, hkey⟩ := offerOf_answer (k := p.1) (u := p.2) hp'
      obtain ⟨hs, hc, hpend, _⟩ := accepts_iff.mp hacc
      have hn := ((wf_exec d True ops fun _ _ => .inl trivial).source s).pending_names _ hpend
      refine ⟨s, rfl, ?_⟩
      rw [hkey]
      exact (hix.owners _ s).mpr ⟨hs, hc, rfl, hn⟩
    | remoteOffer r u => simp [offerOf, hno] at hp'
    | _ => cases hp'

theorem nRemotes_local (h : ∀ op ∈ ops, op.isLocal) : (exec d ops).nRemotes = 0 := by
  induction ops with
  | nil => rfl
  | cons op ops ih =>
    have hlocal := h op mem_cons_self
    have hsame := (step_retains d (wf_exec d True ops fun _ _ => .inl trivial) op).same (by simp [hlocal])
    exact hsame.trans (ih fun o ho => h o (mem_cons_of_mem op ho))

/-- Among local sources nobody contests the owner of a key. -/
theorem uncontested_local (h : ∀ op ∈ ops, op.isLocal) : Uncontested d ops op := by
  intro i hi k hk x hx hact ho
  have hno := nRemotes_local d ops h
  obtain ⟨s, ha, hown⟩ := owner_withdraws d ops op hno hk
  cases x with
  | remote r =>
    have hr := (told_known d ops i r k ho).2.1
    omega
  | source t =>
    obtain ⟨_, ht, hp, hn, _⟩ := delivered_known d ops i t k true ho.2
    have hown' := ((indexed_exec d ops).owners k t).mpr ⟨ht, ho.1, hp, hn⟩
    rw [ha, Option.some.inj (hown.symm.trans hown')] at hact
    exact hact rfl

theorem along_local (h : ∀ op ∈ ops, op.isLocal) : Trace.Along (Uncontested d) ops := by
  induction ops with
  | nil => trivial
  | cons op ops ih =>
    have h' : ∀ o ∈ ops, o.isLocal := fun o ho => h o (mem_cons_of_mem op ho)
    exact ⟨uncontested_local d ops op h', ih h'⟩

/-- **Convergence of a follow stream.** Without members, a quiet open follow stream shows a
requested key exactly when an open source owns it and last answered, for the stream's caller
and while the stream was open, that it is available. -/
theorem view_iff_owner_available (d : Draws) (ops : List Op) (hlocal : ∀ op ∈ ops, op.isLocal) (i : ℕ)
    (hi : i < (exec d ops).nStreams) (hopen : ((exec d ops).streams i).closed = false)
    (hfollow : ((exec d ops).streams i).follow = true)
    (hq : ((exec d ops).streams i).queue = []) (hr : ((exec d ops).streams i).removed = [])
    (hf : ((exec d ops).streams i).inflight = none) (k : OfferingKey)
    (hk : k.name ∈ ((exec d ops).streams i).services) :
    k ∈ consumerView ((exec d ops).streams i).log ↔
      ∃ s, (exec d ops).owners k = some s ∧ lastAnswer d ops i s k.name = some true := by
  have hix := indexed_exec d ops
  rw [(settles_exec d ops i hi).quiet hopen hq hr hf, agreed_exec d ops (along_local d ops hlocal) i hi
    hopen k]
  constructor
  · rintro ⟨x, hx⟩
    cases x with
    | source s =>
      obtain ⟨_, hs, hp, hn, _⟩ := delivered_known d ops i s k true hx.2
      refine ⟨s, (hix.owners k s).mpr ⟨hs, hx.1, hp, hn⟩, ?_⟩
      rw [lastAnswer_eq_lastDelivered d ops (fun _ => ⟨hopen, hfollow, hk⟩) fun _ => hp]
      exact hx.2
    | remote r =>
      have hno := nRemotes_local d ops hlocal
      have hlt := (told_known d ops i r k hx).2.1
      omega
  · rintro ⟨s, hown, hlast⟩
    obtain ⟨_, hc, hp, _⟩ := (hix.owners k s).mp hown
    rw [lastAnswer_eq_lastDelivered d ops (fun _ => ⟨hopen, hfollow, hk⟩) fun _ => hp] at hlast
    exact ⟨.source s, hc, hlast⟩

/-- A provider answers, closes while its view is in flight, and comes back with another
view. Latest first. -/
def comesBack : List Op :=
  [.wrote 0, .run 0, .wrote 0, .run 0, .wrote 0, .run 0, .wrote 0,
    .answer 1 ⟨1, some (playerUpdate true "b")⟩, .register "p" ["player"] [0], .closeSource 0, .run 0,
    .answer 0 ⟨1, some (playerUpdate true "a")⟩, .discover "c" ["player"] true [],
    .register "p" ["player"] []]

theorem view_iff_owner_available_comesBack :
    keyOf "p" "player" ∈ consumerView ((exec countingDraws comesBack).streams 0).log ↔
      ∃ s, (exec countingDraws comesBack).owners (keyOf "p" "player") = some s ∧
        lastAnswer countingDraws comesBack 0 s "player" = some true :=
  view_iff_owner_available countingDraws comesBack (by decide) 0 (by decide) (by decide) (by decide)
    (by decide) (by decide) (by decide) (keyOf "p" "player") (by decide)

end Coordinator

end Astrald.Services
