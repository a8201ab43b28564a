import Mathlib
import Astrald.Lib.Trace
import Astrald.Lib.Table

/-!
# Retrieving a link

The model of `RetrieveLink`, `subscribe` and `notifyLinkWatchers` of `link_pool.go`, with the callers that
announce a link: `AddLink` for one that came in, a link strategy for one that it has made; nobody announces a
link that other code has dialled. There are any number of retrievals and links. The channel that `Activate`
returns may be closed at any time after that.

`notifyLinkWatchers` clones the watchers and then goes through them one at a time; each has a channel of one
slot, and what does not fit is not sent.

* `Request.suits`: a link matches a request, as the pool is searched or as the link is announced;
* `Served`: a watcher that was offered a link has one in its channel;
* `link_not_missed`: a retrieval whose linker is done has a link, if every live one that suits it and is younger
  was offered to it; every link that is delivered leads to the requested node;
* `link_not_missed_inbound`: a link that comes in while the retrieval waits;
* `link_missed`: links that were not offered in time.
-/

namespace Astrald.Nodes.Retrieve

/-! ## Links and requests -/

/-- Where a link comes from: an incoming connection, a link strategy, or other code. -/
inductive Origin
  | inbound
  | strategy (name : String)
  | direct
  deriving DecidableEq, Repr

def Origin.name : Origin → Option String
  | .strategy name => some name
  | _ => none

/-- Where `notifyLinkWatchers` is with a link: `rest` are the watchers that it has cloned and not gone
through. -/
inductive Notice
  | silent
  | telling (rest : List ℕ) (used : Bool)
  | told (used : Bool)
  deriving DecidableEq, Repr

structure Link (Who : Type) where
  remoteIdentity : Who
  network : String
  origin : Origin
  notice : Notice
  closed : Bool
  pooled : Bool
  deriving DecidableEq, Repr

def Link.live {Who : Type} (l : Link Who) : Bool := l.pooled && !l.closed

/-- The target and `RetrieveLinkOptions`, without `ForceNew`. -/
structure Request (Who : Type) where
  target : Who
  strategies : List String
  networks : List String
  deriving DecidableEq, Repr

inductive Result
  | link (i : ℕ)
  | errLinkNotProduced
  | errContext
  deriving DecidableEq, Repr

inductive Stage
  | called
  | missed
  | subscribed
  | activated
  | returned (result : Result)
  deriving DecidableEq, Repr

/-- A run of `RetrieveLink`: `began` is the number of links that had been added when it was called,
`offered` are those that `notifyLinkWatchers` has tried to send to its watcher. -/
structure Retrieval (Who : Type) where
  request : Request Who
  began : ℕ
  stage : Stage
  watching : Bool
  ch : Option ℕ
  done : Bool
  offered : List ℕ
  deriving DecidableEq, Repr

structure State (Who : Type) where
  links : List (Link Who)
  retrievals : List (Retrieval Who)

/-- The steps of a link: the clone of `notifyLinkWatchers`, a turn of its loop, its return; the end of the
link and its removal from the pool. -/
inductive LinkOp
  | announce
  | tell
  | settle
  | die
  | remove
  deriving DecidableEq, Repr

/-- The steps of a retrieval: the search of the pool, `subscribe`, `Activate`, the close of the channel that it
returned; then the three cases of the `select`, and `unsubscribe`. A link that is sent between the observation
of the closed channel and the look at the watcher's channel is one sent before both. -/
inductive RetrievalOp
  | check
  | subscribe
  | activate
  | complete
  | observe
  | receive
  | cancel
  | leave
  deriving DecidableEq, Repr

inductive Op (Who : Type)
  | add (remoteIdentity : Who) (network : String) (origin : Origin)
  | link (i : ℕ) (op : LinkOp)
  | call (request : Request Who)
  | retrieval (r : ℕ) (op : RetrievalOp)

/-- The non-blocking send of `notifyLinkWatchers`. -/
def Retrieval.offer {Who : Type} (w : Retrieval Who) (i : ℕ) : Retrieval Who :=
  { w with ch := w.ch.or (some i), offered := i :: w.offered }

variable {Who : Type} [DecidableEq Who]

def Request.match (q : Request Who) (l : Link Who) (strategy : Option String) : Bool :=
  l.remoteIdentity = q.target &&
    match strategy, q.strategies with
    | some name, _ :: _ => q.strategies.contains name
    | _, _ => q.networks = [] || q.networks.contains l.network

/-- The link matches as the pool is searched, or as it is announced. -/
def Request.suits (q : Request Who) (l : Link Who) : Bool := q.match l none || q.match l l.origin.name

namespace State

def start : State Who := ⟨[], []⟩

def setLink (st : State Who) (i : ℕ) (l : Link Who) : State Who := { st with links := st.links.set i l }

def setRetrieval (st : State Who) (r : ℕ) (w : Retrieval Who) : State Who :=
  { st with retrievals := st.retrievals.set r w }

def watchers (st : State Who) : List ℕ :=
  (List.range st.retrievals.length).filter fun r => (st.retrievals[r]?.map fun w => w.watching) = some true

def select (st : State Who) (q : Request Who) : Option ℕ :=
  (List.range st.links.length).find? fun i => st.links[i]?.any fun l => l.pooled && q.match l none

/-- A turn of the loop of `notifyLinkWatchers`. -/
def tell (st : State Who) (i : ℕ) (l : Link Who) (r : ℕ) (rest : List ℕ) (used : Bool) : State Who :=
  match st.retrievals[r]? with
  | none => st.setLink i { l with notice := .telling rest used }
  | some w =>
    if w.request.match l l.origin.name then
      (st.setRetrieval r (w.offer i)).setLink i
        { l with notice := .telling rest (used || w.ch.isNone) }
    else st.setLink i { l with notice := .telling rest used }

def linkStep (st : State Who) (i : ℕ) (l : Link Who) : LinkOp → State Who
  | .announce =>
    if l.notice = .silent ∧ l.origin ≠ .direct then
      st.setLink i { l with notice := .telling st.watchers false }
    else st
  | .tell =>
    match l.notice with
    | .telling (r :: rest) used => st.tell i l r rest used
    | _ => st
  | .settle =>
    match l.notice with
    | .telling [] used =>
      st.setLink i { l with notice := .told used, closed := l.closed || l.origin.name.isSome && !used }
    | _ => st
  | .die => st.setLink i { l with closed := true }
  | .remove => if l.closed then st.setLink i { l with pooled := false } else st

/-- A step of a retrieval; `none` if it cannot take it. -/
def retrievalStep (st : State Who) (w : Retrieval Who) : RetrievalOp → Option (Retrieval Who)
  | .check =>
    if w.stage = .called then
      match st.select w.request with
      | some i => some { w with stage := .returned (.link i) }
      | none => some { w with stage := .missed }
    else none
  | .subscribe => if w.stage = .missed then some { w with stage := .subscribed, watching := true } else none
  | .activate => if w.stage = .subscribed then some { w with stage := .activated } else none
  | .complete => if w.stage = .activated then some { w with done := true } else none
  | .observe =>
    if w.stage = .activated ∧ w.done then
      match w.ch with
      | some i => some { w with stage := .returned (.link i), ch := none }
      | none => some { w with stage := .returned .errLinkNotProduced }
    else none
  | .receive =>
    if w.stage = .activated then
      match w.ch with
      | some i => some { w with stage := .returned (.link i), ch := none }
      | none => none
    else none
  | .cancel => if w.stage = .activated then some { w with stage := .returned .errContext } else none
  | .leave =>
    match w.stage with
    | .returned _ => some { w with watching := false }
    | _ => none

def step (st : State Who) : Op Who → State Who
  | .add remoteIdentity network origin =>
    { st with links := st.links ++ [⟨remoteIdentity, network, origin, .silent, false, true⟩] }
  | .link i op =>
    match st.links[i]? with
    | none => st
    | some l => st.linkStep i l op
  | .call request =>
    { st with retrievals := st.retrievals ++ [⟨request, st.links.length, .called, false, none, false, []⟩] }
  | .retrieval r op =>
    match st.retrievals[r]? with
    | none => st
    | some w =>
      match st.retrievalStep w op with
      | none => st
      | some w' => st.setRetrieval r w'

def exec : List (Op Who) → State Who := Trace.exec step start

/-- When a retrieval finds its linker done, every live link that suits it and was added since it was called
has been offered to its watcher. -/
def announced (st : State Who) : Op Who → Bool
  | .retrieval r .observe => st.retrievals[r]?.elim true fun w =>
    !(w.stage = .activated && w.done) || (List.range st.links.length).all fun i =>
      st.links[i]?.elim true fun l => !(w.began ≤ i && l.live && w.request.suits l) || w.offered.contains i
  | _ => true

def Suits (st : State Who) (q : Request Who) (j : ℕ) : Prop := ∃ l, st.links[j]? = some l ∧ q.suits l = true

/-- The fields of a link that a request looks at do not change. -/
theorem Suits.setLink {st : State Who} {q : Request Who} {j : ℕ} (h : st.Suits q j) {i : ℕ} {l l' : Link Who}
    (hi : st.links[i]? = some l) (hremote : l'.remoteIdentity = l.remoteIdentity)
    (hnetwork : l'.network = l.network) (horigin : l'.origin = l.origin) : (st.setLink i l').Suits q j := by
  obtain ⟨k, hk, hsuits⟩ := h
  by_cases hj : j = i
  · subst hj
    obtain rfl : l = k := Option.some.inj (hi.symm.trans hk)
    refine ⟨l', (Pool.getElem?_set_some hi).mpr (.inl ⟨rfl, rfl⟩), ?_⟩
    simpa [Request.suits, Request.match, hremote, hnetwork, horigin] using hsuits
  · exact ⟨k, (Pool.getElem?_set_some hi).mpr (.inr ⟨hj, hk⟩), hsuits⟩

theorem suits_of_select {st : State Who} {q : Request Who} {i : ℕ} (h : st.select q = some i) :
    st.Suits q i := by
  have hany := List.find?_some h
  cases hl : st.links[i]? with
  | none =>
    rw [hl] at hany
    cases hany
  | some l =>
    simp only [hl, Option.any_some, Bool.and_eq_true] at hany
    exact ⟨l, hl, by rw [Request.suits, hany.2, Bool.true_or]⟩

end State

open State

/-! ## What a watcher has -/

/-- What is known of a retrieval: what is in its channel suits it; once it was offered a link it has one, until
it returns; the link that it returned suits it. -/
structure Retrieval.Served (st : State Who) (w : Retrieval Who) : Prop where
  ch : ∀ j, w.ch = some j → st.Suits w.request j
  offered : w.offered ≠ [] → w.ch = none → ∃ result, w.stage = .returned result
  result : ∀ j, w.stage = .returned (.link j) → st.Suits w.request j

def Served (st : State Who) : Prop := ∀ (r : ℕ) (w : Retrieval Who), st.retrievals[r]? = some w → w.Served st

variable {st : State Who} {w : Retrieval Who} {i : ℕ}

theorem Retrieval.Served.mono {st' : State Who} (h : w.Served st) (hsuits : ∀ q j, st.Suits q j → st'.Suits q j) :
    w.Served st' :=
  ⟨fun j hj => hsuits _ _ (h.ch j hj), h.offered, fun j hj => hsuits _ _ (h.result j hj)⟩

theorem Served.mono {st' : State Who} (h : Served st) (hsuits : ∀ q j, st.Suits q j → st'.Suits q j)
    (hretrievals : st'.retrievals = st.retrievals) : Served st' := by
  intro r w hr
  rw [hretrievals] at hr
  exact (h r w hr).mono hsuits

theorem Served.setRetrieval (h : Served st) {r : ℕ} {w' : Retrieval Who} (hr : st.retrievals[r]? = some w)
    (hw' : w'.Served st) : Served (st.setRetrieval r w') := by
  intro s v hs
  rcases (Pool.getElem?_set_some hr).mp hs with ⟨-, rfl⟩ | ⟨-, hold⟩
  · exact hw'.mono fun _ _ => id
  · exact (h s v hold).mono fun _ _ => id

theorem Served.setLink (h : Served st) {l l' : Link Who} (hi : st.links[i]? = some l)
    (hremote : l'.remoteIdentity = l.remoteIdentity) (hnetwork : l'.network = l.network)
    (horigin : l'.origin = l.origin) : Served (st.setLink i l') :=
  h.mono (fun _ _ hsuits => hsuits.setLink hi hremote hnetwork horigin) rfl

theorem Retrieval.Served.offer (h : w.Served st) (hi : st.Suits w.request i) : (w.offer i).Served st where
  ch j hj := by
    cases hch : w.ch with
    | none =>
      simp only [Retrieval.offer, hch, Option.none_or, Option.some.injEq] at hj
      subst hj
      exact hi
    | some k =>
      simp only [Retrieval.offer, hch, Option.some_or, Option.some.injEq] at hj
      subst hj
      exact h.ch k hch
  offered _ hnone := by
    simp only [Retrieval.offer, Option.or_eq_none_iff, reduceCtorEq, and_false] at hnone
  result := h.result

theorem Served.linkStep (h : Served st) {l : Link Who} (hi : st.links[i]? = some l) (op : LinkOp) :
    Served (st.linkStep i l op) := by
  cases op with
  | announce | remove =>
    refine Trace.when_keeps h fun _ => ?_
    exact h.setLink hi rfl rfl rfl
  | tell =>
    simp only [State.linkStep]
    split
    · rename_i r rest used hnotice
      unfold State.tell
      split
      · exact h.setLink hi rfl rfl rfl
      · rename_i w hr
        split
        · rename_i hmatch
          have hsuits : st.Suits w.request i := ⟨l, hi, by rw [Request.suits, hmatch, Bool.or_true]⟩
          have hset := h.setRetrieval hr ((h r w hr).offer hsuits)
          exact hset.setLink hi rfl rfl rfl
        · exact h.setLink hi rfl rfl rfl
    · exact h
  | settle =>
    simp only [State.linkStep]
    split
    · exact h.setLink hi rfl rfl rfl
    · exact h
  | die => exact h.setLink hi rfl rfl rfl

/-- A retrieval that goes on, or returns an error. -/
theorem Retrieval.Served.goes (h : w.Served st) (hstage : ∀ result, w.stage ≠ .returned result) {stage : Stage}
    (hlink : ∀ j, stage ≠ .returned (.link j)) (watching done : Bool) :
    ({ w with stage, watching, done } : Retrieval Who).Served st where
  ch := h.ch
  offered hoffered hnone := by
    obtain ⟨result, hresult⟩ := h.offered hoffered hnone
    exact absurd hresult (hstage result)
  result j hj := absurd hj (hlink j)

/-- A retrieval that returns what is in its channel. -/
theorem Retrieval.Served.takes (h : w.Served st) (hi : w.ch = some i) :
    ({ w with stage := .returned (.link i), ch := none } : Retrieval Who).Served st where
  ch := nofun
  offered _ _ := ⟨_, rfl⟩
  result := by
    rintro j ⟨⟩
    exact h.ch i hi

theorem Retrieval.Served.step {w' : Retrieval Who} (h : w.Served st) {op : RetrievalOp}
    (hstep : st.retrievalStep w op = some w') : w'.Served st := by
  cases op with
  | check =>
    simp only [retrievalStep] at hstep
    split at hstep
    · rename_i hst
      split at hstep
      · rename_i i hsel
        cases hstep
        refine ⟨h.ch, fun _ _ => ⟨_, rfl⟩, ?_⟩
        rintro j ⟨⟩
        exact suits_of_select hsel
      · cases hstep
        exact h.goes (by rw [hst]; rintro _ ⟨⟩) (by rintro _ ⟨⟩) _ _
    · cases hstep
  | subscribe | activate | cancel =>
    simp only [retrievalStep] at hstep
    split at hstep
    · rename_i hst
      cases hstep
      exact h.goes (by rw [hst]; rintro _ ⟨⟩) (by rintro _ ⟨⟩) _ _
    · cases hstep
  | complete =>
    simp only [retrievalStep] at hstep
    split at hstep
    · rename_i hst
      cases hstep
      exact h.goes (by rw [hst]; rintro _ ⟨⟩) (by rw [hst]; rintro _ ⟨⟩) _ _
    · cases hstep
  | observe =>
    simp only [retrievalStep] at hstep
    split at hstep
    · rename_i hst
      split at hstep
      · rename_i i hch
        cases hstep
        exact h.takes hch
      · cases hstep
        exact h.goes (by rw [hst.1]; rintro _ ⟨⟩) (by rintro _ ⟨⟩) _ _
    · cases hstep
  | receive =>
    simp only [retrievalStep] at hstep
    split at hstep
    · split at hstep
      · rename_i i hch
        cases hstep
        exact h.takes hch
      · cases hstep
    · cases hstep
  | leave =>
    simp only [retrievalStep] at hstep
    split at hstep
    · cases hstep
      exact { h with }
    · cases hstep

theorem Served.step (h : Served st) (op : Op Who) : Served (st.step op) := by
  cases op with
  | add remoteIdentity network origin =>
    refine h.mono ?_ rfl
    rintro q j ⟨l, hl, hsuits⟩
    exact ⟨l, Pool.getElem?_snoc_some.mpr (.inl hl), hsuits⟩
  | link i op =>
    simp only [State.step]
    split
    · exact h
    · exact h.linkStep ‹_› op
  | call request =>
    intro r w hr
    rcases Pool.getElem?_snoc_some.mp hr with hold | ⟨-, rfl⟩
    · exact (h r w hold).mono fun _ _ => id
    · exact ⟨nofun, fun hne => absurd rfl hne, nofun⟩
  | retrieval r op =>
    simp only [State.step]
    split
    · exact h
    · rename_i w hr
      split
      · exact h
      · rename_i w' hstep
        exact h.setRetrieval hr ((h r w hr).step hstep)

theorem served_exec (ops : List (Op Who)) : Served (exec ops) := by
  induction ops with
  | nil => rintro _ _ ⟨⟩
  | cons op ops ih => exact ih.step op

/-! ## Whole runs -/

/-- Whenever a retrieval finds its linker done, it has been offered the links that suit it. -/
def Announced : List (Op Who) → Prop := Trace.Along fun earlier op => (exec earlier).announced op = true

instance (ops : List (Op Who)) : Decidable (Announced ops) := Trace.decidableAlong _ ops

/-- What the condition says of one link. -/
theorem State.offered_of_announced {r : ℕ} (h : st.announced (.retrieval r .observe) = true)
    (hr : st.retrievals[r]? = some w) (hstage : w.stage = .activated) (hdone : w.done = true) {l : Link Who}
    (hi : st.links[i]? = some l) (hbegan : w.began ≤ i) (hlive : l.live = true)
    (hsuits : w.request.suits l = true) : i ∈ w.offered := by
  simp only [announced, hr, Option.elim_some, hstage, hdone, decide_true, Bool.and_self, Bool.not_true,
    Bool.false_or, List.all_eq_true] at h
  have hall := h i (List.mem_range.mpr (List.getElem?_eq_some_iff.mp hi).1)
  simpa [hi, hbegan, hlive, hsuits] using hall

/-- **No link is missed.** In every run in which a retrieval that finds its linker done has been offered every
live link that suits it and was added since it was called: if there is such a link, it returns one that suits
it. And every link that is returned leads to the requested node. -/
theorem link_not_missed (ops : List (Op Who)) (hops : Announced ops) :
    (∀ (later : List (Op Who)) (r : ℕ) (earlier : List (Op Who)),
      ops = later ++ .retrieval r .observe :: earlier →
      ∀ w : Retrieval Who, (exec earlier).retrievals[r]? = some w → w.stage = .activated →
      w.done = true →
      (∃ (i : ℕ) (l : Link Who), (exec earlier).links[i]? = some l ∧ w.began ≤ i ∧ l.live = true ∧
        w.request.suits l = true) →
      ∃ (w' : Retrieval Who) (j : ℕ) (l : Link Who),
        (exec (.retrieval r .observe :: earlier)).retrievals[r]? = some w' ∧
        w'.stage = .returned (.link j) ∧ (exec earlier).links[j]? = some l ∧ w.request.suits l = true) ∧
    ∀ (r : ℕ) (w : Retrieval Who) (j : ℕ), (exec ops).retrievals[r]? = some w →
      w.stage = .returned (.link j) →
      ∃ l : Link Who, (exec ops).links[j]? = some l ∧ l.remoteIdentity = w.request.target := by
  refine ⟨?_, ?_⟩
  · rintro later r earlier rfl w hr hstage hdone ⟨i, l, hi, hbegan, hlive, hsuits⟩
    have hannounced := hops.at_step (List.suffix_append later _)
    have hoffered := offered_of_announced hannounced hr hstage hdone hi hbegan hlive hsuits
    have hserved := served_exec earlier r w hr
    cases hch : w.ch with
    | none =>
      obtain ⟨result, hresult⟩ := hserved.offered (List.ne_nil_of_mem hoffered) hch
      rw [hstage] at hresult
      cases hresult
    | some j =>
      obtain ⟨k, hk, hsuits'⟩ := hserved.ch j hch
      have hstep : exec (.retrieval r .observe :: earlier) =
          (exec earlier).setRetrieval r { w with stage := .returned (.link j), ch := none } := by
        show (exec earlier).step (.retrieval r .observe) = _
        simp only [State.step, hr, retrievalStep, hstage, hdone, hch, and_self, if_true]
      refine ⟨{ w with stage := .returned (.link j), ch := none }, j, k, ?_, rfl, hk, hsuits'⟩
      rw [hstep]
      exact (Pool.getElem?_set_some hr).mpr (.inl ⟨rfl, rfl⟩)
  · intro r w j hr hresult
    obtain ⟨l, hl, hsuits⟩ := (served_exec ops r w hr).result j hresult
    refine ⟨l, hl, ?_⟩
    simp only [Request.suits, Request.match, Bool.or_eq_true, Bool.and_eq_true, decide_eq_true_eq] at hsuits
    exact hsuits.elim (fun h => h.1) fun h => h.1

/-! ## Runs -/

/-- The search of the pool for a link to node 1 finds nothing. -/
def searching (strategies : List String) : List (Op ℕ) := [.call ⟨1, strategies, []⟩, .retrieval 0 .check]

/-- The retrieval subscribes and activates the linker. -/
def waiting : List (Op ℕ) := [.retrieval 0 .subscribe, .retrieval 0 .activate]

/-- A link to node 1 comes in and is announced to `n` watchers. -/
def incoming (n : ℕ) : List (Op ℕ) :=
  [.add 1 "tcp" .inbound, .link 0 .announce] ++ List.replicate n (.link 0 .tell) ++ [.link 0 .settle]

def script (parts : List (List (Op ℕ))) : List (Op ℕ) := parts.flatten.reverse

/-- A link comes in while a retrieval waits for the strategies, which fail. -/
def served : List (Op ℕ) :=
  script [searching ["basic"], waiting, incoming 1, [.retrieval 0 .complete]]

theorem link_not_missed_inbound :
    (exec served).links.length = 1 ∧ ∃ (w' : Retrieval ℕ) (j : ℕ) (l : Link ℕ),
      (exec (.retrieval 0 .observe :: served)).retrievals[0]? = some w' ∧
      w'.stage = .returned (.link j) ∧ (exec served).links[j]? = some l := by
  have hops : Announced (.retrieval 0 .observe :: served) := by decide
  refine ⟨by decide, ?_⟩
  obtain ⟨w', j, l, hw', hstage, hl, -⟩ := (link_not_missed _ hops).1 [] 0 served rfl
    ⟨⟨1, ["basic"], []⟩, 0, .activated, true, some 0, true, [0]⟩ (by decide) rfl rfl
    ⟨0, ⟨1, "tcp", .inbound, .told true, false, true⟩, by decide, by decide, by decide, by decide⟩
  exact ⟨w', j, l, hw', hstage, hl⟩

/-- The retrieval returns `ErrLinkNotProduced` although the pool holds a live link that is younger and
suits it. -/
def Missed (ops : List (Op ℕ)) : Prop :=
  ∃ (w : Retrieval ℕ) (l : Link ℕ), (exec (.retrieval 0 .observe :: ops)).retrievals[0]? = some w ∧
    w.stage = .returned .errLinkNotProduced ∧ (exec ops).links[0]? = some l ∧ w.began ≤ 0 ∧
    l.live = true ∧ w.request.suits l = true

/-- A link comes in between the search of the pool and the subscription. The tor strategy has made a link and
signals that it is done before it announces the link. Other code has dialled a link. -/
theorem link_missed :
    Missed (script [searching [], incoming 0, waiting, [.retrieval 0 .complete]]) ∧
    Missed (script [searching ["tor"], waiting, [.add 1 "tor" (.strategy "tor"), .retrieval 0 .complete]]) ∧
    Missed (script [searching ["basic"], waiting, [.add 1 "tcp" .direct, .retrieval 0 .complete]]) := by
  refine ⟨?_, ?_, ?_⟩
  · exact ⟨⟨⟨1, [], []⟩, 0, .returned .errLinkNotProduced, true, none, true, []⟩,
      ⟨1, "tcp", .inbound, .told false, false, true⟩,
      by decide, rfl, by decide, by decide, by decide, by decide⟩
  · exact ⟨⟨⟨1, ["tor"], []⟩, 0, .returned .errLinkNotProduced, true, none, true, []⟩,
      ⟨1, "tor", .strategy "tor", .silent, false, true⟩,
      by decide, rfl, by decide, by decide, by decide, by decide⟩
  · exact ⟨⟨⟨1, ["basic"], []⟩, 0, .returned .errLinkNotProduced, true, none, true, []⟩,
      ⟨1, "tcp", .direct, .silent, false, true⟩,
      by decide, rfl, by decide, by decide, by decide, by decide⟩

end Astrald.Nodes.Retrieve
