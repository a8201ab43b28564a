import Mathlib
import Astrald.Lib.Trace
import Astrald.Nodes.Query

/-!
# The verdict on a query

* `System.Lawful`: what the two nodes of a query owe each other;
* `System.verdict_law`: it holds in every state of a run in which the router does not reject with
  code 0 and the session of the answering node is not closed too early;
* `accepted_though_rejected`, `reset_first`, `closed_before_setup`: what happens otherwise.
-/

namespace Astrald.Nodes.Query

open List

open Registry (Verdict Stage codeRejected)

def code : Verdict → ℕ
  | .accept => 0
  | .reject code => code
  | .fail => codeRejected

def told : Verdict → Outcome
  | .accept => .accepted
  | v => .rejected (code v)

namespace System

def responded (s : System) : Bool :=
  match s.stage with
  | some .answered | some .served | some .refusing | some .dropped => true
  | _ => false

def creating (s : System) : Bool :=
  match s.stage with
  | some st => st.creating
  | none => false

theorem responded_of_creating {s : System} (h : s.creating = true) : s.responded = false := by
  unfold creating at h
  unfold responded
  cases hst : s.stage with
  | none => rfl
  | some st =>
    rw [hst] at h
    cases st <;> first | rfl | cases h

/-- The stage is one that the verdict leads to. -/
def Agrees (v : Option Verdict) : Stage → Prop
  | .refused c => ∃ w, v = some w ∧ w ≠ .accept ∧ code w = c
  | .accepted | .opened | .answered | .served => v = some .accept
  | .refusing | .dropped => ∃ w, v = some w ∧ w ≠ .accept
  | _ => v = none

structure Sound (s : System) : Prop where
  agrees : ∀ st, s.stage = some st → Agrees s.verdict st
  nonzero : s.verdict ≠ some (.reject 0)
  alive : s.stage ≠ some .failed
  unmade : s.stage = none → s.verdict = none ∧ s.callee.registered = false ∧ s.callee.closed = false
  unclosed : s.creating = true → s.callee.closed = false
  before : s.responded = false → s.sent = [] ∧ s.callee.Quiet ∧ s.routingResult = none
  after : s.responded = true → ∃ v rest, s.verdict = some v ∧ s.sent = .response (code v) :: rest ∧
    ∀ f ∈ rest, f.code = none
  shy : s.routingResult = none → s.caller.Shy ∧ ∀ f ∈ s.toCallee, f = .query ∨ f = .reset
  waiting : s.routingResult = none → s.outcome = none → s.toCaller = s.sent ∧ s.caller.Fresh
  moved : s.routingResult ≠ none ∨ s.outcome ≠ none → s.caller.state ≠ .routing
  result : ∀ c, s.routingResult = some c → ∃ v, s.verdict = some v ∧ code v = c
  accepted : s.outcome = some .accepted → s.routingResult = some 0
  rejected : ∀ c, s.outcome = some (.rejected c) → s.routingResult = some c ∧ c ≠ 0

namespace Sound

theorem start : Sound System.start where
  agrees := fun _ h => nomatch h
  nonzero := nofun
  alive := nofun
  unmade := fun _ => ⟨rfl, rfl, rfl⟩
  unclosed := fun _ => rfl
  before := fun _ => ⟨rfl, ⟨rfl, rfl, nofun⟩, rfl⟩
  after := fun h => nomatch h
  shy := fun _ => ⟨⟨rfl, rfl, nofun, nofun⟩, fun _ hf => .inl (mem_singleton.mp hf)⟩
  waiting := fun _ _ => ⟨rfl, rfl, rfl, rfl, rfl⟩
  moved := fun h => h.elim (fun h => absurd rfl h) (fun h => absurd rfl h)
  result := fun _ h => nomatch h
  accepted := nofun
  rejected := fun _ h => nomatch h

variable {s : System}

variable (hs : s.Sound)
include hs

/-- The callee's session changes, and sends frames other than a `Response`; before the `Response`
it sends none. -/
theorem callee {r : Half × List Frame} (hmade : s.stage = none → r.1 = s.callee)
    (hopen : s.creating = true → r.1.closed = false)
    (hquiet : s.responded = false → r.2 = [] ∧ r.1.Quiet) (hcode : ∀ f ∈ r.2, f.code = none) :
    (s.put .callee r).Sound :=
  { hs with
    unmade := by
      intro hnone
      show s.verdict = none ∧ r.1.registered = false ∧ r.1.closed = false
      rw [hmade hnone]
      exact hs.unmade hnone
    unclosed := hopen
    before := by
      intro hr
      obtain ⟨hsent, -, hres⟩ := hs.before hr
      obtain ⟨hnil, hq⟩ := hquiet hr
      refine ⟨?_, hq, hres⟩
      show s.sent ++ r.2 = []
      rw [hsent, hnil]
      rfl
    after := by
      intro hr
      obtain ⟨v, rest, hv, hsent, hrest⟩ := hs.after hr
      refine ⟨v, rest ++ r.2, hv, ?_, ?_⟩
      · show s.sent ++ r.2 = _
        rw [hsent]
        rfl
      · intro f hf
        exact (mem_append.mp hf).elim (hrest f) (hcode f)
    waiting := by
      intro hres hout
      obtain ⟨hwire, hfresh⟩ := hs.waiting hres hout
      refine ⟨?_, hfresh⟩
      show s.toCaller ++ r.2 = s.sent ++ r.2
      rw [hwire] }

/-- The caller's session changes; until it is told the verdict it sends a `Reset` at most, and
until `RouteQuery` returns it stays as it is. -/
theorem caller {r : Half × List Frame} (hshy : s.routingResult = none → (∀ f ∈ r.2, f = .reset) ∧ r.1.Shy)
    (hfresh : s.routingResult = none → s.outcome = none → r.1.Fresh)
    (hmoved : s.caller.state ≠ .routing → r.1.state ≠ .routing) : (s.put .caller r).Sound :=
  { hs with
    shy := by
      intro hres
      obtain ⟨hreset, hh⟩ := hshy hres
      refine ⟨hh, fun f hf => ?_⟩
      exact (mem_append.mp hf).elim ((hs.shy hres).2 f) (fun hf => .inr (hreset f hf))
    waiting := fun hres hout => ⟨(hs.waiting hres hout).1, hfresh hres hout⟩
    moved := fun h => hmoved (hs.moved h) }

/-- `handleInboundQuery` takes a step that sends nothing. -/
theorem toward {st : Stage} {v : Option Verdict} {h : Half} {b : Bool} (hag : Agrees v st)
    (hv : v = s.verdict ∨ s.verdict = none ∧ v ≠ some (.reject 0)) (halive : st ≠ .failed)
    (hopen : st.creating = true → h.closed = false)
    (hresp : ({ s with stage := some st } : System).responded = s.responded)
    (hquiet : s.responded = false → h.Quiet) :
    ({ s with callee := h, asked := b, stage := some st, verdict := v } : System).Sound :=
  -- a verdict that is known stays as it is
  have hkeep : ∀ w, s.verdict = some w → v = some w := by
    intro w hw
    rcases hv with rfl | ⟨hnone, -⟩
    · exact hw
    · rw [hnone] at hw
      cases hw
  { hs with
    agrees := by
      intro st' hst
      cases hst
      exact hag
    nonzero := by
      rcases hv with rfl | ⟨-, hv⟩
      · exact hs.nonzero
      · exact hv
    alive := fun h => halive (Option.some.inj h)
    unmade := nofun
    unclosed := hopen
    before := by
      intro hr
      have hr' : s.responded = false := by rw [← hresp]; exact hr
      obtain ⟨hsent, -, hres⟩ := hs.before hr'
      exact ⟨hsent, hquiet hr', hres⟩
    after := by
      intro hr
      have hr' : s.responded = true := by rw [← hresp]; exact hr
      obtain ⟨w, rest, hw, hrest⟩ := hs.after hr'
      exact ⟨w, rest, hkeep w hw, hrest⟩
    result := by
      intro c hc
      obtain ⟨w, hw, hcode⟩ := hs.result c hc
      exact ⟨w, hkeep w hw, hcode⟩ }

/-- The read loop of the callee has taken a frame. -/
theorem dequeue {f : Frame} {fs : List Frame} (hwire : s.toCallee = f :: fs) (b : Bool) :
    ({ s with toCallee := fs, asked := b } : System).Sound :=
  { hs with
    shy := by
      intro hres
      obtain ⟨hshy, hall⟩ := hs.shy hres
      refine ⟨hshy, fun g hg => hall g ?_⟩
      rw [hwire]
      exact mem_cons_of_mem f hg }

/-- The first frame that a caller without a verdict gets is the `Response` to its query. -/
theorem first {f : Frame} {fs : List Frame} (hwire : s.toCaller = f :: fs)
    (hres : s.routingResult = none) (hout : s.outcome = none) :
    s.responded = true ∧ ∃ v, s.verdict = some v ∧ f = .response (code v) := by
  have hsent : s.sent = f :: fs := by rw [← (hs.waiting hres hout).1, hwire]
  cases hr : s.responded with
  | false =>
    rw [(hs.before hr).1] at hsent
    cases hsent
  | true =>
    obtain ⟨v, rest, hv, hsent', -⟩ := hs.after hr
    rw [hsent'] at hsent
    exact ⟨rfl, v, hv, (List.cons.inj hsent).1.symm⟩

/-- The read loop of a caller that has its verdict, or gave up, has taken a frame. -/
theorem drop (h : ¬ (s.routingResult = none ∧ s.outcome = none)) (fs : List Frame) :
    ({ s with toCaller := fs } : System).Sound :=
  { hs with
    waiting := fun hres hout => absurd ⟨hres, hout⟩ h }

/-- The `Response` reaches the session that waits for it. -/
theorem tell {v : Verdict} (hr : s.responded = true) (hv : s.verdict = some v)
    (hout : s.outcome = none) {h : Half} (hmoved : h.state ≠ .routing) (fs : List Frame) :
    ({ s with caller := h, routingResult := some (code v), toCaller := fs } : System).Sound :=
  { hs with
    before := fun h => by
      have h' : s.responded = false := h
      rw [hr] at h'
      cases h'
    shy := nofun
    waiting := nofun
    moved := fun _ => hmoved
    result := by
      intro c hc
      exact ⟨v, hv, Option.some.inj hc⟩
    accepted := by
      intro h
      have h' : s.outcome = some .accepted := h
      rw [hout] at h'
      cases h'
    rejected := by
      intro c h
      have h' : s.outcome = some (.rejected c) := h
      rw [hout] at h'
      cases h' }

theorem report {o : Outcome} {h : Half} (hshy : s.routingResult = none → h.Shy)
    (hmoved : h.state ≠ .routing) (hacc : o = .accepted → s.routingResult = some 0)
    (hrej : ∀ c, o = .rejected c → s.routingResult = some c ∧ c ≠ 0) :
    ({ s with caller := h, outcome := some o } : System).Sound :=
  { hs with
    shy := fun hres => ⟨hshy hres, (hs.shy hres).2⟩
    waiting := fun _ hout => nomatch hout
    moved := fun _ => hmoved
    accepted := fun h => hacc (Option.some.inj h)
    rejected := fun c h => hrej c (Option.some.inj h) }

theorem answer {st' : Stage} {v : Verdict} (hbefore : s.responded = false)
    (hv : s.verdict = some v) (hag : Agrees s.verdict st')
    (hresp : ({ s with stage := some st' } : System).responded = true) (hcreating : st'.creating = false)
    (halive : st' ≠ .failed) : ((s.put .callee (s.callee, [.response (code v)])).toward st').Sound :=
  { hs with
    agrees := by
      intro st'' h
      cases h
      exact hag
    alive := fun h => halive (Option.some.inj h)
    unmade := nofun
    unclosed := by
      intro h
      have h' : st'.creating = true := h
      rw [hcreating] at h'
      cases h'
    before := fun h => by
      have h' : ({ s with stage := some st' } : System).responded = false := h
      rw [hresp] at h'
      cases h'
    after := by
      intro _
      refine ⟨v, [], hv, ?_, fun _ hf => absurd hf not_mem_nil⟩
      show s.sent ++ [_] = _
      rw [(hs.before hbefore).1]
      rfl
    waiting := by
      intro hres hout
      obtain ⟨hwire, hfresh⟩ := hs.waiting hres hout
      refine ⟨?_, hfresh⟩
      show s.toCaller ++ [_] = s.sent ++ [_]
      rw [hwire] }

theorem deliver_callee (ok : Bool) (hreset : s.creating = true → s.toCallee.head? ≠ some .reset) :
    (s.deliver ok .callee).Sound := by
  simp only [deliver]
  split
  · exact hs
  · rename_i fs hwire
    exact hs.dequeue hwire true
  · rename_i f fs hnq hwire
    have hf : s.responded = false → f = .reset := by
      intro hr
      have hmem := (hs.shy (hs.before hr).2.2).2 f (by rw [hwire]; exact mem_cons_self)
      exact hmem.resolve_left hnq
    refine (hs.dequeue hwire s.asked).callee ?_ ?_ ?_ (s.callee.code_handle ok f)
    · intro hnone
      have hnone : s.stage = none := hnone
      have hr : s.responded = false := by unfold responded; rw [hnone]
      rw [hf hr]
      show (s.callee.handle ok .reset).1 = s.callee
      simp only [Half.handle, (hs.unmade hnone).2.1]
      rfl
    · intro hc
      have hr : s.responded = false := responded_of_creating hc
      exact absurd (by rw [hwire, hf hr]; rfl) (hreset hc)
    · intro hr
      have hq := (hs.before hr).2.1
      rw [hf hr]
      dsimp only [Half.handle]
      split
      · exact ⟨rfl, Half.Quiet.close { hq with }⟩
      · exact ⟨rfl, hq⟩

theorem deliver_caller (ok : Bool) : (s.deliver ok .caller).Sound := by
  simp only [deliver]
  split
  · exact hs
  · rename_i c fs hwire
    unfold handleResponse
    split
    · rename_i hrouting
      have hnone : s.routingResult = none ∧ s.outcome = none := by
        by_contra hne
        exact hs.moved (not_and_or.mp hne) hrouting.2
      obtain ⟨hr, v, hv, hcode⟩ := hs.first hwire hnone.1 hnone.2
      have hc : c = code v := Frame.response.inj hcode
      split
      · rw [hc]
        exact hs.tell hr hv hnone.2 SessionState.noConfusion fs
      · rename_i hzero
        have hzero : (0 : ℕ) = code v := by rw [← hc]; exact (not_not.mp hzero).symm
        rw [hzero]
        exact hs.tell hr hv hnone.2 SessionState.noConfusion fs
    · rename_i hrouting
      refine hs.drop (fun hnone => hrouting ?_) fs
      obtain ⟨-, hfresh⟩ := hs.waiting hnone.1 hnone.2
      exact ⟨hfresh.registered, hfresh.routing⟩
  · rename_i f fs hnr hwire
    have hnone : ¬ (s.routingResult = none ∧ s.outcome = none) := by
      intro hnone
      obtain ⟨-, v, -, hcode⟩ := hs.first hwire hnone.1 hnone.2
      exact hnr _ hcode
    exact (hs.drop hnone fs).caller (fun hres => (hs.shy hres).1.handle ok f)
      (fun hres hout => absurd ⟨hres, hout⟩ hnone) (fun hn => Half.state_handle_ne hn ok f)

theorem respond : s.respond.Sound := by
  unfold System.respond
  split
  · rename_i hst
    have hv : s.verdict = some .accept := hs.agrees _ hst
    exact hs.answer (by unfold responded; rw [hst]) hv hv rfl rfl Stage.noConfusion
  · rename_i c hst
    obtain ⟨v, hv, hne, hcode⟩ := hs.agrees _ hst
    rw [← hcode]
    exact hs.answer (by unfold responded; rw [hst]) hv ⟨v, hv, hne⟩ rfl rfl Stage.noConfusion
  · exact hs

theorem take : s.take.Sound := by
  unfold System.take
  split
  · exact hs
  · rename_i c hres
    have hmoved : s.caller.state ≠ .routing := hs.moved (.inl (by rw [hres]; exact Option.some_ne_none c))
    split
    · rename_i hc
      refine hs.report (fun hnone => ?_) (Half.state_close_ne hmoved) Outcome.noConfusion ?_
      · rw [hres] at hnone
        cases hnone
      · intro d hd
        cases hd
        exact ⟨hres, hc⟩
    · rename_i hc
      refine hs.report (fun hnone => ?_) hmoved (fun _ => ?_) (fun d hd => Outcome.noConfusion hd)
      · rw [hres] at hnone
        cases hnone
      · rw [hres, not_not.mp hc]

theorem giveUp (hout : s.outcome = none) :
    ({ s with caller := s.caller.close, outcome := some .gaveUp } : System).Sound := by
  refine hs.report (fun hres => (hs.shy hres).1.close) ?_ Outcome.noConfusion
    (fun c h => Outcome.noConfusion h)
  cases hres : s.routingResult with
  | none =>
    rw [Half.close_of_open (hs.waiting hres hout).2.unclosed]
    exact SessionState.noConfusion
  | some c => exact Half.state_close_ne (hs.moved (.inl (by rw [hres]; exact Option.some_ne_none c)))

end Sound

/-- The condition on a step: the router does not reject with code 0, and until the `Response` is
sent the callee's session is not closed before its `Setup`, and later not as far as the `Reset`. -/
def orderly (s : System) : Op → Bool
  | .route v => v ≠ .reject 0
  | .deliver .callee _ => !(s.creating && s.toCallee.head? = some .reset)
  | .session .callee .close => !s.creating
  | .session .callee .shut => s.responded || s.callee.closing ≠ .unhooked || s.callee.writerClosed
  | _ => true

theorem Sound.use_callee {s : System} (hs : s.Sound) {m : Move} (hop : s.orderly (.session .callee m) = true)
    (huses : s.uses .callee m = true) : (s.put .callee (s.callee.move m)).Sound := by
  refine hs.callee ?_ ?_ ?_ (s.callee.code_move m)
  · intro hnone
    simp [uses, hnone] at huses
  · intro hc
    by_cases hm : m = .close
    · subst hm
      simp [orderly, hc] at hop
    · rw [Half.closed_move _ hm]
      exact hs.unclosed hc
  · intro hr
    refine (hs.before hr).2.1.move ?_
    rintro rfl
    simpa [orderly, hr] using hop

theorem Sound.use_caller {s : System} (hs : s.Sound) {m : Move} (huses : s.uses .caller m = true) :
    (s.put .caller (s.caller.move m)).Sound := by
  refine hs.caller (fun hres => (hs.shy hres).1.move m) ?_ (fun hn => Half.state_move_ne hn m)
  intro hres hout
  have hm : m ≠ .close := by
    rintro rfl
    simp [uses, hout] at huses
  have hfresh := (hs.waiting hres hout).2
  rw [hfresh.move (hs.shy hres).1 hm]
  exact hfresh

theorem Sound.step {s : System} (hs : s.Sound) {op : Op} (hop : s.orderly op = true) : (s.step op).Sound := by
  cases op with
  | deliver x ok =>
    cases x with
    | callee =>
      refine hs.deliver_callee ok fun hc hhead => ?_
      simp [orderly, hc, hhead] at hop
    | caller => exact hs.deliver_caller ok
  | create =>
    refine Trace.when_keeps hs fun h => ?_
    obtain ⟨hv, -, hclosed⟩ := hs.unmade h.2
    have hr : s.responded = false := by unfold responded; rw [h.2]
    exact hs.toward hv (.inl rfl) Stage.noConfusion (fun _ => hclosed) hr.symm
      fun hr => { (hs.before hr).2.1 with }
  | hook =>
    refine Trace.when_keeps hs fun hst => ?_
    have hr : s.responded = false := by unfold responded; rw [hst]
    have hv : s.verdict = none := hs.agrees _ hst
    have hclosed := hs.unclosed (by unfold creating; rw [hst]; rfl)
    exact hs.toward hv (.inl rfl) Stage.noConfusion (fun _ => hclosed) hr.symm
      fun hr => { (hs.before hr).2.1 with }
  | setup =>
    refine Trace.when_keeps hs fun hst => ?_
    have hr : s.responded = false := by unfold responded; rw [hst]
    have hv : s.verdict = none := hs.agrees _ hst
    have hclosed := hs.unclosed (by unfold creating; rw [hst]; rfl)
    unfold System.setup
    rw [if_neg (by rw [hclosed]; decide)]
    exact hs.toward hv (.inl rfl) Stage.noConfusion (fun h => nomatch h) hr.symm
      fun hr => { (hs.before hr).2.1 with }
  | route v =>
    refine Trace.when_keeps hs fun hst => ?_
    have hr : s.responded = false := by unfold responded; rw [hst]
    have hv : v ≠ .reject 0 := of_decide_eq_true hop
    have hnone : s.verdict = none := hs.agrees _ hst
    have hne : some v ≠ some (.reject 0) := fun h => hv (Option.some.inj h)
    have hq : s.responded = false → s.callee.Quiet := fun hr => (hs.before hr).2.1
    cases v with
    | accept => exact hs.toward rfl (.inr ⟨hnone, hne⟩) Stage.noConfusion (fun h => nomatch h) hr.symm hq
    | reject c | fail =>
      exact hs.toward ⟨_, rfl, Verdict.noConfusion, rfl⟩ (.inr ⟨hnone, hne⟩) Stage.noConfusion
        (fun h => nomatch h) hr.symm hq
  | setOpen =>
    refine Trace.when_keeps hs fun hst => ?_
    have hr : s.responded = false := by unfold responded; rw [hst]
    have hv : s.verdict = some .accept := hs.agrees _ hst
    exact hs.toward hv (.inl rfl) Stage.noConfusion (fun h => nomatch h) hr.symm
      fun hr => { (hs.before hr).2.1 with }
  | respond => exact hs.respond
  | resume =>
    refine Trace.when_keeps hs fun hst => ?_
    have hr : s.responded = true := by unfold responded; rw [hst]
    have hv : s.verdict = some .accept := hs.agrees _ hst
    refine hs.toward hv (.inl rfl) Stage.noConfusion (fun h => nomatch h) hr.symm fun h => ?_
    rw [hr] at h
    cases h
  | drop =>
    refine Trace.when_keeps hs fun hst => ?_
    have hr : s.responded = true := by unfold responded; rw [hst]
    have hv : ∃ w, s.verdict = some w ∧ w ≠ .accept := hs.agrees _ hst
    exact hs.toward hv (.inl rfl) Stage.noConfusion (fun h => nomatch h) hr.symm
      fun hr => (hs.before hr).2.1.close
  | take =>
    refine Trace.when_keeps hs fun _ => ?_
    exact hs.take
  | giveUp =>
    refine Trace.when_keeps hs fun hout => ?_
    exact hs.giveUp hout
  | session x m =>
    refine Trace.when_keeps hs fun huses => ?_
    cases x with
    | callee => exact hs.use_callee hop huses
    | caller => exact hs.use_caller huses

def Orderly (ops : List Op) : Prop := Trace.Along (fun past op => (exec past).orderly op = true) ops

instance : DecidablePred Orderly := fun ops =>
  inferInstanceAs (Decidable (Trace.Along (fun past op => (exec past).orderly op = true) ops))

theorem sound_exec (ops : List Op) (h : Orderly ops) : (exec ops).Sound :=
  Trace.Along.invariant h Sound.start fun _ _ hop ih => ih.step hop

/-! ## The law -/

structure Lawful (s : System) : Prop where
  /-- Nothing is sent for the nonce before the `Response`. -/
  silent : s.responded = false → s.sent = []
  /-- One `Response` is sent, with the code of the verdict. -/
  once : s.responded = true → ∃ v, s.verdict = some v ∧ s.sent.filterMap Frame.code = [code v]
  zero_iff : ∀ c, Frame.response c ∈ s.sent → (c = 0 ↔ s.verdict = some .accept)
  ordered : ∀ before after, s.sent = before ++ .reset :: after → ∃ c, Frame.response c ∈ before
  /-- `RouteQuery` reports the verdict, unless its context ended first. -/
  reported : ∀ o, s.outcome = some o → o = .gaveUp ∨ ∃ v, s.verdict = some v ∧ o = told v
  /-- Once all that was sent has been delivered, `RouteQuery` has only to take the result. -/
  informed : s.responded = true → s.toCaller = [] → s.outcome = none →
    ∃ v, s.verdict = some v ∧ (s.step .take).outcome = some (told v)

theorem code_eq_zero {v : Verdict} (hv : v ≠ .reject 0) : code v = 0 ↔ v = .accept := by
  cases v with
  | accept => simp [code]
  | reject c =>
    have hc : c ≠ 0 := fun h => hv (by rw [h])
    simp [code, hc]
  | fail => simp [code, codeRejected]

theorem told_of_code {v : Verdict} (hv : code v ≠ 0) : told v = .rejected (code v) := by
  cases v with
  | accept => exact absurd rfl hv
  | reject c | fail => rfl

namespace Sound

variable {s : System}

variable (hs : s.Sound)
include hs

theorem verdict_ne {v : Verdict} (hv : s.verdict = some v) : v ≠ .reject 0 := by
  intro h
  exact hs.nonzero (by rw [hv, h])

theorem responses (hr : s.responded = true) :
    ∃ v, s.verdict = some v ∧ s.sent.filterMap Frame.code = [code v] := by
  obtain ⟨v, rest, hv, hsent, hrest⟩ := hs.after hr
  refine ⟨v, hv, ?_⟩
  have hnil : rest.filterMap Frame.code = [] := filterMap_eq_nil_iff.mpr hrest
  rw [hsent]
  show code v :: rest.filterMap Frame.code = _
  rw [hnil]

theorem code_of_response {c : ℕ} (hc : Frame.response c ∈ s.sent) : ∃ v, s.verdict = some v ∧ c = code v := by
  cases hr : s.responded with
  | false =>
    rw [(hs.before hr).1] at hc
    cases hc
  | true =>
    obtain ⟨v, hv, hcodes⟩ := hs.responses hr
    have hmem : c ∈ s.sent.filterMap Frame.code := mem_filterMap.mpr ⟨_, hc, rfl⟩
    rw [hcodes] at hmem
    exact ⟨v, hv, mem_singleton.mp hmem⟩

theorem response_before {before after : List Frame} (h : s.sent = before ++ .reset :: after) :
    ∃ c, Frame.response c ∈ before := by
  cases hr : s.responded with
  | false =>
    rw [(hs.before hr).1] at h
    exact absurd h (by simp)
  | true =>
    obtain ⟨v, rest, -, hsent, -⟩ := hs.after hr
    rw [hsent] at h
    cases before with
    | nil => exact absurd (List.cons.inj h).1 Frame.noConfusion
    | cons f fs => exact ⟨code v, by rw [(List.cons.inj h).1]; exact mem_cons_self⟩

/-- `RouteQuery` takes the code of the verdict. -/
theorem taken {c : ℕ} (hres : s.routingResult = some c) :
    ∃ v, s.verdict = some v ∧ s.take.outcome = some (told v) := by
  obtain ⟨v, hv, hcode⟩ := hs.result c hres
  refine ⟨v, hv, ?_⟩
  have htake : s.take.outcome = if c ≠ 0 then some (.rejected c) else some .accepted := by
    unfold System.take
    rw [hres]
    by_cases hc : c = 0
    · simp [hc]
    · simp [hc]
  rw [htake]
  split
  · rename_i hc
    rw [told_of_code (by rw [hcode]; exact hc), hcode]
  · rename_i hc
    rw [(code_eq_zero (hs.verdict_ne hv)).mp (by rw [hcode]; exact not_not.mp hc)]
    rfl

theorem lawful : s.Lawful where
  silent := fun hr => (hs.before hr).1
  once := hs.responses
  zero_iff := by
    intro c hc
    obtain ⟨v, hv, rfl⟩ := hs.code_of_response hc
    rw [hv, Option.some_inj]
    exact code_eq_zero (hs.verdict_ne hv)
  ordered := fun _ _ h => hs.response_before h
  reported := by
    intro o ho
    cases o with
    | gaveUp => exact .inl rfl
    | accepted =>
      obtain ⟨v, hv, hcode⟩ := hs.result 0 (hs.accepted ho)
      refine .inr ⟨v, hv, ?_⟩
      rw [(code_eq_zero (hs.verdict_ne hv)).mp hcode]
      rfl
    | rejected c =>
      obtain ⟨hres, hc⟩ := hs.rejected c ho
      obtain ⟨v, hv, hcode⟩ := hs.result c hres
      refine .inr ⟨v, hv, ?_⟩
      rw [told_of_code (by rw [hcode]; exact hc), hcode]
  informed := by
    intro hr hwire hout
    cases hres : s.routingResult with
    | none =>
      obtain ⟨v, rest, -, hsent, -⟩ := hs.after hr
      rw [← (hs.waiting hres hout).1, hwire] at hsent
      cases hsent
    | some c =>
      show ∃ v, s.verdict = some v ∧ (if s.outcome = none then s.take else s).outcome = some (told v)
      rw [if_pos hout]
      exact hs.taken hres

end Sound

/-- The steps of `handleInboundQuery` up to the `Response`, the last one first. -/
def finish (v : Verdict) : List Op := [.respond, .setOpen, .route v, .setup, .hook, .create]

theorem orderly_finish {v : Verdict} (hv : v ≠ .reject 0) {ops : List Op} (h : Orderly ops) :
    Orderly (finish v ++ ops) :=
  ⟨rfl, rfl, decide_eq_true hv, rfl, rfl, rfl, h⟩

theorem responded_finish (v : Verdict) (hv : v ≠ .reject 0) (ops : List Op) (h : Orderly ops)
    (hasked : (exec ops).asked = true) : (exec (finish v ++ ops)).responded = true := by
  have hs := sound_exec ops h
  show (((((((exec ops).step .create).step .hook).step .setup).step (.route v)).step .setOpen).step
    .respond).responded = true
  generalize exec ops = s at hs hasked
  cases hst : s.stage with
  | none =>
    have hclosed := (hs.unmade hst).2.2
    cases v <;> simp [step, setup, hst, hasked, hclosed, Registry.Conn.routed, System.respond,
      System.toward, responded]
  | some st =>
    have hclosed := hs.unclosed
    unfold creating at hclosed
    rw [hst] at hclosed
    cases st with
    | failed => exact absurd hst hs.alive
    | stored | hooked =>
      have hclosed := hclosed rfl
      cases v <;> simp [step, setup, hst, hclosed, Registry.Conn.routed, System.respond, System.toward,
        responded]
    | routing =>
      cases v <;> simp [step, hst, Registry.Conn.routed, System.respond, System.toward, responded]
    | accepted | opened | refused c => simp [step, hst, System.respond, System.toward, responded]
    | answered | served | refusing | dropped => simp [step, hst, System.respond, responded]

/-- **The verdict law.** -/
theorem verdict_law (ops : List Op) (h : Orderly ops) :
    (exec ops).Lawful ∧ ((exec ops).asked = true → ∀ v, v ≠ .reject 0 →
      Orderly (finish v ++ ops) ∧ (exec (finish v ++ ops)).responded = true) :=
  ⟨(sound_exec ops h).lawful, fun hasked v hv => ⟨orderly_finish hv h, responded_finish v hv ops h hasked⟩⟩

/-! ## Runs -/

/-- The query is delivered and routed with verdict `v`. -/
def routed (v : Verdict) : List Op := [.route v, .setup, .hook, .create, .deliver .callee true]

def closes (x : Side) : List Op := [.session x .emit, .session x .shut, .session x .unhook, .session x .close]

/-- The handler of an accepted query writes and closes its session before the caller has its
result. -/
def servedAtOnce : List Op :=
  .deliver .caller true :: (closes .callee ++ .session .callee (.write 5) :: .resume :: .respond ::
    .setOpen ::
    routed .accept)

theorem verdict_law_served_at_once :
    (exec servedAtOnce).sent = [.response 0, .data 5, .reset] ∧ (exec servedAtOnce).Lawful ∧
      (exec (finish .fail ++ servedAtOnce)).responded = true := by
  obtain ⟨hlaw, hfinish⟩ := verdict_law servedAtOnce (by decide)
  exact ⟨rfl, hlaw, (hfinish rfl .fail (by decide)).2⟩

/-- A router that rejects with code 0 is reported as one that accepts. -/
theorem accepted_though_rejected :
    let s := exec (.take :: .deliver .caller true :: .respond :: routed (.reject 0))
    s.verdict = some (.reject 0) ∧ s.sent = [.response 0] ∧ s.outcome = some .accepted := by
  decide

/-- The handler closes the session when it is given it: the `Reset` overtakes the `Response`, and
`RouteQuery` is not told that its query was accepted; all that is left to it is to give up. -/
theorem reset_first :
    let s := exec (.deliver .caller true :: .session .caller .unhook :: .deliver .caller true ::
      .resume :: .respond :: .setOpen :: .route .accept ::
        (closes .callee ++ [.setup, .hook, .create, .deliver .callee true]))
    s.verdict = some .accept ∧ s.sent = [.reset, .response 0] ∧ s.toCaller = [] ∧ s.toCallee = [] ∧
      s.routingResult = none ∧ s.outcome = none := by
  decide

/-- The caller gives up while the callee creates the session: no `Response` is sent. -/
theorem closed_before_setup :
    let s := exec (finish .accept ++ [.setup, .deliver .callee true, .hook, .create] ++ closes .caller ++
      [.giveUp, .deliver .callee true])
    s.stage = some .failed ∧ s.sent = [] := by
  decide

end System

end Astrald.Nodes.Query
