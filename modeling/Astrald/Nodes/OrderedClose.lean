import Mathlib
import Astrald.Nodes.Link

/-!
# Closing a session in order

* `System.Sound`: what holds in every state of a run in which `a` closes when its `Write`s have
  returned and `b` does not close first;
* `System.ordered_close`: `b` reads what `a` wrote and then `io.EOF`.
-/

namespace Astrald.Nodes.Link

open List

namespace System

def Ended (fs : List Frame) : Prop := ∀ pre post, fs = pre ++ .reset :: post → dataOn post = []

variable {s : System} {fs : List Frame}

theorem Ended.of_notMem (h : .reset ∉ fs) : Ended fs := by
  intro pre post heq
  exact absurd (by rw [heq]; simp) h

theorem Ended.snoc (h : Ended fs) {f : Frame} (hf : .reset ∈ fs → f.payload = []) : Ended (fs ++ [f]) := by
  intro pre post heq
  rcases eq_nil_or_concat post with rfl | ⟨post', g, rfl⟩
  · rfl
  · rw [concat_eq_append, ← cons_append, ← append_assoc] at heq
    obtain ⟨hfs, hg⟩ := append_inj' heq rfl
    have hmem : Frame.reset ∈ fs := by rw [hfs]; simp
    rw [concat_eq_append, dataOn_append, h pre post' hfs, ← (List.cons.inj hg).1, dataOn_cons, hf hmem]
    rfl

structure Sound (s : System) : Prop where
  a : s.a.Sound
  b : s.b.Sound
  wire : s.toB <:+ s.sent
  bytes : s.a.session.written = s.b.session.received ++ s.b.held ++ dataOn s.toB ++ s.a.sending
  room : s.a.credit + s.a.sending.length + (dataOn s.toB).length + s.b.held.length + readsOn s.toA ≤
    defaultBufferSize
  back : s.a.session.closed = false →
    s.b.credit + s.b.sending.length + (dataOn s.toA).length + s.a.held.length + readsOn s.toB ≤
      defaultBufferSize
  quiet : s.a.session.closed = false → .reset ∉ s.sent
  deaf : s.b.session.closed = false → .reset ∉ s.toA
  last : s.b.session.closed = true → s.a.session.closed = true ∧ dataOn s.toB = []
  ended : Ended s.sent
  returned : s.a.session.closed = true → s.a.writing = none
  tally : s.a.Tally
  eof : s.b.eof = true → s.b.session.reader.current.closed = true ∧ s.b.held = []
  told : s.a.session.writer.closed = true →
    s.a.closing = .resetting ∨ .reset ∈ s.toB ∨ s.b.session.closed = true

theorem Sound.start : Sound start where
  a := Endpoint.Sound.opened
  b := Endpoint.Sound.opened
  wire := suffix_rfl
  bytes := rfl
  room := by decide
  back := by decide
  quiet := by decide
  deaf := by decide
  last := nofun
  ended := Ended.of_notMem (by decide)
  returned := nofun
  tally := rfl
  eof := nofun
  told := nofun

namespace Sound

variable {s : System}

variable {f : Frame} {fs : List Frame}

variable (h : s.Sound)
include h

/-- `b` has room for the payload of the next frame. -/
theorem fits_b (hwire : s.toB = f :: fs) : s.b.held.length + f.payload.length ≤ defaultBufferSize := by
  have hroom := h.room
  rw [hwire, dataOn_cons, length_append] at hroom
  omega

theorem fits_a (hopen : s.a.session.closed = false) (hwire : s.toA = f :: fs) :
    s.a.held.length + f.payload.length ≤ defaultBufferSize := by
  have hback := h.back hopen
  rw [hwire, dataOn_cons, length_append] at hback
  omega

theorem spent (hc : s.a.session.closed = true) : s.a.sending = [] := h.a.idle (h.returned hc)

theorem closed_of_reset (hr : .reset ∈ s.sent) : s.a.session.closed = true := by
  rw [← Bool.not_eq_false]
  exact fun hc => h.quiet hc hr

/-- `a` becomes `e`, takes the frames `t` off its wire and sends `gs`. -/
theorem moved_a {e : Endpoint} {t r gs : List Frame} (hwire : s.toA = t ++ r) (hsound : e.Sound)
    (htaken : ∃ p, e.session.written = s.a.session.written ++ p ∧ s.a.sending ++ p = dataOn gs ++ e.sending)
    (hcredit : e.credit + e.sending.length + (dataOn gs).length ≤ s.a.credit + s.a.sending.length + readsOn t)
    (hopen : e.session.closed = false → s.a.session.closed = false ∧
      e.held.length + readsOn gs ≤ s.a.held.length + (dataOn t).length)
    (hreset : .reset ∈ gs → s.a.session.closed = true) (hone : gs = [] ∨ ∃ f, gs = [f])
    (hdata : s.a.session.closed = true → dataOn gs = []) (hreturned : e.session.closed = true → e.writing = none)
    (htally : e.Tally) (htold : e.session.writer.closed = true →
      e.closing = .resetting ∨ .reset ∈ s.toB ++ gs ∨ s.b.session.closed = true) :
    ({ s with toA := r }.put .a (e, gs)).Sound :=
  { h with
    a := hsound
    wire := by
      obtain ⟨pre, hpre⟩ := h.wire
      refine ⟨pre, ?_⟩
      show pre ++ (s.toB ++ gs) = s.sent ++ gs
      rw [← append_assoc, hpre]
    bytes := by
      obtain ⟨p, hwritten, hsending⟩ := htaken
      show e.session.written = s.b.session.received ++ s.b.held ++ dataOn (s.toB ++ gs) ++ e.sending
      rw [hwritten, h.bytes, dataOn_append, append_assoc _ s.a.sending, hsending]
      simp only [append_assoc]
    room := by
      show e.credit + e.sending.length + (dataOn (s.toB ++ gs)).length + s.b.held.length + readsOn r ≤ _
      have hroom := h.room
      rw [hwire, readsOn_append] at hroom
      rw [dataOn_append, length_append]
      omega
    back := by
      intro hc
      show s.b.credit + s.b.sending.length + (dataOn r).length + e.held.length + readsOn (s.toB ++ gs) ≤ _
      obtain ⟨hold, hused⟩ := hopen hc
      have hback := h.back hold
      rw [hwire, dataOn_append, length_append] at hback
      rw [readsOn_append]
      omega
    quiet := by
      intro hc hmem
      have hold := (hopen hc).1
      rcases mem_append.mp hmem with hmem | hmem
      · exact h.quiet hold hmem
      · rw [hreset hmem] at hold
        cases hold
    deaf := fun hb hmem => h.deaf hb (by rw [hwire]; exact mem_append_right t hmem)
    last := by
      intro hb
      obtain ⟨hc, hnone⟩ := h.last hb
      refine ⟨?_, ?_⟩
      · rw [← Bool.not_eq_false]
        intro hn
        rw [(hopen hn).1] at hc
        cases hc
      · show dataOn (s.toB ++ gs) = []
        rw [dataOn_append, hnone, hdata hc]
        rfl
    ended := by
      show Ended (s.sent ++ gs)
      rcases hone with rfl | ⟨f, rfl⟩
      · rw [append_nil]
        exact h.ended
      · exact h.ended.snoc fun hmem => (append_eq_nil_iff.mp (hdata (h.closed_of_reset hmem))).1
    returned := hreturned
    tally := htally
    told := htold }

/-- `b` becomes `e`, takes the frames `t` off its wire and sends `gs`. -/
theorem moved_b {e : Endpoint} {t r gs : List Frame} (hwire : s.toB = t ++ r) (hsound : e.Sound)
    (hkept : e.session.received ++ e.held = s.b.session.received ++ s.b.held ++ dataOn t)
    (hused : e.held.length + readsOn gs ≤ s.b.held.length + (dataOn t).length)
    (hcredit : e.credit + e.sending.length + (dataOn gs).length ≤ s.b.credit + s.b.sending.length + readsOn t)
    (hopen : e.session.closed = false → s.b.session.closed = false)
    (hreset : .reset ∈ gs → s.b.session.closed = true)
    (hlast : e.session.closed = true → s.a.session.closed = true ∧ dataOn r = [])
    (heof : e.eof = true → e.session.reader.current.closed = true ∧ e.held = [])
    (htold : s.a.session.writer.closed = true →
      s.a.closing = .resetting ∨ .reset ∈ r ∨ e.session.closed = true) :
    ({ s with toB := r }.put .b (e, gs)).Sound :=
  { h with
    b := hsound
    wire := (suffix_append t r).trans (hwire ▸ h.wire)
    bytes := by
      show s.a.session.written = e.session.received ++ e.held ++ dataOn r ++ s.a.sending
      rw [hkept, h.bytes, hwire, dataOn_append]
      simp only [append_assoc]
    room := by
      show s.a.credit + s.a.sending.length + (dataOn r).length + e.held.length + readsOn (s.toA ++ gs) ≤ _
      have hroom := h.room
      rw [hwire, dataOn_append, length_append] at hroom
      rw [readsOn_append]
      omega
    back := by
      intro hc
      show e.credit + e.sending.length + (dataOn (s.toA ++ gs)).length + s.a.held.length + readsOn r ≤ _
      have hback := h.back hc
      rw [hwire, readsOn_append] at hback
      rw [dataOn_append, length_append]
      omega
    deaf := by
      intro hc hmem
      have hold := hopen hc
      rcases mem_append.mp hmem with hmem | hmem
      · exact h.deaf hold hmem
      · rw [hreset hmem] at hold
        cases hold
    last := hlast
    eof := heof
    told := htold }

theorem act_a {o : Act} (ho : o = .close → s.a.writing = none) : (s.put .a (s.a.step o)).Sound := by
  have heff := Endpoint.effect_step h.a o
  -- the session was open if it still is
  have hopen : (s.a.step o).1.session.closed = false → s.a.session.closed = false := by
    intro hc
    by_cases hclose : o = .close
    · rw [hclose] at hc
      rw [show (s.a.step .close).1 = s.a.close from rfl, s.a.closed_close] at hc
      cases hc
    · rw [← s.a.closed_step hclose]
      exact hc
  refine h.moved_a (e := (s.a.step o).1) (t := []) rfl (h.a.step o) heff.taken heff.credit (fun hc => ⟨hopen hc, heff.used⟩)
    h.a.closed_of_reset (s.a.step_single o) (fun hc => Endpoint.no_data (h.spent hc) o) (fun hc => ?_)
    (h.tally.step (fun hw => h.returned (h.a.writer hw)) o) fun hw => ?_
  · by_cases hclose : o = .close
    · subst hclose
      show s.a.close.writing = none
      rw [show s.a.close.writing = s.a.writing by unfold Endpoint.close; split <;> rfl]
      exact ho rfl
    · rw [s.a.closed_step hclose] at hc
      exact Endpoint.writing_step hc (h.returned hc) o
  · rw [mem_append]
    rcases Endpoint.writer_step h.a hw with hcl | hmem | ⟨hold, hne⟩
    · exact .inl hcl
    · exact .inr (.inl (.inr hmem))
    · rcases h.told hold with hcl | hmem | hb
      · exact absurd hcl hne
      · exact .inr (.inl (.inl hmem))
      · exact .inr (.inr hb)

theorem act_b {o : Act} (ho : o = .close → s.b.session.closed = true) : (s.put .b (s.b.step o)).Sound := by
  have heff := Endpoint.effect_step h.b o
  have hclosed : (s.b.step o).1.session.closed = s.b.session.closed := by
    by_cases hclose : o = .close
    · subst hclose
      show s.b.close.session.closed = _
      rw [Endpoint.close_of_closed (ho rfl)]
    · exact s.b.closed_step hclose
  refine h.moved_b (e := (s.b.step o).1) (t := []) rfl (h.b.step o) ?_ heff.used heff.credit (fun hc => hclosed.symm.trans hc)
    h.b.closed_of_reset (fun hc => h.last (hclosed.symm.trans hc)) (fun heof => ?_)
    fun hw => (h.told hw).imp_right (Or.imp_right fun hb => hclosed.trans hb)
  · exact heff.kept.trans (append_nil _).symm
  · have hold : s.b.session.reader.current.closed = true ∧ s.b.held = [] :=
      (Endpoint.eof_step heof).elim h.eof id
    refine ⟨?_, ?_⟩
    · rw [(h.b.step o).shut]
      exact Endpoint.done_step h.b (h.b.shut.mp hold.1) o
    · have hused := heff.used
      rw [hold.2, length_nil] at hused
      exact length_eq_zero_iff.mp (by omega)

theorem deliver_a (hwire : s.toA = f :: fs) {r : Endpoint × List Frame}
    (hr : s.a.handle f = some r) : ({ s with toA := fs }.put .a r).Sound := by
  obtain ⟨e, gs⟩ := r
  obtain ⟨hsound, hh⟩ := Endpoint.handle_spec h.a hr
  obtain ⟨hdata, hreads⟩ := hh.silent
  have hb : f = .reset → s.b.session.closed = true := by
    intro hf
    rw [← Bool.not_eq_false]
    exact fun hb => h.deaf hb (by rw [hwire, hf]; exact mem_cons_self)
  -- `a` is closed by its application only: what `b` sends fits, and `b` sends no `Reset` before
  have hstays : s.a.session.closed = false → e.held = s.a.held ++ f.payload ∧ e.session.closed = false := by
    intro hc
    obtain ⟨hheld, hopen⟩ := hh.opened hc (h.fits_a hc hwire)
    refine ⟨hheld, hopen fun hf => ?_⟩
    rw [(h.last (hb hf)).1] at hc
    cases hc
  have hclosed : e.session.closed = s.a.session.closed := by
    cases hc : s.a.session.closed with
    | true => exact (hh.closed hc).2.1
    | false => exact (hstays hc).2
  refine h.moved_a (t := [f]) hwire hsound ⟨[], ?_, ?_⟩ ?_ (fun hc => ?_) (fun hmem => ?_) ?_ (fun _ => hdata)
    (fun hc => hh.calls.1.trans (h.returned (hclosed.symm.trans hc))) ?_ fun hw => ?_
  · rw [hh.written, append_nil]
  · rw [hdata, hh.sending, append_nil]
    rfl
  · rw [hdata, hh.sending, readsOn_cons]
    have hcredit := hh.credit
    simp only [length_nil]
    omega
  · have hc : s.a.session.closed = false := hclosed.symm.trans hc
    rw [(hstays hc).1, hreads, dataOn_cons, length_append, length_append]
    exact ⟨hc, by omega⟩
  · rcases hh.reply with hr | ⟨-, hr⟩
    · rw [hr] at hmem
      cases hmem
    · exact hr
  · exact hh.reply.imp_right fun hr => ⟨_, hr.1⟩
  · obtain ⟨hwriting, hcalls, -⟩ := hh.calls
    have htally := h.tally
    unfold Endpoint.Tally at htally ⊢
    rw [hwriting, hh.written, hcalls]
    exact htally
  · rcases hh.writer hw with hold | hf
    · rw [(hh.closed (h.a.writer hold)).2.2, mem_append]
      exact (h.told hold).imp_right (Or.imp_left .inl)
    · exact .inr (.inr (hb hf))

theorem deliver_b (hwire : s.toB = f :: fs) {r : Endpoint × List Frame}
    (hr : s.b.handle f = some r) : ({ s with toB := fs }.put .b r).Sound := by
  obtain ⟨e, gs⟩ := r
  obtain ⟨hsound, hh⟩ := Endpoint.handle_spec h.b hr
  obtain ⟨hdata, hreads⟩ := hh.silent
  -- what is not kept was not there: no `Data` reaches a closed `b`
  have hheld : e.held = s.b.held ++ f.payload := by
    cases hc : s.b.session.closed with
    | false => exact (hh.opened hc (h.fits_b hwire)).1
    | true =>
      have hnone := (h.last hc).2
      rw [hwire, dataOn_cons, append_eq_nil_iff] at hnone
      rw [(hh.closed hc).1, hnone.1, append_nil]
  refine h.moved_b (t := [f]) hwire hsound ?_ ?_ ?_ (fun hc => ?_) (fun hmem => ?_) (fun hc => ?_)
    (fun heof => ?_) fun hw => ?_
  · rw [hh.received, hheld, dataOn_cons]
    simp only [append_assoc, append_nil, dataOn_nil]
  · rw [hheld, hreads, dataOn_cons, length_append, length_append]
    omega
  · rw [hdata, hh.sending, readsOn_cons]
    have hcredit := hh.credit
    simp only [length_nil]
    omega
  · rw [← Bool.not_eq_true]
    intro hold
    rw [(hh.closed hold).2.1] at hc
    cases hc
  · rcases hh.reply with hr | ⟨-, hr⟩
    · rw [hr] at hmem
      cases hmem
    · exact hr
  · cases hold : s.b.session.closed with
    | true =>
      obtain ⟨ha, hnone⟩ := h.last hold
      rw [hwire, dataOn_cons, append_eq_nil_iff] at hnone
      exact ⟨ha, hnone.2⟩
    | false =>
      have hf : f = .reset := by
        by_contra hne
        rw [(hh.opened hold (h.fits_b hwire)).2 hne] at hc
        cases hc
      obtain ⟨pre, hpre⟩ := h.wire
      rw [hwire, hf] at hpre
      exact ⟨h.closed_of_reset (by rw [← hpre]; simp), h.ended pre fs hpre.symm⟩
  · obtain ⟨hshut, hempty⟩ := h.eof (hh.calls.2.2.symm.trans heof)
    have hdone := h.b.shut.mp hshut
    have hc := h.b.closed_of_ne (by rw [hdone]; exact Closing.noConfusion)
    refine ⟨?_, (hh.closed hc).1.trans hempty⟩
    rw [hsound.shut, (hh.closed hc).2.2]
    exact hdone
  · rcases h.told hw with hcl | hmem | hb
    · exact .inl hcl
    · rw [hwire] at hmem
      rcases mem_cons.mp hmem with hf | hmem
      · exact .inr (.inr (hh.reset hf.symm))
      · exact .inr (.inl hmem)
    · exact .inr (.inr (hh.closed hb).2.1)

end Sound

/-- `a` closes when its `Write`s have returned, and `b` not before it has been told that `a` has. -/
def orderly (s : System) : Op → Bool
  | .act .a .close => s.a.writing.isNone
  | .act .b .close => s.b.session.closed
  | _ => true

/-- A read loop waits, or handles the next frame. -/
theorem deliver_rule {P : System → Prop} (here : P s)
    (a : ∀ f fs r, s.toA = f :: fs → s.a.handle f = some r → P ({ s with toA := fs }.put .a r))
    (b : ∀ f fs r, s.toB = f :: fs → s.b.handle f = some r → P ({ s with toB := fs }.put .b r))
    (x : End) : P (s.deliver x) := by
  cases x <;> unfold deliver <;> dsimp only <;> split
  · exact here
  · split
    · exact here
    · exact a _ _ _ ‹_› ‹_›
  · exact here
  · split
    · exact here
    · exact b _ _ _ ‹_› ‹_›

theorem Sound.step (h : s.Sound) {op : Op} (hop : s.orderly op = true) : (s.step op).Sound := by
  cases op with
  | act x o =>
    cases x with
    | a =>
      refine h.act_a ?_
      rintro rfl
      exact Option.isNone_iff_eq_none.mp hop
    | b =>
      refine h.act_b ?_
      rintro rfl
      exact hop
  | deliver x =>
    exact deliver_rule h (fun _ _ _ hw => h.deliver_a hw) (fun _ _ _ hw => h.deliver_b hw) x

def Orderly (ops : List Op) : Prop := Trace.Along (fun past op => (exec past).orderly op = true) ops

instance : DecidablePred Orderly := fun ops =>
  inferInstanceAs (Decidable (Trace.Along (fun past op => (exec past).orderly op = true) ops))

theorem sound_exec (ops : List Op) (h : Orderly ops) : (exec ops).Sound :=
  Trace.Along.invariant h Sound.start fun _ _ hop ih => ih.step hop

/-! ## The way to the end

Once `a` has called `Close`, nothing more is asked of the applications than that `b` reads. -/

/-- The steps of the goroutines of `Close`, of the read loop of `b`, of a `Write` of `b` that holds
its lock, and the `Read`s of `b`. -/
def onward : Op → Bool
  | .deliver .b | .act .b .transmit | .act .b (.read _) => true
  | .act _ o => o.closes && !(o matches .close)
  | _ => false

theorem orderly_of_onward {op : Op} (h : onward op = true) (s : System) : s.orderly op = true := by
  rcases op with ⟨x, o⟩ | x
  · cases x <;> cases o <;> first | rfl | cases h
  · rfl

def Reach (s t : System) : Prop := ∃ more, (∀ op ∈ more, onward op = true) ∧ Trace.exec step s more = t

namespace Reach

theorem refl (s : System) : Reach s s := ⟨[], fun _ h => absurd h not_mem_nil, rfl⟩

theorem trans {s t u : System} (h : Reach s t) (h' : Reach t u) : Reach s u := by
  obtain ⟨more, hmore, rfl⟩ := h
  obtain ⟨more', hmore', rfl⟩ := h'
  refine ⟨more' ++ more, fun op hop => ?_, Trace.exec_append ..⟩
  exact (mem_append.mp hop).elim (hmore' op) (hmore op)

theorem single (op : Op) (h : onward op = true) (s : System) : Reach s (s.step op) :=
  ⟨[op], fun op' hop => by rw [mem_singleton.mp hop]; exact h, rfl⟩

theorem sound {s t : System} (h : Reach s t) (hs : s.Sound) : t.Sound := by
  obtain ⟨more, hmore, rfl⟩ := h
  induction more with
  | nil => exact hs
  | cons op more ih =>
    exact (ih fun o ho => hmore o (mem_cons_of_mem op ho)).step (orderly_of_onward (hmore op mem_cons_self) _)

end Reach

namespace Sound

variable {s : System}

theorem finish_a (h : s.Sound) (hc : s.a.session.closed = true) : ∃ t, Reach s t ∧ t.a.closing = .done := by
  refine ⟨_, ((Reach.single (.act .a .unhook) rfl s).trans (Reach.single (.act .a .shut) rfl _)).trans
    ((Reach.single (.act .a .emit) rfl _).trans (Reach.single (.act .a .drain) rfl _)), ?_⟩
  exact Endpoint.closing_closeRest h.a hc (h.spent hc)

/-- A `Write` of `b` gets through with what it has taken. -/
theorem free_b (s : System) : ∃ t, Reach s t ∧ t.a = s.a ∧ t.toB = s.toB ∧ t.b.sending = [] := by
  generalize hn : s.b.sending.length = n
  induction n using Nat.strong_induction_on generalizing s with
  | _ n ih =>
    by_cases hnil : s.b.sending = []
    · exact ⟨s, Reach.refl s, rfl, rfl, hnil⟩
    · have hpos : 0 < s.b.sending.length := length_pos_iff.mpr hnil
      have hlen : (s.step (.act .b .transmit)).b.sending.length < n := by
        show (s.b.step .transmit).1.sending.length < n
        rw [Endpoint.length_transmit, ← hn]
        exact Nat.sub_lt hpos (by decide)
      obtain ⟨t, hreach, ha, hwire, hfree⟩ := ih _ hlen (s.step (.act .b .transmit)) rfl
      exact ⟨t, (Reach.single _ rfl s).trans hreach, ha, hwire, hfree⟩

/-- The read loop of `b` gets through with what `a` has sent. -/
theorem receive_b (h : s.Sound) (hfree : s.b.sending = []) :
    ∃ t, Reach s t ∧ t.a = s.a ∧ t.toB = [] ∧ t.b.sending = [] := by
  generalize hw : s.toB = w
  induction w generalizing s with
  | nil => exact ⟨s, Reach.refl s, rfl, hw, hfree⟩
  | cons f fs ih =>
    obtain ⟨r, hr⟩ := Endpoint.handle_free hfree f
    have hstep : s.step (.deliver .b) = { s with toB := fs }.put .b r := by
      simp only [System.step, deliver, hw, hr]
    have hsound : (s.step (.deliver .b)).Sound := h.step rfl
    have hfree' : (s.step (.deliver .b)).b.sending = [] := by
      rw [hstep]
      exact (Endpoint.handle_spec h.b hr).2.sending.trans hfree
    obtain ⟨t, hreach, ha, hwire, hdone⟩ := ih hsound hfree' (by rw [hstep]; rfl)
    refine ⟨t, (Reach.single _ rfl s).trans hreach, ?_, hwire, hdone⟩
    rw [ha, hstep]
    rfl

theorem finish_b (h : s.Sound) (hc : s.b.session.closed = true) (hfree : s.b.sending = []) :
    ∃ t, Reach s t ∧ t.b.closing = .done := by
  refine ⟨_, ((Reach.single (.act .b .unhook) rfl s).trans (Reach.single (.act .b .shut) rfl _)).trans
    ((Reach.single (.act .b .emit) rfl _).trans (Reach.single (.act .b .drain) rfl _)), ?_⟩
  exact Endpoint.closing_closeRest h.b hc hfree

end Sound

def reads (ns : List ℕ) : List Op := ns.map fun n => .act .b (.read n)

/-- A bound on the `Read`s it takes `b` to come to the end of what it holds. -/
def left (s : System) : ℕ := s.b.session.reader.current.buf.length + s.b.session.reader.current.used

theorem reach_reads (ns : List ℕ) (s : System) : Reach s (Trace.exec step s (reads ns)) := by
  refine ⟨reads ns, fun op hop => ?_, rfl⟩
  obtain ⟨n, -, rfl⟩ := mem_map.mp hop
  rfl

/-- A `Read` of a closed reader returns `io.EOF` or makes progress. -/
theorem Sound.read_b (h : s.Sound) (hdone : s.b.closing = .done) {n : ℕ} (hn : 0 < n) :
    (s.step (.act .b (.read n))).b.eof = true ∨ (s.step (.act .b (.read n))).left < s.left := by
  have hstep : (s.step (.act .b (.read n))).b = (s.b.read n).1 := by
    show (if n = 0 then (s.b, []) else s.b.read n).1 = _
    rw [if_neg (Nat.pos_iff_ne_zero.mp hn)]
  unfold left
  rw [hstep]
  rcases InputBuffer.read_closed (h.b.shut.mpr hdone) hn with ⟨-, heof⟩ | ⟨out, b, hok, hlt⟩
  · refine .inl ?_
    show (s.b.eof || Endpoint.ended s.b.session.reader n) = true
    unfold Endpoint.ended
    rw [heof, h.b.next]
    simp
  · refine .inr ?_
    show (s.b.session.reader.read n).2.2.current.buf.length + (s.b.session.reader.read n).2.2.current.used < _
    unfold Reader.read
    rw [hok]
    show (s.b.session.reader.setInput _ b).current.buf.length +
      (s.b.session.reader.setInput _ b).current.used < _
    rw [Reader.current_setInput_buf]
    exact hlt

/-- **Draining.** However `b` chooses its buffers, it comes to the end of a closed reader. -/
theorem Sound.drain_b (h : s.Sound) (hdone : s.b.closing = .done) {ns : List ℕ} (hpos : ∀ n ∈ ns, 0 < n) :
    (Trace.exec System.step s (reads ns)).b.closing = .done ∧
      ((Trace.exec System.step s (reads ns)).b.eof = true ∨
        (Trace.exec System.step s (reads ns)).left + ns.length ≤ s.left) := by
  induction ns with
  | nil => exact ⟨hdone, .inr (Nat.le_refl _)⟩
  | cons n ns ih =>
    obtain ⟨hd, hrest⟩ := ih fun m hm => hpos m (mem_cons_of_mem n hm)
    have hsound : (Trace.exec System.step s (reads ns)).Sound := (reach_reads ns s).sound h
    refine ⟨Endpoint.done_step hsound.b hd (.read n), ?_⟩
    rcases hrest with heof | hleft
    · refine .inl ?_
      show (if n = 0 then _ else _ : Endpoint × List Frame).1.eof = true
      rw [if_neg (Nat.pos_iff_ne_zero.mp (hpos n mem_cons_self))]
      show ((Trace.exec System.step s (reads ns)).b.eof || _) = true
      rw [heof, Bool.true_or]
    · refine (hsound.read_b hd (hpos n mem_cons_self)).imp_right fun hlt => ?_
      rw [length_cons]
      show (System.step (Trace.exec System.step s (reads ns)) (.act .b (.read n))).left + _ ≤ _
      omega

theorem Reach.calls {t : System} (h : Reach s t) : t.a.calls = s.a.calls := by
  obtain ⟨more, hmore, rfl⟩ := h
  induction more with
  | nil => rfl
  | cons op more ih =>
    rw [← ih fun o ho => hmore o (mem_cons_of_mem op ho)]
    have hop := hmore op mem_cons_self
    show ((Trace.exec step s more).step op).a.calls = _
    generalize Trace.exec step s more = u
    rcases op with ⟨x, o⟩ | x
    · cases x with
      | a =>
        cases o with
        | unhook | emit | drain => simp only [System.step, put, Endpoint.step]; split <;> rfl
        | shut =>
          simp only [System.step, put, Endpoint.step]
          split
          · split <;> rfl
          · rfl
        | _ => cases hop
      | b => rfl
    · cases x with
      | a => cases hop
      | b =>
        simp only [System.step, deliver]
        split
        · rfl
        · split <;> rfl

structure Ordered (s : System) : Prop where
  part : s.b.session.received <+: s.a.session.written
  whole : s.a.session.closed = true → s.a.session.written = s.a.calls.flatten
  eof : s.b.eof = true → s.b.session.received = s.a.calls.flatten
  /-- No `Data` follows a `Reset`. -/
  ended : Ended s.sent
  /-- Once `a` has called `Close`, the goroutines of `Close` and of `b` get to a state from which
  `b`, however it chooses its buffers, reads the rest and then `io.EOF`. -/
  reads : s.a.session.closed = true → ∃ t, Reach s t ∧ ∀ ns : List ℕ, (∀ n ∈ ns, 0 < n) → t.left < ns.length →
    (Trace.exec step t (System.reads ns)).b.eof = true ∧
      (Trace.exec step t (System.reads ns)).b.session.received = s.a.calls.flatten

theorem Sound.whole (h : s.Sound) (hc : s.a.session.closed = true) : s.a.session.written = s.a.calls.flatten := by
  have htally := h.tally
  unfold Endpoint.Tally at htally
  rw [h.returned hc] at htally
  exact htally

theorem Sound.received_of_eof (h : s.Sound) (heof : s.b.eof = true) :
    s.b.session.received = s.a.calls.flatten := by
  obtain ⟨hshut, hempty⟩ := h.eof heof
  have hb : s.b.session.closed = true :=
    h.b.closed_of_ne (by rw [h.b.shut.mp hshut]; exact Closing.noConfusion)
  obtain ⟨hc, hdata⟩ := h.last hb
  rw [← h.whole hc, h.bytes, hempty, hdata, h.spent hc]
  simp

theorem Sound.settles (h : s.Sound) (hc : s.a.session.closed = true) : ∃ t, Reach s t ∧ t.b.closing = .done := by
  obtain ⟨t₁, h₁, hdone⟩ := h.finish_a hc
  obtain ⟨t₂, h₂, ha₂, -, hfree₂⟩ := free_b t₁
  have hs₂ : t₂.Sound := h₂.sound (h₁.sound h)
  obtain ⟨t₃, h₃, ha₃, hwire, hfree₃⟩ := hs₂.receive_b hfree₂
  have hs₃ : t₃.Sound := h₃.sound hs₂
  have hdone₃ : t₃.a.closing = .done := by rw [ha₃, ha₂, hdone]
  have hb : t₃.b.session.closed = true := by
    rcases hs₃.told (hs₃.a.silenced (.inr (.inr hdone₃))) with hcl | hmem | hb
    · rw [hdone₃] at hcl
      cases hcl
    · rw [hwire] at hmem
      cases hmem
    · exact hb
  obtain ⟨t₄, h₄, hend⟩ := hs₃.finish_b hb hfree₃
  exact ⟨t₄, (h₁.trans h₂).trans (h₃.trans h₄), hend⟩

theorem Sound.ordered (h : s.Sound) : s.Ordered where
  part := ⟨s.b.held ++ dataOn s.toB ++ s.a.sending, by rw [h.bytes]; simp only [append_assoc]⟩
  whole := h.whole
  eof := h.received_of_eof
  ended := h.ended
  reads := by
    intro hc
    obtain ⟨t, hreach, hdone⟩ := h.settles hc
    refine ⟨t, hreach, fun ns hpos hlen => ?_⟩
    have ht := hreach.sound h
    have heof : (Trace.exec System.step t (System.reads ns)).b.eof = true :=
      (ht.drain_b hdone hpos).2.resolve_right (by omega)
    refine ⟨heof, ?_⟩
    rw [((reach_reads ns t).sound ht).received_of_eof heof, (reach_reads ns t).calls, hreach.calls]

/-! ## All runs -/

/-- The payload of a `Data` frame is neither empty nor too long. -/
def Sized (fs : List Frame) : Prop := ∀ p, .data p ∈ fs → 1 ≤ p.length ∧ p.length ≤ maxPayloadSize

structure Formed (s : System) : Prop where
  a : s.a.Sound
  b : s.b.Sound
  sent : Sized s.sent
  toA : Sized s.toA

theorem Sized.append {gs : List Frame} (h : Sized fs) (h' : Sized gs) : Sized (fs ++ gs) := by
  intro p hp
  exact (mem_append.mp hp).elim (h p) (h' p)

theorem sized_step (e : Endpoint) (o : Act) : Sized (e.step o).2 := by
  intro p hp
  rcases e.step_frames o with hnil | ⟨q, hq, hpos, hle, -⟩ | ⟨n, hn⟩ | ⟨hr, -⟩
  · rw [hnil] at hp
    cases hp
  · rw [hq] at hp
    cases mem_singleton.mp hp
    exact ⟨hpos, hle⟩
  · rw [hn] at hp
    cases mem_singleton.mp hp
  · rw [hr] at hp
    cases mem_singleton.mp hp

theorem sized_reply {e e' : Endpoint} {f : Frame} (h : Endpoint.Handled e e' f fs) : Sized fs := by
  intro p hp
  rcases h.reply with hr | ⟨hr, -⟩
  · rw [hr] at hp
    cases hp
  · rw [hr] at hp
    cases mem_singleton.mp hp

theorem Formed.step (h : s.Formed) (op : Op) : (s.step op).Formed := by
  rcases op with ⟨x, o⟩ | x
  · cases x with
    | a => exact ⟨h.a.step o, h.b, h.sent.append (sized_step s.a o), h.toA⟩
    | b => exact ⟨h.a, h.b.step o, h.sent, h.toA.append (sized_step s.b o)⟩
  · refine deliver_rule h (fun f fs r hwire hr => ?_) (fun f fs r _ hr => ?_) x
    · obtain ⟨hsound, hh⟩ := Endpoint.handle_spec h.a hr
      refine ⟨hsound, h.b, h.sent.append (sized_reply hh), fun p hp => h.toA p ?_⟩
      rw [hwire]
      exact mem_cons_of_mem f hp
    · obtain ⟨hsound, hh⟩ := Endpoint.handle_spec h.b hr
      exact ⟨h.a, hsound, h.sent, h.toA.append (sized_reply hh)⟩

theorem formed_exec (ops : List Op) : (exec ops).Formed := by
  refine Trace.invariant (I := fun _ (s : System) => s.Formed) ?_ (fun op _ ih => ih.step op) ops
  exact ⟨Endpoint.Sound.opened, Endpoint.Sound.opened, fun _ hp => absurd hp not_mem_nil,
    fun _ hp => absurd hp not_mem_nil⟩

/-- After `writer.Close` of `a` has set its flag, no step sends `Data`. -/
theorem muted_step (h : s.Formed) (hc : s.a.session.writer.closed = true) (op : Op) :
    (s.step op).a.session.writer.closed = true ∧ dataOn (s.step op).sent = dataOn s.sent := by
  rcases op with ⟨x, o⟩ | x
  · cases x with
    | a =>
      refine ⟨Endpoint.muted_step hc o, ?_⟩
      show dataOn (s.sent ++ (s.a.step o).2) = _
      rw [dataOn_append, Endpoint.no_data (h.a.mute hc) o, append_nil]
    | b => exact ⟨hc, rfl⟩
  · refine deliver_rule (P := fun t => t.a.session.writer.closed = true ∧ dataOn t.sent = dataOn s.sent)
      ⟨hc, rfl⟩ (fun f fs r _ hr => ?_) (fun _ _ _ _ _ => ⟨hc, rfl⟩) x
    obtain ⟨-, hh⟩ := Endpoint.handle_spec h.a hr
    refine ⟨Endpoint.muted_handle hc hr, ?_⟩
    show dataOn (s.sent ++ r.2) = _
    have hnil : dataOn r.2 = [] := by rcases hh.reply with hr | ⟨hr, -⟩ <;> rw [hr] <;> rfl
    rw [dataOn_append, hnil, append_nil]

theorem muted_exec (ops : List Op) (hc : (exec ops).a.session.writer.closed = true) (more : List Op) :
    (exec (more ++ ops)).a.session.writer.closed = true ∧
      dataOn (exec (more ++ ops)).sent = dataOn (exec ops).sent := by
  induction more with
  | nil => exact ⟨hc, rfl⟩
  | cons op more ih =>
    obtain ⟨hw, hdata⟩ := muted_step (formed_exec (more ++ ops)) ih.1 op
    exact ⟨hw, hdata.trans ih.2⟩

/-- **Ordered close.** -/
theorem ordered_close (ops : List Op) :
    Sized (exec ops).sent ∧ Sized (exec ops).toA ∧
      ((exec ops).a.session.writer.closed = true →
        ∀ more, dataOn (exec (more ++ ops)).sent = dataOn (exec ops).sent) ∧
      (Orderly ops → (exec ops).Ordered) :=
  ⟨(formed_exec ops).sent, (formed_exec ops).toA, fun hc more => (muted_exec ops hc more).2,
    fun h => (sound_exec ops h).ordered⟩

/-- `a` writes three bytes and closes; its `Reset` is still on the link. -/
def writesAndCloses : List Op :=
  [.act .a .drain, .act .a .emit, .act .a .shut, .act .a .unhook, .act .a .close, .act .a .finish,
    .act .a .transmit, .act .a .turn, .act .a (.call [1, 2, 3])]

theorem ordered_close_in_flight :
    (exec writesAndCloses).sent = [.data [1, 2, 3], .reset] ∧ (exec writesAndCloses).a.session.closed = true ∧
      (exec writesAndCloses).Ordered :=
  ⟨by decide, by decide, (ordered_close writesAndCloses).2.2.2 (by decide)⟩

end System

end Astrald.Nodes.Link
