import Astrald.Nodes.Handshake

/-!
# Credit and data in one direction

`Flow` is the account of one direction of the session: the sender's credit, the `Data` frames on
their way, what the receiving buffer holds and the `Read` frames on their way back. Outside a
migration they add up to no more than the buffer. From `SwapBuf` until `Complete` grants the new
credit the sender has none and what is on its way is on the old link; once its `Migrate` frame has
been handled nothing is on its way and the buffer that receives is the new, empty one.

The lemmas say how each thing that can happen keeps the account: a frame handled, a call made, a
turn of `Read` or `Write`.
-/

namespace Astrald.Nodes

open List Function

/-- No `Data` follows a `Migrate` frame, and no second one. -/
def Closing : List Frame → Prop
  | [] => True
  | .migrate :: w => dataOn w = [] ∧ .migrate ∉ w
  | _ :: w => Closing w

variable {w : List Frame}

theorem closing_of_notMem (h : .migrate ∉ w) : Closing w := by
  induction w with
  | nil => trivial
  | cons f w ih =>
    rw [mem_cons, not_or] at h
    cases f with
    | migrate => exact absurd rfl h.1
    | data p | read n | reset => exact ih h.2

theorem Closing.tail {f : Frame} (h : Closing (f :: w)) : Closing w := by
  cases f with
  | migrate => exact closing_of_notMem h.2
  | data p | read n | reset => exact h

/-- A frame may follow unless it is `Data` or `Migrate`. -/
theorem Closing.snoc {f : Frame} (h : Closing w) (hf : f.payload = []) (hm : f ≠ .migrate) :
    Closing (w ++ [f]) := by
  induction w with
  | nil => exact closing_of_notMem (by simpa using hm.symm)
  | cons g w ih =>
    cases g with
    | migrate =>
      change dataOn (w ++ [f]) = [] ∧ .migrate ∉ w ++ [f]
      rw [dataOn_append, h.1, dataOn_cons, hf, mem_append, not_or]
      exact ⟨rfl, h.2, by simpa using hm.symm⟩
    | data p | read n | reset => exact ih h

theorem closing_snoc (h : .migrate ∉ w) (f : Frame) : Closing (w ++ [f]) := by
  induction w with
  | nil =>
    cases f with
    | migrate => exact ⟨rfl, by simp⟩
    | data p | read n | reset => trivial
  | cons g w ih =>
    rw [mem_cons, not_or] at h
    cases g with
    | migrate => exact absurd rfl h.1
    | data p | read n | reset => exact ih h.2

/-- The account of the direction from a sender at point `p` with writer `w` to a receiver with reader
`r`. `out` is what the sender has sent and `back` what the receiver has; `seen` says that the
receiver is watching an old buffer that is closed. -/
structure Flow (p : Point) (w : Writer) (r : Reader) (seen : Prop) (out back : LinkID → List Frame) :
    Prop where
  live : ¬p.window → w.buf.wsize + w.sending.length + (dataOn (out w.buf.link)).length +
    r.receiving.used + readsOn (back w.buf.link) ≤ defaultBufferSize
  settled : ¬p.window → dataOn (out w.buf.link.other) = []
  fresh : p.window → dataOn (out w.buf.link) = []
  drain : p.window → (dataOn (out w.buf.link.other)).length + r.receiving.used ≤ defaultBufferSize
  handed : p.window → p.sent → .migrate ∉ out w.buf.link.other →
    dataOn (out w.buf.link.other) = [] ∧ r.receiving.used = 0
  migrate : ∀ l, .migrate ∈ out l → l = w.buf.link.other ∧ p.sent
  closing : ∀ l, Closing (out l)
  seen : seen → p.sent ∧ .migrate ∉ out w.buf.link.other

namespace Flow

variable {p : Point} {w : Writer} {r : Reader} {seen : Prop} {out back : LinkID → List Frame}

variable (h : Flow p w r seen out back)
include h

/-- The bytes on their way fit the receiving buffer together with what it holds. -/
theorem fits :
    (dataOn (out .first)).length + (dataOn (out .second)).length + r.receiving.used ≤ defaultBufferSize := by
  have hsum : (dataOn (out .first)).length + (dataOn (out .second)).length =
      (dataOn (out w.buf.link)).length + (dataOn (out w.buf.link.other)).length := by
    cases w.buf.link with
    | first => rfl
    | second => exact Nat.add_comm _ _
  by_cases hw : p.window
  · have hfresh := h.fresh hw
    have hdrain := h.drain hw
    rw [hsum, hfresh, length_nil]
    omega
  · have hlive := h.live hw
    have hsettled := h.settled hw
    rw [hsum, hsettled, length_nil]
    omega

theorem no_migrate (hp : ¬p.sent) (l : LinkID) : .migrate ∉ out l :=
  fun hm => hp (h.migrate l hm).2

theorem not_seen (hp : ¬p.sent) : ¬seen := fun hs => hp (h.seen hs).1

/-! ## The receiver and the frames on their way back -/

/-- The receiving buffer holds less, or the frames on their way back grant more for it. -/
theorem relax {r' : Reader} {seen' : Prop} {back' : LinkID → List Frame}
    (hused : r'.receiving.used ≤ r.receiving.used)
    (hgrant : ∀ l, r'.receiving.used + readsOn (back' l) ≤ r.receiving.used + readsOn (back l))
    (hseen : seen' → seen) : Flow p w r' seen' out back' := { h with
  live hw := by
    have := h.live hw
    have := hgrant w.buf.link
    omega
  drain hw := by
    have := h.drain hw
    omega
  handed hw hs hm := by
    obtain ⟨hd, hu⟩ := h.handed hw hs hm
    exact ⟨hd, by omega⟩
  seen hs := h.seen (hseen hs) }

variable {w' : Writer} {rest : List Frame}

/-- A frame other than `Migrate` is handled; its bytes are in the receiving buffer, or dropped. -/
theorem pop {l : LinkID} {f : Frame} (hl : out l = f :: rest) (hf : f ≠ .migrate)
    {r' : Reader} {seen' : Prop} (hused : r'.receiving.used ≤ r.receiving.used + f.payload.length)
    (hseen : seen' → seen) : Flow p w r' seen' (update out l rest) back := by
  have hdata : ∀ k, (dataOn (update out l rest k)).length + (if k = l then f.payload.length else 0) =
      (dataOn (out k)).length := by
    intro k
    by_cases hk : k = l
    · rw [hk, update_self, if_pos rfl, hl, dataOn_cons, length_append]
      omega
    · rw [update_of_ne hk, if_neg hk]
      rfl
  have hnil : ∀ k, dataOn (out k) = [] →
      dataOn (update out l rest k) = [] ∧ (k = l → f.payload.length = 0) := by
    intro k hk
    have hlen := hdata k
    rw [hk, length_nil] at hlen
    refine ⟨length_eq_zero_iff.mp (by omega), fun hkl => ?_⟩
    rw [if_pos hkl] at hlen
    omega
  have hmem : ∀ k, .migrate ∈ update out l rest k ↔ .migrate ∈ out k := by
    intro k
    by_cases hk : k = l
    · rw [hk, update_self, hl, mem_cons, or_iff_right hf.symm]
    · rw [update_of_ne hk]
  have hside := w.buf.link.eq_or_other l
  have hne := w.buf.link.ne_other
  refine ⟨?_, ?_, ?_, ?_, ?_, ?_, ?_, ?_⟩
  · intro hw
    have hlive := h.live hw
    have hlen := hdata w.buf.link
    rcases hside with hl' | hl'
    · rw [if_pos hl'.symm] at hlen
      omega
    · have hzero := (hnil _ (h.settled hw)).2 hl'.symm
      omega
  · exact fun hw => (hnil _ (h.settled hw)).1
  · exact fun hw => (hnil _ (h.fresh hw)).1
  · intro hw
    have hdrain := h.drain hw
    have hlen := hdata w.buf.link.other
    rcases hside with hl' | hl'
    · have hzero := (hnil _ (h.fresh hw)).2 hl'.symm
      omega
    · rw [if_pos hl'.symm] at hlen
      omega
  · intro hw hs hm
    rw [hmem] at hm
    obtain ⟨hd, hu⟩ := h.handed hw hs hm
    refine ⟨(hnil _ hd).1, ?_⟩
    have hzero : f.payload.length = 0 := by
      rcases hside with hl' | hl'
      · exact (hnil _ (h.fresh hw)).2 hl'.symm
      · exact (hnil _ hd).2 hl'.symm
    omega
  · intro k hk
    rw [hmem] at hk
    exact h.migrate k hk
  · intro k
    by_cases hk : k = l
    · rw [hk, update_self]
      have hcl := h.closing l
      rw [hl] at hcl
      exact hcl.tail
    · rw [update_of_ne hk]
      exact h.closing k
  · intro hs
    rw [hmem]
    exact h.seen (hseen hs)

/-- **Handing over.** The `Migrate` frame is handled: nothing follows it, and the buffer that
receives from now on is empty. -/
theorem pop_migrate {l : LinkID} (hl : out l = .migrate :: rest) (hw : p.window)
    {r' : Reader} {seen' : Prop} (hused : r'.receiving.used = 0) :
    Flow p w r' seen' (update out l rest) back := by
  obtain ⟨hlink, hsent⟩ := h.migrate l (hl ▸ mem_cons_self)
  have hcl := h.closing l
  rw [hl] at hcl
  obtain ⟨hdata, hlast⟩ : dataOn rest = [] ∧ Frame.migrate ∉ rest := hcl
  have hself : update out l rest w.buf.link.other = rest := by rw [hlink, update_self]
  have hother : update out l rest w.buf.link = out w.buf.link :=
    update_of_ne (hlink ▸ w.buf.link.ne_other) ..
  refine ⟨fun hn => absurd hw hn, fun hn => absurd hw hn, ?_, ?_, ?_, ?_, ?_, ?_⟩
  · intro _
    rw [hother]
    exact h.fresh hw
  · intro _
    rw [hself, hdata, hused]
    exact Nat.zero_le _
  · intro _ _ _
    rw [hself]
    exact ⟨hdata, hused⟩
  · intro k hk
    by_cases hkl : k = l
    · rw [hkl, update_self] at hk
      exact absurd hk hlast
    · rw [update_of_ne hkl] at hk
      exact h.migrate k hk
  · intro k
    by_cases hkl : k = l
    · rw [hkl, update_self]
      exact closing_of_notMem hlast
    · rw [update_of_ne hkl]
      exact h.closing k
  · intro _
    rw [hself]
    exact ⟨hsent, hlast⟩

/-! ## The sender -/

/-- The sender is at another point, with nothing sent or granted. -/
theorem at_point {p' : Point} (hw : p'.window ↔ p.window)
    (hs : p'.sent ↔ p.sent) : Flow p' w r seen out back where
  live h' := h.live (hw.not.mp h')
  settled h' := h.settled (hw.not.mp h')
  fresh h' := h.fresh (hw.mp h')
  drain h' := h.drain (hw.mp h')
  handed h' hs' := h.handed (hw.mp h') (hs.mp hs')
  migrate l hm := (h.migrate l hm).imp_right hs.mpr
  closing := h.closing
  seen h' := (h.seen h').imp_left hs.mpr

/-- The sender is through with the migration. -/
theorem at_rest (hw : ¬p.window) (hm : ∀ l, .migrate ∉ out l) (hseen : ¬seen) :
    Flow .idle w r seen out back where
  live _ := h.live hw
  settled _ := h.settled hw
  fresh h' := by simp [Point.window, Point.rank] at h'
  drain h' := by simp [Point.window, Point.rank] at h'
  handed h' := by simp [Point.window, Point.rank] at h'
  migrate l h' := absurd h' (hm l)
  closing := h.closing
  seen h' := absurd h' hseen

/-- The writer changes in what the account does not mention. -/
theorem at_writer (hbuf : w'.buf.wsize = w.buf.wsize)
    (hlink : w'.buf.link = w.buf.link) (hsending : w'.sending = w.sending) : Flow p w' r seen out back := by
  refine ⟨?_, ?_, ?_, ?_, ?_, ?_, h.closing, ?_⟩
  · rw [hbuf, hlink, hsending]
    exact h.live
  · rw [hlink]
    exact h.settled
  · rw [hlink]
    exact h.fresh
  · rw [hlink]
    exact h.drain
  · rw [hlink]
    exact h.handed
  · rw [hlink]
    exact h.migrate
  · rw [hlink]
    exact h.seen

/-- The sender sends a frame that is neither `Data` nor `Migrate`. -/
theorem send (k : LinkID) {f : Frame} (hf : f.payload = []) (hm : f ≠ .migrate) :
    Flow p w r seen (fun l => out l ++ sentOn (some (k, f)) l) back := by
  have hdata : ∀ l, dataOn (out l ++ sentOn (some (k, f)) l) = dataOn (out l) := by
    intro l
    unfold sentOn
    by_cases hl : k = l <;> simp [hl, hf]
  have hmem : ∀ l, .migrate ∈ out l ++ sentOn (some (k, f)) l ↔ .migrate ∈ out l := by
    intro l
    unfold sentOn
    by_cases hl : k = l <;> simp [hl, hm.symm]
  refine ⟨?_, ?_, ?_, ?_, ?_, ?_, ?_, ?_⟩
  · simp only [hdata]
    exact h.live
  · simp only [hdata]
    exact h.settled
  · simp only [hdata]
    exact h.fresh
  · simp only [hdata]
    exact h.drain
  · simp only [hdata, hmem]
    exact h.handed
  · intro l hl
    exact h.migrate l ((hmem l).mp hl)
  · intro l
    unfold sentOn
    by_cases hl : k = l
    · simp only [hl, if_true]
      exact (h.closing l).snoc hf hm
    · simp only [hl, if_false, append_nil]
      exact h.closing l
  · simp only [hmem]
    exact h.seen

theorem write (hw : ¬p.window) (hlink : w'.buf.link = w.buf.link)
    (hsum : w'.buf.wsize + w'.sending.length = w.buf.wsize + w.sending.length) : Flow p w' r seen out back := by
  refine ⟨?_, ?_, fun h' => absurd h' hw, fun h' => absurd h' hw, fun h' => absurd h' hw, ?_, h.closing, ?_⟩
  · intro _
    have := h.live hw
    rw [hlink]
    omega
  · rw [hlink]
    exact h.settled
  · rw [hlink]
    exact h.migrate
  · rw [hlink]
    exact h.seen

theorem transmit {chunk : List Byte} (hw : ¬p.window) (hbuf : w'.buf = w.buf)
    (hsending : w.sending = chunk ++ w'.sending) :
    Flow p w' r seen (fun l => out l ++ sentOn (some (w.buf.link, .data chunk)) l) back := by
  have hself : ∀ l, l ≠ w.buf.link → out l ++ sentOn (some (w.buf.link, .data chunk)) l = out l := by
    intro l hl
    rw [sentOn, if_neg hl.symm, append_nil]
  have hown : out w.buf.link ++ sentOn (some (w.buf.link, .data chunk)) w.buf.link =
      out w.buf.link ++ [.data chunk] := by
    rw [sentOn, if_pos rfl]
  have hmem : ∀ l, .migrate ∈ out l ++ sentOn (some (w.buf.link, .data chunk)) l → .migrate ∈ out l := by
    intro l hl
    by_cases hk : l = w.buf.link
    · rw [hk, hown] at hl
      rw [hk]
      simpa using hl
    · rwa [hself l hk] at hl
  refine ⟨?_, ?_, fun h' => absurd h' hw, fun h' => absurd h' hw, fun h' => absurd h' hw, ?_, ?_, ?_⟩
  · intro _
    have hlive := h.live hw
    rw [hsending, length_append] at hlive
    rw [hbuf, hown, dataOn_append, length_append]
    simp only [dataOn_cons, dataOn_nil, Frame.payload, append_nil]
    omega
  · intro _
    rw [hbuf, hself _ w.buf.link.other_ne]
    exact h.settled hw
  · intro l hl
    rw [hbuf]
    exact h.migrate l (hmem l hl)
  · intro l
    by_cases hk : l = w.buf.link
    · rw [hk, hown]
      -- a `Migrate` frame is on the other link, so none precedes the chunk
      exact closing_snoc (fun hm => w.buf.link.ne_other (h.migrate _ hm).1) _
    · rw [hself l hk]
      exact h.closing l
  · intro hs
    obtain ⟨hsent, hm⟩ := h.seen hs
    rw [hbuf]
    exact ⟨hsent, fun hl => hm (hmem _ hl)⟩

/-- A `Read` frame handled outside the window turns into credit. -/
theorem credit (hw : ¬p.window) {n : ℕ} (hb : back w.buf.link = .read n :: rest) :
    Flow p (w.grow n) r seen out (update back w.buf.link rest) := by
  refine { h with live := ?_ }
  intro _
  have hlive := h.live hw
  rw [hb, readsOn_cons] at hlive
  change w.buf.wsize + n + w.sending.length + _ + _ + readsOn (update back w.buf.link rest w.buf.link) ≤ _
  rw [update_self]
  simp only [Frame.granted] at hlive
  change w.buf.wsize + n + w.sending.length + (dataOn (out w.buf.link)).length + _ + _ ≤ _
  omega

/-- `SwapBuf`: no credit, and what is on its way is on the link left behind. -/
theorem swap (hw : ¬p.window) (hs : ¬p.sent) {p' : Point} (hs' : ¬p'.sent)
    (hw' : p'.window) (hlink : w'.buf.link = w.buf.link.other) : Flow p' w' r seen out back := by
  have hback : w'.buf.link.other = w.buf.link := by rw [hlink, LinkID.other_other]
  refine ⟨fun hn => absurd hw' hn, fun hn => absurd hw' hn, ?_, ?_, fun _ h' => absurd h' hs', ?_,
    h.closing, ?_⟩
  · intro _
    rw [hlink]
    exact h.settled hw
  · intro _
    have := h.live hw
    rw [hback]
    omega
  · exact fun l hm => absurd hm (h.no_migrate hs l)
  · exact fun h' => absurd h' (h.not_seen hs)

theorem sendMigrate (hw : p.window) (hs : ¬p.sent) {p' : Point} (hw' : p'.window) (hs' : p'.sent) :
    Flow p' w r seen (fun l => out l ++ sentOn (some (w.buf.link.other, .migrate)) l) back := by
  have hself : out w.buf.link.other ++ sentOn (some (w.buf.link.other, .migrate)) w.buf.link.other =
      out w.buf.link.other ++ [.migrate] := by
    rw [sentOn, if_pos rfl]
  have hne : ∀ l, l ≠ w.buf.link.other → out l ++ sentOn (some (w.buf.link.other, .migrate)) l = out l := by
    intro l hl
    rw [sentOn, if_neg hl.symm, append_nil]
  refine ⟨fun hn => absurd hw' hn, fun hn => absurd hw' hn, ?_, ?_, ?_, ?_, ?_, ?_⟩
  · intro _
    rw [hne _ w.buf.link.ne_other]
    exact h.fresh hw
  · intro _
    rw [hself]
    simpa [Frame.payload] using h.drain hw
  · intro _ _ hm
    rw [hself] at hm
    simp at hm
  · intro l hl
    refine ⟨?_, hs'⟩
    by_contra hk
    rw [hne l hk] at hl
    exact h.no_migrate hs l hl
  · intro l
    by_cases hk : l = w.buf.link.other
    · rw [hk, hself]
      exact closing_snoc (h.no_migrate hs _) _
    · rw [hne l hk]
      exact h.closing l
  · exact fun h' => absurd h' (h.not_seen hs)

/-- **The new credit.** `Complete` grants the peer's whole buffer when nothing is on its way either
way and the buffer is empty. -/
theorem complete (hw : p.window) (hs : p.sent) (hm : ∀ l, .migrate ∉ out l)
    (hzero : w.buf.wsize = 0) (hidle : w.sending = []) (hback : readsOn (back w.buf.link) = 0) {p' : Point}
    (hw' : ¬p'.window) (hs' : p'.sent) : Flow p' (w.grow defaultBufferSize) r seen out back := by
  obtain ⟨hdata, hused⟩ := h.handed hw hs (hm _)
  have hfresh := h.fresh hw
  refine ⟨?_, fun _ => hdata, fun h' => absurd h' hw', fun h' => absurd h' hw', fun h' => absurd h' hw', ?_,
    h.closing, ?_⟩
  · intro _
    change w.buf.wsize + defaultBufferSize + w.sending.length + (dataOn (out w.buf.link)).length + _ +
      readsOn (back w.buf.link) ≤ _
    rw [hzero, hidle, hfresh, hused, hback]
    simp
  · exact fun l hl => absurd hl (hm l)
  · exact fun h' => ⟨hs', hm _⟩

end Flow

end Astrald.Nodes
