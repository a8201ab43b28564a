import Mathlib
import Astrald.Lib.Feed
import Astrald.Messaging.Query

/-!
# Paging a mailbox

Listings with a limit, one after another, while messages come in. Backwards, each page is asked for below
the oldest cursor of the one before; forwards, above the newest cursor that was answered.

* `listed_back`, `listed_forward`: the cursors of a page are a page of the feed of the rows selected;
* `paging_lossless`: the inbox and the outbox are paged backwards, and the inbox forwards, without a gap
  or a repeat;
* `archive_unpaged`: the archive refuses its second page.
-/

namespace Astrald.Messaging

open MessageQuery

variable {Who ID : Type} [DecidableEq Who]

def page (m : Mail Who ID) (owner : Who) (q : MessageQuery Who) : Except QueryErr (List (Entry Who ID)) :=
  q.query.map (m.listMessages owner)

def cursorsOf : Except QueryErr (List (Entry Who ID)) → List ℕ
  | .ok rows => rows.map Entry.seq
  | .error _ => []

section

variable (mail : ℕ → Mail Who ID) (owner : Who) (q : MessageQuery Who) (L : ℕ)

/-- The positions of the pages backwards: the caller's, and then the oldest cursor of the page before. -/
def befores : ℕ → ℕ
  | 0 => q.before
  | i + 1 =>
    (cursorsOf (page (mail i) owner { q with before := befores i, limit := L })).min?.getD (befores i)

/-- The pages backwards; `mail i` is what there is when page `i` is asked for. -/
def backPage (i : ℕ) : Except QueryErr (List (Entry Who ID)) :=
  page (mail i) owner { q with before := befores mail owner q L i, limit := L }

/-- The positions of the pages forwards: the caller's, and then the newest cursor answered. -/
def sinces : ℕ → ℕ
  | 0 => q.since
  | i + 1 => (cursorsOf (page (mail i) owner { q with since := sinces i, limit := L })).max?.getD (sinces i)

def forwardPage (i : ℕ) : Except QueryErr (List (Entry Who ID)) :=
  page (mail i) owner { q with since := sinces mail owner q L i, limit := L }

/-- The rows that a query selects, as a feed of their cursors. -/
def feed (hlater : ∀ i, Later owner q (mail i) (mail (i + 1))) : Feed where
  rows i := (mail i).cursors owner q
  increasing i := (mail i).cursors_increasing owner q
  positive i := (mail i).cursors_positive owner q
  grows i := (hlater i).cursors_grow

end

/-! ## One page -/

variable {q : MessageQuery Who}

omit [DecidableEq Who] in
theorem order_back (hlist : q.list ≠ listArchive) (hsince : q.since = 0) (hlimit : q.limit ≠ 0) :
    q.order = .seqDesc := by
  unfold order
  split_ifs with hout hcursor
  · rfl
  · rfl
  · exact absurd (Or.inr ⟨hlimit, hsince⟩) hcursor

omit [DecidableEq Who] in
theorem order_forward (hlist : q.list = listInbox) (hbefore : q.before = 0) (hsince : q.since ≠ 0) :
    q.order = .seq := by
  unfold order
  rw [hlist, if_neg (show listInbox ≠ listOutbox by decide), if_neg (show listInbox ≠ listArchive by decide),
    if_neg]
  rintro (h | h)
  · exact h hbefore
  · exact hsince h.2

theorem listed_back (m : Mail Who ID) (owner : Who) (hlist : q.list ≠ listArchive) (hsince : q.since = 0)
    (hlimit : q.limit ≠ 0) :
    (m.listMessages owner q).map Entry.seq =
    (Feed.below q.before (m.cursors owner q)).reverse.take q.limit := by
  have hrange : (m.cursors owner q).filter q.inRange = Feed.below q.before (m.cursors owner q) := by
    apply List.filter_congr
    intro n _
    unfold inRange
    rw [hsince]
    simp
  unfold Mail.listMessages
  rw [if_pos hlimit, order_back hlist hsince hlimit]
  show (((m.narrowed owner q).reverse).take q.limit).map Entry.seq = _
  rw [List.map_take, List.map_reverse, m.seq_narrowed, hrange]

theorem listed_forward (m : Mail Who ID) (owner : Who) (hlist : q.list = listInbox) (hbefore : q.before = 0)
    (hsince : q.since ≠ 0) (hlimit : q.limit ≠ 0) :
    (m.listMessages owner q).map Entry.seq = (Feed.above q.since (m.cursors owner q)).take q.limit := by
  have hrange : (m.cursors owner q).filter q.inRange = Feed.above q.since (m.cursors owner q) := by
    apply List.filter_congr
    intro n _
    unfold inRange
    rw [hbefore]
    simp [hsince]
  unfold Mail.listMessages
  rw [if_pos hlimit, order_forward hlist hbefore hsince]
  show ((m.narrowed owner q).take q.limit).map Entry.seq = _
  rw [List.map_take, m.seq_narrowed, hrange]

/-- The rows selected do not depend on the cursors and the limit, nor on the list being filled in. -/
theorem cursors_at (m : Mail Who ID) (owner : Who) (q : MessageQuery Who) (c b L : ℕ) :
    m.cursors owner ({ q with since := c, before := b, limit := L } : MessageQuery Who).named =
      m.cursors owner q := by
  apply m.cursors_congr
  intro r
  rw [selects_named]
  rfl

theorem page_back {q' : MessageQuery Who} (hlegal : q.query = .ok q') (hlist : q.list ≠ listArchive)
    (hsince : q.since = 0) {L : ℕ} (hL : 1 ≤ L ∧ L ≤ listLimitMax) (m : Mail Who ID) (owner : Who) {b : ℕ}
    (hb : b ≤ maxInt64) :
    ∃ rows, page m owner { q with before := b, limit := L } = .ok rows ∧
      rows.map Entry.seq = (Feed.below b (m.cursors owner q)).reverse.take L := by
  obtain ⟨hcursor, -, -, hlegal⟩ := query_ok_iff.mp hlegal
  refine ⟨m.listMessages owner (named { q with before := b, limit := L }), ?_, ?_⟩
  · have hquery : ({ q with before := b, limit := L } : MessageQuery Who).query = _ :=
      query_ok_iff.mpr ⟨hcursor, hb, hL.2, validate_before hlegal hlist hsince b L⟩
    rw [page, hquery]
    rfl
  · have hnamed : (named { q with before := b, limit := L }).list ≠ listArchive := by
      show (if q.list = "" then listInbox else q.list) ≠ listArchive
      split
      · decide
      · exact hlist
    rw [listed_back m owner hnamed hsince (Nat.one_le_iff_ne_zero.mp hL.1)]
    show (Feed.below b _).reverse.take L = _
    rw [show m.cursors owner (named { q with before := b, limit := L }) = m.cursors owner q from
      cursors_at m owner q q.since b L]

theorem page_forward {q' : MessageQuery Who} (hlegal : q.query = .ok q') (hsince : q.since ≠ 0) {L : ℕ}
    (hL : 1 ≤ L ∧ L ≤ listLimitMax) (m : Mail Who ID) (owner : Who) {c : ℕ} (hc : c ≠ 0) (hmax : c ≤ maxInt64) :
    ∃ rows, page m owner { q with since := c, limit := L } = .ok rows ∧
      rows.map Entry.seq = (Feed.above c (m.cursors owner q)).take L := by
  obtain ⟨-, hcursor, -, hlegal⟩ := query_ok_iff.mp hlegal
  obtain ⟨hbefore, hlist⟩ := since_legal hlegal hsince
  refine ⟨m.listMessages owner (named { q with since := c, limit := L }), ?_, ?_⟩
  · have hquery : ({ q with since := c, limit := L } : MessageQuery Who).query = _ :=
      query_ok_iff.mpr ⟨hmax, hcursor, hL.2, validate_since hlegal hsince c L⟩
    rw [page, hquery]
    rfl
  · have hnamed : (named { q with since := c, limit := L }).list = listInbox := by
      show (if q.list = "" then listInbox else q.list) = listInbox
      rcases hlist with hlist | hlist
      · rw [if_pos hlist]
      · rw [hlist]
        decide
    rw [listed_forward m owner hnamed hbefore hc (Nat.one_le_iff_ne_zero.mp hL.1)]
    show (Feed.above c _).take L = _
    rw [show m.cursors owner (named { q with since := c, limit := L }) = m.cursors owner q from
      cursors_at m owner q c q.before L]

/-! ## All pages -/

section

variable {mail : ℕ → Mail Who ID} {owner : Who} {q q' : MessageQuery Who} {L : ℕ}

omit [DecidableEq Who] in
/-- Pages `a` at the positions `p` are the pages `g` at the positions `c`, when the first positions are equal
and both go on in the same way. -/
theorem pages_feed {a : ℕ → Except QueryErr (List (Entry Who ID))} {g : ℕ → List ℕ} {p c : ℕ → ℕ}
    {f : List ℕ → ℕ → ℕ} (hzero : p 0 = c 0) (ha : ∀ i, p (i + 1) = f (cursorsOf (a i)) (p i))
    (hg : ∀ i, c (i + 1) = f (g i) (c i))
    (hpage : ∀ i, p i = c i → ∃ rows, a i = .ok rows ∧ rows.map Entry.seq = g i) (i : ℕ) :
    (∃ rows, a i = .ok rows) ∧ cursorsOf (a i) = g i := by
  have hcursors : ∀ i, p i = c i → cursorsOf (a i) = g i := by
    intro i hi
    obtain ⟨rows, hok, hseq⟩ := hpage i hi
    rw [hok]
    exact hseq
  have hpos : p i = c i := by
    induction i with
    | zero => exact hzero
    | succ i ih => rw [ha, hg, hcursors i ih, ih]
  obtain ⟨rows, hok, -⟩ := hpage i hpos
  exact ⟨⟨rows, hok⟩, hcursors i hpos⟩

variable (hlater : ∀ i, Later owner q (mail i) (mail (i + 1))) (hlegal : q.query = .ok q')
  (hseqs : ∀ i, ∀ e ∈ (mail i).entries, e.seq ≤ maxInt64)
include hlater hlegal hseqs

omit hlegal in
theorem feed_le : ∀ i, ∀ n ∈ (feed mail owner q hlater).rows i, n ≤ maxInt64 := by
  intro i n hn
  obtain ⟨e, he, rfl⟩ := List.mem_map.mp hn
  exact hseqs i e (List.mem_of_mem_filter he)

theorem backPage_feed (hlist : q.list ≠ listArchive) (hsince : q.since = 0) (hL : 1 ≤ L ∧ L ≤ listLimitMax) (i : ℕ) :
    (∃ rows, backPage mail owner q L i = .ok rows) ∧
      cursorsOf (backPage mail owner q L i) = (feed mail owner q hlater).backPages L q.before i := by
  refine pages_feed (p := befores mail owner q L) (c := (feed mail owner q hlater).befores L q.before)
    (f := fun cs b => cs.min?.getD b) rfl (fun _ => rfl) (fun _ => rfl) ?_ i
  intro i hi
  have hle : befores mail owner q L i ≤ maxInt64 := by
    rw [hi]
    exact Feed.befores_le (feed_le hlater hseqs) (query_ok_iff.mp hlegal).2.1 i
  obtain ⟨rows, hok, hseq⟩ := page_back hlegal hlist hsince hL (mail i) owner hle
  refine ⟨rows, hok, ?_⟩
  rw [hseq, hi]
  rfl

theorem forwardPage_feed (hsince : 1 ≤ q.since) (hL : 1 ≤ L ∧ L ≤ listLimitMax) (i : ℕ) :
    (∃ rows, forwardPage mail owner q L i = .ok rows) ∧
      cursorsOf (forwardPage mail owner q L i) = (feed mail owner q hlater).forwardPages L q.since i := by
  have hsince : q.since ≠ 0 := Nat.one_le_iff_ne_zero.mp hsince
  refine pages_feed (p := sinces mail owner q L) (c := (feed mail owner q hlater).sinces L q.since)
    (f := fun cs c => cs.max?.getD c) rfl (fun _ => rfl) (fun _ => rfl) ?_ i
  intro i hi
  -- no position is 0, and none is too large
  have hpos : sinces mail owner q L i ≠ 0 ∧ sinces mail owner q L i ≤ maxInt64 := by
    rw [hi]
    rcases Feed.sinces_cases (F := feed mail owner q hlater) (L := L) q.since i with heq | ⟨j, -, hrow, hlt⟩
    · rw [heq]
      exact ⟨hsince, (query_ok_iff.mp hlegal).1⟩
    · exact ⟨by omega, feed_le hlater hseqs j _ hrow⟩
  obtain ⟨rows, hok, hseq⟩ := page_forward hlegal hsince hL (mail i) owner hpos.1 hpos.2
  refine ⟨rows, hok, ?_⟩
  rw [hseq, hi]
  rfl

end

/-- **Paging.** A legal query of the inbox or the outbox that has no `since` is paged backwards: the pages
up to the first short one have, newest first and each once, the rows that matched when the first was asked
for. One with a `since` is paged forwards: the pages have, in order and each once, the rows that match, up to
the newest at a short page, and they reach every row. A legal query of the archive has no cursor. A page has
room for one to `listLimitMax` rows, and `seq` is an `int64`. -/
theorem paging_lossless (owner : Who) (q : MessageQuery Who) (L : ℕ) (mail : ℕ → Mail Who ID)
    (hL : 1 ≤ L ∧ L ≤ listLimitMax) (hlegal : ∃ q', q.query = .ok q')
    (hseqs : ∀ i, ∀ e ∈ (mail i).entries, e.seq ≤ maxInt64)
    (hlater : ∀ i, Later owner q (mail i) (mail (i + 1))) :
    (q.list ≠ listArchive → q.since = 0 → ∃ n,
      (∀ i, ∃ rows, backPage mail owner q L i = .ok rows) ∧
      (∀ i < n, (cursorsOf (backPage mail owner q L i)).length = L) ∧
      (cursorsOf (backPage mail owner q L n)).length < L ∧
      Feed.collected (fun i => cursorsOf (backPage mail owner q L i)) (n + 1) =
        (Feed.below q.before ((mail 0).cursors owner q)).reverse) ∧
    (1 ≤ q.since →
      (∀ i, ∃ rows, forwardPage mail owner q L i = .ok rows) ∧
      (∀ n, Feed.collected (fun i => cursorsOf (forwardPage mail owner q L i)) (n + 1) <+:
        Feed.above q.since ((mail n).cursors owner q)) ∧
      (∀ n, (cursorsOf (forwardPage mail owner q L n)).length < L →
        Feed.collected (fun i => cursorsOf (forwardPage mail owner q L i)) (n + 1) =
          Feed.above q.since ((mail n).cursors owner q)) ∧
      ∀ k, ∀ c ∈ Feed.above q.since ((mail k).cursors owner q),
        ∃ n, c ∈ Feed.collected (fun i => cursorsOf (forwardPage mail owner q L i)) n) ∧
    (q.list = listArchive → q.before = 0 ∧ q.since = 0) := by
  obtain ⟨q', hlegal⟩ := hlegal
  refine ⟨?_, ?_, archive_legal (query_ok_iff.mp hlegal).2.2.2⟩
  · intro hlist hsince
    have hpages := backPage_feed hlater hlegal hseqs hlist hsince hL
    have hfeed : (fun i => cursorsOf (backPage mail owner q L i)) =
        (feed mail owner q hlater).backPages L q.before :=
      funext fun i => (hpages i).2
    obtain ⟨n, hfull, hshort, hall⟩ := Feed.back_complete (F := feed mail owner q hlater) hL.1 q.before
    refine ⟨n, fun i => (hpages i).1, ?_, ?_, ?_⟩
    · intro i hi
      rw [(hpages i).2]
      exact hfull i hi
    · rw [(hpages n).2]
      exact hshort
    · rw [hfeed]
      exact hall
  · intro hsince
    have hpages := forwardPage_feed hlater hlegal hseqs hsince hL
    have hfeed : (fun i => cursorsOf (forwardPage mail owner q L i)) =
        (feed mail owner q hlater).forwardPages L q.since :=
      funext fun i => (hpages i).2
    rw [hfeed]
    refine ⟨fun i => (hpages i).1, ?_, ?_, ?_⟩
    · intro n
      exact Feed.forward_prefix q.since n
    · intro n hshort
      rw [(hpages n).2] at hshort
      exact Feed.forward_short hshort
    · intro k c hc
      exact Feed.forward_reaches (F := feed mail owner q hlater) hL.1 hc

/-! ## A mailbox -/

/-- Rows that participant 1 sent to participant 0, with the given cursors, archived or not. -/
def arrivals (archived : Bool) (seqs : List ℕ) : List (Entry ℕ ℕ) :=
  seqs.map fun n => ⟨n, { newRow .inbox n 1 0 "" 0 n with
    stamps := fun c => if archived && c = .archived then some 0 else none }⟩

def inboxOf (archived : Bool) : Mail ℕ ℕ :=
  ⟨arrivals archived [1, 2, 5], by decide +revert, by decide +revert, by decide +revert⟩

def inboxThen : Mail ℕ ℕ := ⟨arrivals false [1, 2, 5, 6], by decide, by decide, by decide⟩

def whole (list : String) : MessageQuery ℕ := ⟨list, none, none, false, false, 0, 0, 0⟩

def growing (i : ℕ) : Mail ℕ ℕ := if i = 0 then inboxOf false else inboxThen

theorem later_growing (q : MessageQuery ℕ) (i : ℕ) : Later 0 q (growing i) (growing (i + 1)) := by
  rw [growing, growing, if_neg (Nat.succ_ne_zero i)]
  split
  · exact Later.of_added (arrivals false [6]) rfl
  · exact Later.of_added [] (List.append_nil _).symm

theorem growing_le (i : ℕ) : ∀ e ∈ (growing i).entries, e.seq ≤ maxInt64 := by
  rw [growing]
  split <;> decide

/-- Backwards the message that came in is not there, forwards it is. -/
theorem paging_growing :
    (∃ n, (cursorsOf (backPage growing 0 (whole "") 2 n)).length < 2 ∧
      Feed.collected (fun i => cursorsOf (backPage growing 0 (whole "") 2 i)) (n + 1) = [5, 2, 1]) ∧
    ∃ n, 6 ∈ Feed.collected
      (fun i => cursorsOf (forwardPage growing 0 { whole "" with since := 1 } 2 i)) n := by
  refine ⟨?_, ?_⟩
  · obtain ⟨n, -, -, hshort, hall⟩ :=
      (paging_lossless 0 (whole "") 2 growing (by decide) ⟨_, rfl⟩ growing_le (later_growing _)).1 (by decide) rfl
    exact ⟨n, hshort, hall⟩
  · obtain ⟨-, -, -, hreach⟩ := (paging_lossless 0 { whole "" with since := 1 } 2 growing (by decide) ⟨_, rfl⟩
      growing_le (later_growing _)).2.1 (by decide)
    exact hreach 1 6 (by decide)

/-- An archive of three rows answers a first page that is full, and refuses the second. -/
theorem archive_unpaged :
    cursorsOf (backPage (fun _ => inboxOf true) 0 (whole listArchive) 1 0) = [5] ∧
      (inboxOf true).cursors 0 (whole listArchive) = [1, 2, 5] ∧
      backPage (fun _ => inboxOf true) 0 (whole listArchive) 1 1 =
        .error (.badNarrowing "before pages by cursor; the archive is read by time") := by
  refine ⟨by decide, by decide, rfl⟩

end Astrald.Messaging
