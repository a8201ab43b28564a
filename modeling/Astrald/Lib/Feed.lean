import Mathlib

/-!
# Paging through a feed

A feed is a list of increasing positive numbers that grows at its end. A reader takes pages of it by a
cursor, while it grows: backwards, below the smallest number of the page before, or forwards, above the
largest number taken.

* `back_complete`: going backwards ends with a short page, and the pages together are what there was
  below the first cursor when the first page was taken;
* `forward_prefix`, `forward_short`, `forward_reaches`: going forwards takes what is above the first
  cursor in order, all of it at a short page, and reaches everything.
-/

structure Feed where
  rows : ℕ → List ℕ
  increasing : ∀ i, (rows i).Pairwise (· < ·)
  positive : ∀ i, ∀ n ∈ rows i, 0 < n
  grows : ∀ i, rows i <+: rows (i + 1)

namespace Feed

open List

/-- What is below a cursor; 0 is no cursor. -/
def below (b : ℕ) (l : List ℕ) : List ℕ := l.filter fun n => b = 0 ∨ n < b

theorem mem_below {b n : ℕ} {l : List ℕ} : n ∈ below b l ↔ n ∈ l ∧ (b = 0 ∨ n < b) := by
  rw [below, mem_filter, decide_eq_true_eq]

def above (c : ℕ) (l : List ℕ) : List ℕ := l.filter fun n => c < n

theorem mem_above {c n : ℕ} {l : List ℕ} : n ∈ above c l ↔ n ∈ l ∧ c < n := by
  rw [above, mem_filter, decide_eq_true_eq]

def collected (page : ℕ → List ℕ) (n : ℕ) : List ℕ := (List.range n).flatMap page

theorem collected_succ (page : ℕ → List ℕ) (n : ℕ) : collected page (n + 1) = collected page n ++ page n := by
  rw [collected, range_succ, flatMap_append, flatMap_singleton, collected]

/-! ## Numbers in order -/

/-- What is above the largest number taken from the front of an increasing list. -/
theorem above_max {l p rest : List ℕ} (hl : l.Pairwise (· < ·)) (hsplit : l = p ++ rest) {m : ℕ}
    (hm : p.max? = some m) : above m l = rest := by
  obtain ⟨hmem, hmax⟩ := List.max?_eq_some_iff.mp hm
  rw [hsplit, pairwise_append] at hl
  have hp : p.filter (fun n => m < n) = [] := by
    apply filter_eq_nil_iff.mpr
    intro n hn
    simpa using hmax n hn
  have hrest : rest.filter (fun n => m < n) = rest := by
    apply filter_eq_self.mpr
    intro n hn
    exact decide_eq_true (hl.2.2 m hmem n hn)
  rw [above, hsplit, filter_append, hp, hrest, nil_append]

/-- What is below the smallest number taken from the end of an increasing list. -/
theorem below_min {l p rest : List ℕ} (hl : l.Pairwise (· < ·)) (hpos : ∀ n ∈ l, 0 < n)
    (hsplit : l.reverse = p ++ rest) {m : ℕ} (hm : p.min? = some m) : (below m l).reverse = rest := by
  obtain ⟨hmem, hmin⟩ := List.min?_eq_some_iff.mp hm
  have hdesc : (p ++ rest).Pairwise (fun a b => b < a) := by
    rw [← hsplit, pairwise_reverse]
    exact hl
  rw [pairwise_append] at hdesc
  have hm0 : m ≠ 0 := by
    have hml : m ∈ l := mem_reverse.mp (hsplit ▸ mem_append_left rest hmem)
    exact Nat.ne_of_gt (hpos m hml)
  have hp : p.filter (fun n => m = 0 ∨ n < m) = [] := by
    apply filter_eq_nil_iff.mpr
    intro n hn
    have := hmin n hn
    simpa [hm0] using this
  have hrest : rest.filter (fun n => m = 0 ∨ n < m) = rest := by
    apply filter_eq_self.mpr
    intro n hn
    exact decide_eq_true (.inr (hdesc.2.2 m hmem n hn))
  rw [below, ← filter_reverse, hsplit, filter_append, hp, hrest, nil_append]

theorem below_below {b m : ℕ} (hm : 0 < m) (hmb : b = 0 ∨ m < b) (l : List ℕ) :
    below m (below b l) = below m l := by
  rw [below, below, filter_filter, below]
  apply filter_congr
  intro n _
  rw [← Bool.decide_and, decide_eq_decide]
  omega

theorem above_above {c m : ℕ} (h : c ≤ m) (l : List ℕ) : above m (above c l) = above m l := by
  rw [above, above, filter_filter, above]
  apply filter_congr
  intro n _
  rw [← Bool.decide_and, decide_eq_decide]
  omega

/-- What is added to a feed is above what was there. -/
theorem grown (F : Feed) (i : ℕ) :
    ∃ new, F.rows (i + 1) = F.rows i ++ new ∧ ∀ m ∈ F.rows i, ∀ n ∈ new, m < n := by
  obtain ⟨new, hnew⟩ := F.grows i
  refine ⟨new, hnew.symm, ?_⟩
  have hinc := F.increasing (i + 1)
  rw [← hnew, pairwise_append] at hinc
  exact hinc.2.2

section

variable (F : Feed) (L : ℕ)

/-! ## Backwards -/

def backPage (i b : ℕ) : List ℕ := (below b (F.rows i)).reverse.take L

/-- The cursors of the pages: that of the first, and then the smallest number of the page before. -/
def befores (b : ℕ) : ℕ → ℕ
  | 0 => b
  | i + 1 => (F.backPage L i (befores b i)).min?.getD (befores b i)

def backPages (b i : ℕ) : List ℕ := F.backPage L i (F.befores L b i)

variable {F L}

theorem befores_le {k b : ℕ} (hrows : ∀ i, ∀ n ∈ F.rows i, n ≤ k) (hb : b ≤ k) (i : ℕ) : F.befores L b i ≤ k := by
  induction i with
  | zero => exact hb
  | succ i ih =>
    show (F.backPages L b i).min?.getD _ ≤ k
    cases hmin : (F.backPages L b i).min? with
    | none => exact ih
    | some m =>
      have hmem := mem_of_mem_take (List.min?_eq_some_iff.mp hmin).1
      exact hrows i m (mem_below.mp (mem_reverse.mp hmem)).1

/-- A full page, and what is left below it afterwards. -/
theorem back_step (hL : 1 ≤ L) {b i : ℕ} (hfull : (F.backPages L b i).length = L) :
    (below (F.befores L b i) (F.rows i)).reverse = F.backPages L b i ++
      (below (F.befores L b (i + 1)) (F.rows (i + 1))).reverse := by
  have hsplit : (below (F.befores L b i) (F.rows i)).reverse = F.backPages L b i ++ _ := (take_append_drop L _).symm
  -- the page is not empty: it has a smallest number
  obtain ⟨m, hm⟩ : ∃ m, (F.backPages L b i).min? = some m := by
    cases hpage : (F.backPages L b i).min? with
    | some m => exact ⟨m, rfl⟩
    | none =>
      rw [List.min?_eq_none_iff.mp hpage, length_nil] at hfull
      omega
  have hnext : F.befores L b (i + 1) = m := by
    show (F.backPages L b i).min?.getD _ = m
    rw [hm, Option.getD_some]
  obtain ⟨hrow, hlt⟩ := mem_below.mp (mem_reverse.mp (mem_of_mem_take (List.min?_eq_some_iff.mp hm).1))
  have hpos := F.positive i m hrow
  have hrest := below_min ((F.increasing i).filter _) (fun n hn => F.positive i n (mem_of_mem_filter hn)) hsplit hm
  obtain ⟨new, hgrown, hnew⟩ := F.grown i
  have hnone : below m new = [] := by
    apply filter_eq_nil_iff.mpr
    intro n hn
    have := hnew m hrow n hn
    simp only [decide_eq_true_eq]
    omega
  have hbelow : below m (F.rows (i + 1)) = below m (below (F.befores L b i) (F.rows i)) := by
    rw [below_below hpos hlt, hgrown, below, filter_append]
    exact (congrArg _ hnone).trans (append_nil _)
  rw [hnext, hbelow, show (below m (below _ _)).reverse = _ from hrest]
  exact hsplit

theorem back_collected (hL : 1 ≤ L) {b n : ℕ} (hfull : ∀ i < n, (F.backPages L b i).length = L) :
    (below b (F.rows 0)).reverse = collected (F.backPages L b) n ++
      (below (F.befores L b n) (F.rows n)).reverse ∧ (collected (F.backPages L b) n).length = n * L := by
  induction n with
  | zero => exact ⟨rfl, by rw [Nat.zero_mul]; rfl⟩
  | succ n ih =>
    obtain ⟨hsplit, hlen⟩ := ih fun i hi => hfull i (Nat.lt_succ_of_lt hi)
    have hn := hfull n (Nat.lt_succ_self n)
    refine ⟨?_, ?_⟩
    · rw [hsplit, back_step hL hn, collected_succ, append_assoc]
    · rw [collected_succ, length_append, hlen, hn, Nat.succ_mul]

theorem back_ends (hL : 1 ≤ L) (b : ℕ) :
    ∃ n, (∀ i < n, (F.backPages L b i).length = L) ∧ (F.backPages L b n).length < L := by
  have hle : ∀ i, (F.backPages L b i).length ≤ L := fun i => length_take_le _ _
  have hshort : ∃ n, (F.backPages L b n).length < L := by
    by_contra hnone
    push Not at hnone
    have hfull : ∀ i, (F.backPages L b i).length = L := fun i => Nat.le_antisymm (hle i) (hnone i)
    -- as many full pages as there are numbers, and one more
    obtain ⟨hsplit, hlen⟩ := back_collected (n := (below b (F.rows 0)).length + 1) hL fun i _ => hfull i
    have hlength := congrArg List.length hsplit
    rw [length_reverse, length_append, hlen] at hlength
    have hmul := Nat.le_mul_of_pos_right ((below b (F.rows 0)).length + 1) hL
    omega
  refine ⟨Nat.find hshort, ?_, Nat.find_spec hshort⟩
  intro i hi
  exact Nat.le_antisymm (hle i) (Nat.not_lt.mp (Nat.find_min hshort hi))

/-- **Backwards.** Up to the first short page, the pages are what there was when the first was taken. -/
theorem back_complete (hL : 1 ≤ L) (b : ℕ) :
    ∃ n, (∀ i < n, (F.backPages L b i).length = L) ∧ (F.backPages L b n).length < L ∧
      collected (F.backPages L b) (n + 1) = (below b (F.rows 0)).reverse := by
  obtain ⟨n, hfull, hshort⟩ := back_ends (F := F) hL b
  refine ⟨n, hfull, hshort, ?_⟩
  have hlast : F.backPages L b n = (below (F.befores L b n) (F.rows n)).reverse := by
    apply take_of_length_le
    rw [backPages, backPage, length_take] at hshort
    omega
  rw [collected_succ, hlast]
  exact (back_collected hL hfull).1.symm

/-! ## Forwards -/

variable (F L) in
def forwardPage (i c : ℕ) : List ℕ := (above c (F.rows i)).take L

variable (F L) in
/-- The cursors of the pages: that of the first, and then the largest number taken. -/
def sinces (c : ℕ) : ℕ → ℕ
  | 0 => c
  | i + 1 => (F.forwardPage L i (sinces c i)).max?.getD (sinces c i)

variable (F L) in
def forwardPages (c i : ℕ) : List ℕ := F.forwardPage L i (F.sinces L c i)

/-- The next cursor is the largest number of a page that is not empty. -/
theorem sinces_next (c i : ℕ) : F.forwardPages L c i = [] ∧ F.sinces L c (i + 1) = F.sinces L c i ∨
    (F.forwardPages L c i).max? = some (F.sinces L c (i + 1)) ∧
      F.sinces L c (i + 1) ∈ above (F.sinces L c i) (F.rows i) := by
  have hnext : F.sinces L c (i + 1) = (F.forwardPages L c i).max?.getD (F.sinces L c i) := rfl
  cases hmax : (F.forwardPages L c i).max? with
  | none =>
    rw [hmax, Option.getD_none] at hnext
    exact .inl ⟨List.max?_eq_none_iff.mp hmax, hnext⟩
  | some m =>
    rw [hmax, Option.getD_some] at hnext
    rw [hnext]
    exact .inr ⟨rfl, mem_of_mem_take (List.max?_eq_some_iff.mp hmax).1⟩

theorem above_page (c i : ℕ) :
    above (F.sinces L c i) (F.rows i) = F.forwardPages L c i ++ above (F.sinces L c (i + 1)) (F.rows i) := by
  have hsplit : above (F.sinces L c i) (F.rows i) = F.forwardPages L c i ++ _ := (take_append_drop L _).symm
  rcases F.sinces_next (L := L) c i with ⟨hempty, hsame⟩ | ⟨hmax, hmem⟩
  · rw [hempty, hsame, nil_append]
  · have hrest := above_max ((F.increasing i).filter _) hsplit hmax
    rw [← above_above (Nat.le_of_lt (mem_above.mp hmem).2), show above _ (above _ _) = _ from hrest]
    exact hsplit

/-- A cursor is the first one or a number that was taken. -/
theorem sinces_cases (c i : ℕ) :
    F.sinces L c i = c ∨ ∃ j < i, F.sinces L c i ∈ F.rows j ∧ c < F.sinces L c i := by
  induction i with
  | zero => exact .inl rfl
  | succ i ih =>
    rcases F.sinces_next (L := L) c i with ⟨-, hsame⟩ | ⟨-, hmem⟩
    · rw [hsame]
      exact ih.imp_right fun ⟨j, hj, hrow⟩ => ⟨j, Nat.lt_succ_of_lt hj, hrow⟩
    · obtain ⟨hrow, hlt⟩ := mem_above.mp hmem
      refine .inr ⟨i, Nat.lt_succ_self i, hrow, ?_⟩
      rcases ih with ih | ⟨_, -, -, hc⟩
      · rwa [ih] at hlt
      · exact Nat.lt_trans hc hlt

theorem rows_prefix (F : Feed) {i j : ℕ} (h : i ≤ j) : F.rows i <+: F.rows j := by
  induction h with
  | refl => exact prefix_refl _
  | step _ ih => exact ih.trans (F.grows _)

/-- What is taken, and then what is left, is all that is above the first cursor. -/
theorem forward_collected (c n : ℕ) :
    above c (F.rows n) = collected (F.forwardPages L c) n ++ above (F.sinces L c n) (F.rows n) := by
  induction n with
  | zero => rfl
  | succ n ih =>
    obtain ⟨new, hgrown, hnew⟩ := F.grown n
    -- the cursor and the first one do not differ on what was added
    have hadded : above (F.sinces L c (n + 1)) new = above c new := by
      rcases F.sinces_cases (L := L) c (n + 1) with heq | ⟨j, hj, hrow, hlt⟩
      · rw [heq]
      · have hrow := (F.rows_prefix (Nat.le_of_lt_succ hj)).subset hrow
        apply filter_congr
        intro x hx
        have := hnew _ hrow x hx
        rw [decide_eq_decide]
        omega
    have hrest : above (F.sinces L c (n + 1)) (F.rows (n + 1)) =
        above (F.sinces L c (n + 1)) (F.rows n) ++ above c new := by
      rw [hgrown, above, filter_append, ← hadded]
      rfl
    have hall : above c (F.rows (n + 1)) = above c (F.rows n) ++ above c new := by
      rw [hgrown, above, filter_append]
      rfl
    rw [hall, ih, above_page, hrest, collected_succ]
    simp only [append_assoc]

/-- **Forwards.** What is taken is, in order, the first of what is above the first cursor. -/
theorem forward_prefix (c n : ℕ) :
    collected (F.forwardPages L c) (n + 1) <+: above c (F.rows n) := by
  refine ⟨above (F.sinces L c (n + 1)) (F.rows n), ?_⟩
  rw [forward_collected c n, above_page, collected_succ, append_assoc]

/-- At a short page all is taken. -/
theorem forward_short {c n : ℕ} (hshort : (F.forwardPages L c n).length < L) :
    collected (F.forwardPages L c) (n + 1) = above c (F.rows n) := by
  have hlast : F.forwardPages L c n = above (F.sinces L c n) (F.rows n) := by
    apply take_of_length_le
    rw [forwardPages, forwardPage, length_take] at hshort
    omega
  rw [forward_collected c n, collected_succ, hlast]

/-- Every number above the first cursor is taken in the end: while it is not, no page is empty and the cursor
goes up, but not beyond it. -/
theorem forward_reaches (hL : 1 ≤ L) {c k x : ℕ} (hx : x ∈ above c (F.rows k)) :
    ∃ n, x ∈ collected (F.forwardPages L c) n := by
  by_contra hnever
  push Not at hnever
  have hleft : ∀ d, x ∈ above (F.sinces L c (k + d)) (F.rows (k + d)) := by
    intro d
    have hmem : x ∈ above c (F.rows (k + d)) := ((F.rows_prefix (Nat.le_add_right k d)).filter _).subset hx
    rw [forward_collected, mem_append] at hmem
    exact hmem.resolve_left (hnever _)
  have hup : ∀ d, d ≤ F.sinces L c (k + d) := by
    intro d
    induction d with
    | zero => exact Nat.zero_le _
    | succ d ih =>
      rcases F.sinces_next (L := L) c (k + d) with ⟨hempty, -⟩ | ⟨-, hmem⟩
      · rw [forwardPages, forwardPage, take_eq_nil_iff] at hempty
        rcases hempty with hzero | hnone
        · omega
        · exact absurd (hleft d) (by rw [hnone]; exact not_mem_nil)
      · exact Nat.lt_of_le_of_lt ih (mem_above.mp hmem).2
  have hlt := (mem_above.mp (hleft x)).2
  have hle := hup x
  omega

end

end Feed
