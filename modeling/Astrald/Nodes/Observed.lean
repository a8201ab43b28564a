import Mathlib
import Astrald.Lib.Trace
import Astrald.Lib.Table

/-!
# The observed endpoints

The model of `ip_candidate_finder.go`: the cache of the endpoints at which peers have seen the node.
The cache is a `sig.Map`, whose `Set` stores under a free key only. The loop that looks for the oldest
entry goes over a Go map, so the order of its passes is part of the input.

* `scan_least`: the loop finds the oldest entry other than the one under the key, in any order;
* `observed_recent`: the cache holds the latest observations, while no endpoint is observed that is
  already in it and the entry to evict is not under the empty address;
* `observed_stale`: an endpoint that is observed again keeps its old entry, and an entry under the
  empty address is never evicted.
-/

namespace Astrald.Nodes.Observed

open List

def ipCacheSize : ℕ := 8

structure ObservedEndpoint (E IP : Type) where
  endpoint : E
  ip : IP
  observed : ℤ
  deriving DecidableEq, Repr

/-- An order in which a `range` over a map can visit the entries. -/
structure Iteration (α : Type) where
  run : List α → List α
  perm : ∀ l, (run l).Perm l

def Iteration.inOrder (α : Type) : Iteration α := ⟨id, fun _ => List.Perm.refl _⟩

/-- A call of `AddObservedEndpoint`: its arguments, what the clock says, and the order of the loop. -/
structure Call (E IP : Type) where
  endpoint : E
  ip : IP
  now : ℤ
  order : Iteration (ObservedEndpoint E IP)

def Call.observation {E IP : Type} (c : Call E IP) : ObservedEndpoint E IP := ⟨c.endpoint, c.ip, c.now⟩

section

variable {E IP : Type} (address : E → String)

def key (v : ObservedEndpoint E IP) : String := address v.endpoint

abbrev Cache (IP : Type) := Table (key address : ObservedEndpoint E IP → String)

structure Oldest where
  oldestKey : String
  oldestTime : ℤ
  first : Bool

def scan (k : String) (o : Oldest) (v : ObservedEndpoint E IP) : Oldest :=
  if key address v = k then o
  else if o.first || v.observed < o.oldestTime then ⟨key address v, v.observed, false⟩
  else o

def addObservedEndpoint (cache : Cache address IP) (c : Call E IP) : Cache address IP :=
  let added := cache.insert c.observation
  let clone := c.order.run added.rows
  if clone.length > ipCacheSize then
    let oldest := clone.foldl (scan address (address c.endpoint)) ⟨"", 0, true⟩
    if oldest.oldestKey ≠ "" then added.erase oldest.oldestKey else added
  else added

/-- The cache after a sequence of calls, the latest first. -/
def cacheAfter (calls : List (Call E IP)) : Cache address IP :=
  Trace.exec (addObservedEndpoint address) Table.empty calls

def publicIPCandidates (cache : Cache address IP) (order : Iteration (ObservedEndpoint E IP)) : List IP :=
  (order.run cache.rows).map (·.ip)

/-! ## The oldest entry -/

/-- What the loop has found in the entries it has seen. -/
def Least (k : String) (seen : List (ObservedEndpoint E IP)) (o : Oldest) : Prop :=
  (o.first = true ∧ ∀ v ∈ seen, key address v = k) ∨
    ∃ v ∈ seen, key address v ≠ k ∧ o = ⟨key address v, v.observed, false⟩ ∧
      ∀ w ∈ seen, key address w ≠ k → v.observed ≤ w.observed

theorem least_scan {k : String} {seen : List (ObservedEndpoint E IP)} {o : Oldest}
    (h : Least address k seen o) (v : ObservedEndpoint E IP) :
    Least address k (seen ++ [v]) (scan address k o v) := by
  unfold scan
  by_cases hk : key address v = k
  · rw [if_pos hk]
    rcases h with ⟨hfirst, hall⟩ | ⟨u, hu, huk, ho, hle⟩
    · refine .inl ⟨hfirst, ?_⟩
      intro w hw
      rcases mem_append.mp hw with hw | hw
      · exact hall w hw
      · rw [mem_singleton.mp hw]
        exact hk
    · refine .inr ⟨u, mem_append_left _ hu, huk, ho, ?_⟩
      intro w hw hwk
      rcases mem_append.mp hw with hw | hw
      · exact hle w hw hwk
      · rw [mem_singleton.mp hw] at hwk
        exact absurd hk hwk
  · rw [if_neg hk]
    have hv : v ∈ seen ++ [v] := mem_append_right _ (mem_singleton_self v)
    rcases h with ⟨hfirst, hall⟩ | ⟨u, hu, huk, rfl, hle⟩
    · rw [if_pos (by simp [hfirst])]
      refine .inr ⟨v, hv, hk, rfl, ?_⟩
      intro w hw hwk
      rcases mem_append.mp hw with hw | hw
      · exact absurd (hall w hw) hwk
      · rw [mem_singleton.mp hw]
    · by_cases hlt : v.observed < u.observed
      · rw [if_pos (by simp [hlt])]
        refine .inr ⟨v, hv, hk, rfl, ?_⟩
        intro w hw hwk
        rcases mem_append.mp hw with hw | hw
        · have := hle w hw hwk
          omega
        · rw [mem_singleton.mp hw]
      · rw [if_neg (by simp [hlt])]
        refine .inr ⟨u, mem_append_left _ hu, huk, rfl, ?_⟩
        intro w hw hwk
        rcases mem_append.mp hw with hw | hw
        · exact hle w hw hwk
        · rw [mem_singleton.mp hw]
          omega

/-- The loop finds the oldest entry that is not under the key, if there is any. -/
theorem scan_least (k : String) (entries : List (ObservedEndpoint E IP)) :
    Least address k entries (entries.foldl (scan address k) ⟨"", 0, true⟩) := by
  induction entries using List.reverseRecOn with
  | nil => exact .inl ⟨rfl, fun _ hv => absurd hv not_mem_nil⟩
  | append_singleton seen v ih =>
    rw [foldl_append]
    exact least_scan address ih v

variable {os : List (ObservedEndpoint E IP)} {v : ObservedEndpoint E IP} {cache : Cache address IP}

/-- The entry that the loop finds is the one that no other is older than. -/
theorem scan_eq {k : String} {entries : List (ObservedEndpoint E IP)} (hv : v ∈ entries) (hk : key address v ≠ k)
    (hold : ∀ w ∈ entries, key address w ≠ k → w ≠ v → v.observed < w.observed) :
    (entries.foldl (scan address k) ⟨"", 0, true⟩).oldestKey = key address v := by
  rcases scan_least address k entries with ⟨-, hall⟩ | ⟨u, hu, huk, ho, hle⟩
  · exact absurd (hall v hv) hk
  · rw [ho]
    by_cases huv : u = v
    · rw [huv]
    · have h₁ := hold u hu huk huv
      have h₂ := hle v hv hk
      omega

/-! ## The latest observations -/

variable [DecidableEq E]

/-- The latest observation of each endpoint; the observations come latest first. -/
def latest : List (ObservedEndpoint E IP) → List (ObservedEndpoint E IP)
  | [] => []
  | o :: os => o :: (latest os).filter fun v => v.endpoint ≠ o.endpoint

theorem mem_of_mem_latest (h : v ∈ latest os) : v ∈ os := by
  induction os with
  | nil => exact h
  | cons o os ih =>
    rcases mem_cons.mp h with rfl | h
    · exact mem_cons_self
    · exact mem_cons_of_mem o (ih (mem_of_mem_filter h))

/-- The latest observations are in the order of their times. -/
theorem latest_sorted (h : os.Pairwise fun a b => b.observed < a.observed) :
    (latest os).Pairwise fun a b => b.observed < a.observed := by
  induction os with
  | nil => exact List.Pairwise.nil
  | cons o os ih =>
    rw [pairwise_cons] at h
    refine pairwise_cons.mpr ⟨?_, (ih h.2).filter _⟩
    intro v hv
    exact h.1 v (mem_of_mem_latest (mem_of_mem_filter hv))

/-- The first observations of a list, after one of an endpoint that is not among them. -/
theorem take_latest_cons {n : ℕ} {o : ObservedEndpoint E IP}
    (hnew : ∀ v ∈ (latest os).take n, v.endpoint ≠ o.endpoint) :
    (latest (o :: os)).take (n + 1) = o :: (latest os).take n := by
  show o :: ((latest os).filter _).take n = _
  generalize latest os = l at hnew
  rw [List.cons.injEq]
  refine ⟨rfl, ?_⟩
  induction l generalizing n with
  | nil => rfl
  | cons v l ih =>
    cases n with
    | zero => rfl
    | succ n =>
      have hv : v.endpoint ≠ o.endpoint := hnew v (by rw [take_succ_cons]; exact mem_cons_self)
      rw [filter_cons_of_pos (by simpa using hv), take_succ_cons, take_succ_cons,
        ih (fun w hw => hnew w (by rw [take_succ_cons]; exact mem_cons_of_mem v hw))]

/-! ## What a call does -/

/-- The state and the call that `AddObservedEndpoint` is right for: the endpoint is not in the cache, and
the oldest entry of a full cache is not under the empty address. -/
def Fresh (cache : Cache address IP) (c : Call E IP) : Prop :=
  cache.find (address c.endpoint) = none ∧ (cache.rows.length = ipCacheSize →
    ∀ v ∈ cache.rows, (∀ w ∈ cache.rows, v.observed ≤ w.observed) → key address v ≠ "")

instance (cache : Cache address IP) (c : Call E IP) : Decidable (Fresh address cache c) :=
  inferInstanceAs (Decidable (_ ∧ _))

omit [DecidableEq E] in
/-- A call on a cache that is not full. -/
theorem add_short {c : Call E IP} (hfree : cache.find (address c.endpoint) = none)
    (hshort : cache.rows.length < ipCacheSize) :
    (addObservedEndpoint address cache c).rows = cache.rows ++ [c.observation] := by
  have hrows : (cache.insert c.observation).rows = cache.rows ++ [c.observation] := Table.rows_insert hfree
  unfold addObservedEndpoint
  rw [if_neg, hrows]
  rw [(c.order.perm _).length_eq, hrows, length_append, length_singleton]
  omega

omit [DecidableEq E] in
/-- A call on a full cache, whose first entry is older than the others. -/
theorem add_full {c : Call E IP} {rest : List (ObservedEndpoint E IP)}
    (hfree : cache.find (address c.endpoint) = none) (hrows : cache.rows = v :: rest)
    (hfull : cache.rows.length = ipCacheSize) (hname : key address v ≠ "")
    (hold : ∀ w ∈ rest, v.observed < w.observed) :
    (addObservedEndpoint address cache c).rows = rest ++ [c.observation] := by
  have hadded : (cache.insert c.observation).rows = v :: (rest ++ [c.observation]) := by
    rw [Table.rows_insert hfree, hrows, cons_append]
  have hmem : ∀ w, w ∈ c.order.run (cache.insert c.observation).rows ↔
      w = v ∨ w ∈ rest ∨ w = c.observation := by
    intro w
    rw [(c.order.perm _).mem_iff, hadded, mem_cons, mem_append, mem_singleton]
  have hv : key address v ≠ address c.endpoint :=
    Table.find_eq_none.mp hfree v (by rw [hrows]; exact mem_cons_self)
  have holdest : ((c.order.run (cache.insert c.observation).rows).foldl (scan address (address c.endpoint))
      ⟨"", 0, true⟩).oldestKey = key address v := by
    refine scan_eq address ((hmem v).mpr (.inl rfl)) hv ?_
    intro w hw hwk hwv
    rcases (hmem w).mp hw with rfl | hw | rfl
    · exact absurd rfl hwv
    · exact hold w hw
    · exact absurd rfl hwk
  -- no other entry has the key of the first one
  have hothers : ∀ w ∈ rest ++ [c.observation], key address w ≠ key address v := by
    have hunique := (cache.insert c.observation).unique
    rw [hadded, map_cons, nodup_cons] at hunique
    intro w hw heq
    exact hunique.1 (heq ▸ mem_map_of_mem hw)
  unfold addObservedEndpoint
  dsimp only
  rw [if_pos, holdest, if_pos hname]
  · show (cache.insert c.observation).rows.filter _ = _
    rw [hadded, filter_cons_of_neg (by simp), filter_eq_self.mpr]
    intro w hw
    exact decide_eq_true (hothers w hw)
  · rw [(c.order.perm _).length_eq, hadded, length_cons, length_append, length_singleton]
    rw [hrows, length_cons] at hfull
    omega

/-- One call keeps the cache at the latest observations, in the order of their times. -/
theorem add_latest {c : Call E IP} (hsorted : os.Pairwise fun a b => b.observed < a.observed)
    (hrows : cache.rows = ((latest os).take ipCacheSize).reverse) (hfresh : Fresh address cache c) :
    (addObservedEndpoint address cache c).rows =
      ((latest (c.observation :: os)).take ipCacheSize).reverse := by
  have hnew : ∀ v ∈ (latest os).take ipCacheSize, v.endpoint ≠ c.observation.endpoint := by
    intro v hv heq
    refine Table.find_eq_none.mp hfresh.1 v (by rw [hrows]; exact mem_reverse.mpr hv) ?_
    exact congrArg address heq
  have htake : (latest (c.observation :: os)).take ipCacheSize = c.observation :: (latest os).take 7 :=
    take_latest_cons fun v hv => hnew v ((take_subset_take_left _ (Nat.le_succ 7)) hv)
  have hlen : cache.rows.length = min ipCacheSize (latest os).length := by
    rw [hrows, length_reverse, length_take]
  rw [htake, reverse_cons]
  by_cases hshort : cache.rows.length < ipCacheSize
  · have hle : (latest os).length ≤ 7 := by
      unfold ipCacheSize at hlen hshort
      omega
    have hall : (latest os).take ipCacheSize = latest os := take_of_length_le (Nat.le_succ_of_le hle)
    rw [add_short address hfresh.1 hshort, hrows, hall, take_of_length_le hle]
  · have hfull : cache.rows.length = ipCacheSize := by omega
    have hlt : 7 < (latest os).length := by
      unfold ipCacheSize at hlen hfull
      omega
    -- the eighth of the latest observations is the oldest entry
    have hsplit : (latest os).take ipCacheSize = (latest os).take 7 ++ [(latest os)[7]] :=
      take_succ_eq_append_getElem hlt
    have hcons : cache.rows = (latest os)[7] :: ((latest os).take 7).reverse := by
      rw [hrows, hsplit, reverse_append, reverse_singleton, singleton_append]
    have hold : ∀ w ∈ ((latest os).take 7).reverse, (latest os)[7].observed < w.observed := by
      intro w hw
      have hpair := (latest_sorted hsorted).sublist (take_sublist ipCacheSize _)
      rw [hsplit, pairwise_append] at hpair
      exact hpair.2.2 w (mem_reverse.mp hw) _ (mem_singleton_self _)
    refine add_full address hfresh.1 hcons hfull (hfresh.2 hfull _ ?_ ?_) hold
    · rw [hcons]
      exact mem_cons_self
    · intro w hw
      rw [hcons] at hw
      rcases mem_cons.mp hw with rfl | hw
      · exact le_refl _
      · exact le_of_lt (hold w hw)

section

variable {calls : List (Call E IP)} (htimes : calls.Pairwise fun a b => b.now < a.now) (hfresh : Trace.Along (fun before c => Fresh address (cacheAfter address before) c) calls)
include htimes hfresh

/-- The rows of the cache after any sequence of calls that it is right for. -/
theorem rows_cacheAfter :
    (cacheAfter address calls).rows = ((latest (calls.map Call.observation)).take ipCacheSize).reverse := by
  induction calls with
  | nil => rfl
  | cons c before ih =>
    rw [pairwise_cons] at htimes
    exact add_latest address (pairwise_map.mpr htimes.2) (ih htimes.2 hfresh.2) hfresh.1

/-- The candidates are the IPs of the latest observations. -/
theorem candidates_recent (order : Iteration (ObservedEndpoint E IP)) :
    (publicIPCandidates address (cacheAfter address calls) order).Perm
      (((latest (calls.map Call.observation)).take ipCacheSize).map (·.ip)) := by
  have hrows := (order.perm (cacheAfter address calls).rows).map (·.ip)
  rw [rows_cacheAfter address htimes hfresh] at hrows
  unfold publicIPCandidates
  rw [rows_cacheAfter address htimes hfresh]
  exact hrows.trans ((reverse_perm _).map _)

end

/-- **The cache.** It holds the latest observations of the endpoints observed last, eight or as many as
there are, each once. -/
theorem observed_recent (calls : List (Call E IP)) (htimes : calls.Pairwise fun a b => b.now < a.now)
    (hfresh : Trace.Along (fun before c => Fresh address (cacheAfter address before) c) calls) :
    (cacheAfter address calls).rows.Perm ((latest (calls.map Call.observation)).take ipCacheSize) ∧
      (cacheAfter address calls).rows.length =
        min ipCacheSize (latest (calls.map Call.observation)).length := by
  rw [rows_cacheAfter address htimes hfresh]
  refine ⟨reverse_perm _, ?_⟩
  rw [length_reverse, length_take]

end

/-- A call with the given arguments whose loop takes the entries in the order of the list. -/
def call (endpoint : String) (ip : ℕ) (now : ℤ) : Call String ℕ := ⟨endpoint, ip, now, Iteration.inOrder _⟩

/-- An endpoint that comes back after eight others. -/
def returning : List (Call String ℕ) :=
  [call "a" 9 9, call "i" 8 8, call "h" 7 7, call "g" 6 6, call "f" 5 5, call "e" 4 4, call "d" 3 3,
    call "c" 2 2, call "b" 1 1, call "a" 0 0]

theorem observed_returning :
    (cacheAfter id returning).rows.Perm ((latest (returning.map Call.observation)).take ipCacheSize) ∧
      (cacheAfter id returning).rows.length =
        min ipCacheSize (latest (returning.map Call.observation)).length :=
  observed_recent id returning (by decide) (by decide)

/-- An endpoint that is observed again keeps its old IP and time; and nine entries stay, one of them
under the empty address. -/
theorem observed_stale :
    (∃ calls : List (Call String ℕ), calls.Pairwise (fun a b => b.now < a.now) ∧
      (cacheAfter id calls).rows = [⟨"a", 0, 0⟩] ∧
      (latest (calls.map Call.observation)).take ipCacheSize = [⟨"a", 1, 1⟩]) ∧
    ∃ calls : List (Call String ℕ), calls.Pairwise (fun a b => b.now < a.now) ∧
      (cacheAfter id calls).rows.length = 9 :=
  ⟨⟨[call "a" 1 1, call "a" 0 0], by decide, by decide, by decide⟩,
    [call "i" 8 8, call "h" 7 7, call "g" 6 6, call "f" 5 5, call "e" 4 4, call "d" 3 3, call "c" 2 2,
      call "b" 1 1, call "" 0 0], by decide, by decide⟩

end Astrald.Nodes.Observed
