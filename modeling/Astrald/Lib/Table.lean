import Mathlib

/-!
# Tables with a primary key

A table is its rows in the order of their insertion, and carries that no two rows have one key.

* `find_eq_some`: the row under a key;
* `insert`, `erase`, `update`: the statements, with the rows they leave;
* `weight_insert`, `weight_erase`: a sum over the rows, after a statement;
* `Pool.total_set`: a sum over the threads of a pool, after one of them took a step;
* `Pool.mem_set_of_ne`, `Pool.mem_eraseIdx_of_ne`: the other threads are still there;
* `Pool.getElem?_set_some`, `Pool.getElem?_snoc_some`: the threads of a pool after one of them took a step,
  and with one more.
-/

structure Table {ρ κ : Type} (key : ρ → κ) where
  rows : List ρ
  unique : (rows.map key).Nodup

namespace Table

open List

variable {ρ κ : Type} {key : ρ → κ}

def empty : Table key := ⟨[], List.nodup_nil⟩

variable {t : Table key} {r : ρ}

theorem eq_of_key {q : ρ} (hr : r ∈ t.rows) (hq : q ∈ t.rows) (h : key r = key q) : r = q :=
  inj_on_of_nodup_map t.unique hr hq h

variable [DecidableEq κ]

def find (t : Table key) (k : κ) : Option ρ := t.rows.find? fun r => key r = k

theorem find_eq_some {k : κ} : t.find k = some r ↔ r ∈ t.rows ∧ key r = k := by
  constructor
  · intro h
    exact ⟨mem_of_find?_eq_some h, by simpa using List.find?_some h⟩
  · rintro ⟨hr, rfl⟩
    cases hfind : t.find (key r) with
    | none =>
      have hnone := List.find?_eq_none.mp hfind r hr
      simp at hnone
    | some q =>
      have hq : key q = key r := by simpa using List.find?_some hfind
      rw [eq_of_key (mem_of_find?_eq_some hfind) hr hq]

theorem find_eq_none {k : κ} : t.find k = none ↔ ∀ r ∈ t.rows, key r ≠ k := by
  rw [find, List.find?_eq_none]
  simp

/-- A row under a key that is free; a conflict leaves the table. -/
def insert (t : Table key) (r : ρ) : Table key :=
  if h : t.find (key r) = none then
    { rows := t.rows ++ [r]
      unique := by
        rw [List.map_append, List.map_singleton]
        refine List.nodup_append.mpr ⟨t.unique, List.nodup_singleton _, fun a ha b hb hab => ?_⟩
        obtain ⟨q, hq, rfl⟩ := List.mem_map.mp ha
        exact find_eq_none.mp h q hq (hab.trans (List.mem_singleton.mp hb)) }
  else t

theorem rows_insert (h : t.find (key r) = none) : (t.insert r).rows = t.rows ++ [r] := by
  rw [insert, dif_pos h]

def erase (t : Table key) (k : κ) : Table key :=
  ⟨t.rows.filter fun r => key r ≠ k, t.unique.sublist (List.filter_sublist.map key)⟩

theorem mem_erase {k : κ} : r ∈ (t.erase k).rows ↔ r ∈ t.rows ∧ key r ≠ k := by
  simp [erase]

theorem find_insert (h : t.find (key r) = none) (k : κ) :
    (t.insert r).find k = if key r = k then some r else t.find k := by
  rw [find, rows_insert h, List.find?_append]
  by_cases hk : key r = k
  · subst hk
    have hnone : List.find? (fun q => decide (key q = key r)) t.rows = none := h
    simp [hnone]
  · simp [hk, find]

theorem find_erase (t : Table key) (k k' : κ) : (t.erase k).find k' = if k' = k then none else t.find k' := by
  split
  · rename_i hk
    exact find_eq_none.mpr fun r hr hkey => (mem_erase.mp hr).2 (hkey.trans hk)
  · rename_i hk
    ext r
    rw [find_eq_some, find_eq_some, mem_erase]
    exact ⟨fun ⟨⟨hr, _⟩, hkey⟩ => ⟨hr, hkey⟩, fun ⟨hr, hkey⟩ =>
      ⟨⟨hr, fun he => hk (hkey.symm.trans he)⟩, hkey⟩⟩

/-- The row under a key is changed; its key is not. -/
def update (t : Table key) (k : κ) (f : ρ → ρ) (hf : ∀ r, key (f r) = key r) : Table key where
  rows := t.rows.map fun r => if key r = k then f r else r
  unique := by
    have hkeys : (t.rows.map fun r => if key r = k then f r else r).map key = t.rows.map key := by
      rw [List.map_map]
      refine List.map_congr_left fun r _ => ?_
      show key (if key r = k then f r else r) = key r
      split
      · exact hf r
      · rfl
    rw [hkeys]
    exact t.unique

theorem find_update (t : Table key) (k : κ) (f : ρ → ρ) (hf : ∀ r, key (f r) = key r) (k' : κ) :
    (t.update k f hf).find k' = (t.find k').map fun r => if key r = k then f r else r := by
  show List.find? _ (t.rows.map _) = _
  rw [List.find?_map]
  refine congrArg _ (congrArg (fun p => List.find? p t.rows) (funext fun r => ?_))
  show decide (key (if key r = k then f r else r) = k') = decide (key r = k')
  split
  · rw [hf]
  · rfl

def weight (size : ρ → ℕ) (t : Table key) : ℕ := (t.rows.map size).sum

theorem weight_insert (size : ρ → ℕ) (h : t.find (key r) = none) :
    weight size (t.insert r) = weight size t + size r := by
  rw [weight, rows_insert h, map_append, sum_append]
  simp [weight]

theorem weight_erase (size : ρ → ℕ) {k : κ} (h : t.find k = some r) :
    weight size (t.erase k) + size r = weight size t := by
  classical
  obtain ⟨hr, rfl⟩ := find_eq_some.mp h
  -- no other row has the key
  have hrows : (t.erase (key r)).rows = t.rows.erase r := by
    rw [t.unique.of_map.erase_eq_filter]
    refine filter_congr fun q hq => ?_
    have hiff : key q = key r ↔ q = r := ⟨eq_of_key hq hr, congrArg key⟩
    simp only [ne_eq, hiff, decide_not]
    rfl
  rw [weight, weight, hrows, ((perm_cons_erase hr).map size).sum_eq, map_cons, sum_cons, Nat.add_comm]

end Table

/-! ## Pools -/

namespace Pool

variable {τ : Type}

def total (f : τ → ℕ) (pool : List τ) : ℕ := (pool.map f).sum

theorem total_append (f : τ → ℕ) (l m : List τ) : total f (l ++ m) = total f l + total f m := by
  simp [total]

variable {pool : List τ} {a : τ} {i : ℕ}

theorem total_set (f : τ → ℕ) (h : pool[i]? = some a) (b : τ) :
    total f (pool.set i b) + f a = total f pool + f b := by
  induction pool generalizing i with
  | nil => simp at h
  | cons c pool ih =>
    cases i with
    | zero =>
      obtain rfl : c = a := by simpa using h
      simp only [total, List.set_cons_zero, List.map_cons, List.sum_cons]
      omega
    | succ i =>
      have hrest := ih (i := i) (by simpa using h)
      simp only [total, List.set_cons_succ, List.map_cons, List.sum_cons] at hrest ⊢
      omega

theorem countP_set (P : τ → Bool) (h : pool[i]? = some a) (b : τ) :
    (pool.set i b).countP P + (if P a then 1 else 0) = pool.countP P + if P b then 1 else 0 := by
  obtain ⟨hi, rfl⟩ := List.getElem?_eq_some_iff.mp h
  have hle := List.boole_getElem_le_countP (p := P) hi
  rw [List.countP_set hi]
  omega

theorem mem_set_of_ne {b c : τ} (hi : pool[i]? = some a) (hc : c ∈ pool) (hne : c ≠ a) : c ∈ pool.set i b := by
  obtain ⟨j, hj⟩ := List.mem_iff_getElem?.mp hc
  refine List.mem_iff_getElem?.mpr ⟨j, ?_⟩
  have hij : i ≠ j := by
    rintro rfl
    exact hne (Option.some.inj (hj.symm.trans hi))
  rw [List.getElem?_set_ne hij, hj]

/-- Something that one of the threads is goes on being so, if the step of this one keeps it. -/
theorem exists_mem_set {P : τ → Prop} {b : τ} (hi : pool[i]? = some a) (h : ∃ c ∈ pool, P c) (hab : P a → P b) :
    ∃ c ∈ pool.set i b, P c := by
  obtain ⟨c, hc, hPc⟩ := h
  by_cases hca : c = a
  · subst hca
    exact ⟨b, List.mem_set (List.getElem?_eq_some_iff.mp hi).1 b, hab hPc⟩
  · exact ⟨c, mem_set_of_ne hi hc hca, hPc⟩

theorem mem_eraseIdx_of_ne {c : τ} (hi : pool[i]? = some a) (hc : c ∈ pool) (hne : c ≠ a) :
    c ∈ pool.eraseIdx i := by
  obtain ⟨j, hj⟩ := List.mem_iff_getElem?.mp hc
  refine List.mem_eraseIdx_iff_getElem?.mpr ⟨j, ?_, hj⟩
  rintro rfl
  exact hne (Option.some.inj (hj.symm.trans hi))

theorem getElem?_set_some (h : pool[i]? = some a) {b : τ} {j : ℕ} {c : τ} :
    (pool.set i b)[j]? = some c ↔ j = i ∧ c = b ∨ j ≠ i ∧ pool[j]? = some c := by
  by_cases hj : j = i
  · subst hj
    rw [List.getElem?_set_self (List.getElem?_eq_some_iff.mp h).1, Option.some.injEq]
    simp [eq_comm]
  · rw [List.getElem?_set_ne (Ne.symm hj)]
    simp [hj]

theorem getElem?_snoc_some {j : ℕ} {c : τ} :
    (pool ++ [a])[j]? = some c ↔ pool[j]? = some c ∨ j = pool.length ∧ c = a := by
  rcases Nat.lt_trichotomy j pool.length with hj | hj | hj
  · rw [List.getElem?_append_left hj]
    simp [Nat.ne_of_lt hj]
  · subst hj
    simp [eq_comm]
  · rw [List.getElem?_eq_none (by simp; omega), List.getElem?_eq_none (Nat.le_of_lt hj)]
    simp [Nat.ne_of_gt hj]

end Pool
