import Mathlib
import Astrald.Lib.Trace

/-!
# Cursors by the name of a repository

`setState` writes a cursor through `tree.Query`, which splits its path at every slash; `state` reads it among
the children of `cursors`, whose names are taken as they are.

* `state_setState`, `Apart.state`: for a name without a slash the write reaches the node that `state` reads, and
  no other;
* `cursors_by_name`: so the cursors of such repositories work in every run;
* `slash_unread`: the cursor of a repository with a slash in its name is written and never read.
-/

namespace Astrald.Indexing.Names

open List Function

inductive Value
  | nonce (n : ℕ)
  | identity (id : ℕ)
  | uint64 (n : ℕ)
  deriving DecidableEq, Repr

inductive Err
  /-- `tree.Get` of a node without a value of the type. -/
  | noValue
  | invalidIndexHeight
  | fault
  deriving DecidableEq, Repr

/-- The nodes of a registration by their paths, each with its value if it has one. -/
abbrev Registration := List String → Option (Option Value)

def register (nonce owner : ℕ) : Registration := fun path =>
  if path = [] then some (some (.nonce nonce))
  else if path = ["owner"] then some (some (.identity owner)) else none

/-- `tree.Get[*astral.Uint64]`. -/
def getUint64 : Option Value → Except Err ℕ
  | some (.uint64 n) => .ok n
  | _ => .error .noValue

def state (t : Registration) (repo : String) : Except Err ℕ :=
  if (t ["cursors"]).isNone then .ok 0
  else
    match t ["cursors", repo] with
    | none => .ok 0
    | some v => getUint64 v

/-- The path that `tree.Query` makes of `cursors/<repo>`. -/
def pathOf (repo : String) : List String := "cursors" :: (repo.toList.splitOn '/').map String.ofList

/-- `tree.Query` makes the nodes of the path that are missing, up to the `made`-th. -/
def create (t : Registration) (path : List String) (made : ℕ) : Registration := fun p =>
  if p <+: path ∧ p.length ≤ made ∧ t p = none then some none else t p

def write (t : Registration) (path : List String) (version : ℕ) : Registration :=
  update (create t path path.length) path (some (some (.uint64 version)))

/-- `fault` is the number of nodes that are there when the database fails. -/
def setState (t : Registration) (repo : String) (version : ℕ) (fault : Option ℕ) : Registration × Option Err :=
  match state t repo with
  | .error err => (t, some err)
  | .ok current =>
    if version ≠ current + 1 then (t, some .invalidIndexHeight)
    else
      match fault with
      | some made => (create t (pathOf repo) made, some .fault)
      | none => (write t (pathOf repo) version, none)

/-- The calls of `setState`, the latest first. -/
abbrev Call := String × ℕ × Option ℕ

def exec (nonce owner : ℕ) (calls : List Call) : Registration :=
  Trace.exec (fun t call => (setState t call.1 call.2.1 call.2.2).1) (register nonce owner) calls

def Whole (repo : String) : Prop := '/' ∉ repo.toList

theorem pathOf_whole {repo : String} (h : Whole repo) : pathOf repo = ["cursors", repo] := by
  have hsplit : repo.toList.splitOn '/' = [repo.toList] := by
    refine splitOnP_eq_singleton fun c hc => ?_
    rw [beq_eq_false_iff_ne]
    rintro rfl
    exact h hc
  rw [pathOf, hsplit, map_singleton, String.ofList_toList]

/-! ## One call -/

/-- A registration has its own node, and the cursors have `cursors` above them. -/
def Rooted (t : Registration) : Prop :=
  t [] ≠ none ∧ (t ["cursors"] = none → ∀ repo, t ["cursors", repo] = none)

/-- The registration `t'` is `t` up to `cursors` and the cursor of one repository. -/
structure Apart (repo : String) (t t' : Registration) : Prop where
  same : ∀ p, p ≠ ["cursors"] → p ≠ ["cursors", repo] → t' p = t p
  grows : t' ["cursors"] = none → t ["cursors"] = none ∧ t' ["cursors", repo] = t ["cursors", repo]

variable {t : Registration} {repo : String}

theorem apart_create (ht : Rooted t) (made : ℕ) : Apart repo t (create t ["cursors", repo] made) where
  same := by
    intro p h₁ h₂
    refine if_neg fun h => ?_
    rcases prefix_cons_iff.mp h.1 with rfl | ⟨q, rfl, hq⟩
    · exact ht.1 h.2.2
    · rcases prefix_cons_iff.mp hq with rfl | ⟨q', rfl, hq'⟩
      · exact h₁ rfl
      · exact h₂ (by rw [prefix_nil.mp hq'])
  grows := by
    intro hnone
    have hc : t ["cursors"] = none := by
      unfold create at hnone
      split at hnone
      · cases hnone
      · exact hnone
    refine ⟨hc, if_neg fun h => ?_⟩
    -- the cursor is not made before `cursors`
    rw [create, if_pos ⟨by simp, Nat.le_of_succ_le h.2.1, hc⟩] at hnone
    cases hnone

theorem apart_write (ht : Rooted t) (version : ℕ) : Apart repo t (write t ["cursors", repo] version) where
  same := fun p h₁ h₂ => (update_of_ne h₂ ..).trans ((apart_create ht _).same p h₁ h₂)
  grows := by
    intro hnone
    rw [write, update_of_ne (by simp)] at hnone
    have hc := ((apart_create ht _).grows hnone).1
    rw [create, if_pos ⟨by simp, by simp, hc⟩] at hnone
    cases hnone

theorem apart_setState (ht : Rooted t) (hrepo : Whole repo) (version : ℕ) (fault : Option ℕ) :
    Apart repo t (setState t repo version fault).1 := by
  have hrefl : Apart repo t t := ⟨fun _ _ _ => rfl, fun h => ⟨h, rfl⟩⟩
  unfold setState
  rw [pathOf_whole hrepo]
  split
  · exact hrefl
  · split
    · exact hrefl
    · split
      · exact apart_create ht _
      · exact apart_write ht version

theorem Apart.rooted {t' : Registration} (h : Apart repo t t') (ht : Rooted t) : Rooted t' := by
  refine ⟨by rw [h.same [] (by simp) (by simp)]; exact ht.1, fun hnone r => ?_⟩
  obtain ⟨hc, hsame⟩ := h.grows hnone
  by_cases hr : r = repo
  · rw [hr, hsame]
    exact ht.2 hc repo
  · rw [h.same _ (by simp) (by simpa using hr)]
    exact ht.2 hc r

theorem Apart.state {t' : Registration} (h : Apart repo t t') (ht : Rooted t) {other : String} (hne : other ≠ repo) :
    state t' other = state t other := by
  have hsame : t' ["cursors", other] = t ["cursors", other] := h.same _ (by simp) (by simpa using hne)
  unfold Names.state
  rw [hsame]
  cases hc : t ["cursors"] with
  | none =>
    rw [ht.2 hc other]
    split <;> rfl
  | some v =>
    have hc' : t' ["cursors"] ≠ none := fun hn => by simp [(h.grows hn).1] at hc
    cases hv : t' ["cursors"] with
    | none => exact absurd hv hc'
    | some v' => rfl

theorem state_setState (hrepo : Whole repo) {version : ℕ} {fault : Option ℕ}
    (hok : (setState t repo version fault).2 = none) :
    state (setState t repo version fault).1 repo = .ok version := by
  unfold setState at hok ⊢
  rw [pathOf_whole hrepo] at hok ⊢
  split at hok
  · cases hok
  · split at hok
    · cases hok
    · split at hok
      · cases hok
      · rename_i hv _
        simp only [if_neg hv, state, write, update_self]
        rw [update_of_ne (by simp), create]
        split
        · rfl
        · rename_i hmade
          have hc : t ["cursors"] ≠ none := fun hn => hmade ⟨by simp, by simp, hn⟩
          rw [if_neg (by simpa using hc)]
          rfl

/-! ## All calls -/

/-- **Cursors by name.** For repositories whose names have no slash: the cursor is what a successful call has
written, a cursor at `n` takes `n + 1`, no call changes another cursor, and none the owner or the nonce. -/
theorem cursors_by_name (nonce owner : ℕ) (calls : List Call) (hcalls : ∀ call ∈ calls, Whole call.1) :
    exec nonce owner calls [] = some (some (.nonce nonce)) ∧
      exec nonce owner calls ["owner"] = some (some (.identity owner)) ∧
      ∀ repo, Whole repo → ∀ version fault,
        ((setState (exec nonce owner calls) repo version fault).2 = none →
          state (setState (exec nonce owner calls) repo version fault).1 repo = .ok version) ∧
        (∀ n, state (exec nonce owner calls) repo = .ok n →
          (setState (exec nonce owner calls) repo (n + 1) none).2 = none) ∧
        ∀ other, other ≠ repo → state (setState (exec nonce owner calls) repo version fault).1 other =
          state (exec nonce owner calls) other := by
  have h : Rooted (exec nonce owner calls) ∧ exec nonce owner calls [] = some (some (.nonce nonce)) ∧
      exec nonce owner calls ["owner"] = some (some (.identity owner)) := by
    induction calls with
    | nil => exact ⟨⟨nofun, fun _ _ => rfl⟩, rfl, rfl⟩
    | cons call calls ih =>
      obtain ⟨hroot, hnonce, howner⟩ := ih fun c hc => hcalls c (mem_cons_of_mem call hc)
      have hapart := apart_setState hroot (hcalls call mem_cons_self) call.2.1 call.2.2
      exact ⟨hapart.rooted hroot, (hapart.same [] (by simp) (by simp)).trans hnonce,
        (hapart.same ["owner"] (by simp) (by simp)).trans howner⟩
  refine ⟨h.2.1, h.2.2, fun repo hrepo version fault => ⟨state_setState hrepo, fun n hn => ?_, fun other hne => ?_⟩⟩
  · unfold setState
    rw [hn]
    simp
  · exact (apart_setState h.1 hrepo version fault).state h.1 hne

theorem cursors_by_name_owner :
    (setState (register 7 1) "owner" 1 none).2 = none ∧
      state (setState (register 7 1) "owner" 1 none).1 "owner" = .ok 1 :=
  ⟨by decide, ((cursors_by_name 7 1 [] nofun).2.2 "owner" (by unfold Whole; decide) 1 none).1 (by decide)⟩

/-- The first change of `a/b` is acknowledged and its cursor is still zero, so the second is refused; and the
cursor of `a` can no longer be read. -/
theorem slash_unread :
    (setState (register 7 1) "a/b" 1 none).2 = none ∧
      state (setState (register 7 1) "a/b" 1 none).1 "a/b" = .ok 0 ∧
      (setState (setState (register 7 1) "a/b" 1 none).1 "a/b" 2 none).2 = some .invalidIndexHeight ∧
      state (register 7 1) "a" = .ok 0 ∧
      state (setState (register 7 1) "a/b" 1 none).1 "a" = .error .noValue := by
  refine ⟨?_, ?_, ?_, ?_, ?_⟩ <;> decide

end Astrald.Indexing.Names
