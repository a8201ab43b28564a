import Mathlib.Data.Finset.Card
import Mathlib.Data.Finset.Image
import Mathlib.Data.List.Nodup

/-!
# Goals behind simple paths of levelled links

A vertex `a` at level `h` either meets the goal, or follows a link of level `h`
to a vertex whose key was not visited and goes on from there at level `h + 1`.
`SimpleReach` is that search as a relation; the vertices are told apart by a key.

* `simpleReach_iff_path`: with an injective key and a start that is visited, the
  relation holds exactly when there is a list of pairwise distinct vertices that
  starts at `a`, follows the links level by level and ends at a goal;
* `card_sdiff_insert_lt`: entering a fresh vertex of a finite set shrinks what is
  left of it, the measure a search of this kind terminates by.
-/

namespace SimplePath

variable {α κ : Type} [DecidableEq κ]

/-- From `a` at level `h` a goal is reachable along links that enter no vertex whose
key lies in `V` or was already entered. -/
inductive SimpleReach (key : α → κ) (link : ℕ → α → α → Prop) (goal : ℕ → α → Prop) :
    ℕ → Finset κ → α → Prop
  | here {h : ℕ} {V : Finset κ} {a : α} : goal h a → SimpleReach key link goal h V a
  | step {h : ℕ} {V : Finset κ} {a b : α} : link h a b → key b ∉ V →
      SimpleReach key link goal (h + 1) (insert (key b) V) b → SimpleReach key link goal h V a

/-- The vertices after `a` follow the links, level by level, and end at a goal. -/
def Follows (link : ℕ → α → α → Prop) (goal : ℕ → α → Prop) : ℕ → α → List α → Prop
  | h, a, [] => goal h a
  | h, a, b :: rest => link h a b ∧ Follows link goal (h + 1) b rest

theorem simpleReach_iff_follows {key : α → κ} (hkey : Function.Injective key)
    (link : ℕ → α → α → Prop) (goal : ℕ → α → Prop) (h : ℕ) (V : Finset κ) (a : α) :
    SimpleReach key link goal h V a ↔
      ∃ rest, rest.Nodup ∧ (∀ x ∈ rest, key x ∉ V) ∧ Follows link goal h a rest := by
  constructor
  · intro hr
    induction hr with
    | here hg => exact ⟨[], List.nodup_nil, by simp, hg⟩
    | @step h V a b hl hb _ ih =>
      obtain ⟨rest, hnd, hfresh, hf⟩ := ih
      refine ⟨b :: rest, List.nodup_cons.mpr ⟨?_, hnd⟩, ?_, hl, hf⟩
      · intro hmem
        exact hfresh b hmem (Finset.mem_insert_self _ _)
      · intro x hx
        rcases List.mem_cons.mp hx with rfl | hx
        · exact hb
        · exact fun hV => hfresh x hx (Finset.mem_insert_of_mem hV)
  · rintro ⟨rest, hnd, hfresh, hf⟩
    induction rest generalizing h V a with
    | nil => exact .here hf
    | cons b rest ih =>
      obtain ⟨hnb, hnd⟩ := List.nodup_cons.mp hnd
      refine .step hf.1 (hfresh b (by simp)) (ih (h + 1) _ b hnd ?_ hf.2)
      intro x hx hV
      rcases Finset.mem_insert.mp hV with he | hV
      · exact hnb (hkey he ▸ hx)
      · exact hfresh x (List.mem_cons_of_mem _ hx) hV

/-- Following the links is the same as taking link `i` from vertex `i` to vertex `i + 1`
of the list and meeting the goal at its last vertex. -/
theorem follows_iff (link : ℕ → α → α → Prop) (goal : ℕ → α → Prop) (h : ℕ) (a : α)
    (rest : List α) :
    Follows link goal h a rest ↔
      (∀ i x y, (a :: rest)[i]? = some x → (a :: rest)[i + 1]? = some y → link (h + i) x y) ∧
        goal (h + rest.length) ((a :: rest).getLast (by simp)) := by
  induction rest generalizing h a with
  | nil => simp [Follows]
  | cons b rest ih =>
    rw [Follows, ih]
    constructor
    · rintro ⟨hl, hall, hg⟩
      refine ⟨?_, by simpa [Nat.add_assoc, Nat.add_comm 1] using hg⟩
      intro i x y hx hy
      cases i with
      | zero =>
        simp at hx hy
        subst hx hy
        exact hl
      | succ i =>
        have := hall i x y (by simpa using hx) (by simpa using hy)
        simpa [Nat.add_assoc, Nat.add_comm 1] using this
    · rintro ⟨hall, hg⟩
      refine ⟨by simpa using hall 0 a b (by simp) (by simp), ?_, ?_⟩
      · intro i x y hx hy
        have := hall (i + 1) x y (by simpa using hx) (by simpa using hy)
        simpa [Nat.add_assoc, Nat.add_comm 1] using this
      · simpa [Nat.add_assoc, Nat.add_comm 1] using hg

/-- **Path form.** A search that starts with its own vertex visited reaches a goal exactly
when some list of pairwise distinct vertices follows the links from it to a goal. -/
theorem simpleReach_iff_path {key : α → κ} (hkey : Function.Injective key)
    (link : ℕ → α → α → Prop) (goal : ℕ → α → Prop) (a : α) :
    SimpleReach key link goal 0 {key a} a ↔
      ∃ path : List α, ∃ last, path.Nodup ∧ path.head? = some a ∧ path.getLast? = some last ∧
        (∀ i x y, path[i]? = some x → path[i + 1]? = some y → link i x y) ∧
        goal (path.length - 1) last := by
  rw [simpleReach_iff_follows hkey]
  constructor
  · rintro ⟨rest, hnd, hfresh, hf⟩
    obtain ⟨hall, hg⟩ := (follows_iff link goal 0 a rest).mp hf
    refine ⟨a :: rest, (a :: rest).getLast (by simp), List.nodup_cons.mpr ⟨?_, hnd⟩, rfl,
      List.getLast?_eq_getLast_of_ne_nil (by simp), by simpa using hall, by simpa using hg⟩
    exact fun hmem => hfresh a hmem (by simp)
  · rintro ⟨path, last, hnd, hhead, hlast, hall, hg⟩
    cases path with
    | nil => simp at hhead
    | cons b rest =>
      simp at hhead
      subst hhead
      obtain ⟨hnb, hnd⟩ := List.nodup_cons.mp hnd
      refine ⟨rest, hnd, ?_, (follows_iff link goal 0 b rest).mpr ⟨by simpa using hall, ?_⟩⟩
      · intro x hx hV
        rw [Finset.mem_singleton] at hV
        exact hnb (hkey hV ▸ hx)
      · simpa [Option.some.inj hlast] using hg

/-- Entering a vertex of `S` that was not visited leaves strictly less of `S` to visit. -/
theorem card_sdiff_insert_lt {S V : Finset κ} {k : κ} (hS : k ∈ S) (hV : k ∉ V) :
    (S \ insert k V).card < (S \ V).card := by
  rw [Finset.sdiff_insert]
  exact Finset.card_erase_lt_of_mem (Finset.mem_sdiff.mpr ⟨hS, hV⟩)

end SimplePath
