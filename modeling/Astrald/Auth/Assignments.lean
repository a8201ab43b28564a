import Mathlib
import Astrald.Auth.Authorize
import Astrald.Lib.Trace

/-!
# Assigned authorizers

`SetAuthorizer` and `RemoveAuthorizer` keep two stores in step: the list that persists in the tree and the
registry that `externalFor` asks. Both go by `externalKey`, which writes an action and an actor as one string.
The calls hold `authorizersMu`, and the tree value gives back what was last written to it.

* `externalKey_inj`: the key tells pairs apart, as long as no action-wide pair is named like an actor's pair;
* `assignments_decided`: then the last successful call for a pair decides what both stores say of it;
* `removed_by_another`: without that condition a call removes the assignment of another pair.
-/

namespace Astrald.Auth

open List Function

section

variable {ID C Sig B E : Type} [DecidableEq ID]

/-! ## The calls -/

structure Assignment (ID E : Type) where
  action : String
  /-- A nil actor is the zero identity. -/
  actor : ID
  /-- The endpoint with its timeout and token, as the authority built from them. -/
  authority : E
  deriving DecidableEq, Repr

def Assignment.pair (a : Assignment ID E) : String × ID := (a.action, a.actor)

/-- `mod.authorizers` and `mod.external`. -/
structure Assignments (ID E : Type) where
  list : List (Assignment ID E)
  external : String → Option E

/-- A call. `refused`: the assignment is not valid, names its actor as the authority or has no transport.
`fault`: the write to the tree fails. -/
inductive Op (ID E : Type)
  | set (a : Assignment ID E) (refused fault : Bool)
  | remove (action : String) (actor : ID) (fault : Bool)

variable (api : Api ID C Sig B)

def keyOf (p : String × ID) : String := externalKey api p.1 p.2

def withoutKey (list : List (Assignment ID E)) (key : String) : List (Assignment ID E) :=
  list.filter fun e => keyOf api e.pair ≠ key

def withAssignment (list : List (Assignment ID E)) (a : Assignment ID E) : List (Assignment ID E) :=
  withoutKey api list (keyOf api a.pair) ++ [a]

def setAuthorizer (s : Assignments ID E) (a : Assignment ID E) (refused fault : Bool) : Assignments ID E :=
  if refused || fault then s
  else ⟨withAssignment api s.list a, update s.external (keyOf api a.pair) (some a.authority)⟩

def removeAuthorizer (s : Assignments ID E) (action : String) (actor : ID) (fault : Bool) : Assignments ID E :=
  if fault then s
  else ⟨withoutKey api s.list (keyOf api (action, actor)), update s.external (keyOf api (action, actor)) none⟩

def step (s : Assignments ID E) : Op ID E → Assignments ID E
  | .set a refused fault => setAuthorizer api s a refused fault
  | .remove action actor fault => removeAuthorizer api s action actor fault

def assigned (ops : List (Op ID E)) : Assignments ID E := Trace.exec (step api) ⟨[], fun _ => none⟩ ops

/-! ## What the calls say -/

def Op.pair : Op ID E → String × ID
  | .set a _ _ => a.pair
  | .remove action actor _ => (action, actor)

def Op.verdict : Op ID E → Option (Option E)
  | .set a refused fault => if refused || fault then none else some (some a.authority)
  | .remove _ _ fault => if fault then none else some none

/-- What the last successful call for a pair says of it. -/
def decided (ops : List (Op ID E)) (p : String × ID) : Option E :=
  (Trace.latest (fun _ op => if op.pair = p then op.verdict else none) ops).join

/-- The pair is not an action-wide one that is named like the pair of an actor. -/
def Plain (p : String × ID) : Prop :=
  p.2 = api.zero → ∀ action actor, actor ≠ api.zero → p.1 ≠ action ++ "/" ++ api.str actor

/-- What is used of `Identity.String`: it prints a key in hexadecimal digits. -/
structure Printed : Prop where
  injective : Injective api.str
  no_slash : ∀ id, '/' ∉ (api.str id).toList

/-! ## Keys -/

variable {api}

/-- What follows the last slash. -/
theorem takeWhile_slash {l s : List Char} (h : '/' ∉ s) :
    (l ++ '/' :: s).reverse.takeWhile (· ≠ '/') = s.reverse := by
  have hs : ∀ c ∈ s.reverse, decide (c ≠ '/') = true := by
    intro c hc
    rw [decide_eq_true_iff]
    rintro rfl
    exact h (mem_reverse.mp hc)
  rw [reverse_append, reverse_cons, append_assoc, takeWhile_append_of_pos hs]
  simp

theorem externalKey_inj (hp : Printed api) {p q : String × ID} (hpp : Plain api p) (hqp : Plain api q)
    (h : keyOf api p = keyOf api q) : p = q := by
  unfold keyOf externalKey at h
  split at h <;> split at h <;> rename_i h₁ h₂
  · exact Prod.ext h (h₁.trans h₂.symm)
  · exact absurd h (hpp h₁ q.1 q.2 h₂)
  · exact absurd h.symm (hqp h₂ p.1 p.2 h₁)
  · have hl := congrArg String.toList h
    simp only [String.toList_append, append_assoc] at hl
    have hstr : (api.str p.2).toList.reverse = (api.str q.2).toList.reverse := by
      rw [← takeWhile_slash (l := p.1.toList) (hp.no_slash p.2), ← takeWhile_slash (l := q.1.toList) (hp.no_slash q.2)]
      exact congrArg (fun w => w.reverse.takeWhile (· ≠ '/')) hl
    have hact := append_cancel_right (hl.trans (by rw [reverse_injective hstr]))
    exact Prod.ext (String.toList_injective hact) (hp.injective (String.toList_injective (reverse_injective hstr)))

/-! ## The two stores -/

variable {op : Op ID E} {ops : List (Op ID E)} {s : Assignments ID E} {p : String × ID}

theorem decided_cons :
    decided (op :: ops) p = (if op.pair = p then op.verdict else none).getD (decided ops p) := by
  unfold decided
  rw [Trace.latest]
  cases (if op.pair = p then op.verdict else none) <;> rfl

/-- A call writes its verdict to both stores, or nothing. -/
theorem step_eq (s : Assignments ID E) (op : Op ID E) :
    step api s op = op.verdict.elim s fun v =>
      ⟨withoutKey api s.list (keyOf api op.pair) ++ v.toList.map (⟨op.pair.1, op.pair.2, ·⟩),
        update s.external (keyOf api op.pair) v⟩ := by
  cases op with
  | set a refused fault =>
    simp only [step, setAuthorizer, Op.verdict]
    split <;> rfl
  | remove action actor fault =>
    simp only [step, removeAuthorizer, Op.verdict]
    split
    · rfl
    · simp [Op.pair]

/-- The stores say of every pair what was decided of it. -/
structure Agrees (api : Api ID C Sig B) (ops : List (Op ID E)) (s : Assignments ID E) : Prop where
  plain : ∀ a ∈ s.list, Plain api a.pair
  nodup : (s.list.map Assignment.pair).Nodup
  listed : ∀ p, Plain api p → ∀ e, ⟨p.1, p.2, e⟩ ∈ s.list ↔ decided ops p = some e
  registry : ∀ p, Plain api p → s.external (keyOf api p) = decided ops p

theorem Agrees.step (hp : Printed api) (h : Agrees api ops s) (hop : Plain api op.pair) :
    Agrees api (op :: ops) (step api s op) := by
  rw [step_eq]
  cases hv : op.verdict with
  | none =>
    have hsame : ∀ p, decided (op :: ops) p = decided ops p := by
      intro p
      rw [decided_cons, hv, ite_self, Option.getD_none]
    exact { h with
      listed := fun p hpp e => by
        rw [hsame]
        exact h.listed p hpp e
      registry := fun p hpp => (h.registry p hpp).trans (hsame p).symm }
  | some v =>
    have hdec : ∀ p, decided (op :: ops) p = if op.pair = p then v else decided ops p := by
      intro p
      rw [decided_cons, hv]
      split <;> rfl
    -- among the entries of the list the key stands for the pair
    have hmem : ∀ a, a ∈ withoutKey api s.list (keyOf api op.pair) ↔ a ∈ s.list ∧ a.pair ≠ op.pair := by
      intro a
      simp only [withoutKey, mem_filter, decide_eq_true_iff]
      refine and_congr_right fun ha => not_congr ⟨externalKey_inj hp (h.plain a ha) hop, congrArg _⟩
    constructor
    case plain =>
      intro a ha
      rcases mem_append.mp ha with ha | ha
      · exact h.plain a ((hmem a).mp ha).1
      · obtain ⟨e, -, rfl⟩ := mem_map.mp ha
        exact hop
    case nodup =>
      rw [Option.elim_some, map_append, nodup_append]
      refine ⟨h.nodup.sublist (filter_sublist.map _), ?_, ?_⟩
      · cases v <;> simp
      · rintro q hq q' hq' rfl
        obtain ⟨a, ha, rfl⟩ := mem_map.mp hq
        obtain ⟨b, hb, hpair⟩ := mem_map.mp hq'
        obtain ⟨e, -, rfl⟩ := mem_map.mp hb
        exact ((hmem a).mp ha).2 hpair.symm
    case listed =>
      intro p hpp e
      rw [Option.elim_some, mem_append, hmem, h.listed p hpp e, hdec]
      by_cases hpe : op.pair = p
      · subst hpe
        cases v <;> simp [Assignment.pair, eq_comm]
      · have hne : p ≠ op.pair := Ne.symm hpe
        rw [if_neg hpe]
        simp only [mem_map, Assignment.mk.injEq]
        refine ⟨?_, fun hd => .inl ⟨hd, hne⟩⟩
        rintro (⟨hd, -⟩ | ⟨_, -, h₁, h₂, -⟩)
        · exact hd
        · exact absurd (Prod.ext h₁ h₂) hpe
    case registry =>
      intro p hpp
      rw [Option.elim_some, hdec]
      by_cases hpe : op.pair = p
      · rw [if_pos hpe, ← hpe]
        exact update_self ..
      · rw [if_neg hpe]
        exact (update_of_ne (fun he => hpe (externalKey_inj hp hpp hop he).symm) ..).trans (h.registry p hpp)

/-- **Assignments and registry stay in step**, when every call names a plain pair. The list has at most one
entry for a pair, the last successful call for a pair alone decides whether it is there, and `externalFor`
gives the authority of the actor's pair, or else of the action-wide one. A failed call changes nothing. -/
theorem assignments_decided (hp : Printed api) (ops : List (Op ID (Action ID B → Except String Bool)))
    (hops : ∀ op ∈ ops, Plain api op.pair) :
    ((assigned api ops).list.map Assignment.pair).Nodup ∧
      (∀ p, Plain api p → ∀ e, ⟨p.1, p.2, e⟩ ∈ (assigned api ops).list ↔ decided ops p = some e) ∧
      (∀ (mod : Module api) actor action, Plain api (action, actor) → Plain api (action, api.zero) →
        externalFor { mod with external := (assigned api ops).external } actor action =
          (decided ops (action, actor)).or (decided ops (action, api.zero))) ∧
      ∀ op : Op ID (Action ID B → Except String Bool), op.verdict = none →
        assigned api (op :: ops) = assigned api ops := by
  have h : Agrees api ops (assigned api ops) := by
    induction ops with
    | nil => exact ⟨nofun, nodup_nil, fun p _ e => ⟨nofun, nofun⟩, fun p _ => rfl⟩
    | cons op ops ih =>
      exact (ih fun op' hop' => hops op' (mem_cons_of_mem op hop')).step hp (hops op mem_cons_self)
  refine ⟨h.nodup, h.listed, fun mod actor action hpa hpz => ?_, fun op hv => ?_⟩
  · have hwide := h.registry _ hpz
    rw [keyOf, externalKey, if_pos rfl] at hwide
    have hown : (assigned api ops).external (externalKey api action actor) = _ := h.registry _ hpa
    unfold externalFor
    dsimp only
    rw [hown, hwide]
    cases decided ops (action, actor) <;> rfl
  · show step api (assigned api ops) op = _
    rw [step_eq, hv]
    rfl

end

/-! ## One actor -/

/-- The zero identity and one that prints as `k`. -/
def oneActor : Api Bool Unit Unit Unit where
  zero := false
  str actor := if actor then "k" else ""
  hasPermit _ _ := []
  allows _ _ := false
  verify _ _ _ := .error "no key"

def grant (action : String) (actor : Bool) : Op Bool (Action Bool Unit → Except String Bool) :=
  .set ⟨action, actor, fun _ => .ok true⟩ false false

/-- The action is assigned to the actor and to everyone, the actor's authority is replaced, and the
action-wide one removed. Latest first. -/
def reassigned : List (Op Bool (Action Bool Unit → Except String Bool)) :=
  [.remove "act" false false, .set ⟨"act", true, fun _ => .ok false⟩ false false, grant "act" false,
    grant "act" true]

theorem assignments_decided_pair :
    ((assigned oneActor reassigned).list.map Assignment.pair).Nodup ∧
      ⟨"act", true, fun _ => .ok false⟩ ∈ (assigned oneActor reassigned).list ∧
      (∀ e, ⟨"act", false, e⟩ ∉ (assigned oneActor reassigned).list) ∧
      ∀ mod : Module oneActor,
        externalFor { mod with external := (assigned oneActor reassigned).external } true "act" =
          some fun _ => .ok false := by
  have hprinted : Printed oneActor := ⟨by decide, by decide⟩
  have hplain : ∀ actor, Plain oneActor ("act", actor) := by
    intro actor _ action other _ heq
    have hslash : '/' ∈ "act".toList := by
      rw [show "act" = action ++ "/" ++ oneActor.str other from heq]
      simp
    exact absurd hslash (by decide)
  have hops : ∀ op ∈ reassigned, Plain oneActor op.pair := by
    simp only [reassigned, grant, forall_mem_cons, Op.pair]
    exact ⟨hplain _, hplain _, hplain _, hplain _, nofun⟩
  obtain ⟨hnodup, hlisted, hfor, -⟩ := assignments_decided hprinted reassigned hops
  refine ⟨hnodup, (hlisted _ (hplain true) _).mpr rfl, fun e he => ?_, fun mod => ?_⟩
  · exact absurd ((hlisted _ (hplain false) e).mp he) nofun
  · exact hfor mod true "act" (hplain true) (hplain false)

/-- Removing the action-wide assignment of the action `act/k` removes the assignment of `act` to the actor
that prints as `k`: neither the list nor the registry has it afterwards. -/
theorem removed_by_another :
    (decided [.remove "act/k" false false, grant "act" true] ("act", true)).isSome = true ∧
      (assigned oneActor [.remove "act/k" false false, grant "act" true]).list.map Assignment.pair = [] ∧
      ((assigned oneActor [.remove "act/k" false false, grant "act" true]).external
        (keyOf oneActor ("act", true))).isSome = false := by
  refine ⟨rfl, ?_, ?_⟩
  · decide
  · decide

end Astrald.Auth
