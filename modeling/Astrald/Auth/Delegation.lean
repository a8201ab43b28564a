import Astrald.Auth.Authorize
import Astrald.Lib.SimplePath

/-!
# `Authorize` is the bounded delegation relation

`Grants` says what ends a chain, `Link` what one link of it is, and `Delegated` what
the module is for: some chain of pairwise distinct identities leads from the actor to an
identity that is granted the action.

* `authorize_decides`: with fuel for every issuer that is not on the path yet, one call of
  the walk returns, hands the action and the visited set back unchanged, and decides
  `SimpleReach`; where a read of the database fails, it may only refuse;
* `authorize_iff_delegated`: for every module, every index, every action and enough
  fuel, `Authorize` returns, restores the actor, and allows only a non-zero actor with a
  delegation chain, and every one if no read fails.
-/

namespace Astrald.Auth

open SimplePath

variable {ID C Sig B : Type} [DecidableEq ID] {api : Api ID C Sig B}

/-! ## The relation -/

/-- Identity `x`, with `hops` links below it, is granted the action outright: by a handler
(a node-local one only for the caller itself) or by the external authority. -/
def Grants (mod : Module api) (a : Action ID B) (hops : ℕ) (x : ID) : Prop :=
  (∃ h ∈ mod.handlers a.objectType,
      (h.nodeLocal = true → hops = 0) ∧ h.authorize (a.setActor x) = true) ∨
    ∃ ask, externalFor mod x a.objectType = some ask ∧ ask (a.setActor x) = .ok true

/-- An active contract, as the store judges it, from issuer `y` to subject `x` carries the action over
one link that has `hops` links below it. -/
def Link (ix : Index api) (now : ℕ) (a : Action ID B) (hops : ℕ) (x y : ID) : Prop :=
  ∃ sc ∈ ix.rows, sc.expiresAt.after (Time.utc now) = true ∧ sc.issuer = y ∧ sc.subject = x ∧
    ∃ p ∈ sc.permits, p.action = a.objectType ∧ hops ≤ p.delegation.toNat ∧
      api.allows p (a.setActor x) = true

/-- A chain of pairwise distinct identities leads from the actor, link by link, to an
identity that is granted the action. -/
def Delegated (mod : Module api) (now : ℕ) (a : Action ID B) : Prop :=
  ∃ path : List ID, ∃ last, path.Nodup ∧ path.head? = some a.actor ∧ path.getLast? = some last ∧
    (∀ i x y, path[i]? = some x → path[i + 1]? = some y → Link mod.index now a i x y) ∧
    Grants mod a (path.length - 1) last

/-! ## What one level decides -/

omit [DecidableEq ID] in
theorem Index.issuer_ne_zero (lawful : api.Lawful) (ix : Index api) {sc : SignedContract ID C Sig}
    (hsc : sc ∈ ix.rows) : sc.issuer ≠ api.zero := by
  intro hz
  have hv := ix.verified sc hsc
  unfold verifyContract verifyIssuer verifyParty at hv
  cases hs : sc.issuerSig with
  | none => simp [hs] at hv
  | some s =>
    cases hr : api.verify sc.issuer s sc.toContract with
    | error e => simp [hs, hr] at hv
    | ok u =>
      rw [hz] at hr
      exact lawful.verify_zero s sc.toContract hr

theorem grants_iff (mod : Module api) (a : Action ID B) (hops : ℕ) :
    Grants mod a hops a.actor ↔
      authorizeHandlers mod a hops = true ∨ authorizeExternal mod a = true := by
  apply or_congr
  · simp only [authorizeHandlers, List.any_eq_true, setActor_self]
    refine exists_congr fun h => and_congr_right fun _ => ?_
    cases h.nodeLocal <;> cases hops <;> simp
  · unfold authorizeExternal askExternal
    cases externalFor mod a.actor a.objectType with
    | none => simp
    | some ask => cases hr : ask a <;> simp [hr]

/-- The contracts a level considers are exactly the active ones made out to its actor
that name the action type. -/
theorem mem_levelQuery_find (ix : Index api) (now : ℕ) (a : Action ID B)
    (ha : a.actor ≠ api.zero) (sc : SignedContract ID C Sig) :
    sc ∈ (levelQuery api a).find now ix ↔
      sc ∈ ix.rows ∧ sc.expiresAt.after (Time.utc now) = true ∧ sc.subject = a.actor ∧
        ∃ p ∈ sc.permits, p.action = a.objectType := by
  simp [ContractQuery.find, ContractQuery.selects, passes, levelQuery, ContractQuery.withSubject,
    ContractQuery.withAction, ha, and_assoc]

/-- Whatever was read before, the search returns with the action and the visited set as they were. It
says yes only if `goal` holds and, if the database can be relied on, also says yes if it does. -/
def Decides (search : ℕ → Option (Outcome ID B)) (reliable : Prop) (a : Action ID B) (V : Finset String)
    (goal : Prop) : Prop :=
  ∀ reads, ∃ v reads', search reads = some (v, a, V, reads') ∧ (v = true → goal) ∧ (reliable → goal → v = true)

section

omit [DecidableEq ID]

variable {walk : Walk ID B} {reliable : Prop} {a : Action ID B} {hops : ℕ} {V : Finset String}

theorem tryPermits_decides {issuer : ID} {goal : Prop} (hV : api.str issuer ∉ V)
    (hw : Decides (walk (a.setActor issuer) (hops + 1) (insert (api.str issuer) V)) reliable (a.setActor issuer)
      (insert (api.str issuer) V) goal) (ps : List (Permit C)) :
    Decides (tryPermits api walk a.actor issuer hops ps a V) reliable a V
      ((∃ p ∈ ps, hops ≤ p.delegation.toNat ∧ api.allows p a = true) ∧ goal) := by
  induction ps with
  | nil => exact fun reads => ⟨false, reads, rfl, by simp, by simp⟩
  | cons p ps ih =>
    intro reads
    unfold tryPermits
    by_cases hpasses : hops ≤ p.delegation.toNat ∧ api.allows p a = true
    · obtain ⟨hd, hallows⟩ := hpasses
      obtain ⟨v, reads', hwalk, hsound, hcomplete⟩ := hw reads
      simp only [Nat.not_lt.mpr hd, ↓reduceIte, hallows, Bool.not_true, Bool.false_eq_true, hwalk,
        Finset.erase_insert hV, setActor_setActor, setActor_self]
      cases v with
      | true => exact ⟨true, reads', rfl, fun _ => ⟨⟨p, by simp, hd, hallows⟩, hsound rfl⟩, fun _ _ => rfl⟩
      | false =>
        obtain ⟨b, reads'', hb, hsound', -⟩ := ih reads'
        refine ⟨b, reads'', hb, fun hyes => ?_, fun hreliable hgoal => ?_⟩
        · obtain ⟨⟨q, hq, hrest⟩, hgoal⟩ := hsound' hyes
          exact ⟨⟨q, List.mem_cons_of_mem _ hq, hrest⟩, hgoal⟩
        · exact absurd (hcomplete hreliable hgoal.2) Bool.false_ne_true
    · -- the permit is passed by
      have hskip : ∀ q ∈ p :: ps, hops ≤ q.delegation.toNat ∧ api.allows q a = true → q ∈ ps := by
        intro q hq hq'
        rcases List.mem_cons.mp hq with rfl | hq
        · exact absurd hq' hpasses
        · exact hq
      obtain ⟨b, reads', hb, hsound, hcomplete⟩ := ih reads
      refine ⟨b, reads', ?_, fun hyes => ?_, fun hreliable ⟨⟨q, hq, hq'⟩, hgoal⟩ => ?_⟩
      · rw [not_and, Bool.not_eq_true] at hpasses
        split
        · exact hb
        · rename_i hd
          rw [hpasses (Nat.le_of_not_lt hd)]
          exact hb
      · obtain ⟨⟨q, hq, hrest⟩, hgoal⟩ := hsound hyes
        exact ⟨⟨q, List.mem_cons_of_mem _ hq, hrest⟩, hgoal⟩
      · exact hcomplete hreliable ⟨⟨q, hskip q hq hq', hq'⟩, hgoal⟩

theorem tryContracts_decides (goal : ID → Prop) {scs : List (SignedContract ID C Sig)}
    (hw : ∀ sc ∈ scs, api.str sc.issuer ∉ V →
      Decides (walk (a.setActor sc.issuer) (hops + 1) (insert (api.str sc.issuer) V)) reliable
        (a.setActor sc.issuer) (insert (api.str sc.issuer) V) (goal sc.issuer)) :
    Decides (tryContracts api walk a.actor hops scs a V) reliable a V
      (∃ sc ∈ scs, api.str sc.issuer ∉ V ∧ (∃ p ∈ api.hasPermit sc.toContract a.objectType,
        hops ≤ p.delegation.toNat ∧ api.allows p a = true) ∧ goal sc.issuer) := by
  induction scs with
  | nil => exact fun reads => ⟨false, reads, rfl, by simp, by simp⟩
  | cons sc scs ih =>
    intro reads
    have ih := ih fun x hx => hw x (List.mem_cons_of_mem _ hx)
    unfold tryContracts
    by_cases hV : api.str sc.issuer ∈ V
    · obtain ⟨b, reads', hb, hsound, hcomplete⟩ := ih reads
      refine ⟨b, reads', by simp [hV, hb], fun hyes => ?_, fun hreliable hgoal => hcomplete hreliable ?_⟩
      · obtain ⟨x, hx, hrest⟩ := hsound hyes
        exact ⟨x, List.mem_cons_of_mem _ hx, hrest⟩
      · simpa [hV] using hgoal
    · rw [if_neg hV]
      obtain ⟨v, reads', hv, hsound, hcomplete⟩ := tryPermits_decides hV (hw sc (by simp) hV)
        (api.hasPermit sc.toContract a.objectType) reads
      rw [hv]
      cases v with
      | true => exact ⟨true, reads', rfl, fun _ => ⟨sc, by simp, hV, hsound rfl⟩, fun _ _ => rfl⟩
      | false =>
        obtain ⟨b, reads'', hb, hsound', hcomplete'⟩ := ih reads'
        refine ⟨b, reads'', hb, fun hyes => ?_, fun hreliable => ?_⟩
        · obtain ⟨x, hx, hrest⟩ := hsound' hyes
          exact ⟨x, List.mem_cons_of_mem _ hx, hrest⟩
        · rintro ⟨x, hx, hrest⟩
          rcases List.mem_cons.mp hx with rfl | hx
          · exact absurd (hcomplete hreliable hrest.2) Bool.false_ne_true
          · exact hcomplete' hreliable ⟨x, hx, hrest⟩

end

/-- The keys of all issuers in the index: what the visited set can grow by. -/
def issuerKeys (ix : Index api) : Finset String :=
  (ix.rows.map fun sc => api.str sc.issuer).toFinset

/-! ## The walk -/

/-- No read of the database fails. -/
def Module.Reliable (mod : Module api) : Prop := ∀ n, mod.faults n = none

/-- **Walk lemma.** One call of the walk with fuel for every unvisited issuer returns,
leaves the action and the visited set as they were, and decides the search. -/
theorem authorize_decides (lawful : api.Lawful) (mod : Module api) (now fuel : ℕ) (a : Action ID B) (hops : ℕ)
    (V : Finset String) (ha : a.actor ≠ api.zero) (hfuel : (issuerKeys mod.index \ V).card < fuel) :
    Decides (authorize mod now fuel a hops V) mod.Reliable a V
      (SimpleReach api.str (Link mod.index now a) (Grants mod a) hops V a.actor) := by
  induction fuel generalizing a hops V with
  | zero => omega
  | succ fuel ih =>
    have hfind := mem_levelQuery_find mod.index now a ha
    -- the level above, for each issuer that may be entered
    let goal (x : ID) : Prop :=
      SimpleReach api.str (Link mod.index now a) (Grants mod a) (hops + 1) (insert (api.str x) V) x
    have habove : ∀ sc ∈ (levelQuery api a).find now mod.index, api.str sc.issuer ∉ V →
        Decides (authorize mod now fuel (a.setActor sc.issuer) (hops + 1) (insert (api.str sc.issuer) V))
          mod.Reliable (a.setActor sc.issuer) (insert (api.str sc.issuer) V) (goal sc.issuer) := by
      intro sc hsc hV
      have hrow := ((hfind sc).mp hsc).1
      have hmem : api.str sc.issuer ∈ issuerKeys mod.index := by
        simp only [issuerKeys, List.mem_toFinset, List.mem_map]
        exact ⟨sc, hrow, rfl⟩
      have hlt := card_sdiff_insert_lt hmem hV
      exact ih (a.setActor sc.issuer) (hops + 1) (insert (api.str sc.issuer) V)
        (mod.index.issuer_ne_zero lawful hrow) (by omega)
    have hloop := tryContracts_decides goal habove
    intro reads
    unfold authorize authorizeLevel
    by_cases hh : authorizeHandlers mod a hops = true
    · refine ⟨true, reads, by simp [hh], fun _ => .here ?_, fun _ _ => rfl⟩
      exact (grants_iff mod a hops).mpr (.inl hh)
    rw [if_neg hh]
    cases hfault : mod.faults reads with
    | some e =>
      refine ⟨false, reads + 1, rfl, by simp, fun hreliable => ?_⟩
      exact absurd (hfault.symm.trans (hreliable reads)) (by simp)
    | none =>
      obtain ⟨b, reads', hb, hsound, hcomplete⟩ := hloop (reads + 1)
      simp only [hb]
      cases b with
      | true =>
        refine ⟨true, reads', rfl, fun _ => ?_, fun _ _ => rfl⟩
        obtain ⟨sc, hsc, hV, ⟨p, hp, hd, hal⟩, hreach⟩ := hsound rfl
        obtain ⟨hrow, hexp, hsub, -⟩ := (hfind sc).mp hsc
        obtain ⟨hpm, hpt⟩ := (lawful.mem_hasPermit _ _ _).mp hp
        exact .step ⟨sc, hrow, hexp, rfl, hsub, p, hpm, hpt, hd, by simpa using hal⟩ hV hreach
      | false =>
        refine ⟨authorizeExternal mod a, reads', rfl, fun he => ?_, fun hreliable hreach => ?_⟩
        · exact .here ((grants_iff mod a hops).mpr (.inr he))
        · cases hreach with
          | here hg => exact ((grants_iff mod a hops).mp hg).resolve_left hh
          | step hl hV hreach =>
            -- the contract loop finds every link
            obtain ⟨sc, hrow, hexp, rfl, hsub, p, hpm, hpt, hd, hal⟩ := hl
            have hyes := hcomplete hreliable ⟨sc, (hfind sc).mpr ⟨hrow, hexp, hsub, p, hpm, hpt⟩, hV,
              ⟨p, (lawful.mem_hasPermit _ _ _).mpr ⟨hpm, hpt⟩, hd, by simpa using hal⟩, hreach⟩
            exact absurd hyes Bool.false_ne_true

omit [DecidableEq ID] in
theorem card_issuerKeys_le (ix : Index api) (V : Finset String) :
    (issuerKeys ix \ V).card ≤ ix.rows.length := by
  calc (issuerKeys ix \ V).card ≤ (issuerKeys ix).card := Finset.card_le_card Finset.sdiff_subset
    _ ≤ (ix.rows.map fun sc => api.str sc.issuer).length := List.toFinset_card_le _
    _ = ix.rows.length := List.length_map _

/-- **Authorization is bounded delegation.** With more fuel than indexed contracts the walk returns, and
whichever of its reads fail the action comes back with its own actor and the verdict is `true` only for a non-zero
actor that a delegation chain connects to a granted identity. If no read fails it is `true` for every such actor. -/
theorem authorize_iff_delegated (lawful : api.Lawful) (mod : Module api) (now : ℕ) (a : Action ID B) (fuel : ℕ)
    (hfuel : mod.index.rows.length < fuel) :
    ∃ allowed, Authorize mod now fuel a = some (allowed, a) ∧
      (allowed = true → a.actor ≠ api.zero ∧ Delegated mod now a) ∧
      (mod.Reliable → (allowed = true ↔ a.actor ≠ api.zero ∧ Delegated mod now a)) := by
  unfold Authorize
  by_cases hz : a.actor = api.zero
  · exact ⟨false, if_pos hz, by simp, by simp [hz]⟩
  · have hpath : SimpleReach api.str (Link mod.index now a) (Grants mod a) 0 {api.str a.actor} a.actor ↔
        Delegated mod now a := simpleReach_iff_path lawful.str_injective _ _ _
    obtain ⟨v, reads, hv, hsound, hcomplete⟩ := authorize_decides lawful mod now fuel a 0 {api.str a.actor} hz
      ((card_issuerKeys_le mod.index _).trans_lt hfuel) 0
    rw [hpath] at hsound hcomplete
    refine ⟨v, ?_, fun hyes => ⟨hz, hsound hyes⟩, fun hreliable => ?_⟩
    · rw [if_neg hz, hv]
      rfl
    · exact ⟨fun hyes => ⟨hz, hsound hyes⟩, fun h => hcomplete hreliable h.2⟩

/-! ## A chain of two links -/

/-- Identities are their own keys, every signature of a named identity verifies, and a
permit with no constraint allows everything. -/
def demoApi : Api String Bool Unit Unit where
  zero := ""
  str := id
  hasPermit c t := c.permits.filter (·.action = t)
  allows p _ := !p.constraints
  verify id _ _ := if id = "" then .error "no key" else .ok ()

theorem demoApi_lawful : demoApi.Lawful where
  str_injective := Function.injective_id
  mem_hasPermit := by simp [demoApi]
  verify_zero := by simp [demoApi]

/-- root lets mid act and hand the action on once; mid lets leaf act. -/
def demoIndex : Index demoApi where
  rows :=
    [⟨⟨"root", "mid", Time.utc 10, [⟨"act", false, 1⟩]⟩, some (), some ()⟩,
     ⟨⟨"mid", "leaf", Time.utc 10, [⟨"act", false, 0⟩]⟩, some (), some ()⟩]
  verified := by
    simp [verifyContract, verifyIssuer, verifySubject, verifyParty, demoApi]

def demoModule : Module demoApi where
  handlers t := if t = "act" then [⟨false, fun a => a.actor = "root"⟩] else []
  external _ := none
  index := demoIndex
  faults _ := none

/-- leaf acts, two links below root. -/
theorem authorize_iff_delegated_leaf :
    Authorize demoModule 0 3 ⟨"act", "leaf", ()⟩ = some (true, ⟨"act", "leaf", ()⟩) ∧
      Delegated demoModule 0 ⟨"act", "leaf", ()⟩ := by
  have hrun : Authorize demoModule 0 3 ⟨"act", "leaf", ()⟩ = some (true, ⟨"act", "leaf", ()⟩) := by
    rfl
  obtain ⟨allowed, hret, -, hiff⟩ := authorize_iff_delegated demoApi_lawful demoModule 0 ⟨"act", "leaf", ()⟩ 3
    (by decide)
  rw [hrun] at hret
  simp only [Option.some.injEq, Prod.mk.injEq] at hret
  exact ⟨hrun, ((hiff fun _ => rfl).mp hret.1.symm).2⟩

end Astrald.Auth
