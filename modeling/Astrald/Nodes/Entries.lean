import Astrald.Lib.Table
import Astrald.Nodes.Registry

/-!
# The entries of the session maps

What the `sessions` maps of a node hold, over every interleaving.

* `Node.Sound`: an entry is under the nonce of its session, in one map at most, and whoever closes
  the session is going to delete it;
* `Node.Sound.step`: every step keeps this, if it is orderly;
* `Node.registry_law`: in orderly runs a quiescent node's maps hold no closed session and no session
  under another's nonce or in two maps, and a closed session stays in the closed state;
* `zero_nonce`, `opened_after_close`, `closed_while_moved`: what happens otherwise.
-/

namespace Astrald.Nodes.Registry

open List

variable {M Who K : Type} [DecidableEq M] [DecidableEq Who] [DecidableEq K]

namespace Node

/-- A migrator is about to set the session open. -/
def held (gs : List (Migrator M)) (s : ℕ) : Bool := gs.any fun g => g.session = s && g.holds

/-- A migrator has put the session into a map, and has not told it so. -/
def untold (gs : List (Migrator M)) (s : ℕ) : Bool := gs.any fun g => g.session = s && g.moving = .added s

/-- Why the entry of an open session in the map of `m` will go when the session is closed. -/
inductive Hooked (gs : List (Migrator M)) (m : M) (s : ℕ) (c : Conn M Who K) : Prop
  | onClose (h : c.onClose = some (m, c.nonce))
  | stored (h : c.stage = .stored)
  | untold (h : untold gs s = true)

/-- What is known of a session that has an entry in the map of `m`. -/
structure Entry (gs : List (Migrator M)) (m : M) (s : ℕ) (c : Conn M Who K) : Prop where
  home : c.stage.creating = true → c.home = m
  closed : c.closed = true → c.closing = .marked (some (m, c.nonce)) ∨ c.stage.creating = true
  hooked : c.closed = false → Hooked gs m s c

/-- What is known of a migrator: whose session it has, and in which maps that session is. -/
structure Moves (r : Node M Who K) (g : Migrator M) : Prop where
  ready : ∃ c, r.conns[g.session]? = some c ∧ c.stage.creating = false
  moved : ∀ x, g.moving = .removed x ∨ g.moving = .added x → x = g.session
  removed : ∀ x, g.moving = .removed x → ∀ m k, r.sessions m k ≠ some x
  added : ∀ x, g.moving = .added x → ∀ m k, r.sessions m k = some x → m = g.target

structure Sound (r : Node M Who K) : Prop where
  key : ∀ (s : ℕ) (c : Conn M Who K), r.conns[s]? = some c → c.key = c.nonce
  closed : ∀ (s : ℕ) (c : Conn M Who K), r.conns[s]? = some c → c.closed = true →
    c.state = .closed ∧ c.stage ≠ .accepted ∧ held r.migrators s = false
  entry : ∀ m k s, r.sessions m k = some s → ∃ c, r.conns[s]? = some c ∧ c.nonce = k ∧ Entry r.migrators m s c
  unique : ∀ m m' k k' s, r.sessions m k = some s → r.sessions m' k' = some s → m = m'
  moves : ∀ g ∈ r.migrators, r.Moves g
  alone : ∀ (i j : ℕ) (g g' : Migrator M), r.migrators[i]? = some g → r.migrators[j]? = some g' →
    g.carries = true →
    g'.carries = true → g.session = g'.session → i = j

variable {r : Node M Who K} {c c' d : Conn M Who K} {s j : ℕ} {g : Migrator M} {gs : List (Migrator M)}

omit [DecidableEq Who] [DecidableEq K] in
/-- A step of one session keeps the node sound, if it keeps what is known of the session. -/
theorem Sound.setConn (h : r.Sound) (hs : r.conns[s]? = some c) (hkey : c'.key = c.key)
    (hnonce : c'.nonce = c.nonce)
    (hclosed : c'.closed = true → c'.state = .closed ∧ c'.stage ≠ .accepted ∧ held r.migrators s = false)
    (hready : c.stage.creating = false → c'.stage.creating = false)
    (hentry : ∀ m, r.sessions m c.nonce = some s → Entry r.migrators m s c → Entry r.migrators m s c') :
    (r.setConn s c').Sound := { h with
  key t e he := by
    rw [conns_setConn hs] at he
    split at he
    · cases he
      rw [hkey, hnonce]
      exact h.key s c hs
    · exact h.key t e he
  closed t e he := by
    rw [conns_setConn hs] at he
    split at he
    · rename_i hts
      cases he
      rw [hts]
      exact hclosed
    · exact h.closed t e he
  entry m k t ht := by
    obtain ⟨e, he, hk, hent⟩ := h.entry m k t ht
    by_cases hts : t = s
    · subst hts
      obtain rfl : c = e := Option.some.inj (hs.symm.trans he)
      refine ⟨c', by rw [conns_setConn hs, if_pos rfl], hnonce.trans hk, hentry m ?_ hent⟩
      rw [hk]
      exact ht
    · exact ⟨e, by rw [conns_setConn hs, if_neg hts]; exact he, hk, hent⟩
  moves g hg := { h.moves g hg with
    ready := by
      obtain ⟨e, he, hcr⟩ := (h.moves g hg).ready
      by_cases hgs : g.session = s
      · rw [hgs] at he
        obtain rfl : c = e := Option.some.inj (hs.symm.trans he)
        exact ⟨c', by rw [conns_setConn hs, if_pos hgs], hready hcr⟩
      · exact ⟨e, by rw [conns_setConn hs, if_neg hgs]; exact he, hcr⟩ } }

omit [DecidableEq Who] in
theorem Sound.delete (h : r.Sound) (m : M) (k : K) : (r.setEntry m k none).Sound := by
  have hsub : ∀ m' k' s, (r.setEntry m k none).sessions m' k' = some s → r.sessions m' k' = some s := by
    intro m' k' s hs
    rw [sessions_setEntry] at hs
    split at hs
    · cases hs
    · exact hs
  exact { h with
    entry := fun m' k' s hs => h.entry m' k' s (hsub m' k' s hs)
    unique := fun m₁ m₂ k₁ k₂ s h₁ h₂ => h.unique m₁ m₂ k₁ k₂ s (hsub _ _ _ h₁) (hsub _ _ _ h₂)
    moves := fun g hg => { h.moves g hg with
      removed := fun x hx m' k' hs => (h.moves g hg).removed x hx m' k' (hsub _ _ _ hs)
      added := fun x hx m' k' hs => (h.moves g hg).added x hx m' k' (hsub _ _ _ hs) } }

omit [DecidableEq Who] in
theorem Sound.erase (h : r.Sound) (e : Option (M × K)) : (r.erase e).Sound := by
  rcases e with _ | ⟨m, k⟩
  · exact h
  · exact h.delete m k

omit [DecidableEq M] in
theorem held_iff : held gs s = true ↔ ∃ g ∈ gs, g.session = s ∧ g.holds = true := by simp [held]

theorem untold_iff : untold gs s = true ↔ ∃ g ∈ gs, g.session = s ∧ g.moving = .added s := by simp [untold]

theorem held_of_untold (h : untold gs s = true) : held gs s = true := by
  obtain ⟨g, hg, hs, hmv⟩ := untold_iff.mp h
  exact held_iff.mpr ⟨g, hg, hs, by simp [Migrator.holds, hmv]⟩

section

omit [DecidableEq Who] [DecidableEq K]

/-- A step that changes neither the hook nor the closing, of a session that is created. -/
theorem Entry.congr {m : M} (h : Entry gs m s c) (hcr : c.stage.creating = false)
    (hcr' : c'.stage.creating = false) (hclosed : c'.closed = c.closed) (hclosing : c'.closing = c.closing)
    (hon : c'.onClose = c.onClose) (hnonce : c'.nonce = c.nonce) : Entry gs m s c' := by
  refine ⟨fun hc => ?_, fun hc => .inl ?_, fun hc => ?_⟩
  · rw [hcr'] at hc
    cases hc
  · rw [hclosing, hnonce]
    rcases h.closed (hclosed ▸ hc) with hm | hc'
    · exact hm
    · rw [hcr] at hc'
      cases hc'
  · rcases h.hooked (hclosed ▸ hc) with hon' | hst | hun
    · exact .onClose (by rw [hon, hnonce]; exact hon')
    · rw [hst] at hcr
      cases hcr
    · exact .untold hun

/-- What is known of a session with an entry, when it is closed with no migrator about to tell it of
another map. -/
theorem Entry.close {m : M} (h : Entry gs m s c) (hheld : c.closed = false → held gs s = false) :
    Entry gs m s c.close := by
  refine Trace.unless_keeps h fun hc => ?_
  have hc : c.closed = false := by simpa using hc
  refine ⟨h.home, fun _ => ?_, fun hcl => by cases hcl⟩
  rcases h.hooked hc with hon | hst | hun
  · exact .inl (congrArg Closing.marked hon)
  · exact .inr (by show c.stage.creating = true; rw [hst]; rfl)
  · rw [held_of_untold hun] at hheld
    cases hheld hc

/-- A step of a session keeps what is known of its entry, unless it deletes it. -/
theorem Entry.step {m : M} (h : Entry gs m s c) (hkey : c.key = c.nonce) (op : ConnOp M)
    (herase : c.erases op ≠ some (m, c.nonce))
    (hheld : op = .close ∨ op = .drop ∧ c.stage = .refusing → c.closed = false → held gs s = false) :
    Entry gs m s (c.step op) := by
  cases op with
  | hook =>
    refine Trace.when_keeps h fun hst => ?_
    have hhome := h.home (by rw [hst]; rfl)
    exact ⟨fun _ => hhome, fun _ => .inr rfl, fun _ => .onClose (by rw [hhome, hkey])⟩
  | setup =>
    refine Trace.when_keeps h fun hst => ?_
    cases hc : c.closed with
    | true =>
      have hhome := h.home (by rw [hst]; rfl)
      exact absurd (by simp [Conn.erases, hst, hc, hhome, hkey]) herase
    | false =>
      refine ⟨fun hcr => (by cases hcr), fun hcl => (by cases hcl), fun _ => ?_⟩
      rcases h.hooked hc with hon | hst' | hun
      · exact .onClose hon
      · rw [hst] at hst'
        cases hst'
      · exact .untold hun
  | route v =>
    refine Trace.when_keeps h fun hst => ?_
    exact h.congr (by rw [hst.1]; rfl) (by cases v <;> rfl) rfl rfl rfl rfl
  | setOpen | resume =>
    refine Trace.when_keeps h fun hst => ?_
    exact h.congr (by rw [hst]; rfl) rfl rfl rfl rfl rfl
  | respond =>
    simp only [Conn.step]
    split
    · rename_i hst
      exact h.congr (by rw [hst]; rfl) rfl rfl rfl rfl rfl
    · rename_i hst
      exact h.congr (by rw [hst]; rfl) rfl rfl rfl rfl rfl
    · exact h
  | drop =>
    refine Trace.when_keeps h fun hst => ?_
    have hclose := h.close (hheld (.inr ⟨rfl, hst⟩))
    have hstage : c.close.stage = .refusing := c.close_fields.2.2.2.2.1.trans hst
    exact hclose.congr (by rw [hstage]; rfl) rfl rfl rfl rfl rfl
  | close => exact h.close (hheld (.inl rfl))
  | unhook =>
    simp only [Conn.step]
    split
    · rename_i oc hclosing
      refine ⟨h.home, fun hc => ?_, fun hc => ?_⟩
      · rcases h.closed hc with hm | hcr
        · rw [hclosing] at hm
          exact absurd (by simp only [Conn.erases, hclosing]; exact Closing.marked.inj hm) herase
        · exact .inr hcr
      · rcases h.hooked hc with hon | hst | hun
        · exact .onClose hon
        · exact .stored hst
        · exact .untold hun
    · exact h
  | begin target =>
    refine Trace.when_keeps h fun hst => ?_
    have hcr : c.stage.creating = false := by
      have := hst.1
      simp only [Stage.ready, Bool.and_eq_true, Bool.not_eq_true'] at this
      exact this.1
    exact h.congr hcr hcr rfl rfl rfl rfl

end

/-- The steps that the registry is not made for: a query without a nonce; a session that is closed
when its router accepts it, or between that and its opening; and a `Complete` that finds another
session under the nonce, or its own session closed or not told of its map yet, or whose session is
closed before it is done. -/
def orderly [Zero K] (r : Node M Who K) : Op M Who K → Bool
  | .create _ nonce _ _ _ _ => nonce ≠ 0
  | .conn s (.route .accept) => r.conns[s]?.all fun c => c.stage ≠ .routing || c.outbound || !c.closed
  | .conn s .close => r.conns[s]?.all fun c => c.closed || c.stage ≠ .accepted && !held r.migrators s
  | .conn s .drop => r.conns[s]?.all fun c => c.closed || c.stage ≠ .refusing || !held r.migrators s
  | .migrator j .remove => r.migrators[j]?.all fun g => r.conns[g.session]?.all fun c =>
      match g.moving with
      | .located old =>
        if old = g.target then !c.closed
        else (r.sessions old c.nonce).all fun x => x = g.session && !c.closed && !untold r.migrators x
      | _ => true
  | _ => true

/-- A closed session is in the closed state, it is not set open and no migrator is about to do so. -/
def Shut (gs : List (Migrator M)) (s : ℕ) (c : Conn M Who K) : Prop :=
  c.closed = true → c.state = .closed ∧ c.stage ≠ .accepted ∧ held gs s = false

section

omit [DecidableEq M] [DecidableEq Who] [DecidableEq K]

/-- A session that changes its stage only, and not to the accepted one. -/
theorem Shut.congr (h : Shut gs s c) (hcl : c'.closed = c.closed) (hst : c'.state = c.state)
    (hne : c'.stage ≠ .accepted) : Shut gs s c' := by
  intro hc
  obtain ⟨hstate, -, hheld⟩ := h (hcl ▸ hc)
  exact ⟨hst.trans hstate, hne, hheld⟩

theorem Shut.close (h : Shut gs s c) (hord : c.closed = false → held gs s = false) :
    c.close.state = .closed ∧ held gs s = false := by
  unfold Conn.close
  split
  · rename_i hc
    exact ⟨(h hc).1, (h hc).2.2⟩
  · rename_i hc
    exact ⟨rfl, hord (by simpa using hc)⟩

end

omit [DecidableEq Who] in
/-- What is known of a closed session is kept by every orderly step of it. -/
theorem Shut.step [Zero K] (h : Shut r.migrators s c) (hs : r.conns[s]? = some c) {op : ConnOp M}
    (hord : r.orderly (.conn s op) = true) : Shut r.migrators s (c.step op) := by
  cases op with
  | hook | resume =>
    refine Trace.when_keeps h fun _ => ?_
    exact h.congr rfl rfl (by simp)
  | setup =>
    refine Trace.when_keeps h fun _ => ?_
    exact h.congr rfl rfl (by dsimp only; split <;> simp)
  | route v =>
    refine Trace.when_keeps h fun hst => ?_
    cases v with
    | accept =>
      intro hcl
      have hcl : c.closed = true := hcl
      simp [orderly, hs, hst.1, hst.2, hcl] at hord
    | reject code | fail => exact h.congr rfl rfl (by simp [Conn.routed])
  | setOpen =>
    refine Trace.when_keeps h fun hst hcl => ?_
    exact absurd hst (h hcl).2.1
  | respond =>
    simp only [Conn.step]
    split
    · exact h.congr rfl rfl (by simp)
    · exact h.congr rfl rfl (by simp)
    · exact h
  | drop =>
    refine Trace.when_keeps h fun hst _ => ?_
    obtain ⟨hstate, hheld⟩ := h.close fun hc => by simpa [orderly, hs, hst, hc] using hord
    exact ⟨hstate, by simp, hheld⟩
  | close =>
    obtain ⟨hstate, hheld⟩ := h.close fun hc => by
      have := hord
      simp only [orderly, hs, Option.all_some, hc, Bool.false_or, Bool.and_eq_true, Bool.not_eq_true'] at this
      exact this.2
    refine fun _ => ⟨hstate, ?_, hheld⟩
    show c.close.stage ≠ .accepted
    rw [c.close_fields.2.2.2.2.1]
    cases hc : c.closed with
    | true => exact (h hc).2.1
    | false =>
      simp only [orderly, hs, Option.all_some, hc, Bool.false_or, Bool.and_eq_true, decide_eq_true_eq] at hord
      exact hord.1
  | unhook =>
    simp only [Conn.step]
    split
    · exact h
    · exact h
  | begin target =>
    refine Trace.when_keeps h fun hst hcl => ?_
    have := (h hcl).1
    rw [hst.2] at this
    cases this

omit [DecidableEq Who] [DecidableEq K] in
/-- A step of one migrator keeps the node sound, if it takes hold of an open session only, tells the
session of its map before it forgets it, and is the only one that carries it. -/
theorem Sound.setMigrator (h : r.Sound) {g' : Migrator M} (hj : r.migrators[j]? = some g)
    (hsession : g'.session = g.session)
    (hholds : g'.holds = true → g.holds = true ∨ ∀ c, r.conns[g.session]? = some c → c.closed = false)
    (htold : ∀ x, g.moving = .added x → g'.moving = .added x ∨ ∀ m (c : Conn M Who K), r.conns[x]? = some c →
      r.sessions m c.nonce = some x → c.onClose = some (m, c.nonce))
    (hmoves : r.Moves g')
    (halone : g'.carries = true → ∀ (i : ℕ) (q : Migrator M), r.migrators[i]? = some q → i ≠ j →
      q.carries = true → q.session ≠ g.session) :
    (r.setMigrator j g').Sound := by
  have hgmem : g ∈ r.migrators := mem_of_getElem? hj
  have hmem : ∀ q ∈ (r.setMigrator j g').migrators, q = g' ∨ q ∈ r.migrators := by
    intro q hq
    rcases mem_or_eq_of_mem_set hq with hold | hnew
    · exact .inr hold
    · exact .inl hnew
  refine ⟨h.key, fun s c hs hc => ?_, fun m k s hs => ?_, h.unique, fun q hq => ?_,
    fun i i' q q' hi hi' hq hq' hqs => ?_⟩
  · obtain ⟨hstate, hstage, hheld⟩ := h.closed s c hs hc
    refine ⟨hstate, hstage, ?_⟩
    rw [Bool.eq_false_iff] at hheld ⊢
    intro hnew
    obtain ⟨q, hq, hqs, hqh⟩ := held_iff.mp hnew
    rcases hmem q hq with rfl | hold
    · rcases hholds hqh with hg | hopen
      · exact hheld (held_iff.mpr ⟨g, hgmem, hsession.symm.trans hqs, hg⟩)
      · rw [hopen c (by rw [← hsession, hqs]; exact hs)] at hc
        cases hc
    · exact hheld (held_iff.mpr ⟨q, hold, hqs, hqh⟩)
  · obtain ⟨c, hc, hk, hent⟩ := h.entry m k s hs
    refine ⟨c, hc, hk, hent.home, hent.closed, fun hcl => ?_⟩
    rcases hent.hooked hcl with hon | hst | hun
    · exact .onClose hon
    · exact .stored hst
    · obtain ⟨q, hq, hqs, hqm⟩ := untold_iff.mp hun
      by_cases hqg : q = g
      · subst hqg
        rcases htold s hqm with hstill | htold
        · have hg' : g' ∈ r.migrators.set j g' := mem_set (List.getElem?_eq_some_iff.mp hj).1 g'
          exact .untold (untold_iff.mpr ⟨g', hg', hsession.trans hqs, hstill⟩)
        · exact .onClose (htold m c hc (hk ▸ hs))
      · exact .untold (untold_iff.mpr ⟨q, Pool.mem_set_of_ne hj hq hqg, hqs, hqm⟩)
  · rcases hmem q hq with rfl | hold
    · exact { hmoves with }
    · exact { h.moves q hold with }
  · rcases (Pool.getElem?_set_some hj).mp hi with ⟨rfl, rfl⟩ | ⟨hij, hold⟩
    · rcases (Pool.getElem?_set_some hj).mp hi' with ⟨rfl, rfl⟩ | ⟨hij, hold⟩
      · rfl
      · exact absurd (hqs.symm.trans hsession) (halone hq i' q' hold hij hq')
    · rcases (Pool.getElem?_set_some hj).mp hi' with ⟨rfl, rfl⟩ | ⟨-, hold'⟩
      · exact absurd (hqs.trans hsession) (halone hq' i q hold hij hq)
      · exact h.alone i i' q q' hold hold' hq hq' hqs

omit [DecidableEq Who] in
/-- A session that is in no map can get an entry. -/
theorem Sound.insert (h : r.Sound) {m : M} {k : K} {x : ℕ} (hx : ∀ m k, r.sessions m k ≠ some x)
    (hd : r.conns[x]? = some d) (hk : d.nonce = k) (hent : Entry r.migrators m x d)
    (hremoved : ∀ g ∈ r.migrators, g.moving ≠ .removed x)
    (hadded : ∀ g ∈ r.migrators, g.moving = .added x → m = g.target) : (r.setEntry m k (some x)).Sound := by
  have hcases : ∀ m' k' s, (r.setEntry m k (some x)).sessions m' k' = some s →
      m' = m ∧ k' = k ∧ s = x ∨ r.sessions m' k' = some s := by
    intro m' k' s hs
    rw [sessions_setEntry] at hs
    split at hs
    · rename_i hmk
      cases hs
      exact .inl ⟨hmk.1, hmk.2, rfl⟩
    · exact .inr hs
  refine { h with
    entry := fun m' k' s hs => ?_
    unique := fun m₁ m₂ k₁ k₂ s h₁ h₂ => ?_
    moves := fun g hg => { h.moves g hg with
      removed := fun y hy m' k' hs => ?_
      added := fun y hy m' k' hs => ?_ } }
  · rcases hcases m' k' s hs with ⟨rfl, rfl, rfl⟩ | hold
    · exact ⟨d, hd, hk, hent⟩
    · exact h.entry m' k' s hold
  · rcases hcases m₁ k₁ s h₁ with ⟨rfl, rfl, rfl⟩ | hold₁
    · rcases hcases m₂ k₂ s h₂ with ⟨rfl, rfl, -⟩ | hold₂
      · rfl
      · exact absurd hold₂ (hx m₂ k₂)
    · rcases hcases m₂ k₂ s h₂ with ⟨rfl, rfl, rfl⟩ | hold₂
      · exact absurd hold₁ (hx m₁ k₁)
      · exact h.unique m₁ m₂ k₁ k₂ s hold₁ hold₂
  · rcases hcases m' k' y hs with ⟨rfl, rfl, rfl⟩ | hold
    · exact hremoved g hg hy
    · exact (h.moves g hg).removed y hy m' k' hold
  · rcases hcases m' k' y hs with ⟨rfl, rfl, rfl⟩ | hold
    · exact hadded g hg hy
    · exact (h.moves g hg).added y hy m' k' hold

/-! ## Every step -/

omit [DecidableEq Who] [DecidableEq K] in
theorem Sound.append (h : r.Sound) (hkey : d.key = d.nonce) (hopen : d.closed = false) :
    ({ r with conns := r.conns ++ [d] } : Node M Who K).Sound := by
  have hold : ∀ (s : ℕ) (c : Conn M Who K), r.conns[s]? = some c → (r.conns ++ [d])[s]? = some c := by
    intro s c hs
    rw [List.getElem?_append_left (List.getElem?_eq_some_iff.mp hs).1]
    exact hs
  have hnew : ∀ (s : ℕ) (c : Conn M Who K), (r.conns ++ [d])[s]? = some c → r.conns[s]? = some c ∨ c = d := by
    intro s c hs
    rw [List.getElem?_append] at hs
    split at hs
    · exact .inl hs
    · exact .inr (mem_singleton.mp (mem_of_getElem? hs))
  refine { h with
    key := fun s c hs => ?_
    closed := fun s c hs hc => ?_
    entry := fun m k s hs => ?_
    moves := fun g hg => { h.moves g hg with ready := ?_ } }
  · rcases hnew s c hs with hs | rfl
    · exact h.key s c hs
    · exact hkey
  · rcases hnew s c hs with hs | rfl
    · exact h.closed s c hs hc
    · rw [hopen] at hc
      cases hc
  · obtain ⟨c, hc, hk, hent⟩ := h.entry m k s hs
    exact ⟨c, hold s c hc, hk, hent⟩
  · obtain ⟨c, hc, hcr⟩ := (h.moves g hg).ready
    exact ⟨c, hold _ c hc, hcr⟩

omit [DecidableEq Who] in
theorem Sound.create [Zero K] (h : r.Sound) (m : M) {nonce : K} (hnonce : nonce ≠ 0) (drawn : K) (remote : Who)
    (source : Option Who) (outbound : Bool) : (r.create m nonce drawn remote source outbound).Sound := by
  unfold Node.create
  rw [if_neg hnonce]
  split
  · exact h
  · have hnone : r.conns[r.conns.length]? = none := List.getElem?_eq_none le_rfl
    have hfree : ∀ g ∈ r.migrators, g.session ≠ r.conns.length := by
      intro g hg hgs
      obtain ⟨c, hc, -⟩ := (h.moves g hg).ready
      rw [hgs, hnone] at hc
      cases hc
    refine (h.append (d := ⟨m, nonce, nonce, remote, source, outbound, .stored, .routing, false, none, .live,
      none, 0⟩)
      rfl rfl).insert (fun m' k' hs => ?_) List.getElem?_concat_length rfl ?_ (fun g hg hm =>
        ?_) fun g hg hm => ?_
    · obtain ⟨c, hc, -⟩ := h.entry m' k' _ hs
      rw [hnone] at hc
      cases hc
    · exact ⟨fun _ => rfl, fun hc => (by cases hc), fun _ => .stored rfl⟩
    · exact hfree g hg ((h.moves g hg).moved _ (.inl hm)).symm
    · exact absurd ((h.moves g hg).moved _ (.inr hm)).symm (hfree g hg)

omit [DecidableEq Who] [DecidableEq K] in
/-- A step that changes neither the stage, the hook nor the closing. -/
theorem Entry.same {m : M} (h : Entry gs m s c) (hhome : c'.home = c.home) (hstage : c'.stage = c.stage)
    (hclosed : c'.closed = c.closed) (hclosing : c'.closing = c.closing) (hon : c'.onClose = c.onClose)
    (hnonce : c'.nonce = c.nonce) : Entry gs m s c' := by
  refine ⟨fun hc => ?_, fun hc => ?_, fun hc => ?_⟩
  · rw [hhome]
    exact h.home (hstage ▸ hc)
  · rw [hclosing, hnonce, hstage]
    exact h.closed (hclosed ▸ hc)
  · rcases h.hooked (hclosed ▸ hc) with hon' | hst | hun
    · exact .onClose (by rw [hon, hnonce]; exact hon')
    · exact .stored (hstage.trans hst)
    · exact .untold hun

omit [DecidableEq K] in
theorem Sound.handleResponse (h : r.Sound) (peer : M → Who) (m : M) (nonce : K) (code : ℕ) :
    (r.handleResponse peer m nonce code).Sound := by
  unfold Node.handleResponse
  split
  · exact h
  · split
    · exact h
    · rename_i s _ _ c hs
      rcases c.handleResponse_cases (peer m) code with hsame | ⟨-, hst, heq⟩
      · rw [hsame]
        exact h.setConn hs rfl rfl (h.closed s c hs) id fun _ _ hent => hent
      · rw [heq]
        refine h.setConn hs rfl rfl (fun hc => ?_) id fun _ _ hent => hent.same rfl rfl rfl rfl rfl rfl
        have := (h.closed s c hs hc).1
        rw [hst] at this
        cases this

section

omit [DecidableEq Who] [DecidableEq K]

theorem Sound.setPushing (h : r.Sound) (p : M → Option (ℕ × ℕ)) :
    ({ r with pushing := p } : Node M Who K).Sound :=
  { h with moves := fun g hg => { h.moves g hg with } }

theorem Sound.data (h : r.Sound) (m : M) (nonce : K) (len : ℕ) : (r.data m nonce len).Sound := by
  refine Trace.when_keeps h fun _ => ?_
  split
  · exact h
  · split
    · exact h
    · split
      · exact h.setPushing _
      · exact h

theorem Sound.push (h : r.Sound) (m : M) (ok : Bool) : (r.push m ok).Sound := by
  unfold Node.push
  split
  · exact h
  · rename_i s len _
    split
    · exact h
    · rename_i c hs
      refine Sound.setPushing ?_ _
      split
      · exact h.setConn hs rfl rfl (h.closed s c hs) id fun _ _ hent => hent.same rfl rfl rfl rfl rfl rfl
      · exact h

theorem Sound.begin (h : r.Sound) (hs : r.conns[s]? = some c) (hcr : c.stage.creating = false) (target : M) :
    (r.spawn [⟨s, target, .begun⟩]).Sound := by
  have hheld : ∀ t, held (r.migrators ++ [⟨s, target, .begun⟩]) t = held r.migrators t := by
    intro t
    simp [held, Migrator.holds]
  have huntold : ∀ t, untold (r.migrators ++ [⟨s, target, .begun⟩]) t = untold r.migrators t := by
    intro t
    simp [untold]
  have hmem : ∀ g ∈ r.migrators ++ [⟨s, target, .begun⟩], g ∈ r.migrators ∨ g = ⟨s, target, .begun⟩ := by
    intro g hg
    rcases mem_append.mp hg with hold | hnew
    · exact .inl hold
    · exact .inr (mem_singleton.mp hnew)
  have hget : ∀ (i : ℕ) (g : Migrator M), (r.migrators ++ [⟨s, target, .begun⟩])[i]? = some g →
      g.carries = true →
      r.migrators[i]? = some g := by
    intro i g hi hg
    rw [List.getElem?_append] at hi
    split at hi
    · exact hi
    · rw [mem_singleton.mp (mem_of_getElem? hi)] at hg
      cases hg
  refine ⟨h.key, fun t d ht hd => ?_, fun m k t ht => ?_, h.unique, fun g hg => ?_,
    fun i j g g' hi hj hg hg' => h.alone i j g g' (hget i g hi hg) (hget j g' hj hg') hg hg'⟩
  · show _ ∧ _ ∧ held (r.migrators ++ [⟨s, target, .begun⟩]) t = false
    rw [hheld]
    exact h.closed t d ht hd
  · obtain ⟨d, hd, hk, hent⟩ := h.entry m k t ht
    refine ⟨d, hd, hk, hent.home, hent.closed, fun hcl => ?_⟩
    rcases hent.hooked hcl with hon | hst | hun
    · exact .onClose hon
    · exact .stored hst
    · exact .untold ((huntold t).trans hun)
  · rcases hmem g hg with hold | rfl
    · exact { h.moves g hold with }
    · exact ⟨⟨c, hs, hcr⟩, nofun, nofun, nofun⟩

end

section

variable (h : r.Sound)
include h

omit [DecidableEq Who] in
theorem Sound.conn [Zero K] (hs : r.conns[s]? = some c) {op : ConnOp M}
    (hord : r.orderly (.conn s op) = true) : (r.conn s c op).Sound := by
  have hs' : (r.erase (c.erases op)).conns[s]? = some c := by rw [conns_erase]; exact hs
  have hgs : (r.erase (c.erases op)).migrators = r.migrators := migrators_erase r _
  have hheld : op = .close ∨ op = .drop ∧ c.stage = .refusing → c.closed = false →
      held r.migrators s = false := by
    rintro (rfl | ⟨rfl, hst⟩) hc
    · simp only [orderly, hs, Option.all_some, hc, Bool.false_or, Bool.and_eq_true, Bool.not_eq_true'] at hord
      exact hord.2
    · simpa [orderly, hs, hst, hc] using hord
  have hset : ((r.erase (c.erases op)).setConn s (c.step op)).Sound := by
    refine (h.erase _).setConn hs' (c.key_step op) (c.nonce_step op) (fun hcl => ?_) (Conn.creating_step op)
      fun m hm hent => hent.step (h.key s c hs) op ?_ ?_
    · rw [hgs]
      exact Shut.step (h.closed s c hs) hs hord hcl
    · -- the entry is there, so it is not the one that the step deletes
      intro herase
      rw [herase] at hm
      change (r.setEntry m c.nonce none).sessions m c.nonce = some s at hm
      rw [sessions_setEntry, if_pos ⟨rfl, rfl⟩] at hm
      cases hm
    · rw [hgs]
      exact hheld
  unfold Node.conn
  rcases begins_cases c s op with hnone | ⟨target, hone, hcr, -⟩
  · rw [hnone]
    unfold spawn
    rw [append_nil]
    exact hset
  · rw [hone]
    exact hset.begin ((conns_setConn hs' _ s).trans (if_pos rfl)) (Conn.creating_step op hcr) target

section

omit [DecidableEq Who] [DecidableEq K]

/-- A session that a migrator is about to set open is not closed. -/
theorem Sound.open_of_holds (hg : g ∈ r.migrators) (hholds : g.holds = true)
    (hs : r.conns[g.session]? = some c) : c.closed = false := by
  cases hc : c.closed with
  | false => rfl
  | true =>
    have hheld : held r.migrators g.session = true := held_iff.mpr ⟨g, hg, rfl, hholds⟩
    rw [(h.closed g.session c hs hc).2.2] at hheld
    cases hheld

/-- A migrator that carries nothing afterwards, and has told its session of its map. -/
theorem Sound.setMigrator_idle {g' : Migrator M} (hj : r.migrators[j]? = some g)
    (hsession : g'.session = g.session) (hidle : g'.carries = false)
    (hholds : g'.holds = true → g.holds = true ∨ ∀ c, r.conns[g.session]? = some c → c.closed = false)
    (htold : ∀ x, g.moving = .added x → ∀ m (c : Conn M Who K), r.conns[x]? = some c →
      r.sessions m c.nonce = some x → c.onClose = some (m, c.nonce)) :
    (r.setMigrator j g').Sound := by
  have hnot : ∀ x, g'.moving ≠ .removed x ∧ g'.moving ≠ .added x := by
    intro x
    constructor <;> intro hx <;> simp [Migrator.carries, hx] at hidle
  refine h.setMigrator hj hsession hholds (fun x hx => .inr (htold x hx)) ?_ ?_
  · refine ⟨?_, ?_, fun x hx => absurd hx (hnot x).1, fun x hx => absurd hx (hnot x).2⟩
    · rw [hsession]
      exact (h.moves g (mem_of_getElem? hj)).ready
    · rintro x (hx | hx)
      · exact absurd hx (hnot x).1
      · exact absurd hx (hnot x).2
  · intro hcarries
    rw [hidle] at hcarries
    cases hcarries

end

omit [DecidableEq Who] in
/-- `Complete` takes its session out of the map. -/
theorem Sound.remove {old : M} (hj : r.migrators[j]? = some g) (hs : r.conns[g.session]? = some c)
    (hentry : r.sessions old c.nonce = some g.session) (hopen : c.closed = false)
    (huntold : untold r.migrators g.session = false) :
    ((r.setEntry old c.nonce none).setMigrator j { g with moving := .removed g.session }).Sound := by
  have hg := h.moves g (mem_of_getElem? hj)
  refine (h.delete old c.nonce).setMigrator hj rfl (fun _ => .inr fun d hd => ?_) (fun x hx => ?_)
    ⟨hg.ready, ?_, ?_, nofun⟩ ?_
  · obtain rfl : c = d := Option.some.inj (hs.symm.trans hd)
    exact hopen
  · -- a session that is not told of its map is not removed from it
    obtain rfl := hg.moved x (.inr hx)
    have : untold r.migrators g.session = true := untold_iff.mpr ⟨g, mem_of_getElem? hj, rfl, hx⟩
    rw [huntold] at this
    cases this
  · rintro x (hx | hx) <;> cases hx
    rfl
  · intro x hx m k hreg
    cases hx
    rw [sessions_setEntry] at hreg
    split at hreg
    · cases hreg
    · rename_i hne
      obtain ⟨d, hd, hk, -⟩ := h.entry m k _ hreg
      obtain rfl : c = d := Option.some.inj (hs.symm.trans hd)
      exact hne ⟨h.unique m old k c.nonce _ hreg hentry, hk.symm⟩
  · intro _ i q hi _ hq hqs
    have hqmem := mem_of_getElem? hi
    cases hmv : q.moving with
    | removed x =>
      have hx := (h.moves q hqmem).moved x (.inl hmv)
      exact (h.moves q hqmem).removed x hmv old c.nonce (by rw [hx, hqs]; exact hentry)
    | added x =>
      have hx := (h.moves q hqmem).moved x (.inr hmv)
      have : untold r.migrators g.session = true := untold_iff.mpr ⟨q, hqmem, hqs, by rw [hmv, hx, hqs]⟩
      rw [huntold] at this
      cases this
    | begun | located old | attached | completed | failed => simp [Migrator.carries, hmv] at hq

omit [DecidableEq Who] in
/-- `Complete` puts its session into the map of the target. -/
theorem Sound.add {x : ℕ} (hj : r.migrators[j]? = some g) (hx : g.moving = .removed x)
    (hd : r.conns[x]? = some d) :
    ((r.setEntry g.target d.nonce (some x)).setMigrator j { g with moving := .added x }).Sound := by
  have hg : g ∈ r.migrators := mem_of_getElem? hj
  obtain ⟨⟨e, he, hready⟩, hmoved, hremoved, -⟩ := h.moves g hg
  obtain rfl := hmoved x (.inl hx)
  obtain rfl : d = e := Option.some.inj (hd.symm.trans he)
  have hcarries : g.carries = true := by simp [Migrator.carries, hx]
  have hopen : d.closed = false := h.open_of_holds hg (by simp [Migrator.holds, hx]) hd
  have hset : (r.setMigrator j { g with moving := .added g.session }).Sound := by
    refine h.setMigrator hj rfl (fun _ => .inl (by simp [Migrator.holds, hx])) (fun y hy => ?_)
      ⟨⟨d, he, hready⟩, ?_, nofun, ?_⟩ ?_
    · rw [hx] at hy
      cases hy
    · rintro y (hy | hy) <;> cases hy
      rfl
    · intro y hy m k hreg
      cases hy
      exact absurd hreg (hremoved _ hx m k)
    · intro _ i q hi hij hq hqs
      exact hij (h.alone i j q g hi hj hq hcarries hqs)
  have hothers : ∀ q ∈ (r.setMigrator j { g with moving := .added g.session }).migrators,
      q = { g with moving := .added g.session } ∨ ∃ i, i ≠ j ∧ r.migrators[i]? = some q := by
    intro q hq
    obtain ⟨i, hi⟩ := List.getElem?_of_mem hq
    rcases (Pool.getElem?_set_some hj).mp hi with ⟨-, rfl⟩ | ⟨hij, hi⟩
    · exact .inl rfl
    · exact .inr ⟨i, hij, hi⟩
  refine hset.insert (hremoved _ hx) hd rfl ⟨fun hcr => ?_, fun hc => ?_, fun _ => ?_⟩ (fun q hq hm => ?_)
    fun q hq hm => ?_
  · rw [hready] at hcr
    cases hcr
  · rw [hopen] at hc
    cases hc
  · exact .untold (untold_iff.mpr ⟨_, mem_set (List.getElem?_eq_some_iff.mp hj).1 _, rfl, rfl⟩)
  · rcases hothers q hq with rfl | ⟨i, hij, hi⟩
    · cases hm
    · have hqs := (h.moves q (mem_of_getElem? hi)).moved _ (.inl hm)
      exact hij (h.alone i j q g hi hj (by simp [Migrator.carries, hm]) hcarries hqs.symm)
  · rcases hothers q hq with rfl | ⟨i, hij, hi⟩
    · rfl
    · have hqs := (h.moves q (mem_of_getElem? hi)).moved _ (.inr hm)
      exact absurd (h.alone i j q g hi hj (by simp [Migrator.carries, hm]) hcarries hqs.symm) hij

omit [DecidableEq Who] [DecidableEq K] in
/-- `addSession` tells the session of its map. -/
theorem Sound.adopt {x : ℕ} (hj : r.migrators[j]? = some g) (hx : g.moving = .added x)
    (hd : r.conns[x]? = some d) :
    ((r.setConn x { d with onClose := some (g.target, d.nonce) }).setMigrator j
      { g with moving := .attached }).Sound := by
  have hadded := (h.moves g (mem_of_getElem? hj)).added x hx
  have hset : (r.setConn x { d with onClose := some (g.target, d.nonce) }).Sound := by
    refine h.setConn hd rfl rfl (h.closed x d hd) id fun m hm hent => { hent with hooked := fun _ => ?_ }
    rw [hadded m _ hm]
    exact .onClose rfl
  refine hset.setMigrator_idle hj rfl rfl (fun _ => .inl (by simp [Migrator.holds, hx])) fun y hy m c
    hc hm => ?_
  rw [hx] at hy
  cases hy
  rw [conns_setConn hd, if_pos rfl] at hc
  cases hc
  rw [hadded m _ hm]

omit [DecidableEq Who] in
theorem Sound.migrate [Zero K] (hj : r.migrators[j]? = some g) (hs : r.conns[g.session]? = some c)
    {op : MigratorOp M} (hord : r.orderly (.migrator j op) = true) : (r.migrate j g c op).Sound := by
  cases op with
  | locate old =>
    refine Trace.when_keeps h fun hbegun => ?_
    refine h.setMigrator_idle hj rfl rfl (fun hh => by cases hh) fun x hx => ?_
    rw [hbegun.1] at hx
    cases hx
  | remove =>
    dsimp only [Node.migrate]
    split
    · rename_i old hloc
      have hnotold : ∀ x, g.moving = .added x → False := by
        intro x hx
        rw [hloc] at hx
        cases hx
      simp only [orderly, hj, hs, Option.all_some, hloc] at hord
      split
      · rename_i hsame
        rw [if_pos hsame] at hord
        refine h.setMigrator_idle hj rfl rfl (fun _ => .inr fun d hd => ?_) fun x hx => (hnotold x hx).elim
        obtain rfl : c = d := Option.some.inj (hs.symm.trans hd)
        simpa using hord
      · rename_i hdiff
        rw [if_neg hdiff] at hord
        split
        · exact h.setMigrator_idle hj rfl rfl (fun hh => by cases hh) fun x hx => (hnotold x hx).elim
        · rename_i x hentry
          simp only [hentry, Option.all_some, Bool.and_eq_true, decide_eq_true_eq, Bool.not_eq_true'] at hord
          obtain ⟨⟨rfl, hopen⟩, huntold⟩ := hord
          exact h.remove hj hs hentry hopen huntold
    · exact h
  | add =>
    dsimp only [Node.migrate]
    split
    · rename_i x hx
      split
      · exact h
      · rename_i d hd
        split
        · refine h.setMigrator_idle hj rfl rfl (fun hh => by cases hh) fun y hy => ?_
          rw [hx] at hy
          cases hy
        · exact h.add hj hx hd
    · exact h
  | adopt =>
    dsimp only [Node.migrate]
    split
    · rename_i x hx
      split
      · exact h
      · rename_i d hd
        exact h.adopt hj hx hd
    · exact h
  | reopen =>
    refine Trace.when_keeps h fun hatt => ?_
    have hopen := h.open_of_holds (mem_of_getElem? hj) (by simp [Migrator.holds, hatt]) hs
    have hset : (r.setConn g.session { c with state := .open }).Sound := by
      refine h.setConn hs rfl rfl (fun hc => ?_) id fun _ _ hent => hent.same rfl rfl rfl rfl rfl rfl
      exact absurd (hc.symm.trans hopen) (by decide)
    refine hset.setMigrator_idle hj rfl rfl (fun hh => by cases hh) fun x hx => ?_
    rw [hatt] at hx
    cases hx

end

variable [Zero K]

theorem Sound.step (h : r.Sound) {peer : M → Who} {op : Op M Who K} (hord : r.orderly op = true) :
    (r.step peer op).Sound := by
  cases op with
  | create m nonce drawn remote source outbound =>
    exact h.create m (by simpa [orderly] using hord) drawn remote source outbound
  | response m nonce code => exact h.handleResponse peer m nonce code
  | data m nonce len => exact h.data m nonce len
  | push m ok => exact h.push m ok
  | conn s op =>
    dsimp only [Node.step]
    split
    · exact h
    · exact h.conn ‹_› hord
  | migrator j op =>
    dsimp only [Node.step]
    split
    · exact h
    · split
      · exact h
      · exact h.migrate ‹_› ‹_› hord

theorem sound_exec (peer : M → Who) {ops : List (Op M Who K)}
    (hord : Trace.Along (fun before op => (exec peer before).orderly op = true) ops) :
    (exec peer ops).Sound := by
  refine hord.invariant ?_ fun _ _ hop ih => ih.step hop
  exact ⟨fun s c hs => (by cases hs), fun s c hs => (by cases hs), fun m k s hs => (by cases hs),
    fun m m' k k' s hs => (by cases hs), fun g hg => absurd hg not_mem_nil, fun i j g g' hi => (by cases hi)⟩

/-! ## What stays closed -/

/-- The sessions of `r` are in `r'`, closed if they were. -/
def KeepsClosed (r r' : Node M Who K) : Prop :=
  ∀ (s : ℕ) (c : Conn M Who K), r.conns[s]? = some c →
    ∃ c', r'.conns[s]? = some c' ∧ (c.closed = true → c'.closed = true)

theorem keepsClosed_exec (peer : M → Who) (later ops : List (Op M Who K)) :
    KeepsClosed (exec peer ops) (exec peer (later ++ ops)) := by
  induction later with
  | nil => exact fun _ c hs => ⟨c, hs, id⟩
  | cons op later ih =>
    intro s c hs
    obtain ⟨c', hs', hc'⟩ := ih s c hs
    obtain ⟨c'', hs'', -, hc''⟩ := carries_step peer _ op s c' hs'
    exact ⟨c'', hs'', fun hc => hc'' (hc' hc)⟩

/-! ## The law -/

/-- No `createSession`, no `Close` and no `Complete` is under way. -/
def quiescent (r : Node M Who K) : Bool :=
  r.conns.all (fun c => !c.stage.creating && c.closing.settled) && r.migrators.all fun g => !g.holds

/-- **The registry.** In every run of orderly steps: when the node is quiescent, an entry is under
the nonce of its session and the session is not closed; a session has one entry at most; and a
session that is closed is in the closed state, then and later. -/
theorem registry_law (peer : M → Who) (ops : List (Op M Who K))
    (hord : Trace.Along (fun before op => (exec peer before).orderly op = true) ops) :
    ((exec peer ops).quiescent = true → ∀ m k s, (exec peer ops).sessions m k = some s →
        ∃ c, (exec peer ops).conns[s]? = some c ∧ c.nonce = k ∧ c.closed = false) ∧
      (∀ m m' k k' s, (exec peer ops).sessions m k = some s → (exec peer ops).sessions m' k' = some s →
        m = m' ∧ k = k') ∧
      ∀ (s : ℕ) (c : Conn M Who K), (exec peer ops).conns[s]? = some c → c.closed = true → ∀ later,
        Trace.Along (fun before op => (exec peer before).orderly op = true) (later ++ ops) →
          ∃ c' : Conn M Who K, (exec peer (later ++ ops)).conns[s]? = some c' ∧ c'.closed = true ∧
            c'.state = .closed := by
  have h := sound_exec peer hord
  refine ⟨fun hq m k s hs => ?_, fun m m' k k' s hs hs' => ?_, fun s c hs hc later hlater => ?_⟩
  · obtain ⟨c, hc, hk, hent⟩ := h.entry m k s hs
    refine ⟨c, hc, hk, ?_⟩
    simp only [quiescent, Bool.and_eq_true, all_eq_true] at hq
    have hset := hq.1 c (mem_of_getElem? hc)
    simp only [Bool.not_eq_true'] at hset
    cases hcl : c.closed with
    | false => rfl
    | true =>
      rcases hent.closed hcl with hm | hcr
      · rw [hm] at hset
        cases hset.2
      · rw [hset.1] at hcr
        cases hcr
  · obtain ⟨c, hc, hk, -⟩ := h.entry m k s hs
    obtain ⟨d, hd, hk', -⟩ := h.entry m' k' s hs'
    obtain rfl : c = d := Option.some.inj (hc.symm.trans hd)
    exact ⟨h.unique m m' k k' s hs hs', hk.symm.trans hk'⟩
  · obtain ⟨c', hs', hc'⟩ := keepsClosed_exec peer later ops s c hs
    exact ⟨c', hs', hc' hc, ((sound_exec peer hlater).closed s c' hs' (hc' hc)).1⟩

end Node

/-! ## Runs -/

/-- A query of peer 7 on the first mux under nonce 4, accepted and served. -/
def accepted : List (Op Bool ℕ ℕ) :=
  [.conn 0 .resume, .conn 0 .respond, .conn 0 .setOpen, .conn 0 (.route .accept), .conn 0 .setup,
    .conn 0 .hook,
    .create false 4 0 7 none false]

/-- The session moves to the second mux, and is closed there. -/
def movedAndClosed : List (Op Bool ℕ ℕ) :=
  [.conn 0 .unhook, .conn 0 .close, .migrator 0 .reopen, .migrator 0 .adopt, .migrator 0 .add,
    .migrator 0 .remove,
    .migrator 0 (.locate false), .conn 0 (.begin true)] ++ accepted

theorem registry_law_moved :
    (∀ m k s, (Node.exec (fun _ => 7) movedAndClosed).sessions m k = some s →
      ∃ c, (Node.exec (fun _ => 7) movedAndClosed).conns[s]? = some c ∧ c.nonce = k ∧ c.closed = false) ∧
      ∃ c, (Node.exec (fun _ => 7) movedAndClosed).conns[0]? = some c ∧ c.closed = true ∧
        c.state = .closed := by
  have hord : Trace.Along (fun before op => (Node.exec (fun _ => 7) before).orderly op = true)
    movedAndClosed := by decide
  obtain ⟨c, hs, hc⟩ : ∃ c, (Node.exec (fun _ => 7) movedAndClosed).conns[0]? = some c ∧ c.closed = true :=
    ⟨_, rfl, by decide⟩
  have hlaw := Node.registry_law (fun _ => 7) movedAndClosed hord
  exact ⟨hlaw.1 (by decide), hlaw.2.2 0 c hs hc [] hord⟩

/-- A query without a nonce is registered under the zero nonce, its session has another. -/
theorem zero_nonce :
    (Node.exec (fun _ => 7) [.conn 0 .setup, .conn 0 .hook, .create () 0 9 7 none false]).quiescent = true ∧
      (Node.exec (fun _ => 7) [.conn 0 .setup, .conn 0 .hook, .create () 0 9 7 none false]).sessions
      () 0 = some 0 ∧
      ∃ c,
        (Node.exec (fun _ => 7) [.conn 0 .setup, .conn 0 .hook, .create () 0 9 7 none false]).conns[0]?
        = some c ∧
        c.nonce = 9 :=
  ⟨by decide, by decide, _, rfl, by decide⟩

/-- The handler closes the session that it was given, and the router accepts: the closed session is
set open. -/
theorem opened_after_close :
    ∃ c, (Node.exec (fun _ => 7) [.conn 0 .setOpen, .conn 0 (.route .accept), .conn 0 .unhook, .conn 0 .close,
      .conn 0 .setup, .conn 0 .hook, .create () 4 0 7 none false]).conns[0]? = some c ∧
        c.closed = true ∧ c.state = .open :=
  ⟨_, rfl, by decide⟩

/-- A session is closed while it is in neither map. -/
def closedBetween : List (Op Bool ℕ ℕ) :=
  [.migrator 0 .reopen, .migrator 0 .adopt, .migrator 0 .add, .conn 0 .unhook, .conn 0 .close,
    .migrator 0 .remove,
    .migrator 0 (.locate false), .conn 0 (.begin true)] ++ accepted

/-- It is registered for good. -/
theorem closed_while_moved :
    (Node.exec (fun _ => 7) closedBetween).quiescent = true ∧
      (Node.exec (fun _ => 7) closedBetween).sessions true 4 = some 0 ∧
      ∃ c, (Node.exec (fun _ => 7) closedBetween).conns[0]? = some c ∧ c.closed = true :=
  ⟨by decide, by decide, _, rfl, by decide⟩

end Astrald.Nodes.Registry
