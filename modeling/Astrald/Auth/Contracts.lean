import Mathlib
import Astrald.Lib.Table
import Astrald.Auth.Authorize

/-!
# The contract tables

`storeSignedContract` flattens a signed contract into a contract row and one row for each permit;
`Find` selects contract rows, joins the permit rows for the action filter and builds the contracts
again. `Authorize.lean` works over the list of contracts; this is what stands under it.

* `Holds`: the tables that a list of contracts leaves;
* `holds_index`: every `IndexContract` keeps it;
* `find_exact`: with expiries in UTC, `Find` gives back exactly the contracts that match, each once
  and as it was indexed;
* `expired_found`: with an expiry in another zone it does not;
* `find_refines`: in any zone `Find` is the query of `Authorize.lean` over its list.
-/

namespace Astrald.Auth.Contracts

open List

abbrev Bytes := List UInt8

/-! ## Contracts and rows -/

/-- The encodings of astral-go. -/
structure Codec (C Sig : Type) where
  encodeSig : Sig → Bytes
  decodeSig : Bytes → Option Sig
  encodePermit : Permit C → Bytes
  decodePermit : Bytes → Option (Permit C)

structure Codec.Lawful {C Sig : Type} (codec : Codec C Sig) : Prop where
  decode_encodeSig : ∀ sig, codec.decodeSig (codec.encodeSig sig) = some sig
  decode_encodePermit : ∀ p, codec.decodePermit (codec.encodePermit p) = some p

structure ContractRow (OID ID : Type) where
  objectID : OID
  issuerID : ID
  subjectID : ID
  issuerSig : Bytes
  subjectSig : Bytes
  startsAt : Time := Time.zero
  expiresAt : Time
  deriving DecidableEq, Repr

structure PermitRow (OID : Type) where
  id : ℕ
  objectID : OID
  name : String
  data : Bytes
  deriving DecidableEq, Repr

abbrev ContractRows (OID ID : Type) := Table (@ContractRow.objectID OID ID)

structure DB (OID ID : Type) where
  contracts : ContractRows OID ID := Table.empty
  permits : List (PermitRow OID) := []
  /-- The next id of a permit row. -/
  nextID : ℕ := 1

section

variable {OID ID C Sig B : Type}

variable (codec : Codec C Sig)

/-! ## Storing -/

def encodeSignature (party : String) : Option Sig → Except String Bytes
  | some sig => .ok (codec.encodeSig sig)
  | none => .error ("encode " ++ party ++ " signature")

def fromPermit (id : ℕ) (objectID : OID) (p : Permit C) : PermitRow OID :=
  { id, objectID, name := p.action, data := codec.encodePermit p }

def createPermits (objectID : OID) : List (Permit C) → DB OID ID → DB OID ID
  | [], db => db
  | p :: ps, db =>
    createPermits objectID ps
      { db with permits := db.permits ++ [fromPermit codec db.nextID objectID p], nextID := db.nextID + 1 }

variable [DecidableEq OID]

def upsertContract (rows : ContractRows OID ID) (row : ContractRow OID ID) : ContractRows OID ID :=
  match rows.find row.objectID with
  | none => rows.insert row
  | some _ =>
    rows.update row.objectID
      (fun old =>
        { old with issuerID := row.issuerID, subjectID := row.subjectID, issuerSig := row.issuerSig,
                   subjectSig := row.subjectSig, expiresAt := row.expiresAt }) fun _ => rfl

variable (objectID : SignedContract ID C Sig → OID)

def storeSignedContract (db : DB OID ID) (sc : SignedContract ID C Sig) : Except String (DB OID ID) := do
  let issuerSig ← encodeSignature codec "issuer" sc.issuerSig
  let subjectSig ← encodeSignature codec "subject" sc.subjectSig
  let row : ContractRow OID ID :=
    { objectID := objectID sc, issuerID := sc.issuer, subjectID := sc.subject, issuerSig, subjectSig,
      expiresAt := sc.expiresAt }
  let db := { db with contracts := upsertContract db.contracts row }
  if sc.permits.isEmpty then .ok db
  else if db.permits.any fun p => p.objectID = objectID sc then .ok db
  else .ok (createPermits codec (objectID sc) sc.permits db)

def contractExists (db : DB OID ID) (id : OID) : Bool :=
  match db.contracts.find id with
  | none => false
  | some row => !row.issuerSig.isEmpty && !row.subjectSig.isEmpty

variable (api : Api ID C Sig B)

/-- `IndexContract`, under its lock; a call that fails leaves the tables. -/
def indexContract (db : DB OID ID) (sc : SignedContract ID C Sig) : Except String (DB OID ID) :=
  if contractExists db (objectID sc) then .ok db
  else
    match verifyContract api sc with
    | .error e => .error ("verify: " ++ e)
    | .ok () => storeSignedContract codec objectID db sc

def indexAll : List (SignedContract ID C Sig) → DB OID ID
  | [] => {}
  | sc :: scs =>
    match indexContract codec objectID api (indexAll scs) sc with
    | .ok db => db
    | .error _ => indexAll scs

/-! ## Finding -/

def active [DecidableEq ID] (q : ContractQuery ID) (now : ℕ) (row : ContractRow OID ID) : Bool :=
  !row.startsAt.after (Time.utc now) && row.expiresAt.after (Time.utc now) &&
    passes q.issuer row.issuerID && passes q.subject row.subjectID

def findActiveContracts [DecidableEq ID] (db : DB OID ID) (q : ContractQuery ID) (now : ℕ) :
    List (ContractRow OID ID) :=
  let rows := db.contracts.rows.filter (active q now)
  if q.actions.isEmpty then rows
  else
    -- the join has a row for each permit that matches
    (rows.flatMap fun row =>
      (db.permits.filter fun p => p.objectID = row.objectID && q.actions.contains p.name).map fun _ =>
      row).dedup

def findContractPermits (db : DB OID ID) (id : OID) : List (PermitRow OID) :=
  (db.permits.filter fun p => p.objectID = id).insertionSort fun p q => p.id ≤ q.id

def toPermit (row : PermitRow OID) : Except String (Permit C) :=
  match codec.decodePermit row.data with
  | some p => .ok p
  | none => .error "decode permit"

def decodeSignature (party : String) (data : Bytes) : Except String Sig :=
  match codec.decodeSig data with
  | some sig => .ok sig
  | none => .error ("decode " ++ party ++ " signature")

/-- The body of `Find`'s loop. -/
def rebuild (db : DB OID ID) (row : ContractRow OID ID) : Except String (SignedContract ID C Sig) := do
  let permits ← (findContractPermits db row.objectID).mapM (toPermit codec)
  let issuerSig ← decodeSignature codec "issuer" row.issuerSig
  let subjectSig ← decodeSignature codec "subject" row.subjectSig
  return { issuer := row.issuerID, subject := row.subjectID, expiresAt := row.expiresAt, permits,
           issuerSig := some issuerSig, subjectSig := some subjectSig }

def find [DecidableEq ID] (db : DB OID ID) (q : ContractQuery ID) (now : ℕ) :
    Except String (List (SignedContract ID C Sig)) :=
  (findActiveContracts db q now).mapM (rebuild codec db)

/-! ## The tables that contracts leave -/

def rowOf (sc : SignedContract ID C Sig) : ContractRow OID ID where
  objectID := objectID sc
  issuerID := sc.issuer
  subjectID := sc.subject
  issuerSig := (sc.issuerSig.map codec.encodeSig).getD []
  subjectSig := (sc.subjectSig.map codec.encodeSig).getD []
  expiresAt := sc.expiresAt

/-- What the rows of a permit list say, ids apart. -/
def permitData (ps : List (Permit C)) : List (String × Bytes) :=
  ps.map fun p => (p.action, codec.encodePermit p)

def permitsOf (db : DB OID ID) (id : OID) : List (PermitRow OID) := db.permits.filter fun p => p.objectID = id

structure Holds (db : DB OID ID) (l : List (SignedContract ID C Sig)) : Prop where
  contracts : db.contracts.rows = l.map (rowOf codec objectID)
  permits : ∀ sc ∈ l, (permitsOf db (objectID sc)).map (fun p => (p.name, p.data)) =
    permitData codec sc.permits
  owned : ∀ p ∈ db.permits, ∃ sc ∈ l, p.objectID = objectID sc
  ordered : db.permits.Pairwise fun p q => p.id < q.id
  below : ∀ p ∈ db.permits, p.id < db.nextID
  verified : ∀ sc ∈ l, verifyContract api sc = .ok ()

/-! ### The rows of the permit loop -/

section

omit [DecidableEq OID]

/-- The rows of a permit list, numbered from `n`. -/
def permitRows (id : OID) (n : ℕ) (ps : List (Permit C)) : List (PermitRow OID) :=
  (ps.zipIdx n).map fun p => fromPermit codec p.2 id p.1

theorem createPermits_eq (id : OID) (ps : List (Permit C)) (db : DB OID ID) :
    createPermits codec id ps db =
      { db with permits := db.permits ++ permitRows codec id db.nextID ps, nextID := db.nextID + ps.length } := by
  induction ps generalizing db with
  | nil => simp [createPermits, permitRows]
  | cons p ps ih =>
    rw [createPermits, ih]
    simp only [permitRows, zipIdx_cons, map_cons, append_assoc, singleton_append, length_cons]
    rw [show db.nextID + 1 + ps.length = db.nextID + (ps.length + 1) by omega]

variable {codec} {id : OID} {n : ℕ} {ps : List (Permit C)}

theorem map_permitRows : (permitRows codec id n ps).map (fun p => (p.name, p.data)) = permitData codec ps := by
  conv_rhs => rw [← zipIdx_map_fst n ps]
  rw [permitRows, permitData, map_map, map_map]
  rfl

theorem ids_permitRows : (permitRows codec id n ps).map PermitRow.id = range' n ps.length := by
  rw [permitRows, map_map, ← zipIdx_map_snd]
  rfl

theorem mem_permitRows {row : PermitRow OID} (h : row ∈ permitRows codec id n ps) :
    row.objectID = id ∧ n ≤ row.id ∧ row.id < n + ps.length := by
  have hid : row.id ∈ range' n ps.length := ids_permitRows ▸ mem_map_of_mem h
  obtain ⟨p, -, rfl⟩ := mem_map.mp h
  exact ⟨rfl, mem_range'_1.mp hid⟩

theorem pairwise_permitRows : (permitRows codec id n ps).Pairwise fun p q => p.id < q.id := by
  rw [← pairwise_map (f := PermitRow.id), ids_permitRows]
  exact pairwise_lt_range' 1

end

/-! ### Indexing -/

namespace Holds

variable {codec objectID api} {db : DB OID ID} {l : List (SignedContract ID C Sig)}

theorem empty : Holds codec objectID api ({} : DB OID ID) [] where
  contracts := rfl
  permits := fun _ h => absurd h not_mem_nil
  owned := fun _ h => absurd h not_mem_nil
  ordered := List.Pairwise.nil
  below := fun _ h => absurd h not_mem_nil
  verified := fun _ h => absurd h not_mem_nil

variable (h : Holds codec objectID api db l)
include h

theorem eq_of_objectID {a b : SignedContract ID C Sig} (ha : a ∈ l) (hb : b ∈ l)
    (hab : objectID a = objectID b) : a = b := by
  have hnodup : (l.map objectID).Nodup := by
    have hunique := db.contracts.unique
    rw [h.contracts, map_map] at hunique
    exact hunique
  exact inj_on_of_nodup_map hnodup ha hb hab

theorem find_none {id : OID} (hid : ∀ sc ∈ l, objectID sc ≠ id) : db.contracts.find id = none := by
  refine Table.find_eq_none.mpr fun row hrow => ?_
  rw [h.contracts] at hrow
  obtain ⟨sc, hsc, rfl⟩ := mem_map.mp hrow
  exact hid sc hsc

theorem find_some {sc : SignedContract ID C Sig} (hsc : sc ∈ l) :
    db.contracts.find (objectID sc) = some (rowOf codec objectID sc) := by
  refine Table.find_eq_some.mpr ⟨?_, rfl⟩
  rw [h.contracts]
  exact mem_map_of_mem hsc

end Holds

variable {sc : SignedContract ID C Sig}

omit [DecidableEq OID] in
theorem signatures (h : verifyContract api sc = .ok ()) :
    ∃ issuerSig subjectSig, sc.issuerSig = some issuerSig ∧ sc.subjectSig = some subjectSig := by
  cases hissuer : sc.issuerSig with
  | none => simp [verifyContract, verifyIssuer, verifyParty, hissuer] at h
  | some issuerSig =>
    cases hsubject : sc.subjectSig with
    | none =>
      rw [verifyContract] at h
      split at h
      · exact absurd h (by simp)
      · simp [verifySubject, verifyParty, hsubject] at h
    | some subjectSig => exact ⟨issuerSig, subjectSig, rfl, rfl⟩

/-- The transaction, for a contract with both signatures. -/
theorem storeSignedContract_eq (h : verifyContract api sc = .ok ()) (db : DB OID ID) :
    storeSignedContract codec objectID db sc =
      let db' := { db with contracts := upsertContract db.contracts (rowOf codec objectID sc) }
      .ok (if sc.permits.isEmpty then db'
        else if db.permits.any fun p => p.objectID = objectID sc then db'
        else createPermits codec (objectID sc) sc.permits db') := by
  obtain ⟨issuerSig, subjectSig, hissuer, hsubject⟩ := signatures api h
  have hrow : rowOf codec objectID sc =
      { objectID := objectID sc, issuerID := sc.issuer, subjectID := sc.subject,
        issuerSig := codec.encodeSig issuerSig, subjectSig := codec.encodeSig subjectSig,
        expiresAt := sc.expiresAt } := by
    rw [rowOf, hissuer, hsubject]
    rfl
  rw [storeSignedContract, hissuer, hsubject, hrow]
  show (if sc.permits.isEmpty then _ else if _ then _ else _) = _
  split
  · rfl
  · split <;> rfl

namespace Holds

variable {codec objectID api} {db : DB OID ID} {l : List (SignedContract ID C Sig)}

theorem store_new (h : Holds codec objectID api db l) {sc : SignedContract ID C Sig}
    (hverified : verifyContract api sc = .ok ()) (hnew : ∀ a ∈ l, objectID a ≠ objectID sc) :
    ∃ db', storeSignedContract codec objectID db sc = .ok db' ∧ Holds codec objectID api db' (l ++ [sc]) := by
  have hfree : db.contracts.find (rowOf codec objectID sc).objectID = none := h.find_none hnew
  have hrows : (upsertContract db.contracts (rowOf codec objectID sc)).rows
      = (l ++ [sc]).map (rowOf codec objectID) := by
    rw [upsertContract, hfree, Table.rows_insert hfree, h.contracts, map_append, map_singleton]
  have hforeign : ∀ p ∈ db.permits, p.objectID ≠ objectID sc := by
    intro p hp he
    obtain ⟨a, ha, hid⟩ := h.owned p hp
    exact hnew a ha (hid.symm.trans he)
  have hverifieds : ∀ a ∈ l ++ [sc], verifyContract api a = .ok () := by
    intro a ha
    rcases mem_append.mp ha with ha | ha
    · exact h.verified a ha
    · rw [mem_singleton.mp ha]
      exact hverified
  -- the rows of the other contracts are not touched, those of this one are all new
  let rows := permitRows codec (objectID sc) db.nextID sc.permits
  have hpermits : ∀ a ∈ l ++ [sc],
      ((db.permits ++ rows).filter fun p => p.objectID = objectID a).map (fun p => (p.name, p.data))
        = permitData codec a.permits := by
    intro a ha
    rw [filter_append, map_append]
    rcases mem_append.mp ha with ha | ha
    · have hnone : rows.filter (fun p => p.objectID = objectID a) = [] :=
        filter_eq_nil_iff.mpr fun p hp => by
          simpa [(mem_permitRows hp).1] using fun he => hnew a ha he.symm
      rw [hnone, map_nil, append_nil]
      exact h.permits a ha
    · rw [mem_singleton.mp ha]
      have hnone : db.permits.filter (fun p => p.objectID = objectID sc) = [] :=
        filter_eq_nil_iff.mpr fun p hp => by simpa using hforeign p hp
      have hall : rows.filter (fun p => p.objectID = objectID sc) = rows :=
        filter_eq_self.mpr fun p hp => by simpa using (mem_permitRows hp).1
      rw [hnone, hall, map_nil, nil_append, map_permitRows]
  have hholds : Holds codec objectID api
      { contracts := upsertContract db.contracts (rowOf codec objectID sc), permits := db.permits ++ rows,
        nextID := db.nextID + sc.permits.length } (l ++ [sc]) := by
    refine ⟨hrows, hpermits, ?_, ?_, ?_, hverifieds⟩
    · intro p hp
      rcases mem_append.mp hp with hp | hp
      · obtain ⟨a, ha, hid⟩ := h.owned p hp
        exact ⟨a, mem_append_left _ ha, hid⟩
      · exact ⟨sc, mem_append_right _ (mem_singleton.mpr rfl), (mem_permitRows hp).1⟩
    · refine pairwise_append.mpr ⟨h.ordered, pairwise_permitRows, fun p hp q hq => ?_⟩
      exact lt_of_lt_of_le (h.below p hp) (mem_permitRows hq).2.1
    · intro p hp
      rcases mem_append.mp hp with hp | hp
      · exact Nat.lt_add_right _ (h.below p hp)
      · exact (mem_permitRows hp).2.2
  rw [storeSignedContract_eq codec objectID api hverified]
  refine ⟨_, rfl, ?_⟩
  split
  · rename_i hempty
    have hnil : sc.permits = [] := isEmpty_iff.mp hempty
    have hrows' : rows = [] := by simp [rows, hnil, permitRows]
    simpa [hrows', hnil] using hholds
  · split
    · rename_i hany
      obtain ⟨p, hp, hid⟩ := any_eq_true.mp hany
      exact absurd (by simpa using hid) (hforeign p hp)
    · rw [createPermits_eq]
      exact hholds

theorem store_again (h : Holds codec objectID api db l) {sc : SignedContract ID C Sig} (hsc : sc ∈ l) :
    ∃ db', storeSignedContract codec objectID db sc = .ok db' ∧ Holds codec objectID api db' l := by
  have hfound : db.contracts.find (rowOf codec objectID sc).objectID = some (rowOf codec objectID sc) :=
    h.find_some hsc
  have hrows : (upsertContract db.contracts (rowOf codec objectID sc)).rows = db.contracts.rows := by
    rw [upsertContract, hfound]
    conv_rhs => rw [← map_id db.contracts.rows]
    refine map_congr_left fun row hrow => ?_
    split
    · rename_i hid
      have hrow' : row = rowOf codec objectID sc :=
        Table.eq_of_key hrow (Table.find_eq_some.mp hfound).1 hid
      rw [hrow']
      rfl
    · rfl
  have hsame : Holds codec objectID api
      { db with contracts := upsertContract db.contracts (rowOf codec objectID sc) } l :=
    { h with contracts := hrows.trans h.contracts }
  rw [storeSignedContract_eq codec objectID api (h.verified sc hsc)]
  refine ⟨_, rfl, ?_⟩
  split
  · exact hsame
  · rename_i hne
    have hany : (db.permits.any fun p => p.objectID = objectID sc) = true := by
      by_contra hno
      have hnone : permitsOf db (objectID sc) = [] := by
        refine filter_eq_nil_iff.mpr fun p hp => ?_
        rw [Bool.not_eq_true, any_eq_false] at hno
        exact hno p hp
      have hdata := h.permits sc hsc
      rw [hnone, map_nil] at hdata
      exact hne (isEmpty_iff.mpr (map_eq_nil_iff.mp hdata.symm))
    rw [if_pos hany]
    exact hsame

theorem index (h : Holds codec objectID api db l) {sc : SignedContract ID C Sig}
    (hknown : ∀ a ∈ l, objectID a = objectID sc → a = sc) :
    ∃ l', Holds codec objectID api
      (match indexContract codec objectID api db sc with
        | .ok db => db
        | .error _ => db) l' ∧ ∀ a, a ∈ l' ↔ a ∈ l ∨ a = sc ∧ verifyContract api sc = .ok () := by
  have hnew : sc ∉ l → ∀ a ∈ l, objectID a ≠ objectID sc := fun hsc a ha he => hsc (hknown a ha he ▸ ha)
  have hold : sc ∈ l → ∀ a, a ∈ l ↔ a ∈ l ∨ a = sc ∧ verifyContract api sc = .ok () := fun hsc a =>
    ⟨.inl, fun ha => ha.elim id fun he => he.1 ▸ hsc⟩
  rw [indexContract]
  by_cases hexists : contractExists db (objectID sc) = true
  · -- a row under the object id is this contract's
    rw [if_pos hexists]
    refine ⟨l, h, hold ?_⟩
    by_contra hsc
    rw [contractExists, h.find_none (hnew hsc)] at hexists
    exact absurd hexists Bool.false_ne_true
  · rw [if_neg hexists]
    cases hverify : verifyContract api sc with
    | error e => exact ⟨l, h, fun a => by simp⟩
    | ok _ =>
      by_cases hsc : sc ∈ l
      · obtain ⟨db', hstore, hholds⟩ := h.store_again hsc
        rw [hstore]
        exact ⟨l, hholds, hverify ▸ hold hsc⟩
      · obtain ⟨db', hstore, hholds⟩ := h.store_new hverify (hnew hsc)
        rw [hstore]
        exact ⟨l ++ [sc], hholds, fun a => by simp⟩

end Holds

/-- **Indexing.** Calls of `IndexContract` in any order and any number, on contracts with distinct
object ids, leave the tables of the contracts that verify. -/
theorem holds_index (calls : List (SignedContract ID C Sig))
    (hids : ∀ a ∈ calls, ∀ b ∈ calls, objectID a = objectID b → a = b) :
    ∃ l, Holds codec objectID api (indexAll codec objectID api calls) l ∧
      ∀ sc, sc ∈ l ↔ sc ∈ calls ∧ verifyContract api sc = .ok () := by
  induction calls with
  | nil => exact ⟨[], Holds.empty, fun sc => by simp⟩
  | cons sc calls ih =>
    obtain ⟨l, h, hmem⟩ :=
      ih fun a ha b hb => hids a (mem_cons_of_mem _ ha) b (mem_cons_of_mem _ hb)
    obtain ⟨l', h', hmem'⟩ := h.index fun a ha =>
      hids a (mem_cons_of_mem _ ((hmem a).mp ha).1) sc mem_cons_self
    refine ⟨l', h', fun a => ?_⟩
    rw [hmem', hmem, mem_cons]
    constructor
    · rintro (⟨ha, hv⟩ | ⟨rfl, hv⟩)
      · exact ⟨.inr ha, hv⟩
      · exact ⟨.inl rfl, hv⟩
    · rintro ⟨rfl | ha, hv⟩
      · exact .inr ⟨rfl, hv⟩
      · exact .inl ⟨ha, hv⟩

/-! ## Building the contracts again -/

omit [DecidableEq OID] in
theorem mapM_toPermit (lawful : codec.Lawful) {rows : List (PermitRow OID)} {ps : List (Permit C)}
    (h : rows.map (fun p => (p.name, p.data)) = permitData codec ps) :
    rows.mapM (toPermit codec) = .ok ps := by
  induction rows generalizing ps with
  | nil =>
    obtain rfl : ps = [] := map_eq_nil_iff.mp h.symm
    rfl
  | cons row rows ih =>
    cases ps with
    | nil => exact absurd h (by simp [permitData])
    | cons p ps =>
      simp only [permitData, map_cons, List.cons.injEq, Prod.mk.injEq] at h
      have hrow : toPermit codec row = .ok p := by rw [toPermit, h.1.2, lawful.decode_encodePermit]
      rw [mapM_cons, hrow, ih h.2]
      rfl

namespace Holds

variable {codec objectID api} {db : DB OID ID} {l : List (SignedContract ID C Sig)}

theorem findContractPermits_eq (h : Holds codec objectID api db l) (id : OID) :
    findContractPermits db id = permitsOf db id := by
  refine List.Pairwise.insertionSort_eq ?_
  exact (h.ordered.sublist filter_sublist).imp fun hlt => Nat.le_of_lt hlt

theorem rebuild_row (lawful : codec.Lawful) (h : Holds codec objectID api db l) {sc : SignedContract ID C Sig}
    (hsc : sc ∈ l) : rebuild codec db (rowOf codec objectID sc) = .ok sc := by
  obtain ⟨issuerSig, subjectSig, hissuer, hsubject⟩ := signatures api (h.verified sc hsc)
  have hpermits : (findContractPermits db (objectID sc)).mapM (toPermit codec) = .ok sc.permits := by
    rw [h.findContractPermits_eq]
    exact mapM_toPermit codec lawful (h.permits sc hsc)
  have hissuer' : decodeSignature codec "issuer" (rowOf codec objectID sc).issuerSig = .ok issuerSig := by
    simp [decodeSignature, rowOf, hissuer, lawful.decode_encodeSig]
  have hsubject' : decodeSignature codec "subject" (rowOf codec objectID sc).subjectSig = .ok subjectSig := by
    simp [decodeSignature, rowOf, hsubject, lawful.decode_encodeSig]
  rw [rebuild, hissuer', hsubject', show (rowOf codec objectID sc).objectID = objectID sc from rfl, hpermits]
  show Except.ok _ = Except.ok sc
  rw [← hissuer, ← hsubject]
  rfl

theorem mapM_rebuild (lawful : codec.Lawful) (h : Holds codec objectID api db l) {m : List (SignedContract ID C Sig)}
    (hm : ∀ sc ∈ m, sc ∈ l) : (m.map (rowOf codec objectID)).mapM (rebuild codec db) = .ok m := by
  induction m with
  | nil => rfl
  | cons sc m ih =>
    rw [map_cons, mapM_cons, h.rebuild_row lawful (hm sc mem_cons_self),
      ih fun a ha => hm a (mem_cons_of_mem _ ha)]
    rfl

variable [DecidableEq ID]

/-- The selected rows: the contract rows that pass the filters and, with actions given, have a
permit row with one of them; each once. -/
theorem mem_findActiveContracts (q : ContractQuery ID) (now : ℕ) (row : ContractRow OID ID) :
    row ∈ findActiveContracts db q now ↔ (row ∈ db.contracts.rows ∧ active q now row = true) ∧
      (q.actions = [] ∨ ∃ p ∈ permitsOf db row.objectID, p.name ∈ q.actions) := by
  rw [findActiveContracts]
  by_cases hempty : q.actions.isEmpty = true
  · simp [isEmpty_iff.mp hempty]
  · rw [if_neg hempty, mem_dedup, mem_flatMap]
    have hne : q.actions ≠ [] := fun he => hempty (isEmpty_iff.mpr he)
    constructor
    · rintro ⟨a, ha, hrow⟩
      obtain ⟨p, hp, rfl⟩ := mem_map.mp hrow
      simp only [mem_filter, Bool.and_eq_true, decide_eq_true_eq, contains_iff_mem] at hp ha
      exact ⟨ha, .inr ⟨p, mem_filter.mpr ⟨hp.1, by simpa using hp.2.1⟩, hp.2.2⟩⟩
    · rintro ⟨hrow, hpermit⟩
      obtain ⟨p, hp, hname⟩ := hpermit.resolve_left hne
      obtain ⟨hp, hid⟩ := mem_filter.mp hp
      refine ⟨row, mem_filter.mpr hrow, mem_map.mpr ⟨p, mem_filter.mpr ⟨hp, ?_⟩, rfl⟩⟩
      simpa [hname] using hid

theorem nodup_findActiveContracts (q : ContractQuery ID) (now : ℕ) :
    (findActiveContracts db q now).Nodup := by
  rw [findActiveContracts]
  split
  · exact db.contracts.unique.of_map.filter _
  · exact nodup_dedup _

omit [DecidableEq ID] in
theorem permit_rows (h : Holds codec objectID api db l) {sc : SignedContract ID C Sig} (hsc : sc ∈ l)
    (actions : List String) : (∃ p ∈ permitsOf db (objectID sc), p.name ∈ actions) ↔
      ∃ p ∈ sc.permits, p.action ∈ actions := by
  have hnames : (permitsOf db (objectID sc)).map PermitRow.name = sc.permits.map Permit.action := by
    have hdata := congrArg (List.map Prod.fst) (h.permits sc hsc)
    rwa [permitData, map_map, map_map] at hdata
  have hexists : ∀ {α : Type} (f : α → String) (l : List α), (∃ p ∈ l, f p ∈ actions) ↔ ∃ name ∈ l.map f, name ∈ actions :=
    fun f l => by simp
  rw [hexists PermitRow.name, hexists Permit.action, hnames]

theorem exists_map {α β : Type} {f : α → β} {l : List α} {rows : List β} (h : ∀ r ∈ rows, ∃ a ∈ l, f a = r) :
    ∃ m : List α, (∀ a ∈ m, a ∈ l) ∧ rows = m.map f := by
  induction rows with
  | nil => exact ⟨[], fun a ha => absurd ha not_mem_nil, rfl⟩
  | cons r rows ih =>
    obtain ⟨m, hm, rfl⟩ := ih fun r hr => h r (mem_cons_of_mem _ hr)
    obtain ⟨a, ha, rfl⟩ := h _ mem_cons_self
    exact ⟨a :: m, forall_mem_cons.mpr ⟨ha, hm⟩, rfl⟩

/-- `Find` gives back, each once, the contracts whose rows are selected. -/
theorem find_rows (lawful : codec.Lawful) (h : Holds codec objectID api db l) (q : ContractQuery ID)
    (now : ℕ) :
    ∃ result, find codec db q now = .ok result ∧ result.Nodup ∧
      ∀ sc, sc ∈ result ↔ sc ∈ l ∧ active q now (rowOf codec objectID sc) = true ∧
        (q.actions = [] ∨ ∃ p ∈ sc.permits, p.action ∈ q.actions) := by
  -- every selected row is a contract's, so the rows are those of some list of contracts
  obtain ⟨m, hm, hrows⟩ : ∃ m : List (SignedContract ID C Sig), (∀ sc ∈ m, sc ∈ l) ∧
      findActiveContracts db q now = m.map (rowOf codec objectID) := by
    refine exists_map fun row hrow => ?_
    have hmem := ((mem_findActiveContracts q now row).mp hrow).1.1
    rw [h.contracts] at hmem
    exact mem_map.mp hmem
  refine ⟨m, ?_, ?_, fun sc => ?_⟩
  · rw [find, hrows]
    exact h.mapM_rebuild lawful hm
  · have hnodup : (findActiveContracts db q now).Nodup := nodup_findActiveContracts q now
    rw [hrows] at hnodup
    exact hnodup.of_map
  · have hrow : sc ∈ m ↔ sc ∈ l ∧ rowOf codec objectID sc ∈ findActiveContracts db q now := by
      rw [hrows]
      refine ⟨fun hsc => ⟨hm sc hsc, mem_map_of_mem hsc⟩, fun ⟨hsc, hmem⟩ => ?_⟩
      obtain ⟨a, ha, hrow⟩ := mem_map.mp hmem
      rwa [← h.eq_of_objectID (hm a ha) hsc (congrArg ContractRow.objectID hrow)]
    rw [hrow, mem_findActiveContracts, h.contracts]
    constructor
    · rintro ⟨hsc, ⟨-, hactive⟩, hactions⟩
      exact ⟨hsc, hactive, hactions.imp_right (h.permit_rows hsc _).mp⟩
    · rintro ⟨hsc, hactive, hactions⟩
      exact ⟨hsc, ⟨mem_map_of_mem hsc, hactive⟩, hactions.imp_right (h.permit_rows hsc _).mpr⟩

end Holds

/-! ## Round trip -/

structure Matches (q : ContractQuery ID) (now : ℕ) (sc : SignedContract ID C Sig) : Prop where
  unexpired : (now : ℤ) < sc.expiresAt.instant
  issuer : ∀ id ∈ q.issuer, sc.issuer = id
  subject : ∀ id ∈ q.subject, sc.subject = id
  action : q.actions = [] ∨ ∃ p ∈ sc.permits, p.action ∈ q.actions

variable [DecidableEq ID]

theorem passes_iff (filter : Option ID) (id : ID) :
    passes filter id = true ↔ ∀ wanted ∈ filter, id = wanted := by
  cases filter <;> simp [passes]

omit [DecidableEq OID] in
theorem active_row (sc : SignedContract ID C Sig) (q : ContractQuery ID) (now : ℕ) :
    active q now (rowOf codec objectID sc) = true ↔ sc.expiresAt.after (Time.utc now) = true ∧
      (∀ id ∈ q.issuer, sc.issuer = id) ∧ ∀ id ∈ q.subject, sc.subject = id := by
  have hstarted : Time.zero.after (Time.utc now) = false := by
    rw [Time.after_utc rfl, decide_eq_false_iff_not]
    show ¬ (now : ℤ) < -62135596800 * 10 ^ 9
    omega
  rw [active, show (rowOf codec objectID sc).startsAt = Time.zero from rfl, hstarted, Bool.and_eq_true,
    Bool.and_eq_true, Bool.and_eq_true, passes_iff, passes_iff]
  exact ⟨fun ⟨⟨⟨_, hexpiry⟩, hissuer⟩, hsubject⟩ => ⟨hexpiry, hissuer, hsubject⟩,
    fun ⟨hexpiry, hissuer, hsubject⟩ => ⟨⟨⟨rfl, hexpiry⟩, hissuer⟩, hsubject⟩⟩

/-- **Round trip.** Index any contracts with distinct object ids, in any order and any number of
times, with expiries in UTC where the contract verifies. Every query then gives back exactly the indexed
contracts that match it, each once and each equal to the contract that was indexed. -/
theorem find_exact (lawful : codec.Lawful) (calls : List (SignedContract ID C Sig))
    (hids : ∀ a ∈ calls, ∀ b ∈ calls, objectID a = objectID b → a = b)
    (hutc : ∀ sc ∈ calls, verifyContract api sc = .ok () → sc.expiresAt.offset = 0) (q : ContractQuery ID)
    (now : ℕ) :
    ∃ result, find codec (indexAll codec objectID api calls) q now = .ok result ∧ result.Nodup ∧
      ∀ sc, sc ∈ result ↔ sc ∈ calls ∧ verifyContract api sc = .ok () ∧ Matches q now sc := by
  obtain ⟨l, h, hmem⟩ := holds_index codec objectID api calls hids
  obtain ⟨result, hfind, hnodup, hresult⟩ := h.find_rows lawful q now
  refine ⟨result, hfind, hnodup, fun sc => ?_⟩
  rw [hresult, hmem, active_row]
  constructor
  · rintro ⟨⟨hsc, hverified⟩, ⟨hexpiry, hissuer, hsubject⟩, hactions⟩
    rw [Time.after_utc (hutc sc hsc hverified), decide_eq_true_iff] at hexpiry
    exact ⟨hsc, hverified, hexpiry, hissuer, hsubject, hactions⟩
  · rintro ⟨hsc, hverified, hexpiry, hissuer, hsubject, hactions⟩
    rw [Time.after_utc (hutc sc hsc hverified), decide_eq_true_iff]
    exact ⟨⟨hsc, hverified⟩, ⟨hexpiry, hissuer, hsubject⟩, hactions⟩

omit [DecidableEq OID] in
theorem selects_iff (q : ContractQuery ID) (now : ℕ) (sc : SignedContract ID C Sig) :
    q.selects now sc = true ↔ active q now (rowOf codec objectID sc) = true ∧
      (q.actions = [] ∨ ∃ p ∈ sc.permits, p.action ∈ q.actions) := by
  rw [active_row, ContractQuery.selects, Bool.and_eq_true, Bool.and_eq_true, Bool.and_eq_true, passes_iff,
    passes_iff, Bool.or_eq_true, List.isEmpty_iff, List.any_eq_true, and_assoc, and_assoc, and_assoc, and_assoc]
  simp only [List.contains_iff_mem]

/-- The tables stand for the list that `Authorize` walks: a query over them has the contracts of
`ContractQuery.find` over the list, in whatever zone their expiries are. -/
theorem find_refines (lawful : codec.Lawful) (calls : List (SignedContract ID C Sig))
    (hids : ∀ a ∈ calls, ∀ b ∈ calls, objectID a = objectID b → a = b) :
    ∃ ix : Index api, (∀ sc, sc ∈ ix.rows ↔ sc ∈ calls ∧ verifyContract api sc = .ok ()) ∧
      ∀ (q : ContractQuery ID) (now : ℕ),
        ∃ result, find codec (indexAll codec objectID api calls) q now = .ok result ∧
          ∀ sc, sc ∈ result ↔ sc ∈ q.find now ix := by
  obtain ⟨l, h, hmem⟩ := holds_index codec objectID api calls hids
  refine ⟨⟨l, h.verified⟩, hmem, fun q now => ?_⟩
  obtain ⟨result, hfind, -, hresult⟩ := h.find_rows lawful q now
  refine ⟨result, hfind, fun sc => ?_⟩
  rw [ContractQuery.find, mem_filter, hresult, selects_iff codec objectID]

end

/-! ## Runs -/

/-- A signature is one byte; a permit is its hops and the bytes of its action. -/
def plainCodec : Codec Unit UInt8 where
  encodeSig sig := [sig]
  decodeSig
    | [sig] => some sig
    | _ => none
  encodePermit p := p.delegation :: p.action.toUTF8.data.toList
  decodePermit
    | [] => none
    | hops :: action => (String.fromUTF8? ⟨action.toArray⟩).map fun action => ⟨action, (), hops⟩

theorem plainCodec_lawful : plainCodec.Lawful where
  decode_encodeSig := fun _ => rfl
  decode_encodePermit := by
    intro p
    have hutf8 : String.fromUTF8? p.action.toUTF8 = some p.action := by
      rw [String.fromUTF8?, dif_pos (show p.action.toUTF8.IsValidUTF8 from p.action.isValidUTF8)]
      rfl
    show (String.fromUTF8? ⟨p.action.toUTF8.data.toList.toArray⟩).map _ = some p
    rw [Array.toArray_toList, hutf8]
    rfl

/-- Every signature of a party other than `0` verifies. -/
def plainApi : Api ℕ Unit UInt8 Unit where
  zero := 0
  str := toString
  hasPermit c action := c.permits.filter fun p => p.action = action
  allows _ _ := true
  verify id _ _ := if id = 0 then .error "no key" else .ok ()

/-- Two permits of one action and one that is not asked for. -/
theorem find_exact_repeated :
    let sc : SignedContract ℕ Unit UInt8 :=
      { issuer := 1, subject := 2, expiresAt := ⟨50, 0⟩,
        permits := [⟨"relay", (), 3⟩, ⟨"read", (), 0⟩, ⟨"relay", (), 1⟩],
        issuerSig := some 7, subjectSig := some 8 }
    ∃ result, find plainCodec (indexAll plainCodec (fun sc => sc.issuer) plainApi [sc, sc])
      ⟨none, some 2, ["relay"]⟩ 20
      = .ok result ∧ result.Nodup ∧ sc ∈ result := by
  intro sc
  obtain ⟨result, hfind, hnodup, hresult⟩ :=
    find_exact plainCodec (fun sc => sc.issuer) plainApi plainCodec_lawful [sc, sc]
    (by simp) (by simp [sc]) ⟨none, some 2, ["relay"]⟩ 20
  refine ⟨result, hfind, hnodup, (hresult sc).mpr ⟨by simp, rfl, by decide, by simp, by simp [sc], .inr ?_⟩⟩
  exact ⟨⟨"relay", (), 3⟩, by simp [sc], by simp⟩

/-- A contract whose expiry is in another zone. -/
theorem find_refines_repeated :
    let sc : SignedContract ℕ Unit UInt8 :=
      { issuer := 1, subject := 2, expiresAt := ⟨50, minute⟩, permits := [⟨"relay", (), 3⟩], issuerSig := some 7,
        subjectSig := some 8 }
    ∃ ix : Index plainApi, sc ∈ ix.rows ∧ ∀ q now, ∃ result,
      find plainCodec (indexAll plainCodec (fun sc => sc.issuer) plainApi [sc, sc]) q now = .ok result ∧
        ∀ c, c ∈ result ↔ c ∈ q.find now ix := by
  intro sc
  obtain ⟨ix, hrows, hfind⟩ := find_refines plainCodec (fun sc => sc.issuer) plainApi plainCodec_lawful [sc, sc]
    (by simp)
  exact ⟨ix, (hrows sc).mpr ⟨by simp, rfl⟩, hfind⟩

/-- An hour after a contract expired, on a node two hours east of UTC: the wall clock of the expiry
is an hour ahead of the clock in UTC, and `Find` gives the contract back. -/
theorem expired_found :
    let hour := 60 * minute
    let sc : SignedContract ℕ Unit UInt8 :=
      { issuer := 1, subject := 2, expiresAt := ⟨hour, 2 * hour⟩, permits := [], issuerSig := some 7,
        subjectSig := some 8 }
    let now := 2 * hour
    find plainCodec (indexAll plainCodec (fun sc => sc.issuer) plainApi [sc]) ⟨none, none, []⟩ now = .ok [sc] ∧
      ¬ Matches ⟨none, none, []⟩ now sc := by
  refine ⟨rfl, fun h => ?_⟩
  exact absurd h.unexpired (by decide)

end Astrald.Auth.Contracts
