import Astrald.Messaging.Reading

/-!
# What a read records

A read that is not silent stamps the inbox rows it hands out `read_at` and tells their senders:
the row of a sender on this node is stamped `fetched_at`, and a receipt goes to any other. The
stamp is written before the body is charged against the answer.

* `Recorded.readValid`: a read records every row that it charges, and no other;
* `collected_iff_carried`: that a row is newly stamped, and its sender newly told, exactly if its body is
  carried, is that the rows about which there is something to record fit in the answer;
* `collected_not_carried`: a row that does not fit is stamped and its sender told.
-/

namespace Astrald.Messaging

open Fallible List

variable {Who ID : Type} [DecidableEq Who] [DecidableEq ID]

/-! ## Stamps -/

namespace Store

def row (s : Store Who ID) (k : Who × Box × ID) : Option (Row Who ID) := s.find k.1 k.2.1 k.2.2

def stampOf (s : Store Who ID) (k : Who × Box × ID) (c : Stamp) : Option ℕ :=
  (s.row k).bind fun r => r.stamps c

theorem row_some {s : Store Who ID} {k : Who × Box × ID} {r : Row Who ID} (h : s.row k = some r) :
    r ∈ s.rows ∧ r.key = k := find_some h

theorem row_of_mem {s : Store Who ID} {r : Row Who ID} (h : r ∈ s.rows) : s.row r.key = some r := by
  cases hrow : s.row r.key with
  | none =>
    have hnone := List.find?_eq_none.mp hrow r h
    simp [Row.key] at hnone
  | some q => rw [eq_of_key (row_some hrow).1 h (row_some hrow).2]

theorem stampOf_of_mem {s : Store Who ID} {r : Row Who ID} (h : r ∈ s.rows) (c : Stamp) :
    s.stampOf r.key c = r.stamps c := by
  rw [stampOf, row_of_mem h]
  rfl

section

variable (s : Store Who ID) (column : Stamp) (owner : Who) (box : Box) (id : ID) (now : ℕ) (k : Who × Box × ID)

theorem row_stamp :
    (s.stamp column owner box id now).row k = (s.row k).map (mark column owner box id now) := by
  have hkey : ∀ r : Row Who ID, (mark column owner box id now r).key = r.key := fun r =>
    Row.key_eq_of_body (body_mark column owner box id now r)
  show (s.rows.map (mark column owner box id now)).find? _ = _
  rw [List.find?_map]
  congr 2
  funext r
  simp [hkey]

theorem stampOf_stamp (c : Stamp) : ((s.stamp column owner box id now).stampOf k c).isSome ↔
      (s.stampOf k c).isSome ∨ (s.row k).isSome ∧ c = column ∧ k = (owner, box, id) := by
  unfold stampOf
  rw [row_stamp]
  cases hrow : s.row k with
  | none => simp
  | some r =>
    have hkey := (row_some hrow).2
    simp only [Option.map_some, Option.bind_some, Option.isSome_some, true_and]
    unfold mark
    by_cases hcol : c = column
    · subst hcol
      by_cases hk : k = (owner, box, id)
      · cases hstamp : r.stamps c <;> simp [hkey, hk, hstamp]
      · simp [hkey, hk]
    · simp only [hcol, false_and, or_false]
      split
      · simp [Function.update_of_ne hcol]
      · rfl

end

theorem row_isSome_of_faces {s s' : Store Who ID} (h : s'.faces = s.faces) (k : Who × Box × ID) :
    (s'.row k).isSome ↔ (s.row k).isSome := by
  have hfaces : ∀ t : Store Who ID, (t.row k).isSome = t.faces.any fun r => r.key = k := by
    intro t
    rw [faces, any_map]
    show (t.rows.find? _).isSome = _
    rw [isSome_find?]
    rfl
  rw [hfaces, hfaces, h]

end Store

/-- From `t` to `t'` the columns that `H` names are written where they were empty, and no other. -/
structure Marks (t t' : Store Who ID) (H : Who × Box × ID → Stamp → Prop) : Prop where
  faces : t'.faces = t.faces
  stamps : ∀ k c, (t'.stampOf k c).isSome ↔ (t.stampOf k c).isSome ∨ (t.row k).isSome ∧ H k c

namespace Marks

variable {t t' t'' : Store Who ID} {H H' : Who × Box × ID → Stamp → Prop}

theorem refl (h : ∀ k c, (t.row k).isSome → H k c → (t.stampOf k c).isSome) : Marks t t H := by
  refine ⟨rfl, fun k c => ⟨.inl, ?_⟩⟩
  rintro (hset | ⟨hrow, hH⟩)
  · exact hset
  · exact h k c hrow hH

theorem trans (h : Marks t t' H) (h' : Marks t' t'' H') : Marks t t'' fun k c => H k c ∨ H' k c := by
  refine ⟨h'.faces.trans h.faces, fun k c => ?_⟩
  rw [h'.stamps, h.stamps, Store.row_isSome_of_faces h.faces]
  tauto

theorem congr (h : Marks t t' H) (hH : ∀ k c, H k c ↔ H' k c) : Marks t t' H' :=
  ⟨h.faces, fun k c => by rw [h.stamps, hH]⟩

theorem stamp {column : Stamp} (hne : column ≠ .archived) (t : Store Who ID) (owner : Who) (box : Box)
    (id : ID)
    (now : ℕ) : Marks t (t.stamp column owner box id now) fun k c => c = column ∧ k = (owner, box, id) :=
  ⟨Store.faces_stamp hne t owner box id now, fun k c => Store.stampOf_stamp t column owner box id now k c⟩

end Marks

/-! ## Handing out one row -/

def Hits (env : ReadEnv Who ID) (owner : Who) (x : Row Who ID) (k : Who × Box × ID) (c : Stamp) : Prop :=
  x.box = .inbox ∧
    ((c = .read ∧ k = (owner, .inbox, x.id)) ∨
      (env.hosts x.sender = true ∧ c = .fetched ∧ k = (x.sender, .outbox, x.id)) ∨
      (env.hosts x.sender = false ∧ c = .receiptDue ∧ k = (x.recipient, .inbox, x.id)))

/-- What a read recorded between two states, having handed out `xs`. -/
structure Recorded (env : ReadEnv Who ID) (owner : Who) (s s' : ReadState Who ID) (xs : List (Row Who ID)) :
    Prop where
  marks : Marks s.store s'.store fun k c => ∃ x ∈ xs, Hits env owner x k c
  grows : s.receipts ⊆ s'.receipts
  launched : ∀ r ∈ s.store.rows, r.box = .inbox → env.hosts r.sender = false → r.stamps .receiptDue = none →
    ((r.recipient, r.sender, r.id) ∈ s'.receipts ↔
      (r.recipient, r.sender, r.id) ∈ s.receipts ∨ (s'.store.stampOf r.key .receiptDue).isSome)

omit [DecidableEq Who] [DecidableEq ID] in
theorem hits_of_face {env : ReadEnv Who ID} {owner : Who} {x y : Row Who ID} (h : x.face = y.face)
    (k : Who × Box × ID) (c : Stamp) : Hits env owner x k c ↔ Hits env owner y k c := by
  have hx : Hits env owner x.face k c ↔ Hits env owner y.face k c := by rw [h]
  exact hx

namespace Store

section

omit [DecidableEq Who] [DecidableEq ID]

theorem mem_faces {s : Store Who ID} {r : Row Who ID} (h : r ∈ s.rows) : r.face ∈ s.faces :=
  mem_map_of_mem h

theorem face_eq_of_key {s : Store Who ID} {x y : Row Who ID} (hx : x.face ∈ s.faces) (hy : y.face ∈ s.faces)
    (h : x.key = y.key) : x.face = y.face := by
  obtain ⟨p, hp, hpx⟩ := mem_map.mp hx
  obtain ⟨q, hq, hqy⟩ := mem_map.mp hy
  have hkey : p.face.key = q.face.key := by rw [hpx, hqy]; exact h
  rw [← hpx, ← hqy, eq_of_key hp hq hkey]

end

end Store

open Store

namespace Recorded

variable {env : ReadEnv Who ID} {owner : Who} {s s' s'' : ReadState Who ID} {xs ys : List (Row Who ID)}

theorem nil (s : ReadState Who ID) (left : ℤ) : Recorded env owner s { s with left := left } [] where
  marks := Marks.refl fun k c _ h => by
    obtain ⟨x, hx, -⟩ := h
    exact (not_mem_nil hx).elim
  grows := List.Subset.refl _
  launched := fun r hr _ _ hdue => by
    rw [stampOf_of_mem hr, hdue]
    simp

theorem congr (h : Recorded env owner s s' xs) (hxs : ∀ f, f ∈ xs.map Row.face ↔ f ∈ ys.map Row.face) :
    Recorded env owner s s' ys := by
  refine { h with marks := h.marks.congr fun k c => ⟨?_, ?_⟩ }
  · rintro ⟨x, hx, h⟩
    obtain ⟨y, hy, hface⟩ := mem_map.mp ((hxs x.face).mp (mem_map_of_mem hx))
    exact ⟨y, hy, (hits_of_face hface k c).mpr h⟩
  · rintro ⟨y, hy, h⟩
    obtain ⟨x, hx, hface⟩ := mem_map.mp ((hxs y.face).mpr (mem_map_of_mem hy))
    exact ⟨x, hx, (hits_of_face hface k c).mpr h⟩

theorem trans (h : Recorded env owner s s' xs) (h' : Recorded env owner s' s'' ys) :
    Recorded env owner s s'' (xs ++ ys) where
  marks := (h.marks.trans h'.marks).congr fun k c => by simp only [mem_append, or_and_right, exists_or]
  grows := fun x hx => h'.grows (h.grows hx)
  launched := by
    intro r hr hbox hhosts hdue
    obtain ⟨r', hr', hface⟩ : ∃ r' ∈ s'.store.rows, r'.face = r.face := by
      refine mem_map.mp ?_
      rw [show s'.store.rows.map Row.face = s.store.faces from h.marks.faces]
      exact mem_faces hr
    have hbody := Row.body_of_face hface
    have hkey : r'.key = r.key := Row.key_eq_of_body hbody
    simp only [Row.body, Prod.mk.injEq] at hbody
    obtain ⟨hbox', hid, hsender, hrecipient, -, -⟩ := hbody
    have hfirst := h.launched r hr hbox hhosts hdue
    cases hdue' : r'.stamps .receiptDue with
    | none =>
      have hsecond := h'.launched r' hr' (hbox'.trans hbox) (hsender ▸ hhosts) hdue'
      rw [hrecipient, hsender, hid, hkey] at hsecond
      rw [hsecond, hfirst, ← hkey, stampOf_of_mem hr', hdue']
      simp
    | some t =>
      -- the first read wrote the column, so it launched the receipt
      have hset : (s'.store.stampOf r.key .receiptDue).isSome := by
        rw [← hkey, stampOf_of_mem hr', hdue']
        rfl
      exact iff_of_true (h'.grows (hfirst.mpr (.inr hset))) (.inr ((h'.marks.stamps _ _).mpr (.inl hset)))

end Recorded

open Recorded

section

variable {env : ReadEnv Who ID} {owner : Who} {s s' : ReadState Who ID}

/-- The copy in memory is not ahead of the row. -/
def Behind (owner : Who) (t : Store Who ID) (x : Row Who ID) : Prop :=
  x.box = .inbox → x.stamps .read ≠ none → (t.stampOf (owner, .inbox, x.id) .read).isSome

variable {t t' : Store Who ID} {x : Row Who ID} {xs : List (Row Who ID)}

theorem marks_markRead (hfaults : ∀ stmt, env.faults stmt = none) {x' : Row Who ID}
    (hcopy : Behind owner s.store x) (h : (markRead env owner x).exec s = (.ok x', s')) :
    Marks s.store s'.store (fun k c => x.box = .inbox ∧ c = .read ∧ k = (owner, .inbox, x.id)) ∧
      s'.receipts = s.receipts := by
  rw [markRead, exec_of] at h
  split at h
  · rename_i hskip
    cases h
    refine ⟨Marks.refl ?_, rfl⟩
    rintro k c - ⟨hbox, rfl, rfl⟩
    rcases hskip with hout | hread
    · exact absurd hbox hout
    · exact hcopy hbox hread
  · rename_i hdo
    rw [hfaults] at h
    cases h
    have hbox : x.box = .inbox := by
      by_contra hne
      exact hdo (.inl hne)
    refine ⟨(Marks.stamp (by decide) s.store owner .inbox x.id env.now).congr fun k c => ?_, rfl⟩
    simp [hbox]

theorem any_receiptDue (t : Store Who ID) (k : Who × Box × ID) :
    ((t.row k).any fun row => row.stamps .receiptDue = none) = true ↔
      (t.row k).isSome ∧ ¬(t.stampOf k .receiptDue).isSome := by
  unfold stampOf
  cases t.row k with
  | none => simp
  | some r => cases hdue : r.stamps .receiptDue <;> simp [hdue]

/-- What telling the sender writes, and the receipt it launches. -/
theorem marks_noteFetched (hfaults : ∀ stmt, env.faults stmt = none) (x : Row Who ID) (s : ReadState Who ID) :
    Marks s.store (noteFetched env x s).store (fun k c => x.box = .inbox ∧
        ((env.hosts x.sender = true ∧ c = .fetched ∧ k = (x.sender, .outbox, x.id)) ∨
          (env.hosts x.sender = false ∧ c = .receiptDue ∧ k = (x.recipient, .inbox, x.id)))) ∧
      ∀ e, e ∈ (noteFetched env x s).receipts ↔ e ∈ s.receipts ∨
        x.box = .inbox ∧ env.hosts x.sender = false ∧ (s.store.row (x.recipient, .inbox, x.id)).isSome ∧
          ¬(s.store.stampOf (x.recipient, .inbox, x.id) .receiptDue).isSome ∧
            e = (x.recipient, x.sender, x.id) := by
  unfold noteFetched
  by_cases hbox : x.box = .inbox
  · rw [if_neg (not_not.mpr hbox)]
    cases hhosts : env.hosts x.sender with
    | true =>
      rw [if_pos rfl, hfaults]
      refine ⟨(Marks.stamp (by decide) s.store x.sender .outbox x.id env.now).congr fun k c => ?_,
        fun e => ?_⟩
      · simp [hbox]
      · simp
    | false =>
      rw [if_neg Bool.false_ne_true, hfaults]
      have hany := any_receiptDue s.store (x.recipient, .inbox, x.id)
      by_cases hdue : ((s.store.row (x.recipient, .inbox, x.id)).any fun row => row.stamps
        .receiptDue = none) = true
      · have hfresh := hany.mp hdue
        rw [show (s.store.find x.recipient .inbox x.id) = s.store.row (x.recipient, .inbox, x.id) from rfl]
        simp only [hdue, if_true]
        refine ⟨(Marks.stamp (by decide) s.store x.recipient .inbox x.id env.now).congr fun k c => ?_,
          fun e => ?_⟩
        · simp [hbox]
        · simp [hbox, hfresh.1, hfresh.2]
      · rw [show (s.store.find x.recipient .inbox x.id) = s.store.row (x.recipient, .inbox, x.id) from rfl]
        have hset : (s.store.row (x.recipient, .inbox, x.id)).isSome →
            (s.store.stampOf (x.recipient, .inbox, x.id) .receiptDue).isSome := by
          intro hrow
          by_contra hunset
          exact hdue (hany.mpr ⟨hrow, hunset⟩)
        simp only [hdue]
        refine ⟨Marks.refl ?_, fun e => ?_⟩
        · rintro k c hrow ⟨-, ⟨hh, -⟩ | ⟨-, rfl, rfl⟩⟩
          · cases hh
          · exact hset hrow
        · constructor
          · exact .inl
          · rintro (hold | ⟨-, -, hrow, hunset, -⟩)
            · exact hold
            · exact absurd (hset hrow) hunset
  · rw [if_pos hbox]
    refine ⟨Marks.refl fun k c _ h => absurd h.1 hbox, fun e => ?_⟩
    simp [hbox]

omit [DecidableEq Who] [DecidableEq ID] in
theorem key_of_inbox (h : x.box = .inbox) : x.key = (x.recipient, .inbox, x.id) := by
  rw [Row.key, Row.owner, h]

theorem Recorded.handOut (hfaults : ∀ stmt, env.faults stmt = none) {x' : Row Who ID}
    (hcopy : Behind owner s.store x) (hmem : x.face ∈ s.store.faces)
    (h : (handOut env owner false x).exec s = (.ok x', s')) : Recorded env owner s s' [x] := by
  obtain ⟨x₁, s₁, hmark, h⟩ := ok_bind h
  have hface : x₁.face = x.face := by
    have hcases := (markRead_cases env owner x s).2 x₁
    rw [hmark] at hcases
    exact hcases rfl
  obtain ⟨hread, hreceipts⟩ := marks_markRead hfaults hcopy hmark
  cases h
  have htell : noteFetched env x' s₁ = noteFetched env x s₁ := by
    have hsame : noteFetched env x'.face s₁ = noteFetched env x.face s₁ := by rw [hface]
    exact hsame
  rw [htell]
  obtain ⟨hmarks, hlaunched⟩ := marks_noteFetched hfaults x s₁
  -- the read stamp is another column, so the receipt is owed as before
  have hdue : (s₁.store.stampOf (x.recipient, .inbox, x.id) .receiptDue).isSome ↔
      (s.store.stampOf (x.recipient, .inbox, x.id) .receiptDue).isSome := by
    rw [hread.stamps]
    simp
  refine ⟨(hread.trans hmarks).congr fun k c => ?_, fun e he => ?_, fun r hr hbox hhosts hunset => ?_⟩
  · simp only [mem_singleton, exists_eq_left, Hits]
    tauto
  · rw [hlaunched, hreceipts]
    exact .inl he
  · have hnone : s.store.stampOf r.key .receiptDue = none := (stampOf_of_mem hr _).trans hunset
    rw [hlaunched, hreceipts, hmarks.stamps, hdue, hread.stamps, row_isSome_of_faces hread.faces,
      row_isSome_of_faces hread.faces, hnone, row_of_mem hr, key_of_inbox hbox]
    simp only [Option.isSome_none, Bool.false_eq_true, reduceCtorEq, false_and, and_false, false_or, true_and,
      Option.isSome_some]
    refine or_congr_right ⟨?_, ?_⟩
    · rintro ⟨hxbox, hxhosts, -, -, heq⟩
      simp only [Prod.mk.injEq] at heq
      exact ⟨hxbox, hxhosts, by rw [heq.1, heq.2.2]⟩
    · rintro ⟨hxbox, -, hk⟩
      have hface := face_eq_of_key hmem (mem_faces hr) (by rw [key_of_inbox hxbox, key_of_inbox hbox, hk])
      have hbody := Row.body_of_face hface
      simp only [Row.body, Prod.mk.injEq] at hbody
      obtain ⟨-, hid, hsender, hrecipient, -, -⟩ := hbody
      rw [← hk, ← key_of_inbox hbox, row_of_mem hr, hnone, hid, hsender, hrecipient]
      exact ⟨hxbox, hhosts, rfl, Bool.false_ne_true, rfl⟩

/-! ## The whole read -/

theorem Behind.of_mem (hx : x ∈ t.rows) (howner : x.owner = owner) : Behind owner t x := by
  intro hbox hread
  have hkey : x.key = (owner, .inbox, x.id) := by rw [Row.key, howner, hbox]
  rw [← hkey, stampOf, row_of_mem hx]
  exact Option.isSome_iff_ne_none.mpr hread

theorem Behind.mono {H : Who × Box × ID → Stamp → Prop} (h : Marks t t' H) (hx : Behind owner t x) :
    Behind owner t' x := fun hbox hread => (h.stamps _ _).mpr (.inl (hx hbox hread))

/-- Rows that the owner holds, as a statement of the read selected them. -/
def Copies (owner : Who) (t : Store Who ID) (xs : List (Row Who ID)) : Prop :=
  ∀ x ∈ xs, Behind owner t x ∧ x.face ∈ t.faces

theorem Copies.mono {H : Who × Box × ID → Stamp → Prop} (h : Marks t t' H) (hxs : Copies owner t xs) :
    Copies owner t' xs := by
  intro x hx
  exact ⟨(hxs x hx).1.mono h, by rw [h.faces]; exact (hxs x hx).2⟩

theorem Copies.tail (h : Copies owner t (x :: xs)) :
    Copies owner t xs := fun z hz => h z (mem_cons_of_mem x hz)

theorem Copies.of_mem (h : ∀ x ∈ xs, x ∈ t.rows ∧ x.owner = owner) :
    Copies owner t xs := fun x hx => ⟨Behind.of_mem (h x hx).1 (h x hx).2, mem_faces (h x hx).1⟩

theorem Recorded.handOuts (hfaults : ∀ stmt, env.faults stmt = none) {ys : List (Row Who ID)}
    (h : Runs (Messaging.handOut env owner false) s xs ys s') (hxs : Copies owner s.store xs) :
    Recorded env owner s s' xs := by
  induction h with
  | nil s => exact nil s s.left
  | @cons s s₁ s₂ x xs y ys hhead _ ih =>
    obtain ⟨hcopy, hmem⟩ := hxs x mem_cons_self
    have hfirst := handOut hfaults hcopy hmem hhead
    have hrest := ih (hxs.tail.mono hfirst.marks)
    exact hfirst.trans hrest

/-- What is left plays no part. -/
theorem Recorded.of_left (h : Recorded env owner s s' xs) (left left' : ℤ) :
    Recorded env owner { s with left := left } { s' with left := left' } xs :=
  { h with }

variable {req : ValidRequest ID}

theorem Recorded.replies (hfaults : ∀ stmt, env.faults stmt = none) (hsilent : req.silent = false)
    (hfull : req.children = .full) {ms : List (ReadMessage Who ID)}
    (h : Runs (readReply env owner req) s xs ms s') (hxs : Copies owner s.store xs) :
    Recorded env owner s s' xs := by
  induction h with
  | nil s => exact nil s s.left
  | @cons s s₁ s₂ x xs m ms hhead _ ih =>
    rw [readReply, if_neg (by rw [hfull]; decide)] at hhead
    obtain ⟨x', s₃, hout, hhead⟩ := ok_bind hhead
    cases hhead
    rw [hsilent] at hout
    obtain ⟨hcopy, hmem⟩ := hxs x mem_cons_self
    have hfirst := handOut hfaults hcopy hmem hout
    have hrest := ih (hxs.tail.mono hfirst.marks)
    exact (hfirst.of_left s.left _).trans hrest

theorem Store.mem_childrenOf {parent : ID} (h : x ∈ t.childrenOf owner parent) :
    x ∈ t.rows ∧ x.owner = owner := by
  rw [childrenOf, mem_insertionSort, mem_filter] at h
  refine ⟨h.1, ?_⟩
  have hchild := h.2
  simp only [isChild, Bool.and_eq_true, decide_eq_true_eq] at hchild
  exact hchild.1.1.1

/-- The replies that a read hands out for a message that was named. -/
def repliesOf (t : Store Who ID) (owner : Who) (req : ValidRequest ID) (row : Row Who ID) :
    List (Row Who ID) :=
  (chargesOf t owner req row).tail

theorem mem_repliesOf {row : Row Who ID} (h : x ∈ repliesOf t owner req row) : x ∈ t.rows ∧ x.owner = owner := by
  rw [repliesOf, chargesOf, tail_cons] at h
  split at h
  · exact mem_childrenOf (mem_of_mem_take h)
  · exact (not_mem_nil h).elim

theorem repliesOf_faces {row row' : Row Who ID} (h : t'.faces = t.faces) (hrow : row'.face = row.face) :
    (repliesOf t' owner req row').map Row.face = (repliesOf t owner req row).map Row.face := by
  have hid : row'.id = row.id := by
    have hbody := Row.body_of_face hrow
    simp only [Row.body, Prod.mk.injEq] at hbody
    exact hbody.2.1
  rw [repliesOf, repliesOf, chargesOf, chargesOf, tail_cons, tail_cons, hid]
  split
  · rw [map_take, map_take, childrenOf_of_faces h]
  · rfl

section

variable (hfaults : ∀ stmt, env.faults stmt = none) (hsilent : req.silent = false)
include hfaults hsilent

theorem Recorded.readNamed {row : Row Who ID} {p : ReadMessage Who ID × List (ReadMessage Who ID)}
    (h : (readNamed env owner req row).exec s = (.ok p, s')) :
    Recorded env owner s s' (repliesOf s.store owner req row) := by
  obtain ⟨childIDs, replies, -, ⟨hfull, hruns⟩ | ⟨hmode, rfl, -⟩⟩ := readNamed_ok h
  · have hrows : repliesOf s.store owner req row =
        (s.store.childrenOf owner row.id).take req.maxChildren := by
      rw [repliesOf, chargesOf, tail_cons, if_pos hfull]
    have hcopies : Copies owner s.store (repliesOf s.store owner req row) :=
      Copies.of_mem fun x hx => mem_repliesOf hx
    rw [hrows] at hcopies ⊢
    exact (Recorded.replies hfaults hsilent hfull hruns hcopies).of_left s.left s'.left
  · have hempty : repliesOf s.store owner req row = [] := by simp [repliesOf, chargesOf, hmode]
    rw [hempty]
    exact nil s _

theorem Recorded.readAll
    {rows rows' : List (Row Who ID)} {pairs : List (ReadMessage Who ID × List (ReadMessage Who ID))}
    (h : Runs (Messaging.readNamed env owner req) s rows' pairs s') (hfaces : s.store.faces = t.faces)
    (hrows : rows'.map Row.face = rows.map Row.face) :
    Recorded env owner s s' (rows.flatMap (repliesOf t owner req)) := by
  induction h generalizing rows with
  | nil s =>
    obtain rfl : rows = [] := map_eq_nil_iff.mp hrows.symm
    exact nil s s.left
  | @cons s s₁ _ _ _ _ _ hhead _ ih =>
    obtain ⟨row, rest, rfl, hrow, hrest⟩ := face_eq_cases hrows
    have hfirst : Recorded env owner s s₁ (repliesOf t owner req row) :=
      (readNamed hfaults hsilent hhead).congr fun f => by rw [repliesOf_faces hfaces hrow]
    exact hfirst.trans (ih (hfirst.marks.faces.trans hfaces) hrest)

/-- A read records every row that it charges, and no other. -/
theorem Recorded.readValid
    {res : ReadResult Who ID} (h : (readValid env owner req).exec s = (.ok res, s')) :
    Recorded env owner s s' (charges s.store owner req) := by
  obtain ⟨⟨found, missing⟩, s₁, hfind, hrest⟩ := ok_bind h
  obtain ⟨hfound, rfl⟩ := findMany_ok env hfind
  obtain ⟨rows, s₂, hrows, hrest⟩ := ok_bind hrest
  rw [hsilent] at hrows
  obtain ⟨_, s₃, hset, hrest⟩ := ok_bind hrest
  cases hset
  obtain ⟨pairs, s₄, hpairs, hrest⟩ := ok_bind hrest
  cases hrest
  change found = _ at hfound
  have hnamed : ∀ x ∈ found, x ∈ s₁.store.rows ∧ x.owner = owner := by
    intro x hx
    rw [hfound] at hx
    obtain ⟨ref, -, href⟩ := mem_filterMap.mp hx
    exact ⟨(named_some href).1, (named_some href).2.1⟩
  have hruns := ok_mapM hrows
  have hfirst := handOuts hfaults hruns (Copies.of_mem hnamed)
  have hsecond := readAll hfaults hsilent (ok_mapM hpairs) hfirst.marks.faces (faces_handOuts hruns).1
  refine ((hfirst.of_left s₁.left env.limits.maxReadBytes).trans hsecond).congr fun f => ?_
  rw [charges, ← hfound]
  simp only [mem_map, mem_append, mem_flatMap]
  constructor
  · rintro ⟨x, hx | ⟨row, hrow, hx⟩, rfl⟩
    · exact ⟨x, ⟨x, hx, mem_cons_self⟩, rfl⟩
    · exact ⟨x, ⟨row, hrow, mem_cons_of_mem row hx⟩, rfl⟩
  · rintro ⟨x, ⟨row, hrow, hx⟩, rfl⟩
    rcases mem_cons.mp hx with rfl | hx
    · exact ⟨x, .inl hrow, rfl⟩
    · exact ⟨x, .inr ⟨row, hrow, hx⟩, rfl⟩

end

/-! ## Reads that answer nothing, and silent reads -/

def Untouched (s s' : ReadState Who ID) : Prop := s'.store = s.store ∧ s'.receipts = s.receipts

section

omit [DecidableEq Who] [DecidableEq ID]

instance : IsPreorder (ReadState Who ID) Untouched where
  refl _ := ⟨rfl, rfl⟩
  trans _ _ _ hab hbc := ⟨hbc.1.trans hab.1, hbc.2.trans hab.2⟩

end

end

section

variable (env : ReadEnv Who ID) (owner : Who) {req : ValidRequest ID}

/-- A read has what its steps have. -/
theorem composes_readValid {P : ∀ {α : Type}, Read Who ID α → Prop} (h : Composes P)
    (hselect : ∀ {α : Type} (stmt : Statement Who ID) (f : Store Who ID → α), P (select env stmt f))
    (hspend : ∀ n, P (spend n)) (hout : ∀ row, P (handOut env owner req.silent row))
    (hset : ∀ left, P (of fun s => (.ok (), { s with left }))) : P (readValid env owner req) := by
  have hfind : ∀ refs, P (findMany env owner refs) := by
    intro refs
    induction refs with
    | nil => exact h.pure _
    | cons ref refs ih =>
      refine h.bind (hselect _ _) fun row => h.bind ih fun out => ?_
      cases row <;> exact h.pure _
  have hreply : ∀ row, P (readReply env owner req row) := by
    intro row
    rw [readReply]
    split
    · exact h.pure _
    · exact h.bind (hout row) fun _ => h.bind (hspend _) fun _ => h.pure _
  have hreplies : ∀ parent, P (repliesTo env owner parent req) := by
    intro parent
    rw [repliesTo]
    split
    · exact h.pure _
    · exact h.bind (hselect _ _) fun rows => h.mapM hreply rows
  have hnamed : ∀ row, P (readNamed env owner req row) := fun row =>
    h.bind (hspend _) fun _ => h.bind (hselect _ _) fun _ => h.bind (hreplies row.id) fun _ => h.pure _
  refine h.bind (hfind req.refs) fun found => ?_
  refine h.bind (h.mapM hout found.1) fun rows => ?_
  refine h.bind (hset _) fun _ => ?_
  exact h.bind (h.mapM hnamed rows) fun pairs => h.pure _

theorem untouched_readValid (hsilent : req.silent = true) : Keeps Untouched (readValid env owner req) := by
  refine composes_readValid env owner keeps_composes (fun stmt f s => ?_) (fun _ _ => ⟨rfl, rfl⟩) (fun row => ?_)
    fun _ _ => ⟨rfl, rfl⟩
  · rw [select, exec_of]
    split <;> exact refl s
  · rw [handOut, if_pos hsilent]
    exact keeps_composes.pure row

variable {env}

/-- Where no statement fails, a read that is let in answers. -/
theorem total_readValid (hfaults : ∀ stmt, env.faults stmt = none) (req : ValidRequest ID) :
    Total (readValid env owner req) := by
  refine composes_readValid env owner total_composes (fun stmt f s => ⟨f s.store, s, ?_⟩) (fun _ _ => ⟨_, _, rfl⟩)
    (fun row => ?_) fun _ _ => ⟨_, _, rfl⟩
  · rw [select, exec_of, hfaults]
  · rw [handOut]
    split
    · exact total_composes.pure row
    · refine total_composes.bind (fun s => ?_) fun row' s => ⟨_, _, rfl⟩
      rw [markRead, exec_of]
      split
      · exact ⟨_, _, rfl⟩
      · rw [hfaults]
        exact ⟨_, _, rfl⟩

end

/-! ## Collected and carried -/

def ReadResult.Carries (res : ReadResult Who ID) (r : Row Who ID) : Prop :=
  ∃ m ∈ res.messages ++ res.replies, m.row.key = r.key ∧ m.withoutBody = false

/-- Handing out the row would record something: it is not stamped, or its sender has not been told. -/
def Store.pending (s : Store Who ID) (hosts : Who → Bool) (r : Row Who ID) : Bool :=
  r.box = .inbox &&
    ((r.stamps .read).isNone ||
      if hosts r.sender then (s.row (r.sender, .outbox, r.id)).any fun o => (o.stamps .fetched).isNone
      else (r.stamps .receiptDue).isNone)

/-- The rows about which there is something to record fit in the answer, each with what is charged
before its first copy. -/
def BodiesFit (env : ReadEnv Who ID) (s : Store Who ID) (owner : Who) (req : ValidRequest ID) : Prop :=
  ∀ pre r post, charges s owner req = pre ++ r :: post → r.key ∉ pre.map Row.key →
    s.pending env.hosts r = true →
    ((Budget.total Row.size pre + r.size : ℕ) : ℤ) ≤ env.limits.maxReadBytes

section

variable {env : ReadEnv Who ID} {owner : Who} {req : ValidRequest ID}

theorem mem_charges {t : Store Who ID} {x : Row Who ID} (h : x ∈ charges t owner req) :
    x ∈ t.rows ∧ x.owner = owner := by
  obtain ⟨row, hrow, hx⟩ := mem_flatMap.mp h
  rcases mem_cons.mp hx with rfl | hx
  · obtain ⟨ref, -, href⟩ := mem_filterMap.mp hrow
    exact ⟨(named_some href).1, (named_some href).2.1⟩
  · have hreply : x ∈ repliesOf t owner req row := hx
    exact mem_repliesOf hreply

/-- The messages whose bodies are carried are among those that were charged. -/
theorem mem_charged_iff {t : Store Who ID} {left : ℤ} {rows : List (Row Who ID)}
    {pairs : List (ReadMessage Who ID × List (ReadMessage Who ID))}
    (h : ServesAll t owner req left rows pairs)
    {m : ReadMessage Who ID} (hbody : m.withoutBody = false) :
    m ∈ pairs.map Prod.fst ++ pairs.flatMap Prod.snd ↔ m ∈ charged req pairs := by
  rw [mem_append, mem_map, mem_flatMap, charged, mem_flatMap]
  constructor
  · rintro (⟨p, hp, rfl⟩ | ⟨p, hp, hm⟩)
    · exact ⟨p, hp, mem_cons_self⟩
    · refine ⟨p, hp, mem_cons_of_mem _ ?_⟩
      split
      · exact hm
      · rename_i hfull
        rw [((h.bound p hp).2.2 hfull m hm).1] at hbody
        cases hbody
  · rintro ⟨p, hp, hm⟩
    rcases mem_cons.mp hm with rfl | hm
    · exact .inl ⟨p, hp, rfl⟩
    · split at hm
      · exact .inr ⟨p, hp, hm⟩
      · exact (not_mem_nil hm).elim

variable {r : Row Who ID} {s : Store Who ID}

section

variable {s s' : ReadState Who ID} {res : ReadResult Who ID} (h : (readValid env owner req).exec s = (.ok res, s'))
include h

/-- A body is carried if one of its copies fits with what is charged before it. -/
theorem carries_iff (hr : r ∈ s.store.rows) :
    res.Carries r ↔ ∃ pre post, charges s.store owner req = pre ++ r :: post ∧
      ((Budget.total Row.size pre + r.size : ℕ) : ℤ) ≤ env.limits.maxReadBytes := by
  obtain ⟨pairs, hmessages, hreplies, hserves⟩ := readValid_ok h
  have hcharged : (charged req pairs).map ReadMessage.charge =
      Budget.fits Row.size env.limits.maxReadBytes ((charges s.store owner req).map Row.face)
        := hserves.charged
  have hflag : res.Carries r ↔ (r.face, true) ∈ (charged req pairs).map ReadMessage.charge := by
    rw [ReadResult.Carries, hmessages, hreplies, mem_map]
    constructor
    · rintro ⟨m, hm, hkey, hbody⟩
      have hm' := (mem_charged_iff hserves hbody).mp hm
      have hface : m.row.face ∈ s.store.faces := by
        have hmem := mem_map_of_mem (f := Prod.fst) (mem_map_of_mem (f := ReadMessage.charge) hm')
        rw [hcharged, Budget.map_fst_fits] at hmem
        obtain ⟨x, hx, hxm⟩ := mem_map.mp hmem
        rw [show m.row.face = x.face from hxm.symm]
        exact mem_faces (mem_charges hx).1
      refine ⟨m, hm', ?_⟩
      rw [ReadMessage.charge, hbody, face_eq_of_key hface (mem_faces hr) hkey]
      rfl
    · rintro ⟨m, hm, heq⟩
      obtain ⟨hface, hbody⟩ := Prod.mk.injEq _ _ _ _ ▸ heq
      have hcarried : m.withoutBody = false := by simpa using hbody
      exact ⟨m, (mem_charged_iff hserves hcarried).mpr hm, Row.key_eq_of_body (Row.body_of_face hface),
        hcarried⟩
  rw [hflag, hcharged, Budget.mem_fits]
  constructor
  · rintro ⟨pre, post, heq, hle⟩
    obtain ⟨l₁, l₂, hsplit, hpre, hl₂⟩ := map_eq_append_iff.mp heq
    obtain ⟨x, post', rfl, hx, -⟩ := map_eq_cons_iff.mp hl₂
    have hmem : x ∈ s.store.rows := (mem_charges (hsplit ▸ mem_append_right _ mem_cons_self)).1
    obtain rfl : x = r := eq_of_key hmem hr (Row.key_eq_of_body (Row.body_of_face hx))
    refine ⟨l₁, post', hsplit, ?_⟩
    rw [← hpre, total_faces] at hle
    exact hle
  · rintro ⟨pre, post, heq, hle⟩
    refine ⟨pre.map Row.face, post.map Row.face, by rw [heq]; simp, ?_⟩
    rw [total_faces]
    exact hle

/-- The rows about which there is something to record are carried if they are charged. -/
theorem bodiesFit_iff : BodiesFit env s.store owner req ↔
    ∀ r ∈ charges s.store owner req, s.store.pending env.hosts r = true → res.Carries r := by
  constructor
  · intro hfit r hcharged hpending
    obtain ⟨hr, -⟩ := mem_charges hcharged
    obtain ⟨pre, post, heq, hfirst⟩ := eq_append_cons_of_mem hcharged
    refine (carries_iff h hr).mpr ⟨pre, post, heq, hfit pre r post heq (fun hkey => ?_) hpending⟩
    obtain ⟨y, hy, hyr⟩ := mem_map.mp hkey
    have hmem : y ∈ s.store.rows := (mem_charges (heq ▸ mem_append_left _ hy)).1
    exact hfirst (eq_of_key hmem hr hyr ▸ hy)
  · intro hcarried pre r post heq hfirst hpending
    have hcharged : r ∈ charges s.store owner req := heq ▸ mem_append_right _ mem_cons_self
    obtain ⟨pre', post', heq', hle⟩ :=
      (carries_iff h (mem_charges hcharged).1).mp (hcarried r hcharged hpending)
    have hpre : Budget.total Row.size pre ≤ Budget.total Row.size pre' := by
      rcases append_eq_append_iff.mp (heq.symm.trans heq') with ⟨mid, rfl, -⟩ | ⟨mid, rfl, hmid⟩
      · rw [Budget.total_append]
        exact Nat.le_add_right _ _
      · -- the other copy is not before the first one
        cases mid with
        | nil => rw [append_nil]
        | cons d mid =>
          obtain ⟨rfl, -⟩ := List.cons.inj hmid
          exact absurd (mem_map_of_mem (mem_append_right _ mem_cons_self)) hfirst
    omega

end

theorem hits_read_iff (hr : r ∈ s.rows) (hbox : r.box = .inbox) :
    (∃ x ∈ charges s owner req, Hits env owner x r.key .read) ↔ r ∈ charges s owner req := by
  constructor
  · rintro ⟨x, hx, hxbox, ⟨-, hk⟩ | ⟨-, hc, -⟩ | ⟨-, hc, -⟩⟩
    · obtain ⟨hmem, howner⟩ := mem_charges hx
      have hkey : x.key = r.key := by rw [hk, Row.key, howner, hxbox]
      rwa [← eq_of_key hmem hr hkey]
    · cases hc
    · cases hc
  · intro hx
    exact ⟨r, hx, hbox, .inl ⟨rfl, by rw [Row.key, (mem_charges hx).2, hbox]⟩⟩

theorem hits_fetched_iff (hr : r ∈ s.rows) (hbox : r.box = .inbox) (hrowner : r.owner = owner)
    (hhosts : env.hosts r.sender = true) :
    (∃ x ∈ charges s owner req, Hits env owner x (r.sender, .outbox, r.id) .fetched) ↔
      r ∈ charges s owner req := by
  constructor
  · rintro ⟨x, hx, hxbox, ⟨hc, -⟩ | ⟨-, -, hk⟩ | ⟨-, hc, -⟩⟩
    · cases hc
    · obtain ⟨hmem, howner⟩ := mem_charges hx
      simp only [Prod.mk.injEq] at hk
      have hkey : x.key = r.key := by rw [Row.key, Row.key, howner, hrowner, hxbox, hbox, hk.2.2]
      rwa [← eq_of_key hmem hr hkey]
    · cases hc
  · exact fun hx => ⟨r, hx, hbox, .inr (.inl ⟨hhosts, rfl, rfl⟩)⟩

theorem hits_due_iff (hr : r ∈ s.rows) (hbox : r.box = .inbox) (hhosts : env.hosts r.sender = false) :
    (∃ x ∈ charges s owner req, Hits env owner x r.key .receiptDue) ↔ r ∈ charges s owner req := by
  constructor
  · rintro ⟨x, hx, hxbox, ⟨hc, -⟩ | ⟨-, hc, -⟩ | ⟨-, -, hk⟩⟩
    · cases hc
    · cases hc
    · rwa [← eq_of_key (mem_charges hx).1 hr ((key_of_inbox hxbox).trans hk.symm)]
  · exact fun hx => ⟨r, hx, hbox, .inr (.inr ⟨hhosts, rfl, key_of_inbox hbox⟩)⟩

variable {hosts : Who → Bool}

theorem pending_iff : s.pending hosts r = true ↔ r.box = .inbox ∧ (r.stamps .read = none ∨
    (hosts r.sender = true ∧ ∃ o ∈ s.rows, o.key = (r.sender, .outbox, r.id) ∧ o.stamps .fetched = none) ∨
    hosts r.sender = false ∧ r.stamps .receiptDue = none) := by
  have hrow : ((s.row (r.sender, .outbox, r.id)).any fun o => (o.stamps .fetched).isNone) = true ↔
      ∃ o ∈ s.rows, o.key = (r.sender, .outbox, r.id) ∧ o.stamps .fetched = none := by
    rw [Option.any_eq_true]
    constructor
    · rintro ⟨o, ho, hfetched⟩
      exact ⟨o, (row_some ho).1, (row_some ho).2, Option.isNone_iff_eq_none.mp hfetched⟩
    · rintro ⟨o, ho, hkey, hfetched⟩
      exact ⟨o, hkey ▸ row_of_mem ho, Option.isNone_iff_eq_none.mpr hfetched⟩
  rw [pending, Bool.and_eq_true, decide_eq_true_iff, Bool.or_eq_true, Option.isNone_iff_eq_none]
  cases hosts r.sender with
  | true => simpa using fun _ => or_congr_right hrow
  | false => simp

end

/-- **Collected is carried.** A read that is refused and a silent read record nothing. Of any other
read: that an inbox row is newly stamped, its sender's row on this node is newly stamped, and a receipt is
launched to a sender that was owed one, exactly if the answer carries the body, holds if and only if the
rows about which there is something to record fit in the answer. -/
theorem collected_iff_carried (env : ReadEnv Who ID) (hfaults : ∀ stmt, env.faults stmt = none) (owner : Who)
    (request : ReadRequest ID) (s : Store Who ID) (left : ℤ) :
    let out := (readMessages env owner request).exec ⟨s, [], left⟩
    (∀ e, out.1 = .error e → out.2.store = s ∧ out.2.receipts = []) ∧
      (request.silent = true → out.2.store = s ∧ out.2.receipts = []) ∧
      ∀ v res, request.validate env.limits = .ok v → out.1 = .ok res → request.silent = false →
        (BodiesFit env s owner v ↔ ∀ r ∈ s.rows, r.box = .inbox →
          (r.stamps .read = none → ((out.2.store.stampOf r.key .read).isSome ↔ res.Carries r)) ∧
          (env.hosts r.sender = true → r.owner = owner → ∀ o ∈ s.rows, o.key = (r.sender, .outbox, r.id) →
            o.stamps .fetched = none → ((out.2.store.stampOf o.key .fetched).isSome ↔ res.Carries r)) ∧
          (env.hosts r.sender = false → r.stamps .receiptDue = none →
            ((r.recipient, r.sender, r.id) ∈ out.2.receipts ↔ res.Carries r))) := by
  intro out
  cases hvalid : request.validate env.limits with
  | error e =>
    have hout : out = (.error e, ⟨s, [], left⟩) := by
      show (readMessages env owner request).exec _ = _
      rw [readMessages, hvalid]
      rfl
    rw [hout]
    exact ⟨fun _ _ => ⟨rfl, rfl⟩, fun _ => ⟨rfl, rfl⟩, fun v res h => by cases h⟩
  | ok v =>
    have hout : out = (readValid env owner v).exec ⟨s, [], left⟩ := by
      show (readMessages env owner request).exec _ = _
      rw [readMessages, hvalid]
    have hsame := (ReadRequest.validate_ok hvalid).2
    refine ⟨fun e he => ?_, fun hsilent => ?_, ?_⟩
    · obtain ⟨res, s', hok⟩ := total_readValid owner hfaults v ⟨s, [], left⟩
      rw [hout, hok] at he
      cases he
    · have hkeep := untouched_readValid env owner (hsame.trans hsilent) ⟨s, [], left⟩
      rw [hout]
      exact hkeep
    · intro v' res hv hres hsilent
      cases hv
      have hread : (readValid env owner v).exec ⟨s, [], left⟩ = (.ok res, out.2) := by
        rw [← hout, ← hres]
      have hrecorded := Recorded.readValid hfaults (hsame.trans hsilent) hread
      -- whatever is newly recorded is recorded of the rows that are charged
      have hstamped : ∀ r ∈ s.rows, r.box = .inbox → r.stamps .read = none →
          ((out.2.store.stampOf r.key .read).isSome ↔ r ∈ charges s owner v) := by
        intro r hr hbox hunread
        rw [hrecorded.marks.stamps, stampOf_of_mem hr, hunread, row_of_mem hr, hits_read_iff hr hbox]
        simp
      have htold : ∀ r ∈ s.rows, r.box = .inbox → env.hosts r.sender = true → r.owner = owner → ∀ o ∈ s.rows,
          o.key = (r.sender, .outbox, r.id) → o.stamps .fetched = none →
          ((out.2.store.stampOf o.key .fetched).isSome ↔ r ∈ charges s owner v) := by
        intro r hr hbox hhosts howner o ho hkey hfetched
        rw [hrecorded.marks.stamps, stampOf_of_mem ho, hfetched, row_of_mem ho, hkey,
          hits_fetched_iff hr hbox howner hhosts]
        simp
      have hlaunched : ∀ r ∈ s.rows, r.box = .inbox → env.hosts r.sender = false → r.stamps .receiptDue = none →
          ((r.recipient, r.sender, r.id) ∈ out.2.receipts ↔ r ∈ charges s owner v) := by
        intro r hr hbox hhosts hdue
        rw [hrecorded.launched r hr hbox hhosts hdue, hrecorded.marks.stamps, stampOf_of_mem hr, hdue,
          row_of_mem hr, hits_due_iff hr hbox hhosts]
        simp
      rw [bodiesFit_iff hread]
      constructor
      · intro hfit r hr hbox
        have hcarries : s.pending env.hosts r = true → (res.Carries r ↔ r ∈ charges s owner v) := by
          refine fun hpending => ⟨fun hcarried => ?_, fun hcharged => hfit r hcharged hpending⟩
          obtain ⟨pre, post, heq, -⟩ := (carries_iff hread hr).mp hcarried
          exact heq ▸ mem_append_right _ mem_cons_self
        refine ⟨fun hunread => ?_, fun hhosts howner o ho hkey hfetched => ?_, fun hhosts hdue => ?_⟩
        · rw [hcarries (pending_iff.mpr ⟨hbox, .inl hunread⟩), hstamped r hr hbox hunread]
        · rw [hcarries (pending_iff.mpr ⟨hbox, .inr (.inl ⟨hhosts, o, ho, hkey, hfetched⟩)⟩),
            htold r hr hbox hhosts howner o ho hkey hfetched]
        · rw [hcarries (pending_iff.mpr ⟨hbox, .inr (.inr ⟨hhosts, hdue⟩)⟩), hlaunched r hr hbox hhosts hdue]
      · intro hclaim r hcharged hpending
        obtain ⟨hr, howner⟩ := mem_charges hcharged
        obtain ⟨hbox, hpending⟩ := pending_iff.mp hpending
        obtain ⟨hread', hfetched', hdue'⟩ := hclaim r hr hbox
        rcases hpending with hunread | ⟨hhosts, o, ho, hkey, hfetched⟩ | ⟨hhosts, hdue⟩
        · exact (hread' hunread).mp ((hstamped r hr hbox hunread).mpr hcharged)
        · exact (hfetched' hhosts howner o ho hkey hfetched).mp
            ((htold r hr hbox hhosts howner o ho hkey hfetched).mpr hcharged)
        · exact (hdue' hhosts hdue).mp ((hlaunched r hr hbox hhosts hdue).mpr hcharged)

/-- Where everything that is charged fits, so do the rows about which there is something to record. -/
theorem bodiesFit_of_total {env : ReadEnv Who ID} {s : Store Who ID} {owner : Who} {req : ValidRequest ID}
    (h : (Budget.total Row.size (charges s owner req) : ℤ) ≤ env.limits.maxReadBytes) :
    BodiesFit env s owner req := by
  intro pre r post heq _ _
  rw [heq, Budget.total_append, Budget.total_cons] at h
  omega

theorem collected_iff_carried_thread :
    ∃ res, ((readMessages (threadEnv 11) 2 threadRequest).exec ⟨threadStore, [], 0⟩).1 = .ok res ∧
      ∀ r ∈ threadStore.rows, r.stamps .read = none → r.box = .inbox →
        ((((readMessages (threadEnv 11) 2 threadRequest).exec ⟨threadStore, [],
          0⟩).2.store.stampOf r.key .read).isSome ↔
          res.Carries r) := by
  obtain ⟨v, hvalid⟩ : ∃ v, threadRequest.validate (threadEnv 11).limits = .ok v := ⟨_, rfl⟩
  obtain ⟨res, hres⟩ :
      ∃ res, ((readMessages (threadEnv 11) 2 threadRequest).exec ⟨threadStore, [], 0⟩).1 = .ok res := ⟨_, rfl⟩
  have hfit : BodiesFit (threadEnv 11) threadStore 2 v := by
    cases hvalid
    exact bodiesFit_of_total (by decide)
  refine ⟨res, hres, fun r hr hread hbox => ?_⟩
  exact (((collected_iff_carried (threadEnv 11) (fun _ => rfl) 2 threadRequest threadStore 0).2.2 v res
    hvalid hres rfl).mp hfit r hr hbox).1 hread

/-- With room for two bytes, message 5 is named and its body left out: it is stamped read, and a
receipt goes to its sender. -/
theorem collected_not_carried :
    let request :
    ReadRequest ℕ := { refs := [⟨"inbox", 5⟩], children := "none", maxChildren := 0, silent := false }
    let out := (readMessages (threadEnv 2) 2 request).exec ⟨threadStore, [], 0⟩
    threadStore.stampOf (2, .inbox, 5) .read = none ∧ out.2.store.stampOf (2, .inbox, 5) .read = some 20 ∧
      out.2.receipts = [(2, 1, 5)] ∧
      ∃ res, out.1 = .ok res ∧
        (res.messages ++ res.replies).map (fun m => (m.row.id, m.content)) = [(5, none)] := by
  refine ⟨by decide, by decide, by decide, _, rfl, by decide⟩

end Astrald.Messaging
