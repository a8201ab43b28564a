import Mathlib.Data.List.Basic
import Mathlib.Data.List.TakeWhile

/-!
# Astral resource locators

`ARL.String` writes a caller and a target, if there is one, before the query, and `Split` takes off what
looks like a caller and then what looks like a target. Texts are lists of characters; a byte that is not
part of one would be like any other that no name has.

* `round_trip`: a locator is read back if, and only if, its query does not look like a part that is missing
  before it;
* `read_as_target`: a query that begins like a target is read back as one.
-/

namespace Astrald.Arl

abbrev Text := List Char

/-- The characters of `callerExp` and `targetExp`. Neither mark is one of them. -/
def isName (c : Char) : Bool := c.isAlphanum || c = '_' || c = '.' || c = '-'

def hexDigits : Text := ['0', '1', '2', '3', '4', '5', '6', '7', '8', '9', 'a', 'b', 'c', 'd', 'e', 'f']

/-- What a locator uses of `astral.Identity`: a key in hexadecimal, which is read back. -/
structure Identities (Identity : Type) where
  zero : Identity
  print : Identity → Text
  parse : Text → Option Identity
  print_ne_nil : ∀ i, i ≠ zero → print i ≠ []
  hex : ∀ i, i ≠ zero → ∀ c ∈ print i, c ∈ hexDigits
  parse_print : ∀ i, i ≠ zero → parse (print i) = some i

structure ARL (Identity : Type) where
  caller : Option Identity
  target : Option Identity
  query : Text

/-- `^([a-zA-Z0-9_.-]+)` and a mark: the name before it and the text after it. -/
def cut (mark : Char) (s : Text) : Text × Text :=
  match s.takeWhile isName, s.dropWhile isName with
  | n :: name, c :: rest => if c = mark then (n :: name, rest) else ([], s)
  | _, _ => ([], s)

def split (s : Text) : Text × Text × Text :=
  let (caller, s) := cut '@' s
  (caller, cut ':' s)

def scheme : Text := ['a', 's', 't', 'r', 'a', 'l', ':', '/', '/']

variable {Identity : Type} [DecidableEq Identity] (ids : Identities Identity)

/-- An empty name is no identity. -/
def resolve (resolver : Option (Text → Option Identity)) (name : Text) : Option (Option Identity) :=
  if name = [] then some none else (resolver.getD ids.parse name).map some

def parse (s : Text) (resolver : Option (Text → Option Identity)) : Option (ARL Identity) := do
  let (c, t, query) := split (if scheme.isPrefixOf s then s.drop scheme.length else s)
  let caller ← resolve ids resolver c
  let target ← resolve ids resolver t
  some { caller, target, query }

/-- `IsZero` holds of nil. -/
def isZero (i : Option Identity) : Bool := i.getD ids.zero = ids.zero

def name (i : Option Identity) : Text := if isZero ids i then [] else ids.print (i.getD ids.zero)

def part (mark : Char) (i : Option Identity) : Text := if isZero ids i then [] else name ids i ++ [mark]

def toText (a : ARL Identity) : Text := part ids '@' a.caller ++ (part ids ':' a.target ++ a.query)

/-- A part that is missing is not what the text after it begins with. -/
def Plain (a : ARL Identity) : Prop :=
  isZero ids a.target = true →
    cut ':' a.query = ([], a.query) ∧ (isZero ids a.caller = true → cut '@' a.query = ([], a.query))

theorem cut_run {name : Text} (hname : ∀ c ∈ name, isName c = true) (hne : name ≠ []) {c : Char}
    (hc : isName c = false) (mark : Char) (rest : Text) :
    cut mark (name ++ c :: rest) = if c = mark then (name, rest) else ([], name ++ c :: rest) := by
  have htake : (name ++ c :: rest).takeWhile isName = name := by
    rw [List.takeWhile_append_of_pos hname, List.takeWhile_cons_of_neg (by simp [hc]), List.append_nil]
  have hdrop : (name ++ c :: rest).dropWhile isName = c :: rest := by
    rw [List.dropWhile_append_of_pos hname, List.dropWhile_cons_of_neg (by simp [hc])]
  obtain ⟨n, name, rfl⟩ := List.exists_cons_of_ne_nil hne
  unfold cut
  rw [htake, hdrop]

/-- An identity that is not zero, as it is printed. -/
theorem name_spec {i : Option Identity} (hi : isZero ids i = false) :
    name ids i ≠ [] ∧ ∀ c ∈ name ids i, isName c = true ∧ c ≠ 's' := by
  have hne : i.getD ids.zero ≠ ids.zero := of_decide_eq_false hi
  have hdigit : ∀ c ∈ hexDigits, isName c = true ∧ c ≠ 's' := by simp [hexDigits, isName]
  rw [name, hi]
  exact ⟨ids.print_ne_nil _ hne, fun c hc => hdigit c (ids.hex _ hne c hc)⟩

theorem cut_part {mark : Char} (hmark : isName mark = false) {i : Option Identity} {rest : Text}
    (h : isZero ids i = true → cut mark rest = ([], rest)) :
    cut mark (part ids mark i ++ rest) = (name ids i, rest) := by
  cases hi : isZero ids i with
  | true => simpa [part, name, hi] using h hi
  | false =>
    obtain ⟨hne, hchars⟩ := name_spec ids hi
    have hrun := cut_run (fun c hc => (hchars c hc).1) hne hmark mark rest
    simpa [part, hi] using hrun

theorem resolve_name (i : Option Identity) :
    ∃ i', resolve ids none (name ids i) = some i' ∧ i'.getD ids.zero = i.getD ids.zero := by
  cases hi : isZero ids i with
  | true => exact ⟨none, by simp [resolve, name, hi], (of_decide_eq_true hi).symm⟩
  | false =>
    have hne : i.getD ids.zero ≠ ids.zero := of_decide_eq_false hi
    refine ⟨some (i.getD ids.zero), ?_, rfl⟩
    simp [resolve, name, hi, ids.print_ne_nil _ hne, ids.parse_print _ hne]

section

variable {a : ARL Identity} (h : Plain ids a)
include h

theorem cut_caller : cut '@' (toText ids a) = (name ids a.caller, part ids ':' a.target ++ a.query) := by
  refine cut_part ids (by decide) fun hcaller => ?_
  cases htarget : isZero ids a.target with
  | true => simpa [part, htarget] using (h htarget).2 hcaller
  | false =>
    obtain ⟨hne, hchars⟩ := name_spec ids htarget
    have hrun := cut_run (fun c hc => (hchars c hc).1) hne (c := ':') (by decide) '@' a.query
    simpa [part, htarget] using hrun

theorem cut_target : cut ':' (part ids ':' a.target ++ a.query) = (name ids a.target, a.query) :=
  cut_part ids (by decide) fun htarget => (h htarget).1

theorem no_scheme : ¬ scheme.isPrefixOf (toText ids a) := by
  intro hscheme
  obtain ⟨rest, hrest⟩ := List.isPrefixOf_iff_prefix.mp hscheme
  have hcaller := cut_caller ids h
  have htarget := cut_target ids h
  -- the scheme has no mark of a caller, and would be a target
  rw [← hrest] at hcaller
  have hwhole : scheme ++ rest = part ids ':' a.target ++ a.query := congrArg Prod.snd hcaller
  rw [← hwhole] at htarget
  have hname : ['a', 's', 't', 'r', 'a', 'l'] = name ids a.target := congrArg Prod.fst htarget
  cases hi : isZero ids a.target with
  | true => simp [name, hi] at hname
  | false => exact ((name_spec ids hi).2 's' (by simp [← hname])).2 rfl

theorem read_of_plain : ∃ b, parse ids (toText ids a) none = some b ∧
    b.caller.getD ids.zero = a.caller.getD ids.zero ∧
    b.target.getD ids.zero = a.target.getD ids.zero ∧ b.query = a.query := by
  obtain ⟨caller, hcaller, hsame⟩ := resolve_name ids a.caller
  obtain ⟨target, htarget, hsame'⟩ := resolve_name ids a.target
  refine ⟨⟨caller, target, a.query⟩, ?_, hsame, hsame', rfl⟩
  have hsplit : split (toText ids a) = (name ids a.caller, name ids a.target, a.query) := by
    simp only [split, cut_caller ids h, cut_target ids h]
  simp [parse, no_scheme ids h, hsplit, hcaller, htarget]

end

/-- A cut that takes something off leaves less. -/
theorem cut_cases (mark : Char) (s : Text) : cut mark s = ([], s) ∨ (cut mark s).2.length < s.length := by
  have hwhole := congrArg List.length (List.takeWhile_append_dropWhile (p := isName) (l := s))
  rw [List.length_append] at hwhole
  unfold cut
  split
  · rename_i n name c rest htake hdrop
    rw [htake, hdrop, List.length_cons, List.length_cons] at hwhole
    split
    · right
      show rest.length < s.length
      omega
    · exact .inl rfl
  · exact .inl rfl

/-- A query that two cuts leave whole has nothing taken off by either. -/
theorem uncut {s query : Text} (hs : s.length ≤ query.length) (h : (cut ':' (cut '@' s).2).2 = query) :
    s = query ∧ cut '@' query = ([], query) ∧ cut ':' query = ([], query) := by
  rcases cut_cases '@' s with hcaller | hshort
  · rw [hcaller] at h
    rcases cut_cases ':' s with htarget | hshort
    · rw [htarget] at h
      obtain rfl : s = query := h
      exact ⟨rfl, hcaller, htarget⟩
    · have hlen : (cut ':' s).2.length = query.length := congrArg List.length h
      omega
  · have hlen := congrArg List.length h
    rcases cut_cases ':' (cut '@' s).2 with htarget | hshort'
    · rw [htarget] at hlen
      have hlen : (cut '@' s).2.length = query.length := hlen
      omega
    · omega

/-- The text that `Split` is given. -/
def body (s : Text) : Text := if scheme.isPrefixOf s then s.drop scheme.length else s

omit [DecidableEq Identity] in
theorem query_of_parse {s : Text} {resolver : Option (Text → Option Identity)} {b : ARL Identity}
    (h : parse ids s resolver = some b) : (cut ':' (cut '@' (body s)).2).2 = b.query := by
  simp only [parse, Option.bind_eq_bind, Option.bind_eq_some_iff] at h
  obtain ⟨caller, -, target, -, hb⟩ := h
  cases hb
  rfl

/-- What is read back whole is plain: a part taken off the query would leave less of it. -/
theorem plain_of_query {a b : ARL Identity} (hb : parse ids (toText ids a) none = some b)
    (hquery : b.query = a.query) : Plain ids a := by
  intro htarget
  have hread := query_of_parse ids hb
  rw [hquery] at hread
  have htext : toText ids a = part ids '@' a.caller ++ a.query := by simp [toText, part, htarget]
  rw [htext] at hread
  cases hcaller : isZero ids a.caller with
  | true =>
    have hbody : (body (part ids '@' a.caller ++ a.query)).length ≤ a.query.length := by
      rw [part, if_pos hcaller, List.nil_append, body]
      split
      · rw [List.length_drop]
        exact Nat.sub_le ..
      · exact le_refl _
    obtain ⟨-, hcut, hcut'⟩ := uncut hbody hread
    exact ⟨hcut', fun _ => hcut⟩
  | false =>
    have hcut : cut '@' (part ids '@' a.caller ++ a.query) = (name ids a.caller, a.query) :=
      cut_part ids (by decide) fun hzero => absurd hzero (by simp [hcaller])
    -- the scheme has no mark of a caller
    have hplain : body (part ids '@' a.caller ++ a.query) = part ids '@' a.caller ++ a.query := by
      refine if_neg fun hscheme => ?_
      obtain ⟨rest, hrest⟩ := List.isPrefixOf_iff_prefix.mp hscheme
      rw [← hrest] at hcut
      exact (name_spec ids hcaller).1 (congrArg Prod.fst hcut).symm
    rw [hplain, hcut] at hread
    refine ⟨(cut_cases ':' a.query).resolve_right fun hshort => ?_, fun hzero => absurd hzero (by simp)⟩
    have hlen : (cut ':' a.query).2.length = a.query.length := congrArg List.length hread
    omega

/-- **Round trip.** A locator is read back from its text, nil and zero counting as equal, exactly if it is plain. -/
theorem round_trip (a : ARL Identity) : Plain ids a ↔ ∃ b, parse ids (toText ids a) none = some b ∧
    b.caller.getD ids.zero = a.caller.getD ids.zero ∧
    b.target.getD ids.zero = a.target.getD ids.zero ∧ b.query = a.query := by
  constructor
  · exact read_of_plain ids
  · rintro ⟨b, hb, -, -, hquery⟩
    exact plain_of_query ids hb hquery

/-- One key, which prints as `e`. -/
def oneKey : Identities Bool where
  zero := false
  print _ := ['e']
  parse s := if s = ['e'] then some true else none
  print_ne_nil _ _ := by decide
  hex _ _ := by simp [hexDigits]
  parse_print := by decide

theorem round_trip_asked : ∃ b, parse oneKey (toText oneKey ⟨none, some true, ['e', ':', 'q']⟩) none = some b ∧
    b.caller.getD false = false ∧ b.target.getD false = true ∧ b.query = ['e', ':', 'q'] :=
  (round_trip oneKey ⟨none, some true, ['e', ':', 'q']⟩).mp fun h => absurd h (by decide)

/-- The query `e:q` without a caller and a target is read back as the query `q` to the key `e`. -/
theorem read_as_target : ¬ ∃ b, parse oneKey (toText oneKey ⟨none, none, ['e', ':', 'q']⟩) none = some b ∧
    b.caller.getD false = false ∧ b.target.getD false = false ∧ b.query = ['e', ':', 'q'] := by
  rintro ⟨b, hb, -, htarget, -⟩
  cases hb
  exact absurd htarget (by decide)

end Astrald.Arl
