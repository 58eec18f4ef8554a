import ApiClient.Proofs.Json.Everywhere
import ApiClient.Proofs.Outcome
import ApiClient.Proofs.Schema.References
import ApiClient.Response
import Mathlib.Data.List.Nodup
import Mathlib.Data.List.Sort
import Mathlib.Data.String.Basic

/-!
# Which response counts

An operation documents responses for many codes, and the type of its method is made of one of
them: of the success codes with a schema, the one that comes first. The preferred codes come
before the others, and those come in their order as texts. The codes are sorted when they are
looked at, so where a code stands among the responses says nothing, and neither does what is
documented for a code that is no success.
-/

namespace ApiClient.Response

open Json (lookup? names)

/-! ## The order of the codes -/

/-- A success code begins with a two. -/
def IsSuccess (code : String) : Prop := code.toList.head? = some '2'

/-- How early a code is looked at, whatever it is as a text. -/
def rank (code : String) : Nat :=
  if code = "200" then 0 else if code = "201" then 1 else 2

/-- A code comes before another: it is of an earlier rank, or of the
same rank and smaller as a text. -/
def Precedes (code other : String) : Prop :=
  rank code < rank other ∨ rank code = rank other ∧ code < other

theorem Precedes.asymm {code other : String} (h : Precedes code other) :
    ¬ Precedes other code := by
  rintro (h' | ⟨hrank', h'⟩) <;> rcases h with h | ⟨hrank, h⟩
  · exact Nat.lt_asymm h h'
  · exact absurd h' (hrank ▸ Nat.lt_irrefl _)
  · exact absurd h (hrank' ▸ Nat.lt_irrefl _)
  · exact lt_asymm h h'

/-- The preferred codes are those of the first two ranks. -/
theorem mem_preferredCodes {code : String} : code ∈ preferredCodes ↔ rank code ≠ 2 := by
  unfold preferredCodes rank
  split
  · rename_i h
    simp [h]
  · split
    · rename_i h
      simp [h]
    · simp_all

theorem isFurtherCode_iff {code : String} :
    isFurtherCode (.string code) = true ↔ IsSuccess code ∧ rank code = 2 := by
  have hhead : ['2'].isPrefixOf code.toList = true ↔ IsSuccess code := by
    unfold IsSuccess
    cases code.toList with
    | nil => simp
    | cons c rest =>
      rw [List.isPrefixOf_cons_cons, List.isPrefixOf_nil_left, Bool.and_true, beq_iff_eq,
        List.head?_cons, Option.some_inj, eq_comm]
  have hpreferred : preferredCodes.any (Json.isText · (.string code)) = true ↔
      code ∈ preferredCodes := by
    simp [Json.isText, preferredCodes]
  unfold isFurtherCode
  rw [Bool.and_eq_true, Bool.not_eq_true', ← Bool.not_eq_true, hpreferred,
    mem_preferredCodes, not_not]
  exact and_congr_left' hhead

variable {responses : List (String × Json)}

/-- The codes that are looked at are the preferred ones, and the other
success codes that are there. -/
theorem mem_codes {code : String} : code ∈ codes responses ↔
    rank code ≠ 2 ∨ code ∈ names responses ∧ IsSuccess code ∧ rank code = 2 := by
  unfold codes
  dsimp only
  rw [List.mem_append, mem_preferredCodes, List.mem_mergeSort, List.mem_filter, isFurtherCode_iff]

theorem isSuccess_of_mem_codes {code : String} (h : code ∈ codes responses) : IsSuccess code := by
  have hpreferred : ∀ code ∈ preferredCodes, IsSuccess code := by
    unfold IsSuccess
    decide
  rcases mem_codes.mp h with h | ⟨-, h, -⟩
  · exact hpreferred code (mem_preferredCodes.mpr h)
  · exact h

/-- Every code that is looked at comes before those that are looked at later. -/
theorem pairwise_codes (responses : List (String × Json)) :
    (codes responses).Pairwise fun code other => other = code ∨ Precedes code other := by
  unfold codes
  dsimp only
  refine List.pairwise_append.mpr ⟨?preferred, ?further, ?between⟩
  case preferred =>
    refine List.pairwise_pair.mpr (.inr (.inl ?_))
    decide
  case further =>
    refine (List.pairwise_mergeSort' (· ≤ ·) _).imp_of_mem fun hcode hother hle => ?_
    rw [List.mem_mergeSort, List.mem_filter, isFurtherCode_iff] at hcode hother
    rcases eq_or_lt_of_le hle with he | hlt
    · exact .inl he.symm
    · exact .inr (.inr ⟨hcode.2.2.trans hother.2.2.symm, hlt⟩)
  case between =>
    intro code hcode other hother
    rw [List.mem_mergeSort, List.mem_filter, isFurtherCode_iff] at hother
    have hle : rank code ≤ 2 := by
      unfold rank
      split
      · exact Nat.zero_le _
      · split <;> decide
    rw [mem_preferredCodes] at hcode
    exact .inr (.inl (hother.2.2 ▸ lt_of_le_of_ne hle hcode))

/-! ## Schemas -/

/-- A response as a document should have it: an object, or null for one
of which nothing is said. -/
def IsResponse (value : Json) : Prop := value = .null ∨ ∃ members, value = .object members

/-- The schema of a response. -/
def schema? : Json → Option Json
  | .object members => lookup? "schema" members
  | _ => none

/-- The schema that is documented for a code. -/
def schemaAt (responses : List (String × Json)) (code : String) : Option Json :=
  (lookup? code responses).bind schema?

theorem schemaOf_eq {value : Json} (h : IsResponse value) :
    schemaOf value = .ok (schema? value) := by
  rcases h with rfl | ⟨members, rfl⟩
  · rfl
  · unfold schemaOf
    rw [Json.orElse_object]
    have hmentions : (Json.object members).mentions "schema" =
        .ok (lookup? "schema" members).isSome := rfl
    cases h : lookup? "schema" members with
    | none => exact bind_eq_ok.mpr ⟨false, by rw [hmentions, h]; rfl, congrArg Except.ok h.symm⟩
    | some schema =>
      have hmember : (Json.object members).member "schema" = .ok schema :=
        Json.member_eq_ok.mpr ⟨members, rfl, h⟩
      exact bind_eq_ok.mpr ⟨true, by rw [hmentions, h]; rfl,
        bind_eq_ok.mpr ⟨schema, hmember, congrArg Except.ok h.symm⟩⟩

/-- Going through codes finds the first schema that is documented for one. -/
theorem firstSchema_eq {listed : List String}
    (h : ∀ code ∈ listed, ∀ value, lookup? code responses = some value → IsResponse value) :
    firstSchema responses listed = .ok (listed.findSome? (schemaAt responses)) := by
  induction listed with
  | nil => rfl
  | cons code rest ih =>
    obtain ⟨hcode, hrest⟩ := List.forall_mem_cons.mp h
    have hschema : schemaOf ((lookup? code responses).getD .null) =
        .ok (schemaAt responses code) := by
      unfold schemaAt
      cases hvalue : lookup? code responses with
      | none => exact schemaOf_eq (.inl rfl)
      | some value => exact schemaOf_eq (hcode value hvalue)
    rw [firstSchema, hschema, List.findSome?_cons]
    cases schemaAt responses code with
    | none => exact ih hrest
    | some schema => rfl

/-! ## The first success code with a schema -/

/-- A success code has a schema. -/
def Documents (responses : List (String × Json)) (code : String) (schema : Json) : Prop :=
  IsSuccess code ∧ ∃ members, lookup? code responses = some (.object members) ∧
    lookup? "schema" members = some schema

/-- A success code has a schema, and it comes before all others that have one. -/
structure Decides (responses : List (String × Json)) (code : String) (schema : Json) : Prop where
  documented : Documents responses code schema
  first : ∀ {other found}, Documents responses other found → other = code ∨ Precedes code other

theorem documents_iff {code : String} {schema : Json} :
    Documents responses code schema ↔
      code ∈ codes responses ∧ schemaAt responses code = some schema := by
  have hschema : schemaAt responses code = some schema ↔ ∃ members,
      lookup? code responses = some (.object members) ∧
      lookup? "schema" members = some schema := by
    unfold schemaAt
    rw [Option.bind_eq_some_iff]
    constructor
    · rintro ⟨value, hvalue, h⟩
      cases value with
      | object members => exact ⟨members, hvalue, h⟩
      | null | bool _ | int _ | double _ | string _ | array _ => cases h
    · rintro ⟨members, hvalue, h⟩
      exact ⟨_, hvalue, h⟩
  rw [Documents, ← hschema]
  refine and_congr_left fun hfound => ⟨fun hsuccess => ?_, isSuccess_of_mem_codes⟩
  obtain ⟨members, hvalue, -⟩ := hschema.mp hfound
  have hmem : code ∈ names responses := by
    by_contra hnot
    rw [Json.lookup?_eq_none_iff.mpr hnot] at hvalue
    cases hvalue
  rw [mem_codes]
  exact (ne_or_eq (rank code) 2).imp_right fun hrank => ⟨hmem, hsuccess, hrank⟩

theorem Decides.unique {code other : String} {schema found : Json}
    (h : Decides responses code schema)
    (h' : Decides responses other found) : schema = found := by
  have hsame : other = code := by
    rcases h.first h'.documented with he | hbefore
    · exact he
    · exact (h'.first h.documented).elim Eq.symm fun hafter => absurd hafter hbefore.asymm
  subst hsame
  have hschema := (documents_iff.mp h.documented).2
  rw [(documents_iff.mp h'.documented).2] at hschema
  exact (Option.some.inj hschema).symm

/-- What is found first belongs to the code that decides. -/
theorem exists_decides {schema : Json}
    (h : (codes responses).findSome? (schemaAt responses) = some schema) :
    ∃ code, Decides responses code schema := by
  obtain ⟨before, code, after, hcodes, hcode, hbefore⟩ := List.findSome?_eq_some_iff.mp h
  have hmem : code ∈ codes responses := hcodes ▸ List.mem_append_right _ List.mem_cons_self
  refine ⟨code, documents_iff.mpr ⟨hmem, hcode⟩, fun {other found} hother => ?_⟩
  obtain ⟨hmem, hother⟩ := documents_iff.mp hother
  have hpairwise := pairwise_codes responses
  rw [hcodes] at hmem hpairwise
  -- a code with a schema does not stand in front of the first that has one
  rcases List.mem_append.mp hmem with hmem | hmem
  · rw [hbefore other hmem] at hother
    cases hother
  · rcases List.mem_cons.mp hmem with he | hmem
    · exact .inl he
    · exact List.rel_of_pairwise_cons (List.pairwise_append.mp hpairwise).2.1 hmem

theorem findSome?_codes_eq_none_iff : (codes responses).findSome? (schemaAt responses) = none ↔
    ∀ code schema, ¬ Documents responses code schema := by
  rw [List.findSome?_eq_none_iff]
  constructor
  · intro h code schema hdocuments
    obtain ⟨hmem, hschema⟩ := documents_iff.mp hdocuments
    rw [h code hmem] at hschema
    cases hschema
  · intro h code hmem
    exact Option.eq_none_iff_forall_ne_some.mpr fun schema hschema =>
      h code schema (documents_iff.mpr ⟨hmem, hschema⟩)

theorem findSome?_codes_eq_some_iff {schema : Json} :
    (codes responses).findSome? (schemaAt responses) = some schema ↔
    ∃ code, Decides responses code schema := by
  refine ⟨exists_decides, fun ⟨code, h⟩ => ?_⟩
  cases hfound : (codes responses).findSome? (schemaAt responses) with
  | none => exact absurd h.documented (findSome?_codes_eq_none_iff.mp hfound code schema)
  | some found =>
    obtain ⟨other, hother⟩ := exists_decides hfound
    rw [h.unique hother]

/-- If any success code has a schema, one of them is the first. -/
theorem decides_of_documents {code : String} {schema : Json}
    (h : Documents responses code schema) : ∃ first found, Decides responses first found := by
  cases hfound : (codes responses).findSome? (schemaAt responses) with
  | none => exact absurd h (findSome?_codes_eq_none_iff.mp hfound code schema)
  | some found =>
    obtain ⟨first, hfirst⟩ := exists_decides hfound
    exact ⟨first, found, hfirst⟩

/-! ## The response of an operation -/

/-- Success codes have responses as a document should have them. -/
def WellFormed (responses : List (String × Json)) : Prop :=
  ∀ code, IsSuccess code → ∀ value, lookup? code responses = some value → IsResponse value

theorem ofResponses_eq (h : WellFormed responses) (method : String) :
    ofResponses (.object responses) method =
    ofSchema (((codes responses).findSome? (schemaAt responses)).getD .null) method := by
  have hfirst : firstSchema responses (codes responses) =
      .ok ((codes responses).findSome? (schemaAt responses)) :=
    firstSchema_eq fun code hcode => h code (isSuccess_of_mem_codes hcode)
  have hschema : successSchema (.object responses) =
      .ok (((codes responses).findSome? (schemaAt responses)).getD .null) := by
    unfold successSchema
    rw [Json.orElse_object]
    exact bind_eq_ok.mpr ⟨_, hfirst, rfl⟩
  rw [ofResponses, hschema]
  rfl

/-- Responses that agree on the success codes are not told apart. -/
theorem ofResponses_congr (h : WellFormed responses) {others : List (String × Json)}
    (hsame : ∀ code, IsSuccess code → lookup? code others = lookup? code responses)
    (method : String) :
    ofResponses (.object others) method = ofResponses (.object responses) method := by
  have hothers : WellFormed others := fun code hcode => by
    rw [hsame code hcode]
    exact h code hcode
  have hdocuments : ∀ code schema, Documents others code schema ↔
      Documents responses code schema :=
    fun code schema => and_congr_right fun hcode => by rw [hsame code hcode]
  rw [ofResponses_eq h, ofResponses_eq hothers]
  congr 2
  -- the first documented code is told by the documented codes alone
  refine Option.ext fun schema => ?_
  rw [findSome?_codes_eq_some_iff, findSome?_codes_eq_some_iff]
  constructor
  · rintro ⟨code, hdocumented, hfirst⟩
    exact ⟨code, (hdocuments _ _).mp hdocumented, fun hother =>
      hfirst ((hdocuments _ _).mpr hother)⟩
  · rintro ⟨code, hdocumented, hfirst⟩
    exact ⟨code, (hdocuments _ _).mpr hdocumented, fun hother =>
      hfirst ((hdocuments _ _).mp hother)⟩

/-- How the response of an operation is made of what is documented. -/
structure IsChosen (responses : List (String × Json)) : Prop where
  /-- The first success code with a schema decides. -/
  used : ∀ {code schema}, Decides responses code schema → ∀ method,
    ofResponses (.object responses) method = ofSchema schema method
  /-- If any success code has a schema, one of them is the first. -/
  decided : ∀ {code schema}, Documents responses code schema → ∃ first found,
    Decides responses first found
  /-- If none has, there is no response. -/
  silent : (∀ code schema, ¬ Documents responses code schema) → ∀ method,
    ofResponses (.object responses) method = .ok void
  /-- No other code is ever used. -/
  ignored : ∀ others, (∀ code, IsSuccess code → lookup? code others = lookup? code responses) →
    ∀ method, ofResponses (.object others) method = ofResponses (.object responses) method
  /-- The order in which the codes are documented does not matter. -/
  unordered : ∀ reordered, reordered.Perm responses → ∀ method,
    ofResponses (.object reordered) method = ofResponses (.object responses) method

/--
**The first success code with a schema decides,** in the order of the preferred codes and then
of the others as texts, wherever it stands among the responses. So neither their order nor
what is documented for any other code makes a difference, be it to the response or to the
misuse that is reported instead.
-/
theorem isChosen_ofResponses (hnd : (names responses).Nodup)
    (hvalues : ∀ entry ∈ responses, IsResponse entry.2) : IsChosen responses := by
  have hformed : WellFormed responses :=
    fun _ _ _ hvalue => hvalues _ (Json.mem_of_lookup?_eq_some hvalue)
  constructor
  case used =>
    intro code schema hdecides method
    rw [ofResponses_eq hformed, findSome?_codes_eq_some_iff.mpr ⟨code, hdecides⟩, Option.getD_some]
  case decided => exact decides_of_documents
  case silent =>
    intro hnone method
    rw [ofResponses_eq hformed, findSome?_codes_eq_none_iff.mpr hnone]
    rfl
  case ignored => exact fun _ hsame => ofResponses_congr hformed hsame
  case unordered =>
    exact fun _ hperm => ofResponses_congr hformed fun code _ => Json.lookup?_perm hnd hperm code

/-- Responses of which the preferred ones have no schema, and two other success codes have one. -/
def queueResponses : List (String × Json) := [
  ("2XX", .object [("schema", .object [("type", .string "boolean")])]),
  ("400", .object [("schema", .object [("type", .string "string")])]),
  ("202", .object [("schema", .object [("$ref", .string "#/definitions/Ticket")])]),
  ("201", .object [("description", .string "queued")]),
  ("200", .null)]

theorem isChosen_queueResponses : (names queueResponses).Nodup ∧
    (∀ entry ∈ queueResponses, IsResponse entry.2) ∧ IsChosen queueResponses ∧
    Decides queueResponses "202" (.object [("$ref", .string "#/definitions/Ticket")]) ∧
    ofResponses (.object queueResponses.reverse) "queue" = .ok ⟨"__model.Ticket", none⟩ := by
  have hnd : (names queueResponses).Nodup := by decide
  have hvalues : ∀ entry ∈ queueResponses, IsResponse entry.2 := by
    simp [queueResponses, IsResponse]
  have hchosen := isChosen_ofResponses hnd hvalues
  -- the only other documented success is `2XX`, of the same rank and greater as a text
  have hdecides :
      Decides queueResponses "202" (.object [("$ref", .string "#/definitions/Ticket")]) := by
    refine ⟨⟨rfl, _, rfl, rfl⟩, fun {other found} hother => ?_⟩
    obtain ⟨hsuccess, members, hvalue, hschema⟩ := hother
    have hmem := Json.mem_of_lookup?_eq_some hvalue
    simp only [queueResponses, List.mem_cons, List.not_mem_nil, or_false, Prod.mk.injEq,
      Json.object.injEq, reduceCtorEq, and_false] at hmem
    rcases hmem with ⟨rfl, -⟩ | ⟨rfl, -⟩ | ⟨rfl, -⟩ | ⟨-, rfl⟩
    · exact .inr (.inr ⟨rfl, by decide⟩)
    · exact absurd hsuccess (by unfold IsSuccess; decide)
    · exact .inl rfl
    · cases hschema
  refine ⟨hnd, hvalues, hchosen, hdecides, ?_⟩
  rw [hchosen.unordered _ (List.reverse_perm _), hchosen.used hdecides]
  have hresolve : Schema.resolve (.object [("$ref", .string "#/definitions/Ticket")]) =
      .ok (.model "Ticket") :=
    (Schema.resolve_of_reference rfl).trans rfl
  exact bind_eq_ok.mpr ⟨false, rfl, bind_eq_ok.mpr ⟨true, rfl, bind_eq_ok.mpr ⟨_, hresolve, rfl⟩⟩⟩

end ApiClient.Response
