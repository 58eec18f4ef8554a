import ApiClient.Proofs.Parameter.Declared

/-!
# How far declarations are checked

What a declaration leads to is checked: the declaration itself, or what its reference names. A
reference to nowhere is noticed as well. But a reference that is no text is followed all the
same, and one may lead to a value that is no object; there reading breaks off before anything is
checked. So a list of declarations either gives a parameter for each, or stops at the first that
gives none, which is reported unless its reference went astray.
-/

namespace ApiClient.Parameter

open Json (lookup?)

variable {document : Json} {members : List (String × Json)} {parameter other : Parameter}
  {malformation : Malformation} {misuse : Misuse}

/-! ## Objects -/

/-- The members of an object give a parameter. -/
structure Gives (members : List (String × Json)) (parameter : Parameter) : Prop
    extends NamedIn members parameter where
  nonempty : parameter.name ≠ ""
  required : parameter.required = !((lookup? "required" members).getD .null).isBlank
  description :
    parameter.description = ((lookup? "description" members).getD .null).orElse (.string "")
  keywords : parameter.keywords = .object (members.filter fun (key, _) => !envelope.contains key)
  schema : parameter.schema = given (lookup? "schema" members)

/-- What is wrong with an object that gives no parameter. -/
inductive IsFaulty (members : List (String × Json)) : Malformation → Prop
  /-- The name is missing, or is no text, or is empty. -/
  | unnamed (hname : ∀ name, lookup? "name" members = some (.string name) → name = "") :
      IsFaulty members (.unnamed (.object members))
  /-- The location is missing, or is none of those that can be declared. -/
  | unknownLocation {name : String} (hname : lookup? "name" members = some (.string name))
      (hne : name ≠ "") (hlocation : ∀ location ∈ Location.declarable,
        lookup? "in" members ≠ some (.string location.name)) :
      IsFaulty members (.unknownLocation name ((lookup? "in" members).getD .null))

theorem location?_name {location : Location} (h : location ∈ Location.declarable) :
    location? (.string location.name) = some location := by
  simp only [Location.declarable, List.mem_cons, List.not_mem_nil, or_false] at h
  rcases h with rfl | rfl | rfl | rfl | rfl <;> rfl

/-- No location is known by a value just if the value is the name of none. -/
theorem location?_eq_none {value : Option Json} : location? (value.getD .null) = none ↔
    ∀ location ∈ Location.declarable, value ≠ some (.string location.name) := by
  constructor
  · rintro h location hlocation rfl
    rw [Option.getD_some, location?_name hlocation] at h
    cases h
  · intro h
    cases hknown : location? (value.getD .null) with
    | none => rfl
    | some location =>
      obtain ⟨hvalue, hlocation⟩ := eq_of_location? hknown
      cases value with
      | none => cases hvalue
      | some value => exact absurd (congrArg some hvalue) (h location hlocation)

/-- The parameter of an object that has a name and a known location. -/
def ofMembers (members : List (String × Json)) (name : String) (location : Location) :
    Parameter where
  name := name
  location := location
  required := !((lookup? "required" members).getD .null).isBlank
  description := ((lookup? "description" members).getD .null).orElse (.string "")
  keywords := .object (members.filter fun (key, _) => !envelope.contains key)
  schema := given (lookup? "schema" members)

theorem Gives.eq_ofMembers (h : Gives members parameter) :
    parameter = ofMembers members parameter.name parameter.location := by
  obtain ⟨⟨-, -, -⟩, -, hrequired, hdescription, hkeywords, hschema⟩ := h
  cases parameter
  simp_all [ofMembers]

/-- An object is read by its name, then by its location. -/
theorem ofDeclaration_object (members : List (String × Json)) : ofDeclaration (.object members) =
    match lookup? "name" members with
    | some (.string name) =>
      if name = "" then .error (.malformed (.unnamed (.object members)))
      else match location? ((lookup? "in" members).getD .null) with
        | some location => .ok (ofMembers members name location)
        | none => .error (.malformed (.unknownLocation name ((lookup? "in" members).getD .null)))
    | _ => .error (.malformed (.unnamed (.object members))) := by
  unfold ofDeclaration ofMembers
  simp only [Json.member?, Json.members]
  cases lookup? "name" members with
  | none => rfl
  | some value =>
    cases value with
    | string name =>
      change (if name.isEmpty then _ else _) = _
      simp only [String.isEmpty_iff]
      split
      · rfl
      · cases location? ((lookup? "in" members).getD .null) <;> rfl
    | null | bool _ | int _ | double _ | array _ | object _ => rfl

theorem Gives.ofDeclaration (h : Gives members parameter) :
    ofDeclaration (.object members) = .ok parameter := by
  rw [ofDeclaration_object, h.name]
  dsimp only
  rw [if_neg h.nonempty, h.location, Option.getD_some, location?_name h.declarable]
  exact congrArg Except.ok h.eq_ofMembers.symm

theorem IsFaulty.ofDeclaration (h : IsFaulty members malformation) :
    ofDeclaration (.object members) = .error (.malformed malformation) := by
  rw [ofDeclaration_object]
  cases h with
  | unnamed hname =>
    split
    · rename_i name heq
      rw [if_pos (hname name heq)]
    · rfl
  | unknownLocation hname hne hlocation =>
    rw [hname]
    dsimp only
    rw [if_neg hne, location?_eq_none.mpr hlocation]

/-- Every object either gives a parameter or is faulty. -/
theorem gives_or_isFaulty (members : List (String × Json)) :
    (∃ parameter, Gives members parameter) ∨ ∃ malformation, IsFaulty members malformation := by
  by_cases hnamed : ∀ name, lookup? "name" members = some (.string name) → name = ""
  · exact .inr ⟨_, .unnamed hnamed⟩
  · push Not at hnamed
    obtain ⟨name, hname, hne⟩ := hnamed
    by_cases hlocated : ∀ location ∈ Location.declarable,
        lookup? "in" members ≠ some (.string location.name)
    · exact .inr ⟨_, .unknownLocation hname hne hlocated⟩
    · push Not at hlocated
      obtain ⟨location, hdeclarable, hlocation⟩ := hlocated
      exact .inl ⟨ofMembers members name location, ⟨hname, hlocation, hdeclarable⟩, hne, rfl,
        rfl, rfl, rfl⟩

/-! ## In place or by reference -/

/-- What a declaration leads to: itself, or what its reference names. -/
inductive LeadsTo (document : Json) (members : List (String × Json)) : Json → Prop
  | inPlace (hplace : lookup? "$ref" members = none) : LeadsTo document members (.object members)
  | byReference {reference : String} {target : Json}
      (hreference : lookup? "$ref" members = some (.string reference))
      (htarget : Document.find document reference = .ok target) : LeadsTo document members target

/-- A declaration leads to an object that gives a parameter. -/
def Declares (document : Json) (members : List (String × Json)) (parameter : Parameter) : Prop :=
  ∃ found, LeadsTo document members (.object found) ∧ Gives found parameter

/-- What is wrong with a declaration that gives no parameter. -/
inductive IsMalformed (document : Json) (members : List (String × Json)) : Malformation → Prop
  /-- The reference leads nowhere. -/
  | unresolvable {reference : String}
      (hreference : lookup? "$ref" members = some (.string reference))
      (htarget : ∀ target, Document.find document reference ≠ .ok target) :
      IsMalformed document members (.unresolvable reference)
  /-- What the declaration leads to is faulty. -/
  | faulty {found : List (String × Json)} {malformation : Malformation}
      (hleads : LeadsTo document members (.object found)) (hfaulty : IsFaulty found malformation) :
      IsMalformed document members malformation

/-- A reference that breaks off the reading of a declaration. -/
inductive GoesAstray (document : Json) (members : List (String × Json)) : Misuse → Prop
  /-- The reference is no text. -/
  | notAReference {value : Json} (hreference : lookup? "$ref" members = some value)
      (htext : ∀ reference, value ≠ .string reference) : GoesAstray document members .notAReference
  /-- The reference leads to a value that is no object. -/
  | notAnObject {target : Json} (hleads : LeadsTo document members target)
      (hobject : ∀ found, target ≠ .object found) : GoesAstray document members .notAnObject

/-- A reference is followed, and what it leads to is read in place of the declaration. -/
theorem ofDeclaration?_reference {reference : String}
    (hreference : lookup? "$ref" members = some (.string reference)) :
    ofDeclaration? document (.object members) =
      match Document.find document reference with
      | .ok target => ofDeclaration target
      | .error _ => .error (.malformed (.unresolvable reference)) := by
  have hfollowed : dereference document (.object members) =
      match Document.find document reference with
      | .ok target => .ok target
      | .error _ => .error (.malformed (.unresolvable reference)) := by
    unfold dereference
    rw [Json.member, hreference]
    rfl
  unfold ofDeclaration?
  rw [Json.mentions, hreference, hfollowed]
  cases Document.find document reference <;> rfl

theorem LeadsTo.ofDeclaration? {target : Json} (h : LeadsTo document members target) :
    ofDeclaration? document (.object members) = ofDeclaration target := by
  cases h with
  | inPlace hplace =>
    unfold Parameter.ofDeclaration?
    rw [Json.mentions, hplace]
    rfl
  | byReference hreference htarget => rw [ofDeclaration?_reference hreference, htarget]

theorem Declares.ofDeclaration? (h : Declares document members parameter) :
    ofDeclaration? document (.object members) = .ok parameter := by
  obtain ⟨found, hleads, hgives⟩ := h
  rw [hleads.ofDeclaration?, hgives.ofDeclaration]

theorem IsMalformed.ofDeclaration? (h : IsMalformed document members malformation) :
    ofDeclaration? document (.object members) = .error (.malformed malformation) := by
  cases h with
  | unresolvable hreference htarget =>
    rw [ofDeclaration?_reference hreference]
    split
    · rename_i target hfound
      exact absurd hfound (htarget target)
    · rfl
  | faulty hleads hfaulty => rw [hleads.ofDeclaration?, hfaulty.ofDeclaration]

theorem GoesAstray.ofDeclaration? (h : GoesAstray document members misuse) :
    ofDeclaration? document (.object members) = .error (.misuse misuse) := by
  cases h with
  | @notAReference value hreference htext =>
    unfold Parameter.ofDeclaration? dereference
    rw [Json.mentions, hreference, Json.member, hreference]
    cases value with
    | string reference => exact absurd rfl (htext reference)
    | null | bool _ | int _ | double _ | array _ | object _ => rfl
  | @notAnObject target hleads hobject =>
    rw [hleads.ofDeclaration?]
    cases target with
    | object found => exact absurd rfl (hobject found)
    | null | bool _ | int _ | double _ | string _ | array _ => rfl

/-- What a declaration leads to is checked if it is an object. -/
theorem LeadsTo.checked {target : Json} (hleads : LeadsTo document members target) :
    (∃ parameter, Declares document members parameter) ∨
      (∃ malformation, IsMalformed document members malformation) ∨
      ∃ misuse, GoesAstray document members misuse := by
  by_cases hobject : ∃ found, target = .object found
  · obtain ⟨found, rfl⟩ := hobject
    rcases gives_or_isFaulty found with ⟨parameter, hgives⟩ | ⟨malformation, hfaulty⟩
    · exact .inl ⟨parameter, found, hleads, hgives⟩
    · exact .inr (.inl ⟨malformation, .faulty hleads hfaulty⟩)
  · exact .inr (.inr ⟨_, .notAnObject hleads (by simpa using hobject)⟩)

/-- There is no fourth kind of declaration. -/
theorem declares_or_isMalformed_or_goesAstray (document : Json) (members : List (String × Json)) :
    (∃ parameter, Declares document members parameter) ∨
      (∃ malformation, IsMalformed document members malformation) ∨
      ∃ misuse, GoesAstray document members misuse := by
  cases hreference : lookup? "$ref" members with
  | none => exact LeadsTo.checked (.inPlace hreference)
  | some value =>
    by_cases htext : ∃ reference, value = .string reference
    · obtain ⟨reference, rfl⟩ := htext
      by_cases htarget : ∃ target, Document.find document reference = .ok target
      · obtain ⟨target, htarget⟩ := htarget
        exact LeadsTo.checked (.byReference hreference htarget)
      · exact .inr (.inl ⟨_, .unresolvable hreference (by simpa using htarget)⟩)
    · exact .inr (.inr ⟨_, .notAReference hreference (by simpa using htext)⟩)

theorem ofDeclaration?_eq_ok :
    ofDeclaration? document (.object members) = .ok parameter ↔
      Declares document members parameter := by
  refine ⟨fun h => ?_, Declares.ofDeclaration?⟩
  rcases declares_or_isMalformed_or_goesAstray document members with
    ⟨_, hdeclares⟩ | ⟨_, hmalformed⟩ | ⟨_, hastray⟩
  · obtain rfl := Except.ok.inj (h.symm.trans hdeclares.ofDeclaration?)
    exact hdeclares
  · cases h.symm.trans hmalformed.ofDeclaration?
  · cases h.symm.trans hastray.ofDeclaration?

theorem ofDeclaration?_eq_malformed :
    ofDeclaration? document (.object members) = .error (.malformed malformation) ↔
      IsMalformed document members malformation := by
  refine ⟨fun h => ?_, IsMalformed.ofDeclaration?⟩
  rcases declares_or_isMalformed_or_goesAstray document members with
    ⟨_, hdeclares⟩ | ⟨_, hmalformed⟩ | ⟨_, hastray⟩
  · cases h.symm.trans hdeclares.ofDeclaration?
  · obtain rfl := Fault.malformed.inj (Except.error.inj (h.symm.trans hmalformed.ofDeclaration?))
    exact hmalformed
  · cases h.symm.trans hastray.ofDeclaration?

theorem ofDeclaration?_eq_misuse :
    ofDeclaration? document (.object members) = .error (.misuse misuse) ↔
      GoesAstray document members misuse := by
  refine ⟨fun h => ?_, GoesAstray.ofDeclaration?⟩
  rcases declares_or_isMalformed_or_goesAstray document members with
    ⟨_, hdeclares⟩ | ⟨_, hmalformed⟩ | ⟨_, hastray⟩
  · cases h.symm.trans hdeclares.ofDeclaration?
  · cases h.symm.trans hmalformed.ofDeclaration?
  · obtain rfl := Fault.misuse.inj (Except.error.inj (h.symm.trans hastray.ofDeclaration?))
    exact hastray

/-! ## Lists -/

/-- The first entry that declares no parameter is one at which reading stops so. -/
def StopsAt (document : Json) (entries : List (List (String × Json)))
    (stop : List (String × Json) → Prop) : Prop :=
  ∃ before entry after, entries = before ++ entry :: after ∧
    (∀ other ∈ before, ∃ parameter, Declares document other parameter) ∧ stop entry

theorem ofDeclarations_eq_error {entries : List (List (String × Json))} {fault : Fault} :
    ofDeclarations document (.array (entries.map .object)) = .error fault ↔
      StopsAt document entries fun entry =>
      ofDeclaration? document (.object entry) = .error fault := by
  have hread : ofDeclarations document (.array (entries.map .object)) = .error fault ↔
      (entries.map Json.object).mapM (ofDeclaration? document) = .error fault := by
    change ((entries.map Json.object).mapM (ofDeclaration? document) >>= fun parameters =>
      pure (some parameters)) = _ ↔ _
    rw [bind_eq_error]
    exact or_iff_left fun ⟨_, _, h⟩ => by cases h
  -- reading stops at the first entry that has a fault
  rw [hread, mapM_eq_error]
  constructor
  · rintro ⟨before, _, after, heq, hbefore, hstop⟩
    obtain ⟨before, rest, rfl, rfl, hrest⟩ := List.map_eq_append_iff.mp heq
    obtain ⟨entry, after, rfl, rfl, rfl⟩ := List.map_eq_cons_iff.mp hrest
    refine ⟨before, entry, after, rfl, fun other hother => ?_, hstop⟩
    obtain ⟨parameter, hparameter⟩ := hbefore _ (List.mem_map_of_mem hother)
    exact ⟨parameter, ofDeclaration?_eq_ok.mp hparameter⟩
  · rintro ⟨before, entry, after, rfl, hbefore, hstop⟩
    refine ⟨before.map .object, .object entry, after.map .object, by simp, ?_, hstop⟩
    intro declaration hdeclaration
    obtain ⟨other, hother, rfl⟩ := List.mem_map.mp hdeclaration
    obtain ⟨parameter, hparameter⟩ := hbefore other hother
    exact ⟨parameter, hparameter.ofDeclaration?⟩

theorem ofDeclarations_eq_ok {entries : List (List (String × Json))}
    {answer : Option (List Parameter)} :
    ofDeclarations document (.array (entries.map .object)) = .ok answer ↔
      ∃ parameters, answer = some parameters ∧
        List.Forall₂ (Declares document) entries parameters := by
  have hread : ofDeclarations document (.array (entries.map .object)) = .ok answer ↔
      ∃ parameters, (entries.map Json.object).mapM (ofDeclaration? document) = .ok parameters ∧
        some parameters = answer := by
    change ((entries.map Json.object).mapM (ofDeclaration? document) >>= fun parameters =>
      pure (some parameters)) = _ ↔ _
    simp only [bind_eq_ok, pure_eq_ok]
  rw [hread]
  simp only [mapM_eq_ok, List.forall₂_map_left_iff, ofDeclaration?_eq_ok]
  exact exists_congr fun parameters => ⟨fun ⟨h, h'⟩ => ⟨h'.symm, h⟩, fun ⟨h, h'⟩ => ⟨h', h.symm⟩⟩

/-- How a list of declarations is read. -/
structure Validates (document : Json) (entries : List (List (String × Json))) : Prop where
  /-- The list gives parameters just if each entry declares one, and then in order. -/
  declared {answer : Option (List Parameter)} :
    ofDeclarations document (.array (entries.map .object)) = .ok answer ↔
      ∃ parameters, answer = some parameters ∧ List.Forall₂ (Declares document) entries parameters
  /-- An entry declares one parameter at most, whichever list it stands in. -/
  determined {entry : List (String × Json)} {parameter other : Parameter} :
    Declares document entry parameter → Declares document entry other → parameter = other
  /-- A parameter has a name, and a location that can be declared. -/
  checked {parameters : List Parameter} :
    ofDeclarations document (.array (entries.map .object)) = .ok (some parameters) →
      ∀ parameter ∈ parameters, parameter.name ≠ "" ∧ parameter.location ∈ Location.declarable
  /-- What is reported is wrong with the first entry that declares nothing. -/
  reported {malformation : Malformation} :
    ofDeclarations document (.array (entries.map .object)) = .error (.malformed malformation) ↔
      StopsAt document entries fun entry => IsMalformed document entry malformation
  /-- Anything else ends the reading just if the first entry that declares nothing has
  a reference that went astray. -/
  escaped {misuse : Misuse} :
    ofDeclarations document (.array (entries.map .object)) = .error (.misuse misuse) ↔
      StopsAt document entries fun entry => GoesAstray document entry misuse

/-- A list of declarations gives a parameter for each, or is reported, unless a reference in it
is no text or leads to a value that is no object. -/
theorem validates_ofDeclarations (document : Json) (entries : List (List (String × Json))) :
    Validates document entries where
  declared := ofDeclarations_eq_ok
  determined h h' := Except.ok.inj (h.ofDeclaration?.symm.trans h'.ofDeclaration?)
  checked {parameters} h parameter hparameter := by
    obtain ⟨_, heq, hdeclared⟩ := ofDeclarations_eq_ok.mp h
    obtain rfl := Option.some.inj heq
    obtain ⟨_, -, _, -, hgives⟩ := exists_of_forall₂_right hdeclared hparameter
    exact ⟨hgives.nonempty, hgives.declarable⟩
  reported := by intro _; simp only [ofDeclarations_eq_error, ofDeclaration?_eq_malformed]
  escaped := by intro _; simp only [ofDeclarations_eq_error, ofDeclaration?_eq_misuse]

/-- A number in place of a reference is not reported. -/
theorem escaped_numberReference :
    ofDeclarations (.object []) (.array [.object [("$ref", .int 5)]]) =
      .error (.misuse .notAReference) :=
  (validates_ofDeclarations (.object []) [[("$ref", .int 5)]]).escaped.mpr
    ⟨[], _, [], rfl, by simp, .notAReference rfl (by simp)⟩

end ApiClient.Parameter
