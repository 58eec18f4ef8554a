import ApiClient.Parameter.Declaration
import ApiClient.Proofs.Outcome

/-!
# Parameters that a document declares

A declaration gives its parameter in place or by a reference. Either way the name and the
location of the parameter are texts that were read, in the declaration itself or in what the
reference leads to; and what it leads to depends on nothing but the document.
-/

namespace ApiClient

open Json (lookup?)

/-! ## In place -/

namespace Parameter

/-- What a document tells a parameter apart by. -/
def identity (parameter : Parameter) : String × Location := (parameter.name, parameter.location)

theorem eq_of_location? {value : Json} {location : Location}
    (h : location? value = some location) :
    value = .string location.name ∧ location ∈ Location.declarable := by
  unfold location? at h
  split at h
  · have hname := List.find?_some h
    rw [beq_iff_eq] at hname
    exact ⟨by rw [hname], List.mem_of_find?_eq_some h⟩
  · cases h

/-- The members that a parameter has its name and its location from. -/
structure NamedIn (members : List (String × Json)) (parameter : Parameter) : Prop where
  name : lookup? "name" members = some (.string parameter.name)
  location : lookup? "in" members = some (.string parameter.location.name)
  declarable : parameter.location ∈ Location.declarable

/-- A parameter that was read is named by its declaration. -/
theorem namedIn_of_ofDeclaration {members : List (String × Json)} {parameter : Parameter}
    (h : ofDeclaration (.object members) = .ok parameter) : NamedIn members parameter := by
  obtain ⟨name, hname, h⟩ := bind_eq_ok.mp h
  obtain ⟨location, hlocation, h⟩ := bind_eq_ok.mp h
  obtain ⟨_, -, h⟩ := bind_eq_ok.mp h
  obtain ⟨_, -, h⟩ := bind_eq_ok.mp h
  obtain ⟨_, -, h⟩ := bind_eq_ok.mp h
  obtain ⟨_, -, h⟩ := bind_eq_ok.mp h
  obtain rfl : lookup? "name" members = name := Except.ok.inj (lift_eq_ok.mp hname)
  obtain rfl : lookup? "in" members = location := Except.ok.inj (lift_eq_ok.mp hlocation)
  split at h
  · rename_i text htext
    -- an unknown place is an error, whatever else the declaration says
    cases hknown : location? ((lookup? "in" members).getD .null) with
    | none =>
      simp only [hknown] at h
      split at h
      · cases h
      · cases h
    | some known =>
      simp only [hknown] at h
      split at h
      · cases h
      · obtain rfl := pure_eq_ok.mp h
        obtain ⟨hvalue, hdeclarable⟩ := eq_of_location? hknown
        refine ⟨htext, ?_, hdeclarable⟩
        cases hin : lookup? "in" members with
        | none => rw [hin] at hvalue; cases hvalue
        | some value => rw [hin] at hvalue; exact congrArg some hvalue
  · cases h

theorem declarable_of_ofDeclaration {declaration : Json} {parameter : Parameter}
    (h : ofDeclaration declaration = .ok parameter) :
    parameter.location ∈ Location.declarable := by
  obtain ⟨members, rfl⟩ : ∃ members, declaration = .object members := by
    obtain ⟨_, hname, -⟩ := bind_eq_ok.mp h
    obtain ⟨members, hobject, -⟩ := Json.member?_eq_ok.mp (lift_eq_ok.mp hname)
    exact ⟨members, hobject⟩
  exact (namedIn_of_ofDeclaration h).declarable

end Parameter

/-! ## In place or by reference -/

/-- A declaration, the reference that it consists of if it is not in place, and its parameter. -/
structure Declared where
  declaration : Json
  reference : Option String
  parameter : Parameter

namespace Declared

/-- How a document can have a declaration. A reference has no name and no location of its own. -/
inductive IsIn (document : Json) : Declared → Prop
  | inPlace {members : List (String × Json)} {parameter : Parameter}
      (hplace : lookup? "$ref" members = none)
      (hparameter : Parameter.ofDeclaration (.object members) = .ok parameter) :
      IsIn document ⟨.object members, none, parameter⟩
  | byReference {members : List (String × Json)} {reference : String} {target : Json}
      {parameter : Parameter} (hreference : lookup? "$ref" members = some (.string reference))
      (hname : lookup? "name" members = none) (hlocation : lookup? "in" members = none)
      (htarget : Document.find document reference = .ok target)
      (hparameter : Parameter.ofDeclaration target = .ok parameter) :
      IsIn document ⟨.object members, some reference, parameter⟩

variable {document : Json} {declared other : Declared}

/-- A declaration of a document gives its parameter. -/
theorem IsIn.ofDeclaration? (h : declared.IsIn document) :
    Parameter.ofDeclaration? document declared.declaration = .ok declared.parameter := by
  cases h with
  | inPlace hplace hparameter =>
    refine bind_eq_ok.mpr ⟨false, lift_eq_ok.mpr ?_, hparameter⟩
    rw [Json.mentions, hplace]
    rfl
  | @byReference members reference target _ hreference _ _ htarget hparameter =>
    -- the reference is looked up before the declaration is read
    have hfollowed : Parameter.dereference document (.object members) = .ok target := by
      refine bind_eq_ok.mpr
        ⟨_, lift_eq_ok.mpr (Json.member_eq_ok.mpr ⟨members, rfl, hreference⟩), ?_⟩
      dsimp only
      rw [htarget]
      rfl
    refine bind_eq_ok.mpr ⟨true, lift_eq_ok.mpr ?_, bind_eq_ok.mpr ⟨target, hfollowed, hparameter⟩⟩
    rw [Json.mentions, hreference]
    rfl

/-- Declarations of a document give their parameters, in order. -/
theorem ofDeclarations_eq {listed : List Declared}
    (h : ∀ declared ∈ listed, declared.IsIn document) :
    Parameter.ofDeclarations document (.array (listed.map (·.declaration))) =
      .ok (some (listed.map (·.parameter))) := by
  refine bind_eq_ok.mpr ⟨_, rfl, bind_eq_ok.mpr ⟨_, mapM_eq_ok.mpr ?_, rfl⟩⟩
  rw [List.forall₂_map_left_iff, List.forall₂_map_right_iff, List.forall₂_same]
  exact fun declared hdeclared => (h declared hdeclared).ofDeclaration?

theorem IsIn.declarable (h : declared.IsIn document) :
    declared.parameter.location ∈ Location.declarable := by
  cases h with
  | inPlace _ hparameter => exact Parameter.declarable_of_ofDeclaration hparameter
  | byReference _ _ _ _ hparameter => exact Parameter.declarable_of_ofDeclaration hparameter

/-- One reference has one parameter. -/
theorem IsIn.parameter_eq {reference : String} (h : declared.IsIn document)
    (h' : other.IsIn document)
    (hreference : declared.reference = some reference)
    (hother : other.reference = some reference) : declared.parameter = other.parameter := by
  cases h with
  | inPlace => cases hreference
  | byReference _ _ _ htarget hparameter =>
    cases h' with
    | inPlace => cases hother
    | byReference _ _ _ htarget' hparameter' =>
      obtain rfl := Option.some.inj hreference
      obtain rfl := Option.some.inj hother
      obtain rfl := Except.ok.inj (htarget.symm.trans htarget')
      exact Except.ok.inj (hparameter.symm.trans hparameter')

end Declared

end ApiClient
