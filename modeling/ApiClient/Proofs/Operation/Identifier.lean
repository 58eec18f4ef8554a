import ApiClient.Proofs.Controller.Members
import ApiClient.Proofs.TypeScript.Bindable

/-!
# Names of methods are identifiers

A method is named by a text: by the id of its operation if that has a letter or a digit, or else
by the verb and the path. Whatever the text is, the name is simple, and so it can stand as a
member of a class. An underscore stands in it only to guard a digit, and what is guarded is read
off from the id: a verb begins with a letter.
-/

namespace ApiClient.Operation

variable {name : List Char}

/-- A simple name is an identifier. -/
theorem IsSimple.isWholeName (h : IsSimple name) : TypeScript.isWholeName name = true := by
  have htail : name.tail.all TypeScript.isNamePart = true :=
    List.all_eq_true.mpr fun c hc => TypeScript.isNamePart_of_isAlphanum (h.tail c hc)
  cases h with
  | plain hfirst _ =>
    have halpha := Text.isAlpha_of_isLower hfirst
    exact Bool.and_eq_true_iff.mpr
      ⟨(TypeScript.isNameStart_of_isAlphanum (Text.isAlphanum_of_isAlpha halpha)).trans halpha,
        htail⟩
  | guarded =>
    rw [TypeScript.isWholeName]
    exact Bool.and_eq_true_iff.mpr ⟨by decide, htail⟩

/-! ## The name of an operation -/

/-- **Every operation has an identifier for a name,** whatever text its id is and wherever it is
served, even without an id. An underscore is in front just if a digit comes first in the id. -/
theorem isSimple_nameOf_of_text {members : List (String × Json)} {id : Option String}
    (hid : Json.lookup? "operationId" members = id.map .string) {verb : String}
    (hverb : (Method.standardLocations.lookup verb).isSome) (url : String) :
    ∃ name, nameOf (.object members) verb url = .ok name ∧ IsSimple name.toList ∧
      TypeScript.isWholeName name.toList = true ∧ '_' ∉ name.toList.tail ∧
      (name.toList.head? = some '_' ↔
        ∃ c, (id.getD "").toList.find? Char.isAlphanum = some c ∧ c.isDigit = true) := by
  obtain ⟨first, rest, hword, hlower⟩ := exists_isLower_of_verb hverb
  have hletter := Text.isAlpha_of_isLower hlower
  have hname := nameOf_object hid verb url
  generalize id.getD "" = text at hname ⊢
  by_cases hempty : Text.camelCase text = ""
  · -- nothing is left of the id, so there is no digit in it
    rw [if_pos hempty] at hname
    have hnone : text.toList.find? Char.isAlphanum = none := by
      rw [← Option.map_eq_none_iff, ← Text.head?_camelCase, hempty]
      rfl
    have hsimple := isSimple_nameOfUrl (exists_alphanum_of_verb hverb) url
    refine ⟨_, hname, hsimple, hsimple.isWholeName, hsimple.underscore_notMem_tail, ?_⟩
    rw [hnone]
    exact ⟨fun hguarded => absurd hguarded (head?_nameOfUrl hword hletter url), nofun⟩
  · rw [if_neg hempty] at hname
    have hne : (Text.camelCase text).toList ≠ [] :=
      fun hnil => hempty (String.toList_eq_nil_iff.mp hnil)
    have hsimple := isSimple_guardDigit (Text.isCamel_camelCase text) hne
    exact ⟨_, hname, hsimple, hsimple.isWholeName, hsimple.underscore_notMem_tail,
      head?_guardDigit_camelCase⟩

/-- An operation whose id begins with a number. -/
def loginMembers : List (String × Json) := [("operationId", .string "2-step Login")]

theorem isSimple_nameOf_login :
    Json.lookup? "operationId" loginMembers = (some "2-step Login").map Json.string ∧
      (Method.standardLocations.lookup "post").isSome ∧
      nameOf (.object loginMembers) "post" "/x" = .ok "_2StepLogin" ∧
      IsSimple "_2StepLogin".toList ∧ '_' ∉ "_2StepLogin".toList.tail := by
  have hid : Json.lookup? "operationId" loginMembers = (some "2-step Login").map Json.string := rfl
  have hverb : (Method.standardLocations.lookup "post").isSome := rfl
  have hgiven : nameOf (.object loginMembers) "post" "/x" = .ok "_2StepLogin" :=
    eq_ok_of_toOption (by decide +kernel)
  obtain ⟨name, hname, hsimple, -, htail, -⟩ := isSimple_nameOf_of_text hid hverb "/x"
  obtain rfl : "_2StepLogin" = name := Except.ok.inj (hgiven.symm.trans hname)
  exact ⟨hid, hverb, hgiven, hsimple, htail⟩

end ApiClient.Operation
