import ApiClient.Proofs.Outcome
import ApiClient.Response

/-!
# What a response declares

Most responses have a type that is declared elsewhere. A response that is declared beside its
method is an enumeration, and its name is made of the name of the method.
-/

namespace ApiClient.Response

/-- A response that is declared is the enumeration of its method. -/
theorem declared_of_ofResponses {responses : Json} {method declaration : String}
    {response : Response} (h : ofResponses responses method = .ok response)
    (hdeclared : response.declaration = some declaration) :
    response.type = enumerationName method ∧ ∃ values,
      declaration = TypeScript.Enumeration.declaration (enumerationName method) values := by
  unfold ofResponses at h
  obtain ⟨schema, -, h⟩ := bind_eq_ok.mp h
  unfold ofSchema at h
  split at h
  · obtain rfl := pure_eq_ok.mp h
    cases hdeclared
  · obtain ⟨_, -, h⟩ := bind_eq_ok.mp h
    obtain ⟨_, -, h⟩ := bind_eq_ok.mp h
    dsimp only at h
    split at h
    · obtain ⟨listed, -, h⟩ := bind_eq_ok.mp h
      obtain ⟨_, hdeclare, h⟩ := bind_eq_ok.mp h
      obtain ⟨values, -, hvalues⟩ := bind_eq_ok.mp hdeclare
      obtain rfl := pure_eq_ok.mp h
      obtain rfl := pure_eq_ok.mp hvalues
      exact ⟨rfl, values, (Option.some.inj hdeclared).symm⟩
    · obtain ⟨_, -, h⟩ := bind_eq_ok.mp h
      obtain rfl := pure_eq_ok.mp h
      cases hdeclared

/-- An enumeration is declared as an `enum` or as a type. -/
theorem declaration_eq (name : String) (values : List Json) :
    ∃ kind ∈ ["export enum ", "export type "], ∃ rest, rest.toList.head? = some ' ' ∧
      TypeScript.Enumeration.declaration name values = kind ++ (name ++ rest) := by
  unfold TypeScript.Enumeration.declaration
  split
  · exact ⟨"export enum ", by simp, " \x7b\n" ++ "\n".intercalate
      (values.map TypeScript.Enumeration.memberLine) ++ "\n\x7d", by simp,
      by simp [String.append_assoc]⟩
  · exact ⟨"export type ", by simp, " = " ++ TypeScript.literalUnion values ++ ";", by simp,
      by simp [String.append_assoc]⟩

end ApiClient.Response
