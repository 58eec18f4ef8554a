import ApiClient.Proofs.Text.Occurrence
import ApiClient.TypeScript.TypeExpr
import Mathlib.Data.List.Basic

/-!
# The names that a type takes from the model

A type refers to the model wherever one of its parts does, however deep that part lies. Its
printed text is searched elsewhere, but a text cannot tell a reference from a literal or a key
that looks like one, so the names are read from the type and only then found in its text.
-/

namespace ApiClient.TypeScript.TypeExpr

mutual

/-- The names of the model's types in a type. -/
def models : TypeExpr → List String
  | model name => [name]
  | array item => models item
  | map value => models value
  | record members => memberModels members
  | intersection parts => allModels parts
  | any | string | number | boolean | file | object | union _ => []
termination_by structural type => type

/-- The names of the model's types in several types. -/
def allModels : List TypeExpr → List String
  | [] => []
  | type :: rest => models type ++ allModels rest
termination_by structural types => types

/-- The names of the model's types in the members of an object type. -/
def memberModels : List (Member TypeExpr) → List String
  | [] => []
  | member :: rest => modelsOfMember member ++ memberModels rest
termination_by structural members => members

/-- The names of the model's types in one member of an object type. -/
def modelsOfMember : Member TypeExpr → List String
  | ⟨_, _, type⟩ => models type
termination_by structural member => member

end

theorem contains_grouped (text : String) : Text.contains (grouped text) text = true := by
  unfold grouped
  split
  · exact Text.contains_append_left (Text.contains_append_right (Text.contains_self text))
  · exact Text.contains_self text

mutual

/-- Every name of the model is printed, under the namespace of the model. -/
theorem contains_text_of_mem_models {name : String} (type : TypeExpr) (h : name ∈ type.models) :
    Text.contains type.text (modelNamespace ++ "." ++ name) = true := by
  cases type with
  | model other =>
    obtain rfl := List.mem_singleton.mp h
    exact Text.contains_self _
  | array item =>
    exact Text.contains_append_left
      (Text.contains_trans (contains_grouped _) (contains_text_of_mem_models item h))
  | map value =>
    exact Text.contains_append_left
      (Text.contains_append_right (contains_text_of_mem_models value h))
  | record members =>
    obtain ⟨text, htext, hname⟩ := contains_memberTexts_of_mem_models members h
    exact Text.contains_append_left
      (Text.contains_append_right (Text.contains_trans (Text.contains_intercalate htext) hname))
  | intersection parts =>
    obtain ⟨text, htext, hname⟩ := contains_texts_of_mem_models parts h
    exact Text.contains_trans (Text.contains_intercalate htext) hname
  | any | string | number | boolean | file | object | union _ => exact absurd h List.not_mem_nil
termination_by structural type

theorem contains_texts_of_mem_models {name : String} (types : List TypeExpr)
    (h : name ∈ allModels types) :
    ∃ text ∈ texts types, Text.contains text (modelNamespace ++ "." ++ name) = true := by
  cases types with
  | nil => exact absurd h List.not_mem_nil
  | cons type rest =>
    rcases List.mem_append.mp h with h | h
    · exact ⟨_, List.mem_cons_self, contains_text_of_mem_models type h⟩
    · obtain ⟨text, htext, hname⟩ := contains_texts_of_mem_models rest h
      exact ⟨text, List.mem_cons_of_mem _ htext, hname⟩
termination_by structural types

theorem contains_memberTexts_of_mem_models {name : String} (members : List (Member TypeExpr))
    (h : name ∈ memberModels members) :
    ∃ text ∈ memberTexts members, Text.contains text (modelNamespace ++ "." ++ name) = true := by
  cases members with
  | nil => exact absurd h List.not_mem_nil
  | cons member rest =>
    rcases List.mem_append.mp h with h | h
    · exact ⟨_, List.mem_cons_self, contains_memberText_of_mem_models member h⟩
    · obtain ⟨text, htext, hname⟩ := contains_memberTexts_of_mem_models rest h
      exact ⟨text, List.mem_cons_of_mem _ htext, hname⟩
termination_by structural members

theorem contains_memberText_of_mem_models {name : String} (member : Member TypeExpr)
    (h : name ∈ modelsOfMember member) :
    Text.contains (memberText member) (modelNamespace ++ "." ++ name) = true := by
  cases member with
  | mk key optional type =>
    exact Text.contains_append_right (contains_text_of_mem_models type h)
termination_by structural member

end

end ApiClient.TypeScript.TypeExpr
