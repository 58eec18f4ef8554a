import ApiClient.Proofs.Client.Services
import ApiClient.Proofs.Controller.Members
import ApiClient.Proofs.Method.Scope
import ApiClient.Proofs.Text.Lines

/-!
# A service imports what its methods use

The imports of a service are decided from the groups of its methods and from flags of
their interfaces, while the uses stand in statements and in types. Both look at what was
kept: a location has a group just if a parameter is kept at it, and then there is a
statement that gathers it, and an interface flags the types of the parameters that it
declares. So an import stands above a service just if some method needs it, and what is
dropped from a method leaves no trace.
-/

namespace ApiClient

namespace Method

/-! ## Statements that need an import -/

namespace Statement

/-- The location whose parameters a statement gathers. -/
def location : Statement → Location
  | query _ => .query
  | header _ => .header
  | body _ => .body
  | plain location _ => location

end Statement

/-- A method has a statement with a declaration. -/
def Code.Declares (code : Code) (declaration : String × String) : Prop :=
  ∃ statement ∈ code.statements, declaration ∈ statement.declarations

/-- What stands in a line of a declaration stands in the text of the method. -/
theorem Code.Declares.contains {code : Code} {declaration : String × String}
    (h : code.Declares declaration) {part : String}
    (hpart : Text.contains declaration.2 part = true)
    (hne : part ≠ "") (hline : '\n' ∉ part.toList) : Text.contains code.mainText part = true := by
  obtain ⟨statement, hstatement, hdeclared⟩ := h
  have hsome : code.statements.isEmpty = false := by
    cases hnone : code.statements with
    | nil => exact absurd (hnone ▸ hstatement) List.not_mem_nil
    | cons first rest => rfl
  have htext : Text.contains ("\n\n".intercalate (code.statements.map (·.text))) part = true :=
    Text.contains_trans
      (Text.contains_trans (Text.contains_intercalate (List.mem_map_of_mem hstatement))
        (statement.contains_declaration declaration hdeclared)) hpart
  -- the statements are moved to the right, which breaks no text within one line
  have hstatements : Text.contains code.statementsText part = true := by
    unfold Code.statementsText
    rw [if_neg (by simp [hsome])]
    exact Text.contains_append_left (Text.contains_indent 1 hne hline htext)
  unfold Code.mainText
  iterate 3 apply Text.contains_append_left
  exact Text.contains_append_right hstatements

section

variable {policy : Policy} {method : Method} {code : Code}

end

end Method

namespace Controller

/-! ## What stands behind the imports -/

/-- Behind its imports a service has a blank line, and then what is exported. -/
theorem exists_text_eq (name : String) {methods : List Method.Code}
    (hexport : ∀ code ∈ methods, code.declarations.isEmpty = false →
      "export ".toList <+: code.declarations.toList) :
    ∃ rest, text name methods = imports methods ++ ("\n" ++ rest) ∧
      ("export ".toList <+: rest.toList ∨ "@Injectable()\n".toList <+: rest.toList) := by
  obtain ⟨body, hbody⟩ : ∃ body, text name methods =
      imports methods ++ (interfaces methods ++ ("\n" ++ ("@Injectable()\n" ++ body))) :=
    ⟨"export class " ++ name ++ "Service \x7b\n" ++
      "  constructor(private http: HttpClient) \x7b\x7d\n" ++
      Text.indent (methodsText methods) 1 ++ "\n" ++
      "\x7d\n", by simp only [text, String.append_assoc]⟩
  rw [hbody]
  unfold interfaces
  dsimp only
  -- behind the blank line come the interfaces of the methods, or the class if there are none
  cases hshown : (methods.map (·.declarations)).filter (!·.isEmpty) with
  | nil =>
    refine ⟨"@Injectable()\n" ++ body, ?_, .inr ?_⟩
    · simp
    · rw [String.toList_append]
      exact List.prefix_append _ _
  | cons first others =>
    obtain ⟨hfirst, hfirstNe⟩ :=
      List.mem_filter.mp (hshown ▸ List.mem_cons_self : first ∈ List.filter _ _)
    obtain ⟨code, hcode, rfl⟩ := List.mem_map.mp hfirst
    refine ⟨code.declarations ++
      ("\n" ++ (String.join (others.map fun text => "\n" ++ text ++ "\n") ++
      ("\n" ++ ("@Injectable()\n" ++ body)))), ?_, .inl ?_⟩
    · simp only [List.map_cons, String.join_cons, String.append_assoc]
    · rw [String.toList_append]
      exact (hexport code hcode (by simpa using hfirstNe)).trans (List.prefix_append _ _)

/-! ## The lines -/

/-- The lines of the imports, by whether the headers, the query and the model are imported. -/
def importLines (headers query model : Bool) : String :=
  "import \x7bHttpClient" ++ (if headers then ", HttpHeaders" else "") ++
    (if query then ", HttpParams" else "") ++ "\x7d from '@angular/common/http';\n" ++
  "import \x7bInjectable\x7d from '@angular/core';\n" ++
  "import \x7bObservable\x7d from 'rxjs';\n" ++
  (if model then "\nimport * as __model from '../model';\n" else "")

end Controller

end ApiClient
