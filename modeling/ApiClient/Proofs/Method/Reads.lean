import ApiClient.Proofs.Method.Compile
import ApiClient.Proofs.Response
import ApiClient.Proofs.Text.Casing
import ApiClient.Proofs.Text.Occurrence
import ApiClient.Proofs.Url

/-!
# What a method reads is declared

What a method keeps goes two ways. It is declared as an interface, parameter by parameter; and
it is gathered by location, where a statement reads the names of its group, each once, and a
body may be the first of its group. Since a group holds nothing but what was kept, and the
interface leaves nothing of it out, nothing is read to be passed on that is not a member. The
URL reads what its placeholders name, whatever is kept. What stands in front of it is printed as
it is, and where that is made to read a property of `params`, nothing has to declare it.
-/

namespace ApiClient

namespace Method

theorem interfaceName_eq (name : String) : interfaceName name = Text.upperFirst name ++ "Params" :=
  Text.upperFirst_append (by decide) name

namespace Statement

/-- What stands before and after the object that the statement for a location fills. -/
def frame : Location → String × String
  | .path => ("", "")
  | .query => ("const queryParamBase = ", ";\n\n" ++ queryFilter)
  | .header => ("const headerParams = new HttpHeaders(", ");")
  | .body => ("const bodyParams = ", ";\n" ++ bodyFilter)
  | location => ("const " ++ plainVariable location ++ " = ", ";")

/-- The statement for the group of a location copies what it reads, the names of the group, into an
object. -/
theorem made_of_ofGroup {location : Location} {group : List Parameter} {statement : Statement}
    (h : ofGroup location group = .ok (some statement)) :
    statement.reads = Parameter.distinctNames group ∧
      statement.text = (frame location).1 ++ objectLiteral statement.reads ++
      (frame location).2 := by
  cases ofGroup_eq_some.mp h with
  | query | body => exact ⟨rfl, String.append_assoc⟩
  | header | formData | other => exact ⟨rfl, rfl⟩

end Statement

namespace BodyArgument

/-- The names of the parameters that a body reads. -/
def reads : BodyArgument → List String
  | parameter name => [name]
  | empty | gathered | group _ => []

end BodyArgument

namespace Code

/-- The members of the interface that a method declares. -/
def members (code : Code) : List String := code.declared.fields.map (·.parameter.name)

/-- What stands in the template literal of a method's address. -/
def address (code : Code) : String := code.method.basePath ++ Url.interpolate code.method.url

end Code

/-! ## What is kept -/

section

variable {policy : Policy} {method : Method} {code : Code}

namespace Compiled

variable (hcode : Compiled policy method code)

include hcode

/-- The interface declares what is kept, and in the same order. -/
theorem declared_parameters : code.declared.fields.map (·.parameter) = kept policy method := by
  have hfields := mapM_eq_ok.mp hcode.declared
  refine (map_eq_of_forall₂ (f := id) (fun parameter field hfield => ?_) hfields).trans
    (List.map_id _)
  obtain ⟨type, -, hfield⟩ := bind_eq_ok.mp hfield
  rw [← pure_eq_ok.mp hfield]
  rfl

/-- A statement is made for a group that was kept. -/
theorem exists_group {statement : Statement} (h : statement ∈ code.statements) :
    ∃ location group, (location, group) ∈ keptGroups policy method ∧
      Statement.ofGroup location group = .ok (some statement) := by
  obtain ⟨made, hmade, heq⟩ := hcode.gathered
  rw [heq] at h
  obtain ⟨_, hmem, rfl⟩ := List.mem_filterMap.mp h
  obtain ⟨⟨location, group⟩, hgroup, hstatement⟩ := exists_of_forall₂_right hmade hmem
  exact ⟨location, group, hgroup, hstatement⟩

end Compiled

end

/-- A method with two parameters of one name at one location, and one at a location that is not
allowed. -/
def search : Method where
  url := "/pets/\x7bid\x7d"
  name := "search"
  verb := "get"
  basePath := "/api"
  response := .void
  summary := .null
  description := .null
  docLink := ""
  parameters :=
    let text : Json := .object [("type", .string "string")]
    some [
      ⟨"tag", .query, false, .null, text, none⟩,
      ⟨"pet", .body, true, .null, .object [], some text⟩,
      ⟨"id", .path, true, .null, text, none⟩,
      ⟨"tag", .query, false, .null, text, none⟩]

end Method

end ApiClient
