import ApiClient.Proofs.Controller.Clashes
import ApiClient.Proofs.Definition.Model
import ApiClient.Proofs.TypeScript.TypeName

/-!
# Where the files of a client lie

The names of files are made of what a document says: of keys, of tags and paths, of ids. Three
different namings make them, and each leaves characters that say nothing to a path. So whatever
the document says, each file has one of five forms of path, and none of them leads up. It is so
for the files of a writing that breaks off, too.
-/

namespace ApiClient

/-- The paths that files of a client can have, below the destination. -/
inductive IsClientPath : List String → Prop
  | common : IsClientPath ["common", "utils.ts"]
  | model : IsClientPath ["model.ts"]
  | definition {name : String} (hne : name ≠ "") (hname : ∀ c ∈ name.toList, Text.IsPathFree c) :
      IsClientPath ["defs", name ++ ".ts"]
  | service {name : String} (hne : name ≠ "") (hname : ∀ c ∈ name.toList, c.isAlphanum = true) :
      IsClientPath ["controllers", name ++ ".ts"]
  | actions {service method : String} (hne : service ≠ "")
      (hservice : ∀ c ∈ service.toList, c.isAlphanum = true) (hne' : method ≠ "")
      (hmethod : ∀ c ∈ method.toList, c.isAlphanum = true ∨ c = '_') :
      IsClientPath ["store", service, method ++ ".actions.ts"]

/-- The file of the model lies at the top; every other file lies in one of the folders. -/
theorem IsClientPath.folder {path : List String} (h : IsClientPath path) :
    path = ["model.ts"] ∨ ∃ folder ∈ Layout.folders, ∃ rest, path = folder :: rest := by
  cases h with
  | model => exact .inl rfl
  | common => exact .inr ⟨"common", by decide, _, rfl⟩
  | definition => exact .inr ⟨"defs", by decide, _, rfl⟩
  | service => exact .inr ⟨"controllers", by decide, _, rfl⟩
  | actions => exact .inr ⟨"store", by decide, _, rfl⟩

theorem IsClientPath.ne_nil {path : List String} (h : IsClientPath path) : path ≠ [] := by
  cases h <;> exact List.cons_ne_nil _ _

/-- What ends in a letter does not lead up. -/
theorem append_ne_up {name suffix : String} (h : suffix.toList.getLast? = some 's') :
    name ++ suffix ≠ ".." := by
  intro hup
  have hlast : (name ++ suffix).toList.getLast? = some '.' := by rw [hup]; rfl
  rw [String.toList_append, List.getLast?_append, h, Option.some_or] at hlast
  exact absurd hlast (by decide)

/-- No name in the path of a file leads up. -/
theorem IsClientPath.ne_up {path : List String} (h : IsClientPath path) :
    ∀ name ∈ path, name ≠ ".." := by
  cases h with
  | common => decide
  | model => decide
  | definition =>
    simp only [List.forall_mem_cons]
    exact ⟨by decide, append_ne_up rfl, fun _ h => absurd h List.not_mem_nil⟩
  | service =>
    simp only [List.forall_mem_cons]
    exact ⟨by decide, append_ne_up rfl, fun _ h => absurd h List.not_mem_nil⟩
  | @actions service method _ hservice =>
    have hup : service ≠ ".." := by
      intro hup
      rw [hup] at hservice
      exact absurd (hservice '.' (by decide)) (by decide)
    simp only [List.forall_mem_cons]
    exact ⟨by decide, hup, append_ne_up rfl, fun _ h => absurd h List.not_mem_nil⟩

/-! ## Controllers -/

namespace Controller

/-- Letters and digits, and at least one. -/
def IsWord (name : String) : Prop := name ≠ "" ∧ ∀ c ∈ name.toList, c.isAlphanum = true

theorem isAlphanum_of_mem_pascalCase {text : String} {c : Char}
    (h : c ∈ (Text.pascalCase text).toList) : c.isAlphanum = true := by
  rw [Text.pascalCase, String.toList_ofList] at h
  have hcamel : Text.IsCamel (Text.joinCamel (Text.words text.toList)) :=
    Text.isCamel_joinCamel (fun _ => Text.ne_nil_of_mem_words) fun _ =>
    Text.isAlphanum_of_mem_words
  exact Text.isAlphanum_capitalize hcamel.alphanum c h

theorem isWord_pascalCase {text : String} (h : (Text.pascalCase text).isEmpty = false) :
    IsWord (Text.pascalCase text) :=
  ⟨by simpa using h, fun _ => isAlphanum_of_mem_pascalCase⟩

theorem isWord_nameOfUrl (url : String) : IsWord (nameOfUrl url) := by
  unfold nameOfUrl
  dsimp only
  cases hfound : List.find? _ _ with
  | none => exact ⟨by decide, by decide⟩
  | some name =>
    obtain ⟨segment, -, rfl⟩ := List.mem_map.mp (List.mem_of_find?_eq_some hfound)
    exact isWord_pascalCase (by simpa using List.find?_some hfound)

/-- A controller is named by letters and digits, whatever its tags and its path are. -/
theorem isWord_of_nameOf {tags : Json} {url name : String} (h : nameOf tags url = .ok name) :
    IsWord name := by
  unfold nameOf at h
  split at h
  · obtain rfl := pure_eq_ok.mp h
    exact isWord_nameOfUrl url
  · obtain ⟨first, -, h⟩ := bind_eq_ok.mp h
    split at h
    · obtain rfl := pure_eq_ok.mp h
      split
      · exact isWord_nameOfUrl url
      · rename_i hne
        exact isWord_pascalCase (by simpa using hne)
    · cases h

end Controller

namespace Operation

/-- Operations are read under names of controllers. -/
theorem isWord_of_ofPaths {allowed : Method.AllowedLocations} {paths : Json}
    {operations : List (String × Operation)} (h : ofPaths allowed paths = .ok operations) :
    ∀ p ∈ operations, Controller.IsWord p.1 := by
  intro p hp
  obtain ⟨items, hitems, h⟩ := bind_eq_ok.mp h
  obtain ⟨perPath, hread, h⟩ := bind_eq_ok.mp h
  obtain rfl := pure_eq_ok.mp h
  obtain ⟨found, hfound, hp⟩ := List.mem_flatten.mp hp
  obtain ⟨⟨url, item⟩, -, hofPath⟩ := exists_of_forall₂_right (mapM_eq_ok.mp hread) hfound
  obtain ⟨-, members, -, hall⟩ := ofPath_ok hofPath
  obtain ⟨-, -, tags, -, hname⟩ := hall p hp
  exact Controller.isWord_of_nameOf hname

theorem isWord_of_byController {allowed : Method.AllowedLocations} {paths : Json}
    {controllers : List (String × List Operation)}
    (h : byController allowed paths = .ok controllers) :
    ∀ controller ∈ controllers, Controller.IsWord controller.1 := by
  intro controller hcontroller
  obtain ⟨operations, hread, rfl⟩ := byController_ok h
  rw [gather_eq] at hcontroller
  obtain ⟨name, hname, rfl⟩ := List.mem_map.mp hcontroller
  obtain ⟨p, hp, rfl⟩ := List.mem_map.mp (List.mem_eraseDups.mp hname)
  exact isWord_of_ofPaths hread p hp

/-- A simple name has letters, digits and underscores, and at least one of them. -/
theorem IsSimple.chars {name : List Char} (h : IsSimple name) :
    name ≠ [] ∧ ∀ c ∈ name, c.isAlphanum = true ∨ c = '_' := by
  have htail := h.tail
  cases h with
  | plain hfirst _ =>
    refine ⟨List.cons_ne_nil _ _,
      List.forall_mem_cons.mpr ⟨.inl ?_, fun c hc => .inl (htail c hc)⟩⟩
    exact Text.isAlphanum_of_isAlpha (Text.isAlpha_of_isLower hfirst)
  | guarded =>
    exact ⟨List.cons_ne_nil _ _, List.forall_mem_cons.mpr ⟨.inr rfl, fun c hc =>
      .inl (htail c hc)⟩⟩

end Operation

namespace Client

/-- The files of services lie where they should. -/
theorem isClientPath_of_mem_writeControllers {header : String} {store unwrap : Bool}
    {context : Operation.Context} {paths : Json} {file : ClientFile}
    (h : file ∈ (writeControllers ⟨header, store, standardPolicy unwrap⟩ context paths).files) :
    IsClientPath file.path := by
  obtain ⟨service, ⟨controllers, operations, methods, hcontrollers, hmem, hmethods, hcodes⟩,
    hfile⟩ :=
    Service.isOf_of_mem_files h
  obtain ⟨hne, hword⟩ := Operation.isWord_of_byController hcontrollers _ hmem
  rcases path_of_mem_files (List.mem_map_of_mem hfile) with hpath | ⟨code, hcode, hpath⟩
  · rw [hpath]
    exact .service hne hword
  -- the actions of a method have its name, which is one of the names that are made apart
  · obtain ⟨hnames, -⟩ := Method.codes_of_toMethods hmethods hcodes
    obtain ⟨hsimple, -⟩ :=
      Operation.simple_of_namesOf (Operation.verb_of_byController hcontrollers hmem) hnames
    obtain ⟨hne', hchars⟩ := (hsimple _ (List.mem_map_of_mem hcode)).chars
    have hactions : code.method.name ++ ".actions" ++ Layout.extension =
        code.method.name ++ ".actions.ts" := by
      rw [String.append_assoc]
      rfl
    rw [hpath, Service.actionsPath, hactions]
    exact .actions hne hword (by simpa using hne') hchars

/-- The files of a model lie where they should. -/
theorem isClientPath_of_mem_writeModel {header : String} {definitions : Json} {file : ClientFile}
    (h : file ∈ (Definition.writeModel header definitions).files) : IsClientPath file.path := by
  rcases Writing.mem_files_bind h with h | ⟨members, -, h⟩
  · exact absurd h List.not_mem_nil
  rcases Writing.mem_files_bind h with h | ⟨_, -, h⟩
  · obtain ⟨⟨name, schema⟩, hdefinition, h⟩ := Writing.mem_files_forEach h
    rcases Writing.mem_files_bind h with h | ⟨text, -, h⟩
    · exact absurd h List.not_mem_nil
    · obtain rfl := List.mem_singleton.mp h
      obtain ⟨-, hne, key, -, hkey⟩ :=
        Definition.mem_names_named.mp (List.mem_map_of_mem hdefinition)
      obtain rfl : TypeScript.typeName key = name := hkey
      exact .definition hne fun c => TypeScript.isPathFree_of_mem_typeName
  · rcases Writing.mem_files_bind h with h | ⟨_, -, h⟩
    · obtain rfl := List.mem_singleton.mp h
      exact .model
    · exact absurd h List.not_mem_nil

/-- **Every file of a client lies where it should,** whatever the document says, and even if
writing the client breaks off. -/
theorem isClientPath_of_mem_write {options : Options} {document : Json} {file : ClientFile}
    (h : file ∈ (write options document).files) : IsClientPath file.path := by
  -- part by part: most of them only read the document
  rcases Writing.mem_files_bind h with h | ⟨header, -, h⟩
  · exact absurd h List.not_mem_nil
  rcases Writing.mem_files_bind h with h | ⟨_, -, h⟩
  · obtain rfl := List.mem_singleton.mp h
    exact .common
  rcases Writing.mem_files_bind h with h | ⟨definitions, -, h⟩
  · exact absurd h List.not_mem_nil
  rcases Writing.mem_files_bind h with h | ⟨types, -, h⟩
  · exact isClientPath_of_mem_writeModel h
  rcases Writing.mem_files_bind h with h | ⟨host, -, h⟩
  · exact absurd h List.not_mem_nil
  rcases Writing.mem_files_bind h with h | ⟨paths, -, h⟩
  · exact absurd h List.not_mem_nil
  rcases Writing.mem_files_bind h with h | ⟨base, -, h⟩
  · exact absurd h List.not_mem_nil
  rcases Writing.mem_files_bind h with h | ⟨controllers, -, h⟩
  · exact isClientPath_of_mem_writeControllers h
  · exact absurd h List.not_mem_nil

end Client

end ApiClient
