import ApiClient.Proofs.Controller.Tags
import ApiClient.Proofs.TypeScript.Listed

/-!
# What the actions take from the service

The file of a method's actions imports the types that the file of its service declares, and it
has to find out which these are. For a response it asks the response. For the parameters it
searches what is declared for the words that open their interface, and the declaration of a
response is searched with it. So it may find an interface that is not there: in a text that a
response lists, and also where JSON escapes complete the words.
-/

namespace ApiClient

namespace Method.Code

/-- A method without parameters declares its response only. -/
theorem declarations_of_isEmpty {code : Code} (h : code.declared.isEmpty = true) :
    code.declarations = code.method.response.declaration.getD "" := by
  have hnone : code.declared.text = "" := if_pos h
  unfold declarations
  rw [hnone]
  generalize code.method.response.declaration.getD "" = declaration
  by_cases hempty : declaration.isEmpty
  · rw [String.isEmpty_iff.mp hempty]
    decide
  · simp [hempty]

end Method.Code

namespace Operation

/-- A capital in front leaves a name plain. -/
theorem IsPlain.upperFirst {name : String} (h : IsPlain name) :
    IsPlain (Text.upperFirst name) := by
  have hunder : ('_' : Char).toUpper = '_' := by decide
  intro c hc
  rw [Text.upperFirst, String.toList_ofList] at hc
  cases hname : name.toList with
  | nil =>
    rw [hname] at hc
    exact absurd hc List.not_mem_nil
  | cons first rest =>
    have hfirst := h first (hname ▸ List.mem_cons_self)
    -- the first character is of ASCII, so its upper case is one character
    have hascii : first.toNat < 128 := by
      rcases hfirst with hfirst | rfl
      · exact Text.toNat_lt_of_isAlphanum hfirst
      · decide
    rw [hname, Text.upperFirstChars, Text.uppercase_of_lt hascii] at hc
    rcases List.mem_cons.mp hc with rfl | hc
    · rcases hfirst with hfirst | rfl
      · exact .inl (Text.isAlphanum_toUpper hfirst)
      · exact .inr hunder
    · exact h c (hname ▸ List.mem_cons_of_mem _ hc)

/-- Letters behind a name leave it plain. -/
theorem IsPlain.append {name suffix : String} (h : IsPlain name) (hsuffix : IsPlain suffix) :
    IsPlain (name ++ suffix) := fun c hc => by
  rw [String.toList_append] at hc
  exact (List.mem_append.mp hc).elim (h c) (hsuffix c)

theorem isPlain_enumerationName {name : String} (h : IsPlain name) :
    IsPlain (Response.enumerationName name) := by
  have hsuffix : IsPlain "Response" := fun c hc => .inl (List.all_eq_true.mp (by decide) c hc)
  rw [Response.enumerationName_eq]
  exact h.upperFirst.append hsuffix

theorem isPlain_interfaceName {name : String} (h : IsPlain name) :
    IsPlain (Method.interfaceName name) := by
  have hsuffix : IsPlain "Params" := fun c hc => .inl (List.all_eq_true.mp (by decide) c hc)
  rw [Method.interfaceName_eq]
  exact h.upperFirst.append hsuffix

end Operation

namespace Controller.Actions

/-! ## What the search finds -/

/-- What is searched for the interface of a method. -/
def interfaceOpening (code : Method.Code) : String :=
  "export interface " ++ Method.interfaceName code.method.name ++ " "

/-- An interface that is declared begins with its opening. -/
theorem interfaceOpening_prefix {code : Method.Code}
    (hnamed : code.declared.name = Method.interfaceName code.method.name)
    (h : code.declared.isEmpty = false) :
    (interfaceOpening code).toList <+: code.declared.text.toList := by
  have hmark : " ".toList <+: " \x7b\n".toList := by decide
  unfold interfaceOpening Parameter.Interface.text
  rw [if_neg (by simp [h]), hnamed]
  simp only [String.toList_append]
  iterate 2 refine List.IsPrefix.trans ?_ (List.prefix_append _ _)
  exact (List.prefix_append_right_inj _).mpr hmark

/-- The interface is found where it is declared, and wherever its
opening stands in the response. -/
theorem contains_interfaceOpening {code : Method.Code}
    (hnamed : code.declared.name = Method.interfaceName code.method.name) :
    Text.contains code.declarations (interfaceOpening code) = true ↔
      code.declared.isEmpty = false ∨
        Text.contains (code.method.response.declaration.getD "") (interfaceOpening code) =
          true := by
  cases hempty : code.declared.isEmpty with
  | true => simp [Method.Code.declarations_of_isEmpty hempty]
  | false =>
    have hprefix := interfaceOpening_prefix hnamed hempty
    have hne : code.declared.text.isEmpty = false := by
      rw [Bool.eq_false_iff]
      intro hnone
      unfold interfaceOpening at hprefix
      simp [String.isEmpty_iff.mp hnone] at hprefix
    exact iff_of_true (Text.contains_trans (code.contains_declaration _ hne (by simp))
      (Text.occursIn_iff.mpr hprefix.isInfix)) (.inl rfl)

/-- The actions of a method take what its service declares. -/
structure Agrees (code : Method.Code) : Prop where
  /-- The types that the actions import are those that are declared for the method. -/
  imported : controllerImports code = code.typeNames
  /-- What the start carries are the parameters that the method takes. -/
  payload : ∀ type, exportedInterface code = some type ↔ code.signature = "params: " ++ type

/-- The actions agree unless they find an interface in the response of a method without one. -/
theorem agrees_iff {code : Method.Code}
    (hnamed : code.declared.name = Method.interfaceName code.method.name) :
    Agrees code ↔ code.declared.isEmpty = false ∨
      Text.contains (code.method.response.declaration.getD "") (interfaceOpening code) =
        false := by
  have hfound : exportedInterface code = if Text.contains code.declarations (interfaceOpening code)
      then some (Method.interfaceName code.method.name) else none := rfl
  -- an interface that is declared is found; without one only the response can have its opening
  cases hempty : code.declared.isEmpty with
  | false =>
    rw [if_pos ((contains_interfaceOpening hnamed).mpr (.inl hempty)), ← hnamed] at hfound
    refine iff_of_true ⟨?_, fun type => ?_⟩ (.inl rfl)
    · simp [controllerImports, Method.Code.typeNames, hfound, hempty]
    · rw [hfound, Option.some.injEq, Method.Code.signature, if_neg (by simp [hempty])]
      exact ⟨fun h => h ▸ rfl, (String.append_right_inj _).mp⟩
  | true =>
    cases hcontains : Text.contains (code.method.response.declaration.getD "")
      (interfaceOpening code) with
    | false =>
      have hnone : ¬ Text.contains code.declarations (interfaceOpening code) = true := by
        simp [contains_interfaceOpening hnamed, hempty, hcontains]
      rw [if_neg hnone] at hfound
      refine iff_of_true ⟨?_, fun type => ?_⟩ (.inr rfl)
      · simp [controllerImports, Method.Code.typeNames, hfound, hempty]
      · rw [hfound, Method.Code.signature, if_pos hempty]
        refine iff_of_false (by simp) fun h => ?_
        simpa using congrArg String.toList h
    | true =>
      rw [if_pos ((contains_interfaceOpening hnamed).mpr (.inr hcontains))] at hfound
      refine iff_of_false (fun hagrees => ?_) (by simp)
      simpa [controllerImports, Method.Code.typeNames, hfound, hempty] using hagrees.imported

/-! ## What a response can say -/

theorem isClear_interface : TypeScript.Enumeration.IsClear "export interface".toList := by
  constructor <;> decide

/-- The head of a declaration does not open an interface. -/
theorem not_interface_in_head {name : String} (hname : ' ' ∉ name.toList) :
    ∀ kind ∈ ["export enum ", "export type "],
      ¬ "export interface".toList <:+: (kind ++ name).toList := by
  -- a blank is before the kind and behind it, and `interface` follows neither of them
  have hwords : ∀ word ∈ ["enum".toList, "type".toList], ' ' ∉ word ∧ ¬ "export".toList <:+ word ∧
      word.head? ≠ some 'i' := by decide
  have hnone : ∀ word ∈ ["enum".toList, "type".toList],
      ¬ "export".toList ++ ' ' :: "interface".toList <:+:
        "export".toList ++ ' ' :: (word ++ ' ' :: name.toList) := by
    intro word hword h
    obtain ⟨hblank, hsuffix, hhead⟩ := hwords word hword
    have hmissing : ∀ {text : List Char}, ' ' ∉ text →
        ¬ "export".toList ++ ' ' :: "interface".toList <:+: text := fun htext h =>
      htext (h.subset (List.mem_append_right _ List.mem_cons_self))
    rcases Text.infix_of_infix_around (by decide) (by decide) h with h | h | ⟨-, h⟩
    · exact hmissing (by decide) h
    · rcases Text.infix_of_infix_around (by decide) (by decide) h with h | h | ⟨h, -⟩
      · exact hmissing hblank h
      · exact hmissing hname h
      · exact hsuffix h
    · cases word with
      | nil => exact absurd (List.cons_prefix_cons.mp h).1 (by decide)
      | cons c word => exact hhead (congrArg some (List.cons_prefix_cons.mp h).1.symm)
  intro kind hkind
  rw [String.toList_append]
  rcases List.mem_cons.mp hkind with rfl | hkind
  · exact hnone "enum".toList (by decide)
  · obtain rfl := List.mem_singleton.mp hkind
    exact hnone "type".toList (by decide)

/-- A response whose values do not print the words does not open an interface. -/
theorem not_interfaceOpening_of_printed {code : Method.Code}
    (hplain : Operation.IsPlain code.method.name) {values : List Json}
    (hdeclared : code.method.response.declaration = some
      (TypeScript.Enumeration.declaration (Response.enumerationName code.method.name) values))
    (hvalues : ∀ value ∈ values,
      Text.contains (TypeScript.Enumeration.printed value) "export interface" = false) :
    Text.contains (code.method.response.declaration.getD "") (interfaceOpening code) = false := by
  rw [Bool.eq_false_iff, hdeclared, Option.getD_some]
  intro hfound
  -- every opening begins with these two words, and they stand in no part of an enumeration
  have hwords : Text.contains (interfaceOpening code) "export interface" = true := by
    unfold interfaceOpening
    iterate 2 apply Text.contains_append_left
    decide
  have hinfix := Text.occursIn_iff.mp (Text.contains_trans hfound hwords)
  rcases TypeScript.Enumeration.infix_of_infix_declaration isClear_interface hinfix with
    ⟨kind, hkind, h⟩ | ⟨value, hvalue, h⟩
  · refine not_interface_in_head (fun hblank => ?_) kind hkind h
    exact absurd (Operation.isPlain_enumerationName hplain _ hblank) (by decide)
  · exact absurd (Text.occursIn_iff.mpr h) (Bool.eq_false_iff.mp (hvalues value hvalue))

/-! ## What the texts say -/

/-- A line of imports has the characters of the names and of the source, and no star of its own. -/
theorem star_mem_importNames {names : List String} {source : String}
    (h : '*' ∈ (TypeScript.importNames names source).toList) :
    (∃ name ∈ names, '*' ∈ name.toList) ∨ '*' ∈ source.toList := by
  have hmark : Text.IsForeign ", ".toList ['*'] := by decide
  simp only [TypeScript.importNames, String.toList_append, List.mem_append] at h
  rcases h with (((h | h) | h) | h) | h
  · exact absurd h (by decide)
  · obtain ⟨name, hname, h⟩ := Text.infix_of_infix_intercalate (List.cons_ne_nil _ _) hmark
      ((List.singleton_infix_iff _ _).mpr h)
    exact .inl ⟨name, hname, (List.singleton_infix_iff _ _).mp h⟩
  · exact absurd h (by decide)
  · exact .inr h
  · exact absurd h (by decide)

/-- The model is imported where the response prints it, for no other import has a star. -/
theorem contains_importModel {controller : String} {code : Method.Code}
    (hcontroller : IsWord controller)
    (himports : ∀ name ∈ controllerImports code, Operation.IsPlain name) :
    Text.contains (imports controller code) (TypeScript.importModel ("../../" ++ Layout.model)) =
      Text.contains code.method.response.type "__model." := by
  change _ = TypeScript.usesModel code.method.response.type
  cases hmodel : TypeScript.usesModel code.method.response.type with
  | true =>
    unfold imports
    rw [if_pos hmodel]
    exact Text.contains_append_left (Text.contains_append_right (Text.contains_self _))
  | false =>
    rw [Bool.eq_false_iff]
    intro hfound
    -- that line has a star, and without it no other line has one
    have hstar : '*' ∈ (imports controller code).toList :=
      (Text.occursIn_iff.mp hfound).subset (by decide)
    have hnone : ∀ {names : List String} {source : String}, (∀ name ∈ names, '*' ∉ name.toList) →
        '*' ∉ source.toList → '*' ∉ (TypeScript.importNames names source).toList :=
      fun hnames hsource h => (star_mem_importNames h).elim (fun ⟨name, hname, h⟩ =>
        hnames name hname h) hsource
    unfold imports at hstar
    rw [if_neg (by simp [hmodel])] at hstar
    simp only [String.toList_append, List.mem_append] at hstar
    rcases hstar with ((((h | h) | h) | h) | h) | h
    · exact hnone (by decide) (by decide) h
    · exact hnone (by decide) (by decide) h
    · exact absurd h (by decide)
    · exact hnone (by decide) (by decide) h
    · exact absurd h (by decide)
    · split at h
      · exact absurd h (by decide)
      · refine hnone (fun name hname hstar => ?_) ?_ h
        · exact absurd (himports name hname _ hstar) (by decide)
        · simp only [String.toList_append, List.mem_append, not_or]
          exact ⟨by decide, fun hstar => absurd (hcontroller.2 _ hstar) (by decide)⟩

/-- The lines of the imports, by whether the model is imported and by
what is taken from the service. -/
def importLines (controller : String) (model : Bool) (types : List String) : String :=
  "import \x7bHttpErrorResponse\x7d from '@angular/common/http';\n" ++
  "import \x7bAction\x7d from '@ngrx/store';\n\n" ++
  "import \x7bActionWithPayload\x7d from '../../common/utils';\n" ++
  (if model then "import * as __model from '../../model';\n" else "") ++
  (if types = [] then ""
    else "import \x7b" ++ ", ".intercalate types ++ "\x7d from '../../controllers/" ++
      controller ++ "';\n")

theorem importNames_controllers (controller : String) (types : List String) :
    TypeScript.importNames types ("../../" ++ Layout.controllers ++ "/" ++ controller) =
      "import \x7b" ++ ", ".intercalate types ++ "\x7d from '../../controllers/" ++
      controller ++ "';\n" := by
  have hsource : "\x7d from '" ++ "../../" ++ Layout.controllers ++ "/" =
      "\x7d from '../../controllers/" := by
    decide +kernel
  rw [TypeScript.importNames, ← hsource]
  simp only [String.append_assoc]

theorem imports_eq_importLines (controller : String) (code : Method.Code) :
    imports controller code = importLines controller
      (Text.contains code.method.response.type "__model.") (controllerImports code) := by
  have hmodel : TypeScript.usesModel code.method.response.type =
      Text.contains code.method.response.type "__model." := rfl
  have hnone : (controllerImports code).isEmpty = true ↔ controllerImports code = [] :=
    List.isEmpty_iff
  unfold imports
  rw [importNames_controllers, hmodel]
  simp only [hnone]
  generalize Text.contains code.method.response.type "__model." = model
  unfold importLines TypeScript.importNames TypeScript.importModel
  cases model <;> rfl

/-- Where nothing is taken from the service, no line names the folder of its file. -/
theorem not_contains_controllers (controller : String) (model : Bool) :
    Text.contains (importLines controller model []) "controllers" = false := by
  unfold Text.contains importLines
  simp only [String.toList_append, if_pos]
  cases model <;> (repeat rw [String.toList_ofList]) <;> decide +kernel

/-- Behind its imports a file of actions has a blank line, and then their kinds. -/
theorem exists_text_eq (controller : String) (code : Method.Code) :
    ∃ rest, text controller code =
      imports controller code ++ ("\n" ++ ("export enum Actions \x7b\n" ++ rest)) := by
  unfold text kindsText
  simp only [String.append_assoc]
  exact ⟨_, rfl⟩

/-- What the file of a method's actions says of its types. -/
structure Told (controller : String) (code : Method.Code) : Prop where
  /-- The types of a method are declared beside the class of its service. -/
  declared : ∀ type ∈ code.typeNames,
    ∃ kind ∈ ["export interface ", "export enum ", "export type "],
      Text.contains code.declarations (kind ++ type) = true
  /-- What the actions take from the service is imported from its file. -/
  imported : controllerImports code ≠ [] → Text.contains (text controller code)
    (TypeScript.importNames (controllerImports code)
      ("../../" ++ Layout.controllers ++ "/" ++ controller)) = true
  /-- The file begins with its imports, and goes on with what it exports. -/
  block : ∃ rest, text controller code =
    imports controller code ++ ("\n" ++ ("export enum Actions \x7b\n" ++ rest))
  /-- The imports are lines with what is imported, and nothing else. -/
  lines : imports controller code = importLines controller
    (Text.contains code.method.response.type "__model.") (controllerImports code)
  /-- If the actions take nothing from the service, no line imports from the folder of its file. -/
  unimported : controllerImports code = [] →
    Text.contains (imports controller code) "controllers" = false
  /-- The start carries the interface that is found, if one is. -/
  started : Text.contains (text controller code)
    (classText ("START", "Start") (exportedInterface code)) = true
  /-- The model is imported just if the type of the response prints it. -/
  model : Text.contains (imports controller code)
    (TypeScript.importModel ("../../" ++ Layout.model)) =
      Text.contains code.method.response.type "__model."

end Controller.Actions

namespace Service

open Controller.Actions

/-- A service says of the types of its methods what their actions need. -/
theorem told_of_isOf {settings : Settings} {context : Operation.Context} {paths : Json}
    {service : Service} (h : service.IsOf settings context paths) :
    ∀ code ∈ service.methods, Told service.name code := by
  intro code hcode
  obtain ⟨hcontroller, hplain, -⟩ := namesTell_of_isOf h
  obtain ⟨_, _, _, -, -, hmethods, hcodes⟩ := h
  obtain ⟨hnamed, responses, hresponse⟩ := (Method.codes_of_toMethods hmethods hcodes).2 code hcode
  -- what is imported is the interface, and the enumeration if one is declared
  have himports : ∀ name ∈ controllerImports code, Operation.IsPlain name := by
    intro name hname
    rcases mem_controllerImports hname with rfl | ⟨hdeclared, rfl⟩
    · exact Operation.isPlain_interfaceName (hplain code hcode)
    · rw [type_of_declared hresponse hdeclared]
      exact Operation.isPlain_enumerationName (hplain code hcode)
  constructor
  case declared => exact Method.Code.contains_type hresponse
  case imported =>
    intro hne
    unfold text
    iterate 12 apply Text.contains_append_left
    unfold imports
    rw [if_neg (c := (controllerImports code).isEmpty = true) (by simpa using hne)]
    exact Text.contains_append_right (Text.contains_self _)
  case block => exact exists_text_eq service.name code
  case lines => exact imports_eq_importLines service.name code
  case unimported =>
    intro hnone
    rw [imports_eq_importLines, hnone]
    exact not_contains_controllers _ _
  case started =>
    unfold text
    iterate 8 apply Text.contains_append_left
    exact Text.contains_append_right (Text.contains_self _)
  case model => exact contains_importModel hcontroller himports

/--
**When the actions of a method agree with its service.** Every file that is written for some
paths is of a service of theirs. For each method of such a service the actions import what
the service declares for it, and the start carries what the method takes as `params`, just if
the method takes parameters or its response does not declare anything that opens their
interface. A response does not if no value that it lists prints `export interface`, be it in
a text or in the JSON of another value.
-/
theorem agrees_iff_of_isOf {settings : Settings} {context : Operation.Context} {paths : Json} :
    (∀ file ∈ (Client.writeControllers settings context paths).files,
      ∃ service : Service, service.IsOf settings context paths ∧ file ∈ service.files settings) ∧
    ∀ service : Service, service.IsOf settings context paths → ∀ code ∈ service.methods,
      Told service.name code ∧
      (Agrees code ↔ code.declared.isEmpty = false ∨
        Text.contains (code.method.response.declaration.getD "") ("export interface " ++
          Method.interfaceName code.method.name ++ " ") = false) ∧
      ∀ values, code.method.response.declaration = some (TypeScript.Enumeration.declaration
          (Response.enumerationName code.method.name) values) →
        (∀ value ∈ values,
          Text.contains (TypeScript.Enumeration.printed value) "export interface" = false) →
        Agrees code := by
  refine ⟨fun file hfile => isOf_of_mem_files hfile, fun service hservice code hcode => ?_⟩
  have hplain := (namesTell_of_isOf hservice).methods code hcode
  have htold := told_of_isOf hservice code hcode
  obtain ⟨_, _, _, -, -, hmethods, hcodes⟩ := hservice
  have hnamed := ((Method.codes_of_toMethods hmethods hcodes).2 code hcode).1
  refine ⟨htold, agrees_iff hnamed, fun values hdeclared hvalues => ?_⟩
  exact (agrees_iff hnamed).mpr (.inr (not_interfaceOpening_of_printed hplain hdeclared hvalues))

/-- An operation whose response lists a list, in which an escape completes the words. -/
def pingOperation : Operation where
  url := "/ping"
  verb := "get"
  value :=
    .object [("operationId", .string "ping"), ("responses", .object [("200", .object [("schema",
    .object [("enum", .array [.array [.string "Îxport interface PingParams "]])])])])]
  parameters := .null

/-- The method of that operation. -/
def pingMethod : Method where
  url := pingOperation.url
  name := "ping"
  verb := pingOperation.verb
  basePath := ""
  response := ⟨"PingResponse",
    some "export type PingResponse = [\"\\u00cexport interface PingParams \"];"⟩
  summary := .string ""
  description := .string ""
  docLink := ""
  parameters := none

/-- Paths with that operation only. -/
def pingPaths : Json :=
  .object [(pingOperation.url, .object [(pingOperation.verb, pingOperation.value)])]

/-- The words are not in the text that is listed, and yet the start takes
parameters that there are not. -/
theorem not_agrees_pingPaths :
    Text.contains "Îxport interface PingParams " "export interface" = false ∧
    ∃ service : Service,
      service.IsOf ⟨"", true, standardPolicy true⟩ ⟨pingPaths, "", ""⟩ pingPaths ∧
        ∃ code ∈ service.methods, code.signature = "" ∧ ¬ Agrees code := by
  have hcontrollers : Operation.byController (standardPolicy true).allowed
      (pingPaths.orElse (.object [])) = .ok [("Ping", [pingOperation])] :=
    rfl
  have hmethods : Operation.toMethods ⟨pingPaths, "", ""⟩ [pingOperation] = .ok [pingMethod] :=
    rfl
  obtain ⟨code, hcode⟩ : ∃ code, Method.compile (standardPolicy true) pingMethod = .ok code :=
    ⟨_, rfl⟩
  have hcompiled := Method.compiled_of_compile hcode
  have hservice : Service.IsOf ⟨"", true, standardPolicy true⟩ ⟨pingPaths, "", ""⟩
      pingPaths ⟨"Ping", [code]⟩ :=
    ⟨_, _, _, hcontrollers, List.mem_singleton_self _, hmethods,
      mapM_eq_ok.mpr (.cons hcode .nil)⟩
  have hfields : (Except.ok [] : Except Misuse _) = .ok code.declared.fields := hcompiled.declared
  -- without parameters the interface is empty, so nothing of it is printed
  have hempty : code.declared.isEmpty = true := congrArg List.isEmpty (Except.ok.inj hfields).symm
  refine ⟨by decide +kernel, _, hservice, code, List.mem_cons_self, if_pos hempty,
    fun hagrees => ?_⟩
  rcases (agrees_iff_of_isOf.2 _ hservice code List.mem_cons_self).2.1.mp hagrees with h | h
  · simp [hempty] at h
  · rw [hcompiled.described] at h
    revert h
    decide +kernel

end Service

end ApiClient
