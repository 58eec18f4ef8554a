import ApiClient.Proofs.Client.Services
import ApiClient.Proofs.Method.Reads
import ApiClient.Proofs.Operation.Simple

/-!
# What the methods of a controller are called

A method adds members to the class of its controller, itself and perhaps a variant, and it
declares types beside the class, for its parameters and for its response. All of these names
are made of the name of the method, which is simple and which no other method has. A variant
ends in an underscore and no method does; the types end in different words, and begin with a
capital that can be taken back.
-/

namespace ApiClient

namespace Method

/-- The name of the variant of a method. -/
def variantName (name : String) : String := name ++ "_"

namespace Code

/-- The members that a method adds to its class. -/
def memberNames (code : Code) : List String :=
  [code.method.name] ++ if code.unwrapped then [variantName code.method.name] else []

/-- The types that a method declares beside its class. -/
def typeNames (code : Code) : List String :=
  (if code.declared.isEmpty then [] else [code.declared.name]) ++
    if code.method.response.declaration.isSome then [code.method.response.type] else []

theorem mem_memberNames {code : Code} {name : String} : name ∈ code.memberNames ↔
    name = code.method.name ∨ code.unwrapped = true ∧ name = variantName code.method.name := by
  unfold memberNames
  split <;> simp_all

theorem mem_typeNames {code : Code} {type : String} : type ∈ code.typeNames ↔
    code.declared.isEmpty = false ∧ type = code.declared.name ∨
      code.method.response.declaration.isSome ∧ type = code.method.response.type := by
  unfold typeNames
  split <;> split <;> simp_all

/-- A member is opened in the text of its method. -/
theorem contains_member (code : Code) : ∀ name ∈ code.memberNames,
    ∃ signature,
      Text.contains code.text (opening name signature code.method.response.type) = true := by
  intro name hname
  obtain rfl | ⟨hunwrapped, rfl⟩ := mem_memberNames.mp hname
  · refine ⟨code.signature, Text.contains_append_left ?_⟩
    unfold mainText
    iterate 4 apply Text.contains_append_left
    exact Text.contains_append_right (Text.contains_self _)
  · refine ⟨", ".intercalate code.declared.arguments, Text.contains_append_right ?_⟩
    unfold unwrappedText
    rw [if_pos hunwrapped]
    dsimp only
    iterate 3 apply Text.contains_append_left
    exact Text.contains_append_right (Text.contains_self _)

/-- A declaration that is not empty is among those of its method. -/
theorem contains_declaration (code : Code) (text : String) (hne : text.isEmpty = false)
    (h : text ∈ [code.declared.text, code.method.response.declaration.getD ""]) :
    Text.contains code.declarations text = true :=
  Text.contains_intercalate (List.mem_filter.mpr ⟨h, by simp [hne]⟩)

/-- A type is declared in the text beside the class. -/
theorem contains_type {code : Code} {responses : Json} {name : String}
    (hresponse : Response.ofResponses responses name = .ok code.method.response) :
    ∀ type ∈ code.typeNames, ∃ kind ∈ ["export interface ", "export enum ", "export type "],
      Text.contains code.declarations (kind ++ type) = true := by
  intro type htype
  -- a type is the interface of the parameters, or what the response declares
  obtain ⟨hdeclared, rfl⟩ | ⟨hdeclared, rfl⟩ := mem_typeNames.mp htype
  · have htext : code.declared.text = "export interface " ++ code.declared.name ++ " \x7b\n" ++
        Text.indentAll (code.declared.fields.map (·.text)) 1 ++ "\n\x7d" := by
      rw [Parameter.Interface.text, if_neg (by simp [hdeclared])]
    refine ⟨_, List.mem_cons_self, Text.contains_trans
      (code.contains_declaration code.declared.text ?_ (by simp)) ?_⟩
    · simp [htext]
    · rw [htext]
      iterate 3 apply Text.contains_append_left
      exact Text.contains_self _
  · obtain ⟨declaration, hdeclared⟩ := Option.isSome_iff_exists.mp hdeclared
    obtain ⟨hname, values, rfl⟩ := Response.declared_of_ofResponses hresponse hdeclared
    obtain ⟨kind, hkind, rest, -, htext⟩ :=
      Response.declaration_eq (Response.enumerationName name) values
    rw [htext] at hdeclared
    refine ⟨kind, List.mem_cons_of_mem _ hkind, Text.contains_trans (code.contains_declaration
      (kind ++ (Response.enumerationName name ++ rest)) ?_ (by simp [hdeclared])) ?_⟩
    · rcases List.mem_pair.mp hkind with rfl | rfl <;> simp
    · rw [hname, ← String.append_assoc]
      exact Text.contains_append_left (Text.contains_self _)

end Code

end Method

namespace Response

theorem enumerationName_eq (name : String) :
    enumerationName name = Text.upperFirst name ++ "Response" :=
  Text.upperFirst_append (by decide) name

end Response

namespace Operation

/-! ## Names that are made of simple names -/

section

variable {names : List String} (hsimple : ∀ name ∈ names, IsSimple name.toList) (hnd : names.Nodup)

include hsimple hnd

/-- Simple names stay apart when an underscore is put behind them, and from what they were. -/
theorem nodup_members : (names ++ names.map Method.variantName).Nodup := by
  refine List.nodup_append.mpr ⟨hnd, hnd.map (Client.append_right_injective "_"), ?_⟩
  rintro name hname _ hvariant rfl
  obtain ⟨other, -, hother⟩ := List.mem_map.mp hvariant
  refine (hsimple name hname).last ?_
  rw [← hother, Method.variantName, String.toList_append]
  exact List.getLast?_concat

/-- Simple names stay apart when a capital is put in front of them. -/
theorem nodup_upperFirst : (names.map Text.upperFirst).Nodup :=
  hnd.map_on fun name hname other hother h =>
    Text.upperFirst_injOn (hsimple name hname).head (hsimple other hother).head h

/-- The types that are named for simple names are apart. -/
theorem nodup_types :
    (names.map Method.interfaceName ++ names.map Response.enumerationName).Nodup := by
  have hcapital := nodup_upperFirst hsimple hnd
  have hparams : names.map Method.interfaceName =
      (names.map Text.upperFirst).map (· ++ "Params") := by
    rw [List.map_map]
    exact List.map_congr_left fun name _ => Method.interfaceName_eq name
  have hresponses : names.map Response.enumerationName =
      (names.map Text.upperFirst).map (· ++ "Response") := by
    rw [List.map_map]
    exact List.map_congr_left fun name _ => Response.enumerationName_eq name
  rw [hparams, hresponses]
  refine List.nodup_append.mpr ⟨hcapital.map (Client.append_right_injective _),
    hcapital.map (Client.append_right_injective _), ?_⟩
  -- the last letters differ
  rintro type htype _ hresponse rfl
  obtain ⟨front, -, hfront⟩ := List.mem_map.mp htype
  obtain ⟨other, -, hother⟩ := List.mem_map.mp hresponse
  have hlast := congrArg (fun name => name.toList.getLast?) (hfront.trans hother.symm)
  simp [String.toList_append, List.getLast?_append] at hlast

end

/-! ## The methods of some operations -/

/-- An operation is an object, and its id is a text if it has one. -/
def NamedByText (operation : Operation) : Prop :=
  ∃ members, operation.value = .object members ∧
    ∀ id, Json.lookup? "operationId" members = some id → ∃ text, id = .string text

/-- An operation with a text for its id, or without one, has a name. -/
theorem NamedByText.exists_nameOf {operation : Operation} (h : operation.NamedByText) :
    ∃ name, nameOf operation.value operation.verb operation.url = .ok name := by
  obtain ⟨members, hvalue, hid⟩ := h
  obtain ⟨id, hid⟩ : ∃ id : Option String,
    Json.lookup? "operationId" members = id.map .string := by
    cases hlookup : Json.lookup? "operationId" members with
    | none => exact ⟨none, rfl⟩
    | some value =>
      obtain ⟨text, rfl⟩ := hid value hlookup
      exact ⟨some text, rfl⟩
  exact ⟨_, hvalue ▸ nameOf_object hid operation.verb operation.url⟩

/-- Every verb of an operation begins with a lower-case letter. -/
theorem exists_isLower_of_verb {verb : String}
    (h : (Method.standardLocations.lookup verb).isSome) :
    ∃ first rest, verb.toList = first :: rest ∧ first.isLower = true := by
  have hall : ∀ entry ∈ Method.standardLocations,
      entry.1.toList.head?.any Char.isLower = true := by
    decide
  obtain ⟨locations, hlookup⟩ := Option.isSome_iff_exists.mp h
  obtain ⟨_, _, hl, _⟩ := List.lookup_eq_some_iff.mp hlookup
  -- a verb that is looked up with success is one of the table
  have hmem : (verb, locations) ∈ Method.standardLocations :=
    hl ▸ List.mem_append_right _ List.mem_cons_self
  have hhead := hall _ hmem
  cases hverb : verb.toList with
  | nil => simp [hverb] at hhead
  | cons first rest =>
    rw [hverb] at hhead
    exact ⟨first, rest, rfl, hhead⟩

/-- Every verb of an operation is a word. -/
theorem exists_alphanum_of_verb {verb : String}
    (h : (Method.standardLocations.lookup verb).isSome) :
    ∃ c ∈ verb.toList, c.isAlphanum = true := by
  obtain ⟨first, rest, hverb, hlower⟩ := exists_isLower_of_verb h
  exact ⟨first, hverb ▸ List.mem_cons_self,
    Text.isAlphanum_of_isAlpha (Text.isAlpha_of_isLower hlower)⟩

/-- The names of the methods of some operations: those of the operations, told apart. -/
def namesOf (operations : List Operation) : Except Misuse (List String) := do
  return distinctNames (← operations.mapM fun operation =>
    nameOf operation.value operation.verb operation.url)

theorem names_of_toMethods {context : Context} {operations : List Operation}
    {methods : List Method} (h : toMethods context operations = .ok methods) :
    namesOf operations = .ok (methods.map (·.name)) := by
  unfold toMethods at h
  obtain ⟨found, hfound, h⟩ := bind_eq_ok.mp h
  have hfound := (mapM_eq_ok.mp hfound).imp fun _ _ hname => lift_eq_ok.mp hname
  have hlen : operations.length = (distinctNames found).length := by
    rw [length_distinctNames, hfound.length_eq]
  have hread := mapM_eq_ok.mp h
  have hnames := map_eq_of_forall₂ (f := fun p : Operation × String => p.2)
    (g := fun method : Method => method.name) (fun _ _ hp => (toMethod_ok hp).2) hread
  rw [hnames, List.map_snd_zip (Nat.le_of_eq hlen.symm)]
  exact bind_eq_ok.mpr ⟨found, mapM_eq_ok.mpr hfound, rfl⟩

/-- The methods of some operations have simple names, and no two of them have one name. -/
theorem simple_of_namesOf {operations : List Operation} {names : List String}
    (hverb : ∀ operation ∈ operations, (Method.standardLocations.lookup operation.verb).isSome)
    (h : namesOf operations = .ok names) :
    (∀ name ∈ names, IsSimple name.toList) ∧ names.Nodup := by
  obtain ⟨found, hfound, h⟩ := bind_eq_ok.mp h
  obtain rfl := pure_eq_ok.mp h
  refine ⟨isSimple_distinctNames fun name hname => ?_, nodup_distinctNames found⟩
  obtain ⟨operation, hoperation, hname⟩ := exists_of_forall₂_right (mapM_eq_ok.mp hfound) hname
  exact isSimple_nameOf (exists_alphanum_of_verb (hverb operation hoperation)) hname

/-- At any verbs, too, methods have plain names, and no two of them have one name. -/
theorem plain_of_namesOf {operations : List Operation} {names : List String}
    (h : namesOf operations = .ok names) : (∀ name ∈ names, IsPlain name) ∧ names.Nodup := by
  obtain ⟨found, hfound, h⟩ := bind_eq_ok.mp h
  obtain rfl := pure_eq_ok.mp h
  refine ⟨isPlain_distinctNames fun name hname => ?_, nodup_distinctNames found⟩
  obtain ⟨operation, -, hname⟩ := exists_of_forall₂_right (mapM_eq_ok.mp hfound) hname
  exact isPlain_nameOf hname

/-- A method has the response that its operation documents. -/
theorem response_of_toMethod {context : Context} {operation : Operation} {name : String}
    {method : Method} (h : toMethod context operation name = .ok method) :
    ∃ responses, Response.ofResponses responses name = .ok method.response := by
  unfold toMethod at h
  obtain ⟨responses, -, h⟩ := bind_eq_ok.mp h
  obtain ⟨response, hresponse, h⟩ := bind_eq_ok.mp h
  obtain ⟨_, -, h⟩ := bind_eq_ok.mp h
  obtain ⟨_, -, h⟩ := bind_eq_ok.mp h
  obtain ⟨_, -, h⟩ := bind_eq_ok.mp h
  obtain ⟨_, -, h⟩ := bind_eq_ok.mp h
  rw [← pure_eq_ok.mp h]
  exact ⟨_, lift_eq_ok.mp hresponse⟩

end Operation

/-! ## The members and types of a class -/

/-- What is named for some items is among the names of all. -/
theorem optional_sublist {α β : Type} (keep : α → Bool) (name : α → β) (items : List α) :
    (items.flatMap fun item => if keep item then [name item] else []).Sublist
      (items.map name) := by
  induction items with
  | nil => exact .slnil
  | cons item rest ih =>
    rw [List.flatMap_cons, List.map_cons]
    split
    · exact ih.cons_cons _
    · exact ih.cons _

namespace Method

section

variable {codes : List Code} (hsimple : ∀ code ∈ codes, Operation.IsSimple code.method.name.toList)
  (hnd : (codes.map (·.method.name)).Nodup)

include hsimple hnd

theorem nodup_memberNames : (codes.flatMap Code.memberNames).Nodup := by
  have hall := Operation.nodup_members (List.forall_mem_map.mpr hsimple) hnd
  -- not every method has a variant, so the members are some of all names that there could be
  refine (List.flatMap_append_perm codes _ _).nodup (hall.sublist (.append ?_ ?_))
  · rw [← List.map_eq_flatMap]
  · rw [List.map_map]
    exact optional_sublist Code.unwrapped (fun code => variantName code.method.name) codes

theorem nodup_typeNames (hdeclared : ∀ code ∈ codes,
      code.declared.name = interfaceName code.method.name)
    (hresponse : ∀ code ∈ codes, code.method.response.declaration.isSome →
      code.method.response.type = Response.enumerationName code.method.name) :
    (codes.flatMap Code.typeNames).Nodup := by
  have hall := Operation.nodup_types (List.forall_mem_map.mpr hsimple) hnd
  rw [List.map_map, List.map_map] at hall
  -- again some of all: a method may have no parameters, or a response without a name
  refine (List.flatMap_append_perm codes _ _).nodup (hall.sublist (.append ?_ ?_))
  · have hparams := optional_sublist (fun code => !code.declared.isEmpty)
      (fun code : Code => interfaceName code.method.name) codes
    refine Eq.subst (motive := fun types => List.Sublist types _) ?_ hparams
    refine List.flatMap_congr fun code hcode => ?_
    rw [hdeclared code hcode]
    cases code.declared.isEmpty <;> rfl
  · have hresponses := optional_sublist (fun code => code.method.response.declaration.isSome)
      (fun code : Code => Response.enumerationName code.method.name) codes
    refine Eq.subst (motive := fun types => List.Sublist types _) ?_ hresponses
    refine List.flatMap_congr fun code hcode => ?_
    split
    · rename_i hsome
      rw [hresponse code hcode hsome]
    · rfl

end

/-- The methods of some operations, compiled: each is named as the operations say,
and declares what it should. -/
theorem codes_of_toMethods {policy : Policy} {context : Operation.Context}
    {operations : List Operation} {methods : List Method} {codes : List Code}
    (hmethods : Operation.toMethods context operations = .ok methods)
    (hcodes : methods.mapM (compile policy) = .ok codes) :
    Operation.namesOf operations = .ok (codes.map (·.method.name)) ∧
      ∀ code ∈ codes, code.declared.name = interfaceName code.method.name ∧
        ∃ responses, Response.ofResponses responses code.method.name =
          .ok code.method.response := by
  have hread := mapM_eq_ok.mp hcodes
  have hnames : codes.map (·.method.name) = methods.map (·.name) :=
    map_eq_of_forall₂ (f := fun method : Method => method.name)
      (g := fun code : Code => code.method.name)
      (fun _ _ hc => congrArg Method.name (compiled_of_compile hc).described) hread
  refine ⟨hnames ▸ Operation.names_of_toMethods hmethods, fun code hcode => ?_⟩
  obtain ⟨method, hmethod, hcompile⟩ := exists_of_forall₂_right hread hcode
  have hcompiled := compiled_of_compile hcompile
  obtain ⟨operation, -, hmade⟩ := (Operation.toMethods_ok hmethods).2.2 method hmethod
  rw [hcompiled.described]
  exact ⟨hcompiled.named, Operation.response_of_toMethod hmade⟩

/-- No two members of a class have one name, and no two types beside it. -/
structure NamesApart (codes : List Code) : Prop where
  members : (codes.flatMap Code.memberNames).Nodup
  types : (codes.flatMap Code.typeNames).Nodup
  /-- The members are those that the text of the class opens. -/
  opened : ∀ code ∈ codes, ∀ name ∈ code.memberNames, ∃ signature,
    Text.contains code.text (Code.opening name signature code.method.response.type) = true
  /-- The types are those that the text beside the class declares. -/
  declared : ∀ code ∈ codes, ∀ type ∈ code.typeNames,
    ∃ kind ∈ ["export interface ", "export enum ", "export type "],
      Text.contains code.declarations (kind ++ type) = true

/--
**The methods of a controller share no name.** Operations with any ids and paths have names that
stay apart as members, with the variants of all of them, and stay apart as types; and so do the
members and the types of the methods that the operations are compiled to.
-/
theorem namesApart_of_operations {operations : List Operation}
    (hverb : ∀ operation ∈ operations, (standardLocations.lookup operation.verb).isSome)
    (hid : ∀ operation ∈ operations, operation.NamedByText) :
    ∃ names, Operation.namesOf operations = .ok names ∧
      (names ++ names.map variantName).Nodup ∧
      (names.map (Text.upperFirst · ++ "Params") ++
        names.map (Text.upperFirst · ++ "Response")).Nodup ∧
      ∀ policy context methods codes, Operation.toMethods context operations = .ok methods →
        methods.mapM (compile policy) = .ok codes →
        codes.map (·.method.name) = names ∧ NamesApart codes := by
  obtain ⟨found, hfound⟩ := exists_forall₂ fun operation hoperation =>
    (hid operation hoperation).exists_nameOf
  have hnames : Operation.namesOf operations = .ok (Operation.distinctNames found) :=
    bind_eq_ok.mpr ⟨found, mapM_eq_ok.mpr hfound, rfl⟩
  obtain ⟨hsimple, hnd⟩ := Operation.simple_of_namesOf hverb hnames
  refine ⟨_, hnames, Operation.nodup_members hsimple hnd, ?_, ?_⟩
  · have htypes := Operation.nodup_types hsimple hnd
    rwa [funext interfaceName_eq, funext Response.enumerationName_eq] at htypes
  · intro policy context methods codes hmethods hcodes
    obtain ⟨hsame, hmade⟩ := codes_of_toMethods hmethods hcodes
    -- compiling does not rename a method
    have hsame := Except.ok.inj (hsame.symm.trans hnames)
    rw [← hsame] at hsimple hnd
    have hsimple := List.forall_mem_map.mp hsimple
    refine ⟨hsame, nodup_memberNames hsimple hnd,
      nodup_typeNames hsimple hnd (fun code hcode => (hmade code hcode).1) ?_,
      fun code _ => code.contains_member, fun code hcode => ?_⟩
    · intro code hcode hsome
      obtain ⟨responses, hresponse⟩ := (hmade code hcode).2
      obtain ⟨declaration, hdeclared⟩ := Option.isSome_iff_exists.mp hsome
      exact (Response.declared_of_ofResponses hresponse hdeclared).1
    · obtain ⟨responses, hresponse⟩ := (hmade code hcode).2
      exact Code.contains_type hresponse

/-- Operations whose names could be taken for numbered or guarded ones. -/
def similarOperations : List Operation :=
  let named (id : String) : Json := .object [("operationId", .string id)]
  [⟨"/a", "get", named "find2", .null⟩, ⟨"/b", "get", named "find", .null⟩,
    ⟨"/c", "get", named "Find", .null⟩, ⟨"/2", "post", named "_2_", .null⟩,
    ⟨"/find", "put", .object [], .null⟩]

theorem namesApart_similarOperations :
    ∃ names, Operation.namesOf similarOperations = .ok names ∧
      names = ["find2", "find", "find3", "_2", "putFind"] ∧
      (names ++ names.map variantName).Nodup ∧
      (names.map (Text.upperFirst · ++ "Params") ++
        names.map (Text.upperFirst · ++ "Response")).Nodup := by
  have hnamed : ∀ url verb id, Operation.NamedByText
      ⟨url, verb, .object [("operationId", .string id)], .null⟩ := fun _ _ id =>
    ⟨_, rfl, fun _ h => ⟨id, (Option.some.inj h).symm⟩⟩
  have hid : ∀ operation ∈ similarOperations, operation.NamedByText := by
    simp only [similarOperations, List.forall_mem_cons]
    exact ⟨hnamed .., hnamed .., hnamed .., hnamed .., ⟨_, rfl, fun _ h => by cases h⟩,
      fun _ h => absurd h List.not_mem_nil⟩
  obtain ⟨names, hnames, hmembers, htypes, -⟩ := namesApart_of_operations (by decide) hid
  refine ⟨names, hnames, ?_, hmembers, htypes⟩
  -- the list itself is what the naming computes
  have heval : Operation.namesOf similarOperations =
      .ok ["find2", "find", "find3", "_2", "putFind"] :=
    eq_ok_of_toOption (by decide +kernel)
  exact Except.ok.inj (hnames.symm.trans heval)

end Method

end ApiClient
