import ApiClient.Proofs.Operation.Merge
import ApiClient.Proofs.Parameter.Declared

/-!
# When an operation overrides its path

Merging sees declarations before their references are followed: one in place has the name and
the location of its parameter as its key, while a reference has itself. So one parameter can
have two keys, and whether it has is a matter of how the two levels declare it. Where they do it
in the same way, in place or by one reference, the operation's declaration takes the place of
the path's. Where they do not, both are kept.
-/

namespace ApiClient

/-! ## Keys of declarations -/

namespace Declared

/-- What a declaration is told apart by when it is merged. -/
def key (declared : Declared) : String × String :=
  match declared.reference with
  | none => (declared.parameter.name, declared.parameter.location.name)
  | some reference => (reference, "")

variable {document : Json} {declared other : Declared}

theorem IsIn.declarationKey (h : declared.IsIn document) :
    Operation.declarationKey declared.declaration = .ok (Operation.asTexts declared.key) := by
  cases h with
  | @inPlace members parameter hplace hparameter =>
    have hnamed := Parameter.namedIn_of_ofDeclaration hparameter
    refine bind_eq_ok.mpr ⟨_, rfl, bind_eq_ok.mpr ⟨_, rfl, bind_eq_ok.mpr ⟨_, rfl, ?_⟩⟩⟩
    dsimp only
    rw [hplace, hnamed.name, hnamed.location]
    rfl
  | @byReference members reference _ _ hreference hname hlocation =>
    refine bind_eq_ok.mpr ⟨_, rfl, bind_eq_ok.mpr ⟨_, rfl, bind_eq_ok.mpr ⟨_, rfl, ?_⟩⟩⟩
    dsimp only
    rw [hreference, hname, hlocation]
    -- a blank reference falls back to the empty text, which is what it is
    have hself : (Json.string reference).orElse (.string "") = .string reference := by
      unfold Json.orElse
      split
      · rename_i hblank
        have hempty : reference.isEmpty = true := hblank
        rw [String.isEmpty_iff.mp hempty]
      · rfl
    rw [Option.getD_some, Option.getD_none, hself]
    rfl

/-- Two declarations have the same key just if they declare the same parameter in the same way. -/
theorem IsIn.key_eq_iff (h : declared.IsIn document) (h' : other.IsIn document) :
    declared.key = other.key ↔
      declared.parameter.identity = other.parameter.identity ∧
      declared.reference = other.reference := by
  -- no location has an empty name, so a key in place is never that of a reference
  have hnames : ∀ location ∈ Location.declarable, location.name ≠ "" := by decide
  unfold key Parameter.identity
  cases hplace : declared.reference with
  | none =>
    cases hplace' : other.reference with
    | none =>
      simp only [Prod.mk.injEq, and_true, and_congr_right_iff]
      intro _
      constructor
      · intro hlocation
        rw [← Location.ofName_name h.declarable, hlocation, Location.ofName_name h'.declarable]
      · exact congrArg Location.name
    | some reference =>
      constructor
      · intro he
        exact absurd (Prod.mk.inj he).2 (hnames _ h.declarable)
      · intro he
        cases he.2
  | some reference =>
    cases hplace' : other.reference with
    | none =>
      constructor
      · intro he
        exact absurd (Prod.mk.inj he).2.symm (hnames _ h'.declarable)
      · intro he
        cases he.2
    | some reference' =>
      constructor
      · intro he
        obtain rfl := (Prod.mk.inj he).1
        rw [h.parameter_eq h' hplace hplace']
        exact ⟨rfl, rfl⟩
      · intro he
        rw [Option.some.inj he.2]

end Declared

/-! ## Both levels -/

namespace Operation

/-- A list of declarations in a document. None of them declares the parameter of another. -/
structure Level (document : Json) where
  listed : List Declared
  isIn : ∀ d ∈ listed, d.IsIn document
  once : (listed.map (·.parameter.identity)).Nodup

namespace Level

variable {document : Json}

/-- A level as the document has it. -/
def value (level : Level document) : Json := .array (level.listed.map (·.declaration))

/-- In a level a parameter has one declaration. -/
theorem eq_of_identity (level : Level document) {d e : Declared} (hd : d ∈ level.listed)
    (he : e ∈ level.listed) (h : d.parameter.identity = e.parameter.identity) : d = e :=
  List.inj_on_of_nodup_map level.once hd he h

/-- Declarations of parameters that can be told apart have keys that can be. -/
theorem nodup_keys (level : Level document) : (level.listed.map Declared.key).Nodup := by
  have honce := level.once
  rw [List.Nodup, List.pairwise_map] at honce ⊢
  refine honce.imp_of_mem fun {d e} hd he hne hkey => hne ?_
  exact (((level.isIn d hd).key_eq_iff (level.isIn e he)).mp hkey).1

end Level

/-- What parameters must be, if those of an operation are to override those of its path. -/
structure Overrides (ofPath ofOperation : List Declared) (parameters : List Parameter) : Prop where
  /-- There is at most one for each name and location. -/
  once : (parameters.map Parameter.identity).Nodup
  /-- Where both levels declare one, it is the operation's. -/
  operation : ∀ d ∈ ofPath, ∀ o ∈ ofOperation, d.parameter.identity = o.parameter.identity →
    o.parameter ∈ parameters

/-- The parameters are no other than the declared ones, and no name and location is lost. -/
structure Covers (ofPath ofOperation : List Declared) (parameters : List Parameter) : Prop where
  declared : ∀ p ∈ parameters, ∃ d ∈ ofPath ++ ofOperation, d.parameter = p
  complete : ∀ d ∈ ofPath ++ ofOperation, ∃ p ∈ parameters, p.identity = d.parameter.identity

section

variable {document : Json} {ofPath ofOperation : Level document} {d o : Declared}

/-- The declarations that merging keeps. -/
def kept (ofPath ofOperation : Level document) : List Declared :=
  replaceEach Declared.key [] (ofPath.listed ++ ofOperation.listed)

/-- All of the operation's declarations are kept, and those of the path that have no key of its. -/
theorem mem_kept : d ∈ kept ofPath ofOperation ↔
    d ∈ ofOperation.listed ∨ d ∈ ofPath.listed ∧ ∀ o ∈ ofOperation.listed, o.key ≠ d.key :=
  mem_replaceEach_append ofPath.nodup_keys ofOperation.nodup_keys

theorem nodup_keys_kept : ((kept ofPath ofOperation).map Declared.key).Nodup :=
  nodup_replaceEach (by simp) _

theorem isIn_of_mem_append (h : d ∈ ofPath.listed ++ ofOperation.listed) : d.IsIn document :=
  (List.mem_append.mp h).elim (ofPath.isIn d) (ofOperation.isIn d)

theorem mem_append_of_mem_kept (h : d ∈ kept ofPath ofOperation) :
    d ∈ ofPath.listed ++ ofOperation.listed :=
  List.mem_append.mpr ((mem_kept.mp h).elim .inr fun h => .inl h.1)

theorem covers_kept :
    Covers ofPath.listed ofOperation.listed ((kept ofPath ofOperation).map (·.parameter)) where
  declared := by
    intro p hp
    obtain ⟨d, hd, rfl⟩ := List.mem_map.mp hp
    exact ⟨d, mem_append_of_mem_kept hd, rfl⟩
  complete := by
    intro d hd
    by_cases hreplaced : ∃ o ∈ ofOperation.listed, o.key = d.key
    · -- what stands in its place has its identity
      obtain ⟨o, ho, hkey⟩ := hreplaced
      have hidentity := (((ofOperation.isIn o ho).key_eq_iff (isIn_of_mem_append hd)).mp hkey).1
      exact ⟨o.parameter, List.mem_map_of_mem (mem_kept.mpr (.inl ho)), hidentity⟩
    · have hkept : d ∈ kept ofPath ofOperation := by
        rcases List.mem_append.mp hd with hd | hd
        · exact mem_kept.mpr (.inr ⟨hd, fun o ho hkey => hreplaced ⟨o, ho, hkey⟩⟩)
        · exact mem_kept.mpr (.inl hd)
      exact ⟨d.parameter, List.mem_map_of_mem hkept, rfl⟩

/-- If both levels declare in the same way what both declare, no name
and location is kept twice. -/
theorem once_of_same (h : ∀ d ∈ ofPath.listed, ∀ o ∈ ofOperation.listed,
      d.parameter.identity = o.parameter.identity → d.reference = o.reference) :
    (((kept ofPath ofOperation).map (·.parameter)).map Parameter.identity).Nodup := by
  have hkeys : ((kept ofPath ofOperation).map Declared.key).Nodup := nodup_keys_kept
  rw [List.Nodup, List.pairwise_map] at hkeys
  rw [List.map_map, List.Nodup, List.pairwise_map]
  refine hkeys.imp_of_mem fun {d e} hd he hne hidentity => hne ?_
  -- two of one level are the same, and two of both levels are declared in the same way
  rcases mem_kept.mp hd with hd | ⟨hd, -⟩
  · rcases mem_kept.mp he with he | ⟨he, -⟩
    · rw [ofOperation.eq_of_identity hd he hidentity]
    · have hreference := h e he d hd hidentity.symm
      exact ((ofOperation.isIn d hd).key_eq_iff (ofPath.isIn e he)).mpr ⟨hidentity,
        hreference.symm⟩
  · rcases mem_kept.mp he with he | ⟨he, -⟩
    · have hreference := h d hd e he hidentity
      exact ((ofPath.isIn d hd).key_eq_iff (ofOperation.isIn e he)).mpr ⟨hidentity, hreference⟩
    · rw [ofPath.eq_of_identity hd he hidentity]

/-- A declaration of the path that the operation declares in another way is kept. -/
theorem mem_kept_of_ne (hd : d ∈ ofPath.listed) (ho : o ∈ ofOperation.listed)
    (hidentity : d.parameter.identity = o.parameter.identity) (hne : d.reference ≠ o.reference) :
    d ∈ kept ofPath ofOperation := by
  refine mem_kept.mpr (.inr ⟨hd, fun other hother hkey => hne ?_⟩)
  obtain ⟨hsame, hreference⟩ :=
    ((ofOperation.isIn other hother).key_eq_iff (ofPath.isIn d hd)).mp hkey
  obtain rfl := ofOperation.eq_of_identity hother ho (hsame.trans hidentity)
  exact hreference.symm

/-- **An operation overrides its path just where the two declare a parameter in the
same way.** Merging always succeeds and keeps what is declared; but of a parameter that
one level declares in place and the other by a reference, or each by a reference of its
own, both declarations are kept. -/
theorem overrides_iff (ofPath ofOperation : Level document) :
    ∃ merged parameters, mergeDeclarations ofPath.value ofOperation.value = .ok merged ∧
      Parameter.ofDeclarations document merged = .ok (some parameters) ∧
      Covers ofPath.listed ofOperation.listed parameters ∧
      (Overrides ofPath.listed ofOperation.listed parameters ↔
        ∀ d ∈ ofPath.listed, ∀ o ∈ ofOperation.listed,
          d.parameter.identity = o.parameter.identity → d.reference = o.reference) := by
  have hmerged : mergeDeclarations ofPath.value ofOperation.value =
      .ok (.array ((kept ofPath ofOperation).map (·.declaration))) :=
    mergeDeclarations_eq fun d hd => (isIn_of_mem_append hd).declarationKey
  have hkept : ∀ d ∈ kept ofPath ofOperation, d.IsIn document :=
    fun d hd => isIn_of_mem_append (mem_append_of_mem_kept hd)
  refine ⟨_, _, hmerged, Declared.ofDeclarations_eq hkept, covers_kept, ?_, ?_⟩
  · intro hoverrides d hd o ho hidentity
    have honce := hoverrides.once
    rw [List.map_map] at honce
    -- otherwise both are kept, under one name and location
    by_contra hne
    have hkept := mem_kept_of_ne hd ho hidentity hne
    obtain rfl := List.inj_on_of_nodup_map honce hkept (mem_kept.mpr (.inl ho)) hidentity
    exact hne rfl
  · intro hsame
    exact ⟨once_of_same hsame, fun _ _ o ho _ => List.mem_map_of_mem (mem_kept.mpr (.inl ho))⟩

end

/-! ### A parameter that is declared twice -/

/-- A declaration of the parameter `id` of a path. -/
def idDeclaration (type : String) : Json :=
  .object [("name", .string "id"), ("in", .string "path"), ("required", .bool true),
    ("type", .string type)]

/-- The parameter `id` of a path. -/
def idParameter (type : String) : Parameter where
  name := "id"
  location := .path
  required := true
  description := .string ""
  keywords := .object [("type", .string type)]
  schema := none

/-- A document that has the parameter to refer to. -/
def idDocument : Json := .object [("parameters", .object [("id", idDeclaration "integer")])]

def idInPlace : Level idDocument where
  listed := [⟨idDeclaration "string", none, idParameter "string"⟩]
  isIn := by
    intro d hd
    obtain rfl := List.mem_singleton.mp hd
    exact .inPlace rfl rfl
  once := List.nodup_singleton _

def idByReference : Level idDocument where
  listed :=
    [⟨.object [("$ref", .string "#/parameters/id")], some "#/parameters/id",
      idParameter "integer"⟩]
  isIn := by
    intro d hd
    obtain rfl := List.mem_singleton.mp hd
    exact .byReference rfl rfl rfl rfl rfl
  once := List.nodup_singleton _

/-- A path declares `id` in place and an operation declares it by a
reference: it is there twice. -/
theorem not_overrides_id : ∃ merged parameters,
    mergeDeclarations idInPlace.value idByReference.value = .ok merged ∧
      Parameter.ofDeclarations idDocument merged = .ok (some parameters) ∧
      ¬ Overrides idInPlace.listed idByReference.listed parameters := by
  obtain ⟨merged, parameters, hmerged, hparameters, -, hiff⟩ :=
    overrides_iff idInPlace idByReference
  refine ⟨merged, parameters, hmerged, hparameters, fun hoverrides => ?_⟩
  have hsame := hiff.mp hoverrides _ List.mem_cons_self _ List.mem_cons_self rfl
  cases hsame

end Operation

end ApiClient
