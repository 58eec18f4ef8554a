import ApiClient.Proofs.Definition.Interface
import ApiClient.Proofs.Schema.Denotes

/-!
# Interfaces of composed schemas

The parts that an `allOf` lists are references, or are described in place, with properties and
required names of their own and perhaps with parts of their own. An interface is made of the
schema and of the parts that it lists itself, each looked at alone. So it says what the schema
says with all its parts only under conditions: no name may be declared in two of them, or be
required in another than the one that declares it, and the parts of parts must add nothing.
-/

namespace ApiClient.Definition

open Json (lookup?)

/-! ## Parts -/

/-- The members of an object. -/
def objectMembers? : Json → Option (List (String × Json))
  | .object members => some members
  | _ => none

/-- The parts that a schema lists itself, by their members. -/
def parts (members : List (String × Json)) : List (List (String × Json)) :=
  match lookup? "allOf" members with
  | some (.array items) => items.filterMap objectMembers?
  | _ => []

/-- Whether a part is described in place. -/
def isInline (part : List (String × Json)) : Bool := (lookup? "$ref" part).isNone

theorem sizeOf_lt_of_mem_parts {members part : List (String × Json)} (h : part ∈ parts members) :
    sizeOf part < sizeOf members := by
  unfold parts at h
  split at h
  · rename_i items hitems
    obtain ⟨item, hitem, hpart⟩ := List.mem_filterMap.mp h
    have hsmaller := Schema.sizeOf_items_lt_of_lookup? hitems
    have hitemSize := List.sizeOf_lt_of_mem hitem
    cases item with
    | object inner =>
      obtain rfl := Option.some.inj hpart
      rw [Json.object.sizeOf_spec] at hitemSize
      omega
    | null | bool | int | double | string | array => cases hpart
  · exact absurd h List.not_mem_nil

/-- The parts of a schema at any depth: those that it lists, and those of parts in place. -/
def allParts (members : List (String × Json)) : List (List (String × Json)) :=
  (parts members).attach.flatMap fun part =>
    part.1 :: if isInline part.1 then allParts part.1 else []
termination_by sizeOf members
decreasing_by exact sizeOf_lt_of_mem_parts part.2

theorem allParts_eq (members : List (String × Json)) : allParts members =
    (parts members).flatMap fun part => part :: if isInline part then allParts part else [] := by
  have hvalues := List.attach_map_val (l := parts members)
    (f := fun part => part :: if isInline part then allParts part else [])
  rw [allParts, List.flatMap_def, List.flatMap_def, hvalues]

/-- A schema, and the parts in place that it lists itself. -/
def nearLevels (members : List (String × Json)) : List (List (String × Json)) :=
  members :: (parts members).filter isInline

/-- A schema, and its parts in place at any depth. -/
def levels (members : List (String × Json)) : List (List (String × Json)) :=
  members :: (allParts members).filter isInline

/-- The references among the parts that a schema lists itself. -/
def nearReferences (members : List (String × Json)) : List Json :=
  (parts members).filterMap (lookup? "$ref")

/-- The references among the parts of a schema at any depth. -/
def references (members : List (String × Json)) : List Json :=
  (allParts members).filterMap (lookup? "$ref")

/-- The names that one level declares. -/
def propertyNames (level : List (String × Json)) : List String :=
  match lookup? "properties" level with
  | some (.object properties) => Json.names properties
  | _ => []

/-- One level lists a name as required. -/
def IsRequired (level : List (String × Json)) (name : String) : Prop :=
  ∃ listed values, lookup? "required" level = some listed ∧ listed.parts = .ok values ∧
    Json.string name ∈ values

theorem isInline_iff {part : List (String × Json)} :
    isInline part = true ↔ lookup? "$ref" part = none := Option.isNone_iff_eq_none

section

variable {members : List (String × Json)}

/-- The references at any depth, by what a schema lists itself. -/
theorem references_eq : references members = (parts members).flatMap fun part =>
    match lookup? "$ref" part with
    | some reference => [reference]
    | none => references part := by
  unfold references
  rw [allParts_eq, List.filterMap_flatMap]
  refine List.flatMap_congr fun part _ => ?_
  unfold isInline
  rw [List.filterMap_cons]
  cases lookup? "$ref" part <;> rfl

theorem mem_allParts_iff {part : List (String × Json)} : part ∈ allParts members ↔
    ∃ own ∈ parts members, part = own ∨ isInline own = true ∧ part ∈ allParts own := by
  rw [allParts_eq, List.mem_flatMap]
  refine exists_congr fun own => and_congr_right fun _ => ?_
  cases isInline own <;> simp

theorem mem_levels_of_mem_nearLevels {level : List (String × Json)}
    (h : level ∈ nearLevels members) : level ∈ levels members := by
  rcases List.mem_cons.mp h with rfl | h
  · exact List.mem_cons_self
  · obtain ⟨hpart, hinline⟩ := List.mem_filter.mp h
    exact List.mem_cons_of_mem _
      (List.mem_filter.mpr ⟨mem_allParts_iff.mpr ⟨level, hpart, .inl rfl⟩, hinline⟩)

end

/-! ## What an interface is made of -/

/-- An interface is made of the levels that a schema lists itself, one behind the other. -/
structure MadeOf (members : List (String × Json)) (declared : Body) : Prop where
  parents : List.Forall₂ (fun reference parent => Schema.reference reference = .ok parent)
    (nearReferences members) declared.parents
  entries : ∃ groups, List.Forall₂ (fun level group => entriesOf (.object level) = .ok group)
    (nearLevels members) groups ∧ declared.entries = groups.flatten

/-- Parts add their parents and their members in order. -/
theorem foldlM_addPart {items : List Json} {before after : Body}
    (h : items.foldlM Body.addPart before = .ok after) : ∃ parents groups,
      List.Forall₂ (fun reference parent => Schema.reference reference = .ok parent)
        ((items.filterMap objectMembers?).filterMap (lookup? "$ref")) parents ∧
      List.Forall₂ (fun level group => entriesOf (.object level) = .ok group)
        ((items.filterMap objectMembers?).filter isInline) groups ∧
      after.parents = before.parents ++ parents ∧
      after.entries = before.entries ++ groups.flatten := by
  induction items generalizing before with
  | nil =>
    obtain rfl := Except.ok.inj h
    exact ⟨[], [], .nil, .nil, (List.append_nil _).symm, (List.append_nil _).symm⟩
  | cons item rest ih =>
    rw [List.foldlM_cons] at h
    obtain ⟨middle, hmiddle, h⟩ := bind_eq_ok.mp h
    obtain ⟨parents, groups, hparents, hgroups, hafter, hafter'⟩ := ih h
    obtain ⟨members, rfl, hadded⟩ := addPart_eq_ok hmiddle
    have hcons : (Json.object members :: rest).filterMap objectMembers? =
        members :: rest.filterMap objectMembers? := rfl
    rw [hcons]
    -- a part with a reference is a parent, any other is a group of members
    rcases hadded with
      ⟨reference, parent, hreference, hparent, rfl⟩ | ⟨hnone, entries, hentries, rfl⟩
    · refine ⟨parent :: parents, groups, ?_, ?_, by rw [hafter, List.append_assoc]; rfl, hafter'⟩
      · rw [List.filterMap_cons_some hreference]
        exact .cons hparent hparents
      · rw [List.filter_cons_of_neg (by simp [isInline, hreference])]
        exact hgroups
    · refine ⟨parents, entries :: groups, ?_, ?_, hafter, by
        rw [hafter', List.append_assoc, List.flatten_cons]⟩
      · rw [List.filterMap_cons_none hnone]
        exact hparents
      · rw [List.filter_cons_of_pos (isInline_iff.mpr hnone)]
        exact .cons hentries hgroups

theorem madeOf_of_body {members : List (String × Json)} {declared : Body}
    (h : body (.object members) = .ok declared) : MadeOf members declared := by
  obtain ⟨own, hown, h⟩ := bind_eq_ok.mp h
  obtain ⟨all, hall, h⟩ := bind_eq_ok.mp h
  obtain rfl : lookup? "allOf" members = all := Except.ok.inj hall
  dsimp only at h
  -- what is no list has no parts, or parts that are texts and add nothing
  have hlisted : ∃ items : List Json, parts members = items.filterMap objectMembers? ∧
      items.foldlM Body.addPart ⟨[], own⟩ = .ok declared := by
    unfold parts
    split at h
    · rename_i hnone
      rw [hnone]
      exact ⟨[], rfl, h⟩
    · rename_i listed hsome
      rw [hsome]
      obtain ⟨items, hitems, hfold⟩ := bind_eq_ok.mp h
      refine ⟨items, ?_, hfold⟩
      cases listed with
      | array items' => rw [Except.ok.inj hitems]
      | object inner =>
        rw [← Except.ok.inj hitems]
        simp [List.filterMap_map, Function.comp_def, objectMembers?]
      | string text =>
        rw [← Except.ok.inj hitems]
        simp [List.filterMap_map, Function.comp_def, objectMembers?]
      | null | bool _ | int _ | double _ => cases hitems
  obtain ⟨items, hparts, h⟩ := hlisted
  obtain ⟨parents, groups, hparents, hgroups, hdeclared, hdeclared'⟩ := foldlM_addPart h
  rw [← hparts] at hparents hgroups
  refine ⟨?_, own :: groups, .cons hown hgroups, hdeclared'⟩
  rw [hdeclared]
  exact hparents

/-! ## What a level says -/

theorem mem_requiredNames {level : List (String × Json)} {required : List String}
    (h : Schema.requiredNames (lookup? "required" level) = .ok required) {name : String} :
    name ∈ required ↔ IsRequired level name := by
  unfold IsRequired
  -- a level that lists none requires none
  cases hlisted : lookup? "required" level with
  | none =>
    rw [hlisted] at h
    obtain rfl := Except.ok.inj h
    simp
  | some listed =>
    rw [hlisted] at h
    obtain ⟨values, hvalues, h⟩ := bind_eq_ok.mp h
    dsimp only at h
    split at h
    · rw [← pure_eq_ok.mp h, Schema.mem_texts_iff]
      constructor
      · exact fun hmem => ⟨listed, values, rfl, hvalues, hmem⟩
      · rintro ⟨listed', values', hlisted', hvalues', hmem⟩
        obtain rfl := Option.some.inj hlisted'
        rwa [Except.ok.inj (hvalues.symm.trans hvalues')]
    · cases h

/-- The names that a level declares are those of the properties that are gone through. -/
theorem propertyNames_eq {level properties : List (String × Json)}
    (h : (((lookup? "properties" level).getD .null).orElse (.object [])).members =
      .ok properties) :
    propertyNames level = Json.names properties := by
  unfold propertyNames
  cases hgiven : lookup? "properties" level with
  | none =>
    rw [hgiven] at h
    rw [← Except.ok.inj h]
    rfl
  | some given =>
    rw [hgiven, Option.getD_some, Json.orElse] at h
    -- what is blank has no properties; anything else must be an object
    split at h
    · rename_i hblank
      rw [← Except.ok.inj h]
      cases given with
      | object inner => rw [List.isEmpty_iff.mp hblank]
      | null | bool _ | int _ | double _ | string _ | array _ => rfl
    · cases given with
      | object inner => rw [Except.ok.inj h]
      | null | bool _ | int _ | double _ | string _ | array _ => cases h

/-- A level adds a member for each name that it declares, marked as the level says. -/
theorem entriesOf_eq_ok {level : List (String × Json)} {entries : List Entry}
    (h : entriesOf (.object level) = .ok entries) :
    entries.map (·.member.name) = propertyNames level ∧
      ∀ entry ∈ entries, entry.member.optional = false ↔ IsRequired level entry.member.name := by
  rw [entriesOf_eq] at h
  obtain ⟨required, hrequired, h⟩ := bind_eq_ok.mp h
  obtain ⟨properties, hproperties, h⟩ := bind_eq_ok.mp h
  refine ⟨(names_of_mapM_entryOf h).trans (propertyNames_eq hproperties).symm,
    fun entry hmem => ?_⟩
  obtain ⟨property, -, hmade⟩ := exists_of_forall₂_right (mapM_eq_ok.mp h) hmem
  obtain ⟨hname, hoptional⟩ := member_of_entryOf hmade
  rw [hoptional, hname, Bool.not_eq_false', List.contains_iff_mem, mem_requiredNames hrequired]

/-! ## What an interface should say -/

/-- There is one member for each name that is declared at any depth. -/
def DeclaresEachOnce (members : List (String × Json)) (declared : Body) : Prop :=
  (declared.entries.map (·.member.name)).Nodup ∧ ∀ name,
    name ∈ declared.entries.map (·.member.name) ↔
      ∃ level ∈ levels members, name ∈ propertyNames level

/-- There is one parent for each reference at any depth. -/
def ExtendsEach (members : List (String × Json)) (declared : Body) : Prop :=
  List.Forall₂ (fun reference parent => Schema.reference reference = .ok parent)
    (references members) declared.parents

/-- The members that must be given are those that are required at any depth. -/
def MarksRequired (members : List (String × Json)) (declared : Body) : Prop :=
  ∀ entry ∈ declared.entries,
    entry.member.optional = false ↔ ∃ level ∈ levels members, IsRequired level entry.member.name

/-- An interface, and under which conditions it says what the schema says with all its parts. -/
structure SaysOfParts (members : List (String × Json)) (declared : Body) : Prop where
  made : MadeOf members declared
  /-- No name is declared in two of the levels listed, and the deeper ones declare no other. -/
  once_iff : DeclaresEachOnce members declared ↔
    ((nearLevels members).flatMap propertyNames).Nodup ∧
      ∀ level ∈ levels members, ∀ name ∈ propertyNames level,
        ∃ near ∈ nearLevels members, name ∈ propertyNames near
  /-- The parts in place have no references among their own parts. -/
  extends_iff : ExtendsEach members declared ↔
    ∀ part ∈ (parts members).filter isInline, references part = []
  /-- A name that is required anywhere is required wherever it is declared. -/
  marks_iff : MarksRequired members declared ↔
    ∀ near ∈ nearLevels members, ∀ name ∈ propertyNames near,
      (∃ level ∈ levels members, IsRequired level name) → IsRequired near name

section

variable {members : List (String × Json)} {declared : Body}

/-- A schema has the references that it lists, and those of the parts in place. -/
theorem length_references : (references members).length =
    (nearReferences members).length +
    (((parts members).filter isInline).flatMap references).length := by
  rw [references_eq, nearReferences]
  induction parts members with
  | nil => rfl
  | cons part rest ih =>
    rw [List.flatMap_cons, List.length_append, ih]
    -- a part is referred to at its own level, or goes on to levels below
    cases hreference : lookup? "$ref" part with
    | none =>
      rw [List.filterMap_cons_none hreference,
        List.filter_cons_of_pos (isInline_iff.mpr hreference),
        List.flatMap_cons, List.length_append]
      dsimp only
      omega
    | some reference =>
      rw [List.filterMap_cons_some hreference,
        List.filter_cons_of_neg (by simp [isInline, hreference])]
      simp only [List.length_cons, List.length_nil]
      omega

/-- Without references in the parts in place, those listed are all. -/
theorem references_eq_nearReferences (h : ∀ part ∈ (parts members).filter isInline,
      references part = []) :
    references members = nearReferences members := by
  rw [references_eq, nearReferences, List.filterMap_eq_flatMap_toList]
  refine List.flatMap_congr fun part hpart => ?_
  cases hreference : lookup? "$ref" part with
  | none => exact h part (List.mem_filter.mpr ⟨hpart, isInline_iff.mpr hreference⟩)
  | some reference => rfl

namespace MadeOf

/-- The members have the names of the levels listed, one level behind the other. -/
theorem names_eq (h : MadeOf members declared) :
    declared.entries.map (·.member.name) = (nearLevels members).flatMap propertyNames := by
  obtain ⟨groups, hgroups, hentries⟩ := h.entries
  rw [hentries, List.map_flatten, List.flatMap_def]
  refine congrArg List.flatten (map_eq_of_forall₂ (fun level group hgroup => ?_) hgroups)
  exact (entriesOf_eq_ok hgroup).1

/-- A member is marked as the level says that declares it. -/
theorem exists_level (h : MadeOf members declared) {entry : Entry}
    (hentry : entry ∈ declared.entries) :
    ∃ near ∈ nearLevels members, entry.member.name ∈ propertyNames near ∧
      (entry.member.optional = false ↔ IsRequired near entry.member.name) := by
  obtain ⟨groups, hgroups, hentries⟩ := h.entries
  rw [hentries] at hentry
  obtain ⟨group, hgroup, hmem⟩ := List.mem_flatten.mp hentry
  obtain ⟨near, hnear, hmade⟩ := exists_of_forall₂_right hgroups hgroup
  obtain ⟨hnames, hmarks⟩ := entriesOf_eq_ok hmade
  exact ⟨near, hnear, hnames ▸ List.mem_map_of_mem hmem, hmarks entry hmem⟩

/-- What a level declares is a member that is marked as the level says. -/
theorem exists_entry (h : MadeOf members declared) {near : List (String × Json)}
    (hnear : near ∈ nearLevels members) {name : String} (hname : name ∈ propertyNames near) :
    ∃ entry ∈ declared.entries, entry.member.name = name ∧
      (entry.member.optional = false ↔ IsRequired near name) := by
  obtain ⟨groups, hgroups, hentries⟩ := h.entries
  obtain ⟨group, hgroup, hmade⟩ := exists_of_forall₂_right hgroups.flip hnear
  obtain ⟨hnames, hmarks⟩ := entriesOf_eq_ok hmade
  obtain ⟨entry, hentry, rfl⟩ := List.mem_map.mp (hnames ▸ hname)
  exact ⟨entry, hentries ▸ List.mem_flatten.mpr ⟨group, hgroup, hentry⟩, rfl, hmarks entry hentry⟩

theorem declaresEachOnce_iff (h : MadeOf members declared) : DeclaresEachOnce members declared ↔
    ((nearLevels members).flatMap propertyNames).Nodup ∧
      ∀ level ∈ levels members, ∀ name ∈ propertyNames level,
        ∃ near ∈ nearLevels members, name ∈ propertyNames near := by
  unfold DeclaresEachOnce
  rw [h.names_eq]
  refine and_congr_right fun _ => ?_
  simp only [List.mem_flatMap]
  constructor
  · exact fun heach level hlevel name hname => (heach name).mpr ⟨level, hlevel, hname⟩
  · refine fun hnear name => ⟨?_, ?_⟩
    · exact fun ⟨near, hmem, hname⟩ => ⟨near, mem_levels_of_mem_nearLevels hmem, hname⟩
    · exact fun ⟨level, hlevel, hname⟩ => hnear level hlevel name hname

theorem extendsEach_iff (h : MadeOf members declared) : ExtendsEach members declared ↔
    ∀ part ∈ (parts members).filter isInline, references part = [] := by
  constructor
  · intro heach
    -- there are as many references as parents, and those that are listed are as many already
    have hlength := heach.length_eq.trans h.parents.length_eq.symm
    rw [length_references, Nat.add_eq_left, List.length_eq_zero_iff] at hlength
    exact List.flatMap_eq_nil_iff.mp hlength
  · intro hnone
    unfold ExtendsEach
    rw [references_eq_nearReferences hnone]
    exact h.parents

theorem marksRequired_iff (h : MadeOf members declared) : MarksRequired members declared ↔
    ∀ near ∈ nearLevels members, ∀ name ∈ propertyNames near,
      (∃ level ∈ levels members, IsRequired level name) → IsRequired near name := by
  constructor
  · intro hmarks near hnear name hname hrequired
    obtain ⟨entry, hentry, rfl, hmark⟩ := h.exists_entry hnear hname
    exact hmark.mp ((hmarks entry hentry).mpr hrequired)
  · intro hrequired entry hentry
    obtain ⟨near, hnear, hname, hmark⟩ := h.exists_level hentry
    rw [hmark]
    exact ⟨fun hown => ⟨near, mem_levels_of_mem_nearLevels hnear, hown⟩,
      hrequired near hnear _ hname⟩

end MadeOf

/-- **An interface says what a schema says with all its parts** just when no name is declared
twice, or is required elsewhere only, and the parts of parts add nothing. -/
theorem saysOfParts_of_declaration (hinterface : IsInterfaceLike members) {name text : String}
    (h : declaration name (.object members) = .ok text) :
    ∃ declared, body (.object members) = .ok declared ∧
      text = describe (.object members) ++ declared.declaration name ∧
      SaysOfParts members declared := by
  rw [declaration_eq hinterface] at h
  obtain ⟨declared, hdeclared, rfl⟩ := map_eq_ok.mp h
  have hmade := madeOf_of_body hdeclared
  exact ⟨declared, hdeclared, rfl, hmade, hmade.declaresEachOnce_iff, hmade.extendsEach_iff,
    hmade.marksRequired_iff⟩

end

/-- A schema that declares one name. -/
def barking : List (String × Json) :=
  [("properties", .object [("bark", .object [("type", .string "boolean")])])]

/-- A schema with `barking` as a part of its only part. -/
def dog : List (String × Json) :=
  [("allOf", .array [.object [("allOf", .array [.object barking])]])]

/-- The interface of `dog` has no member, although a part of a part declares one. -/
theorem not_declaresEachOnce_dog :
    declaration "Dog" (.object dog) = .ok "export interface Dog \x7b\x7d" ∧
      ∃ declared, body (.object dog) = .ok declared ∧ ¬ DeclaresEachOnce dog declared := by
  have hinterface : IsInterfaceLike dog := ⟨rfl, fun _ h => (nomatch h), .inl rfl⟩
  have hbody : body (.object dog) = .ok ⟨[], []⟩ := rfl
  have htext : declaration "Dog" (.object dog) = .ok "export interface Dog \x7b\x7d" := by
    rw [declaration_eq hinterface, hbody]
    exact congrArg Except.ok (by decide +kernel)
  obtain ⟨declared, hdeclared, -, hmeets⟩ := saysOfParts_of_declaration hinterface htext
  refine ⟨htext, declared, hdeclared, fun honce => ?_⟩
  -- the property stands two levels down, and none of the levels above has any
  have hdeep : barking ∈ levels dog := by
    refine List.mem_cons_of_mem _ (List.mem_filter.mpr ⟨?_, rfl⟩)
    exact mem_allParts_iff.mpr ⟨_, List.mem_cons_self, .inr ⟨rfl,
      mem_allParts_iff.mpr ⟨_, List.mem_cons_self, .inl rfl⟩⟩⟩
  obtain ⟨near, hnear, hname⟩ :=
    (hmeets.once_iff.mp honce).2 barking hdeep "bark" List.mem_cons_self
  have hnothing : ∀ near ∈ nearLevels dog, propertyNames near = [] := by
    intro near hnear
    rcases List.mem_cons.mp hnear with rfl | hpart
    · rfl
    · obtain rfl := List.mem_singleton.mp hpart
      rfl
  rw [hnothing near hnear] at hname
  cases hname

end ApiClient.Definition
