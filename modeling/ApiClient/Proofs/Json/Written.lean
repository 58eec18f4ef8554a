import ApiClient.Proofs.Json.Plain
import ApiClient.Proofs.Json.Spelling

/-!
# JSON as it is written

A text can be edited without being read, and then it matters how it was written: where the
blanks stand, and how the texts in it are spelled. `Written` is a value together with that. Its
parts carry what makes them readable, so there is no written value that is not JSON.
-/

namespace ApiClient.Json

/-- Blanks between the parts of a text. -/
structure Blanks where
  chars : List Char
  blank : ∀ c ∈ chars, isJsonBlank c = true

/-- The blanks around a value. -/
structure Padding where
  before : Blanks
  after : Blanks

/-- A word or a numeral. -/
structure Plain where
  chars : List Char
  value : Json
  reads : ∃ h, readPlain chars = .ok ⟨value, [], h⟩

/-- A value without parts. -/
inductive Token where
  | plain (word : Plain)
  | quoted (spelling : Spelling)

/-- The name of a member, up to the colon. -/
structure Name where
  before : Blanks
  spelling : Spelling
  after : Blanks

/-- A value as it is written. The blanks after an opening bracket stand apart from those before the
first part, which need not be there. -/
inductive Written where
  | scalar (padding : Padding) (token : Token)
  | array (padding : Padding) (inner : Blanks) (items : List Written)
  | object (padding : Padding) (inner : Blanks) (members : List (Name × Written))

/-- No blanks. -/
def Blanks.none : Blanks where
  chars := []
  blank := by simp

/-- No blanks on either side. -/
def Padding.none : Padding := ⟨.none, .none⟩

/-- A word or a numeral is made of letters, digits, signs and points. -/
theorem Plain.isPlain (word : Plain) : ∀ c ∈ word.chars, isPlain c = true := by
  obtain ⟨h, hread⟩ := word.reads
  obtain ⟨chars, hchars, hplain⟩ := leaves_of_readPlain hread
  rw [hchars, List.append_nil]
  exact hplain

/-- Whether a value has no parts. -/
def isScalar : Json → Bool
  | .array _ | .object _ => false
  | _ => true

/-- Whether a value has no parts and is no text. -/
def isAtom : Json → Bool
  | .array _ | .object _ | .string _ => false
  | _ => true

theorem isScalar_of_isAtom {value : Json} (h : isAtom value = true) : isScalar value = true := by
  cases value with
  | array => cases h
  | object => cases h
  | _ => rfl

theorem Numeral.isAtom_value (numeral : Numeral) : isAtom numeral.value = true := by
  unfold Numeral.value
  split <;> rfl

/-- A plain value is that of a word, or that of a numeral of no more digits than are read. -/
theorem Plain.value_cases (word : Plain) : (∃ entry ∈ wordValues, word.value = entry.2) ∨
    ∃ numeral rest, readNumeral? word.chars = some (numeral, rest) ∧ numeral.isTooLong = false ∧
      word.value = numeral.value := by
  obtain ⟨h, hread⟩ := word.reads
  -- words are tried first, and a numeral only where none stands
  unfold readPlain at hread
  split at hread
  · rename_i value rest hword
    obtain ⟨entry, hmem, hentry⟩ := List.exists_of_findSome?_eq_some hword
    obtain ⟨after, -, he⟩ := Option.map_eq_some_iff.mp hentry
    obtain ⟨hvalue, -⟩ := Prod.mk.inj he
    have hresult : value = word.value := congrArg Reading.value (Except.ok.inj hread)
    exact .inl ⟨entry, hmem, hresult.symm.trans hvalue.symm⟩
  · split at hread
    · rename_i numeral rest hnumeral
      split at hread
      · cases hread
      · rename_i hshort
        have hresult : numeral.value = word.value := congrArg Reading.value (Except.ok.inj hread)
        exact .inr ⟨numeral, rest, hnumeral, eq_false_of_ne_true hshort, hresult.symm⟩
    · cases hread

/-- A word or a numeral is no text and has no parts. -/
theorem Plain.isAtom_value (word : Plain) : isAtom word.value = true := by
  obtain ⟨entry, hmem, hvalue⟩ | ⟨numeral, _, -, -, hvalue⟩ := word.value_cases
  · have hatom : ∀ entry ∈ wordValues, isAtom entry.2 = true := by decide
    exact hvalue ▸ hatom entry hmem
  · exact hvalue ▸ numeral.isAtom_value

namespace Token

/-- The text of a token. -/
def text : Token → List Char
  | plain word => word.chars
  | quoted spelling => spelling.quoted

/-- The value of a token. -/
def value : Token → Json
  | plain word => word.value
  | quoted spelling => .string spelling.text

theorem isScalar_value (token : Token) : isScalar token.value = true := by
  cases token with
  | plain word => exact isScalar_of_isAtom word.isAtom_value
  | quoted spelling => rfl

end Token

/-- The text of a name, without the colon. -/
def Name.text (name : Name) : List Char :=
  name.before.chars ++ name.spelling.quoted ++ name.after.chars

namespace Written

/-- Texts with commas between them. -/
def joined : List (List Char) → List Char
  | [] => []
  | first :: rest => first ++ rest.flatMap (',' :: ·)

theorem joined_nil : joined [] = [] := rfl

theorem joined_cons_cons (first second : List Char) (rest : List (List Char)) :
    joined (first :: second :: rest) = first ++ ',' :: joined (second :: rest) := by
  simp [joined]

/-- The blanks around a value. -/
def padding : Written → Padding
  | scalar padding _ | array padding _ _ | object padding _ _ => padding

mutual

/-- The text of a value, without the blanks around it. -/
def core : Written → List Char
  | scalar _ token => token.text
  | array _ inner items => '[' :: inner.chars ++ joined (itemTexts items) ++ [']']
  | object _ inner members => '\x7b' :: inner.chars ++ joined (memberTexts members) ++ ['\x7d']
termination_by structural written => written

/-- The texts of some items. -/
def itemTexts : List Written → List (List Char)
  | [] => []
  | item :: rest =>
    (item.padding.before.chars ++ core item ++ item.padding.after.chars) :: itemTexts rest
termination_by structural items => items

/-- The texts of some members. -/
def memberTexts : List (Name × Written) → List (List Char)
  | [] => []
  | member :: rest => memberText member :: memberTexts rest
termination_by structural members => members

/-- The text of a member. -/
def memberText : Name × Written → List Char
  | (name, value) =>
    name.text ++ ':' :: (value.padding.before.chars ++ core value ++ value.padding.after.chars)
termination_by structural member => member

end

/-- The text of a value. -/
def text (written : Written) : List Char :=
  written.padding.before.chars ++ written.core ++ written.padding.after.chars

theorem memberText_eq (name : Name) (value : Written) :
    memberText (name, value) = name.text ++ ':' :: value.text := rfl

theorem itemTexts_eq (items : List Written) : itemTexts items = items.map text := by
  induction items with
  | nil => rfl
  | cons item rest ih => rw [itemTexts, ih]; rfl

theorem memberTexts_eq (members : List (Name × Written)) :
    memberTexts members = members.map memberText := by
  induction members with
  | nil => rfl
  | cons member rest ih => rw [memberTexts, ih]; rfl

theorem core_array (padding : Padding) (inner : Blanks) (items : List Written) :
    core (array padding inner items) = '[' :: inner.chars ++ joined (items.map text) ++ [']'] := by
  rw [core, itemTexts_eq]

theorem core_object (padding : Padding) (inner : Blanks) (members : List (Name × Written)) :
    core (object padding inner members) =
      '\x7b' :: inner.chars ++ joined (members.map memberText) ++ ['\x7d'] := by
  rw [core, memberTexts_eq]

theorem text_array (padding : Padding) (inner : Blanks) (items : List Written) :
    text (array padding inner items) = padding.before.chars ++
      ('[' :: inner.chars ++ joined (items.map text) ++ [']']) ++ padding.after.chars := by
  rw [text, core_array]
  rfl

theorem text_object (padding : Padding) (inner : Blanks) (members : List (Name × Written)) :
    text (object padding inner members) = padding.before.chars ++
      ('\x7b' :: inner.chars ++ joined (members.map memberText) ++ ['\x7d']) ++
        padding.after.chars := by
  rw [text, core_object]
  rfl

mutual

/-- The value that is written. A name that stands twice has the later
value in the earlier place. -/
def value : Written → Json
  | scalar _ token => token.value
  | array _ _ items => .array (itemValues items)
  | object _ _ members =>
    .object ((memberValues members).foldl (fun done entry => put entry.1 entry.2 done) [])
termination_by structural written => written

/-- The values of some items. -/
def itemValues : List Written → List Json
  | [] => []
  | item :: rest => value item :: itemValues rest
termination_by structural items => items

/-- The names and values of some members, as they stand. -/
def memberValues : List (Name × Written) → List (String × Json)
  | [] => []
  | member :: rest => memberValue member :: memberValues rest
termination_by structural members => members

/-- The name and the value of a member. -/
def memberValue : Name × Written → String × Json
  | (name, written) => (name.spelling.text, value written)
termination_by structural member => member

end

theorem itemValues_eq (items : List Written) : itemValues items = items.map value := by
  induction items with
  | nil => rfl
  | cons item rest ih => rw [itemValues, ih]; rfl

theorem memberValues_eq (members : List (Name × Written)) :
    memberValues members = members.map memberValue := by
  induction members with
  | nil => rfl
  | cons member rest ih => rw [memberValues, ih]; rfl

theorem value_array (padding : Padding) (inner : Blanks) (items : List Written) :
    value (array padding inner items) = .array (items.map value) := by
  rw [value, itemValues_eq]

/-- What holds of a written value if it holds of the values inside it holds of every one. -/
@[elab_as_elim, induction_eliminator]
theorem induction {motive : Written → Prop}
    (scalar : ∀ padding token, motive (scalar padding token))
    (array : ∀ padding inner items, (∀ item ∈ items, motive item) →
      motive (array padding inner items))
    (object : ∀ padding inner members, (∀ member ∈ members, motive member.2) →
      motive (object padding inner members)) (written : Written) : motive written :=
  @Written.rec motive (fun items => ∀ item ∈ items, motive item)
    (fun members => ∀ member ∈ members, motive member.2) (fun member => motive member.2)
    scalar array object
    (fun _ h => absurd h List.not_mem_nil)
    (fun _ _ hitem hrest other h => by
      rcases List.mem_cons.mp h with rfl | h
      · exact hitem
      · exact hrest other h)
    (fun _ h => absurd h List.not_mem_nil)
    (fun _ _ hmember hrest other h => by
      rcases List.mem_cons.mp h with rfl | h
      · exact hmember
      · exact hrest other h)
    (fun _ _ h => h) written

/-- The members of every object in a written value have the property `P`. -/
inductive Every (P : List (Name × Written) → Prop) : Written → Prop
  | scalar {padding : Padding} {token : Token} : Every P (scalar padding token)
  | array {padding : Padding} {inner : Blanks} {items : List Written} :
      (∀ item ∈ items, Every P item) → Every P (array padding inner items)
  | object {padding : Padding} {inner : Blanks} {members : List (Name × Written)} :
      P members → (∀ member ∈ members, Every P member.2) → Every P (object padding inner members)

namespace Every

variable {P Q : List (Name × Written) → Prop} {padding : Padding} {inner : Blanks}

theorem items {items : List Written} (h : Every P (.array padding inner items)) :
    ∀ item ∈ items, Every P item := by
  cases h with
  | array h => exact h

theorem here {members : List (Name × Written)} (h : Every P (.object padding inner members)) :
    P members := by
  cases h with
  | object h _ => exact h

theorem inside {members : List (Name × Written)} (h : Every P (.object padding inner members)) :
    ∀ member ∈ members, Every P member.2 := by
  cases h with
  | object _ h => exact h

theorem mono (hPQ : ∀ members, P members → Q members) {written : Written}
    (h : Every P written) : Every Q written := by
  induction h with
  | scalar => exact .scalar
  | array _ ih => exact .array ih
  | object hP _ ih => exact .object (hPQ _ hP) ih

theorem and {written : Written} (hP : Every P written) (hQ : Every Q written) :
    Every (fun members => P members ∧ Q members) written := by
  induction hP with
  | scalar => exact .scalar
  | array _ ih => exact .array fun item hitem => ih item hitem (hQ.items item hitem)
  | object hP _ ih =>
    exact .object ⟨hP, hQ.here⟩ fun member hmember => ih member hmember (hQ.inside member hmember)

end Every

section

variable {P : List (Name × Written) → Prop} [DecidablePred P]

mutual

/-- A property that can be decided for one list of members can be decided for all in a value. -/
def decideEvery : (written : Written) → Decidable (Every P written)
  | scalar _ _ => .isTrue .scalar
  | array _ _ items =>
    match decideItems items with
    | .isTrue h => .isTrue (.array h)
    | .isFalse h => .isFalse fun hevery => h hevery.items
  | object _ _ members =>
    match ‹DecidablePred P› members, decideMembers members with
    | .isTrue hhere, .isTrue hinside => .isTrue (.object hhere hinside)
    | .isFalse h, _ => .isFalse fun hevery => h hevery.here
    | _, .isFalse h => .isFalse fun hevery => h hevery.inside
termination_by structural written => written

def decideItems : (items : List Written) → Decidable (∀ item ∈ items, Every P item)
  | [] => .isTrue fun _ h => absurd h List.not_mem_nil
  | item :: rest =>
    match decideEvery item, decideItems rest with
    | .isTrue hitem, .isTrue hrest => .isTrue (List.forall_mem_cons.mpr ⟨hitem, hrest⟩)
    | .isFalse h, _ => .isFalse fun hall => h (List.forall_mem_cons.mp hall).1
    | _, .isFalse h => .isFalse fun hall => h (List.forall_mem_cons.mp hall).2
termination_by structural items => items

def decideMembers :
    (members : List (Name × Written)) → Decidable (∀ member ∈ members, Every P member.2)
  | [] => .isTrue fun _ h => absurd h List.not_mem_nil
  | member :: rest =>
    match decideMember member, decideMembers rest with
    | .isTrue hmember, .isTrue hrest => .isTrue (List.forall_mem_cons.mpr ⟨hmember, hrest⟩)
    | .isFalse h, _ => .isFalse fun hall => h (List.forall_mem_cons.mp hall).1
    | _, .isFalse h => .isFalse fun hall => h (List.forall_mem_cons.mp hall).2
termination_by structural members => members

def decideMember : (member : Name × Written) → Decidable (Every P member.2)
  | (_, written) => decideEvery written
termination_by structural member => member

end

instance (written : Written) : Decidable (Every P written) := decideEvery written

end

end Written

end ApiClient.Json
