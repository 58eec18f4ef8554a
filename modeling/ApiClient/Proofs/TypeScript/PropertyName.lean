import ApiClient.Definition.Basic
import ApiClient.Method.Request
import ApiClient.Parameter.Interface
import ApiClient.Proofs.TypeScript.Pieces
import ApiClient.Proofs.TypeScript.Quoted
import ApiClient.Url

/-!
# Names of properties

A property is named by a key where it is declared or filled in, and by an access where it is
read. Both write the name bare or in single quotes, by the same rule, so they are always read
alike. But neither escapes anything: between quotes a name is read as itself just if it has no
quote, no backslash and no line break, and bare just if every word character of it may stand in
a name and no line feed ends it.
-/

namespace ApiClient.TypeScript

open Json (skipBlanks isJsonBlank)

/-! ## Reading -/

/-- Inclusive ranges of the word characters that cannot stand in a name: numbers that are
neither decimal digits nor letters, and one letter that is kept for patterns. -/
def strayRanges : List (Nat × Nat) := [
  (0xB2, 0xB3), (0xB9, 0xB9), (0xBC, 0xBE), (0x9F4, 0x9F9), (0xB72, 0xB77), (0xBF0, 0xBF2),
  (0xC78, 0xC7E), (0xD58, 0xD5E), (0xD70, 0xD78), (0xF2A, 0xF33), (0x1372, 0x137C),
  (0x17F0, 0x17F9), (0x2070, 0x2070), (0x2074, 0x2079), (0x2080, 0x2089), (0x2150, 0x215F),
  (0x2189, 0x2189), (0x2460, 0x249B), (0x24EA, 0x24FF), (0x2776, 0x2793), (0x2CFD, 0x2CFD),
  (0x2E2F, 0x2E2F), (0x3192, 0x3195), (0x3220, 0x3229), (0x3248, 0x324F), (0x3251, 0x325F),
  (0x3280, 0x3289), (0x32B1, 0x32BF), (0xA830, 0xA835), (0x10107, 0x10133), (0x10175, 0x10178),
  (0x1018A, 0x1018B), (0x102E1, 0x102FB), (0x10320, 0x10323), (0x10858, 0x1085F),
  (0x10879, 0x1087F), (0x108A7, 0x108AF), (0x108FB, 0x108FF), (0x10916, 0x1091B),
  (0x109BC, 0x109BD), (0x109C0, 0x109CF), (0x109D2, 0x109FF), (0x10A40, 0x10A48),
  (0x10A7D, 0x10A7E), (0x10A9D, 0x10A9F), (0x10AEB, 0x10AEF), (0x10B58, 0x10B5F),
  (0x10B78, 0x10B7F), (0x10BA9, 0x10BAF), (0x10CFA, 0x10CFF), (0x10E60, 0x10E7E),
  (0x10F1D, 0x10F26), (0x10F51, 0x10F54), (0x10FC5, 0x10FCB), (0x11052, 0x11065),
  (0x111E1, 0x111F4), (0x1173A, 0x1173B), (0x118EA, 0x118F2), (0x11C5A, 0x11C6C),
  (0x11FC0, 0x11FD4), (0x16B5B, 0x16B61), (0x16E80, 0x16E96), (0x1D2E0, 0x1D2F3),
  (0x1D360, 0x1D378), (0x1E8C7, 0x1E8CF), (0x1EC71, 0x1ECAB), (0x1ECAD, 0x1ECAF),
  (0x1ECB1, 0x1ECB4), (0x1ED01, 0x1ED2D), (0x1ED2F, 0x1ED3D), (0x1F100, 0x1F10C)]

/-- A character that may stand in a name. The marks that combine with letters are left
out, since none is printed bare. -/
def isNamePart (c : Char) : Bool :=
  isIdentifierPart c && !strayRanges.any fun range => range.1 ≤ c.toNat && c.toNat ≤ range.2

/-- A character that may begin a name. -/
def isNameStart (c : Char) : Bool :=
  isIdentifierStart c || (0x80 ≤ c.toNat && isNamePart c && !Text.isDigit c)

/-- Reads a bare name, as far as it goes. -/
def readName : List Char → Option (List Nat × List Char)
  | [] => none
  | c :: rest =>
    if isNameStart c then
      some (units (c :: rest.takeWhile isNamePart), skipBlanks (rest.dropWhile isNamePart))
    else none

/-- Reads a name in single quotes. -/
def readQuotedName : List Char → Option (List Nat × List Char)
  | [] => none
  | c :: rest =>
    if c = '\'' then (readQuoted rest).map fun (name, after) => (name, skipBlanks after) else none

/-- Reads the key of a property, bare or in single quotes, and the blanks behind it. -/
def readKey (text : List Char) : Option (List Nat × List Char) :=
  if text.head? = some '\'' then readQuotedName text else readName text

/-- Reads the access to a property from behind its owner: a point and a bare name, or a name in
single quotes between brackets. -/
def readAccess : List Char → Option (List Nat × List Char)
  | [] => none
  | c :: rest =>
    if c = '.' then readName (skipBlanks rest)
    else if c = '[' then
      (readQuotedName (skipBlanks rest)).bind fun (name, after) =>
        if after.head? = some ']' then some (name, skipBlanks after.tail) else none
    else none

/-- The property that a whole text is a key of. -/
def IsKey (text : String) (property : List Nat) : Prop := readKey text.toList = some (property, [])

/-- The property that a whole text accesses of an owner. -/
def IsAccess (owner text : String) (property : List Nat) : Prop :=
  ∃ access, text = owner ++ access ∧ readAccess access.toList = some (property, [])

/-- The key at the front of a text is a name, and another text is behind it. -/
def BeginsWithKey (text name after : String) : Prop :=
  readKey text.toList = some (units name.toList, after.toList)

/-- The access at the front of a text is to a name, and another text is behind it. -/
def BeginsWithAccess (text name after : String) : Prop :=
  readAccess text.toList = some (units name.toList, after.toList)

theorem length_of_readName {text after : List Char} {name : List Nat}
    (h : readName text = some (name, after)) : after.length ≤ text.length := by
  cases text with
  | nil => cases h
  | cons c rest =>
    rw [readName] at h
    split at h
    · obtain ⟨-, rfl⟩ := Prod.mk.inj (Option.some.inj h)
      have hskip := Json.length_skipBlanks_le (rest.dropWhile isNamePart)
      have hdrop := (List.dropWhile_suffix (l := rest) isNamePart).length_le
      rw [List.length_cons]
      omega
    · cases h

theorem length_of_readQuotedName {text after : List Char} {name : List Nat}
    (h : readQuotedName text = some (name, after)) : after.length ≤ text.length := by
  cases text with
  | nil => cases h
  | cons c text =>
    rw [readQuotedName] at h
    split at h
    · obtain ⟨⟨value, rest⟩, hread, he⟩ := Option.map_eq_some_iff.mp h
      obtain ⟨rfl, rfl⟩ := Prod.mk.inj he
      obtain ⟨body, rfl, -⟩ := readQuoted_eq_some.mp hread
      have hskip := Json.length_skipBlanks_le rest
      simp only [List.length_cons, List.length_append]
      omega
    · cases h

theorem length_of_readKey {text after : List Char} {name : List Nat}
    (h : readKey text = some (name, after)) : after.length ≤ text.length := by
  unfold readKey at h
  split at h
  · exact length_of_readQuotedName h
  · exact length_of_readName h

/-! ## Bare names -/

section

variable {name : String} {rest : List Char}

theorem lt_of_isIdentifierStart {c : Char} (h : isIdentifierStart c = true) : c.toNat < 0x80 := by
  unfold isIdentifierStart Char.isAlpha Char.isUpper Char.isLower at h
  simp only [Bool.or_eq_true, Bool.and_eq_true, decide_eq_true_eq, beq_iff_eq, ge_iff_le,
    UInt32.le_iff_toNat_le] at h
  rcases h with ((⟨-, h⟩ | ⟨-, h⟩) | rfl) | rfl
  · exact Nat.lt_of_le_of_lt h (by decide)
  · exact Nat.lt_of_le_of_lt h (by decide)
  · decide
  · decide

/-- In ASCII every character that may continue an identifier may stand in a name. -/
theorem isNamePart_of_lt {c : Char} (hpart : isIdentifierPart c = true) (hcode : c.toNat < 0x80) :
    isNamePart c = true := by
  have hranges : ∀ range ∈ strayRanges, 0x80 ≤ range.1 := by decide
  rw [isNamePart, hpart, Bool.true_and, Bool.not_eq_true', List.any_eq_false]
  intro range hrange
  have hlow := hranges range hrange
  simp only [Bool.and_eq_true, decide_eq_true_eq, not_and]
  omega

theorem isNamePart_of_isIdentifierStart {c : Char} (h : isIdentifierStart c = true) :
    isNamePart c = true := by
  refine isNamePart_of_lt ?_ (lt_of_isIdentifierStart h)
  simp only [isIdentifierStart, Bool.or_eq_true] at h
  rcases h with (h | h) | h <;> simp [isIdentifierPart, Text.isWordCharacter, Char.isAlphanum, h]

/-- A text behind which a name ends, and which has no blanks in front. -/
def Behind (rest : List Char) : Prop :=
  ∀ c, rest.head? = some c → isNamePart c = false ∧ isJsonBlank c = false

theorem behind_nil : Behind [] := fun _ h => by cases h

theorem behind_cons {c : Char} (h : isNamePart c = false ∧ isJsonBlank c = false)
    (rest : List Char) : Behind (c :: rest) := by
  intro d hd
  obtain rfl := Option.some.inj hd
  exact h

theorem Behind.skipBlanks_eq (h : Behind rest) : skipBlanks rest = rest :=
  Json.skipBlanks_unpadded fun c hc => (h c hc).2

/-- A name that is printed bare begins as one that is read. -/
theorem exists_cons_of_isPropertyName (h : isPropertyName name = true) :
    ∃ c chars, name.toList = c :: chars ∧ isIdentifierStart c = true := by
  rw [isPropertyName] at h
  cases hname : name.toList with
  | nil =>
    rw [hname] at h
    cases h
  | cons c chars =>
    rw [hname, isIdentifier, Bool.and_eq_true] at h
    exact ⟨c, chars, rfl, h.1⟩

/-- A bare name is an identifier, but for a line feed at its end. -/
theorem exists_identifier (hbare : isPropertyName name = true) :
    ∃ c chars, Text.dropFinalNewline name.toList = c :: chars ∧
      isIdentifierStart c = true ∧ ∀ d ∈ chars, isIdentifierPart d = true := by
  rw [isPropertyName] at hbare
  cases hname : name.toList with
  | nil =>
    rw [hname] at hbare
    cases hbare
  | cons c rest =>
    rw [hname, isIdentifier, Bool.and_eq_true, List.all_eq_true] at hbare
    have hnewline : c ≠ '\n' := by
      rintro rfl
      exact absurd hbare.1 (by decide)
    refine ⟨c, Text.dropFinalNewline rest, ?_, hbare.1, hbare.2⟩
    rw [Text.dropFinalNewline]
    rintro rfl
    exact absurd rfl hnewline

/-- A bare key and what stands behind the point of a bare access are read as one name. -/
theorem readKey_bare (h : isPropertyName name = true) (rest : List Char) :
    readKey (name.toList ++ rest) = readName (name.toList ++ rest) := by
  obtain ⟨c, chars, hname, hstart⟩ := exists_cons_of_isPropertyName h
  have hquote : c ≠ '\'' := by
    rintro rfl
    exact absurd hstart (by decide)
  rw [readKey, hname, List.cons_append, List.head?_cons, if_neg (by simpa using hquote)]

theorem readAccess_bare (h : isPropertyName name = true) (rest : List Char) :
    readAccess ('.' :: name.toList ++ rest) = readName (name.toList ++ rest) := by
  obtain ⟨c, chars, hname, hstart⟩ := exists_cons_of_isPropertyName h
  have hblank : isJsonBlank c = false := Json.not_isJsonBlank hstart (by decide)
  rw [List.cons_append, readAccess, if_pos rfl, hname, List.cons_append,
    Json.skipBlanks_unpadded (Json.unpadded_cons hblank)]

/-- A name without other characters than those of names is read up to its end. -/
theorem readName_append (h : isPropertyName name = true)
    (hname : ∀ c ∈ name.toList, isNamePart c = true)
    (hrest : Behind rest) : readName (name.toList ++ rest) = some (units name.toList, rest) := by
  obtain ⟨c, chars, hcons, hstart⟩ := exists_cons_of_isPropertyName h
  rw [hcons, List.forall_mem_cons] at hname
  have hend : ∀ d, rest.head? = some d → isNamePart d = false := fun d hd => (hrest d hd).1
  rw [hcons, List.cons_append, readName, if_pos (by rw [isNameStart, hstart, Bool.true_or]),
    Json.takeWhile_run hend hname.2, Json.dropWhile_run hend hname.2, hrest.skipBlanks_eq]

/-- A name that is read as itself has no other characters. -/
theorem isNamePart_of_readName (h : isPropertyName name = true) {after : List Char}
    (hread : readName name.toList = some (units name.toList, after)) :
    ∀ c ∈ name.toList, isNamePart c = true := by
  obtain ⟨c, chars, hcons, hstart⟩ := exists_cons_of_isPropertyName h
  rw [hcons, readName, if_pos (by rw [isNameStart, hstart, Bool.true_or])] at hread
  have hunits := units_injective (Prod.mk.inj (Option.some.inj hread)).1
  rw [hcons, List.forall_mem_cons]
  exact ⟨isNamePart_of_isIdentifierStart hstart,
    List.takeWhile_eq_self_iff.mp (List.cons.inj hunits).2⟩

end

/-! ## Names in quotes -/

section

variable {name : String} {value : List Nat}

theorem toList_singleQuoted (name : String) :
    (singleQuoted name).toList = '\'' :: name.toList ++ ['\''] := by
  simp [singleQuoted]

theorem readKey_quoted (name : String) (rest : List Char) :
    readKey ((singleQuoted name).toList ++ rest) =
      (readQuoted (name.toList ++ '\'' :: rest)).map fun (name, after) =>
      (name, skipBlanks after) := by
  rw [toList_singleQuoted, List.append_assoc, List.cons_append, readKey,
    List.head?_cons, if_pos rfl, readQuotedName, if_pos rfl]
  rfl

theorem readAccess_quoted (name : String) (rest : List Char) :
    readAccess ('[' :: (singleQuoted name).toList ++ ']' :: rest) =
      (readQuoted (name.toList ++ '\'' :: ']' :: rest)).bind fun (name, after) =>
        if (skipBlanks after).head? = some ']' then some (name, skipBlanks (skipBlanks after).tail)
        else none := by
  have hquote : skipBlanks ((singleQuoted name).toList ++ ']' :: rest) =
      '\'' :: (name.toList ++ '\'' :: ']' :: rest) := by
    rw [toList_singleQuoted]
    simp [skipBlanks, isJsonBlank]
  rw [List.cons_append, readAccess, if_neg (by decide), if_pos rfl, hquote,
    readQuotedName, if_pos rfl, Option.bind_map]
  rfl

/-- Nothing but blanks is no end of a text that ends with another character. -/
theorem eq_nil_of_skipBlanks_eq_nil {front after text : List Char} {c : Char}
    (hc : isJsonBlank c = false)
    (h : front ++ after = text ++ [c]) (hafter : skipBlanks after = []) : after = [] := by
  rcases List.eq_nil_or_concat' after with rfl | ⟨blanks, d, rfl⟩
  · rfl
  · rw [← List.append_assoc] at h
    have hlast : d = c := by simpa using (List.append_inj' h rfl).2
    have hblank := List.dropWhile_eq_nil_iff.mp hafter d (by simp)
    rw [hlast, hc] at hblank
    cases hblank

/-- A key in quotes is read as a whole just if all that stands between the quotes is their body. -/
theorem isKey_singleQuoted_iff : IsKey (singleQuoted name) value ↔ IsBody name.toList value := by
  have hread := readKey_quoted name []
  rw [List.append_nil] at hread
  rw [IsKey, hread, Option.map_eq_some_iff]
  constructor
  · rintro ⟨⟨_, after⟩, hquoted, he⟩
    obtain ⟨rfl, hafter⟩ := Prod.mk.inj he
    obtain ⟨body, htext, hbody⟩ := readQuoted_eq_some.mp hquoted
    have hsplit : (body ++ ['\'']) ++ after = name.toList ++ ['\''] := by simpa using htext.symm
    obtain rfl := eq_nil_of_skipBlanks_eq_nil (by decide) hsplit hafter
    rw [List.append_nil] at hsplit
    obtain rfl := (List.append_inj' hsplit rfl).1
    exact hbody
  · intro hbody
    exact ⟨_, hbody.read [], rfl⟩

/-- So is an access in brackets. -/
theorem readAccess_singleQuoted_iff :
    readAccess ('[' :: (singleQuoted name).toList ++ [']']) = some (value, []) ↔
      IsBody name.toList value := by
  rw [readAccess_quoted, Option.bind_eq_some_iff]
  constructor
  · rintro ⟨⟨_, after⟩, hquoted, h⟩
    dsimp only at h
    split at h
    · rename_i hbracket
      obtain ⟨rfl, htail⟩ := Prod.mk.inj (Option.some.inj h)
      obtain ⟨body, htext, hbody⟩ := readQuoted_eq_some.mp hquoted
      obtain ⟨tail, hskip⟩ := List.head?_eq_some_iff.mp hbracket
      rw [hskip, List.tail_cons] at htail
      obtain ⟨blanks, hblanks⟩ := Json.exists_blanks after
      rw [hskip] at hblanks
      -- nothing stands behind the bracket, and nothing between the quote and the bracket
      have hsplit : (body ++ '\'' :: blanks.chars ++ [']']) ++ tail =
          (name.toList ++ ['\'']) ++ [']'] := by
        rw [hblanks] at htext
        simpa using htext.symm
      obtain rfl := eq_nil_of_skipBlanks_eq_nil (by decide) hsplit htail
      rw [List.append_nil] at hsplit
      have hinner : (body ++ ['\'']) ++ blanks.chars = name.toList ++ ['\''] := by
        simpa using (List.append_inj' hsplit rfl).1
      have hnone : skipBlanks blanks.chars = [] := List.dropWhile_eq_nil_iff.mpr blanks.blank
      rw [eq_nil_of_skipBlanks_eq_nil (by decide) hinner hnone, List.append_nil] at hinner
      obtain rfl := (List.append_inj' hinner rfl).1
      exact hbody
    · cases h
  · intro hbody
    exact ⟨_, hbody.read [']'], rfl⟩

end

/-! ## Keys and accesses -/

/-- A name that is read as itself wherever it is printed. -/
def IsVerbatim (name : String) : Prop :=
  if isPropertyName name then ∀ c ∈ name.toList, isNamePart c = true else IsPlainKey name

section

variable {name : String}

/-- What stands behind the owner of a property does not depend on the owner. -/
theorem propertyAccess_eq (owner name : String) :
    propertyAccess owner name = owner ++ propertyAccess "" name := by
  unfold propertyAccess
  split <;> simp [String.append_assoc]

theorem isAccess_propertyAccess {owner : String} {value : List Nat} :
    IsAccess owner (propertyAccess owner name) value ↔
      readAccess (propertyAccess "" name).toList = some (value, []) := by
  rw [propertyAccess_eq]
  constructor
  · rintro ⟨access, heq, h⟩
    rw [← String.toList_inj, String.toList_append, String.toList_append, List.append_right_inj,
      String.toList_inj] at heq
    rwa [heq]
  · intro h
    exact ⟨_, rfl, h⟩

theorem toList_propertyAccess_bare (h : isPropertyName name = true) :
    (propertyAccess "" name).toList = '.' :: name.toList := by
  simp [propertyAccess, h]

theorem toList_propertyAccess_quoted (h : ¬ isPropertyName name = true) :
    (propertyAccess "" name).toList = '[' :: (singleQuoted name).toList ++ [']'] := by
  simp [propertyAccess, h]

/-- **A key and an access are read alike,** whatever they are read as. -/
theorem isAccess_iff_isKey {owner : String} {value : List Nat} :
    IsAccess owner (propertyAccess owner name) value ↔ IsKey (propertyKey name) value := by
  rw [isAccess_propertyAccess]
  by_cases h : isPropertyName name = true
  · have haccess := readAccess_bare h []
    have hkey := readKey_bare h []
    rw [List.append_nil, List.append_nil] at haccess
    rw [List.append_nil] at hkey
    rw [toList_propertyAccess_bare h, haccess, propertyKey, if_pos h, IsKey, hkey]
  · rw [toList_propertyAccess_quoted h, readAccess_singleQuoted_iff, propertyKey, if_neg h,
      isKey_singleQuoted_iff]

/-- A key that is read as its name is that of a name which stands in it as it is. -/
theorem isVerbatim_of_isKey (h : IsKey (propertyKey name) (units name.toList)) :
    IsVerbatim name := by
  unfold IsVerbatim
  unfold propertyKey at h
  split
  · rename_i hbare
    have hkey := readKey_bare hbare []
    rw [List.append_nil] at hkey
    rw [if_pos hbare, IsKey, hkey] at h
    exact isNamePart_of_readName hbare h
  · rename_i hbare
    rw [if_neg hbare, isKey_singleQuoted_iff] at h
    exact isBody_units_iff.mp h

variable {rest : List Char} (h : IsVerbatim name) (hrest : Behind rest)

include h hrest

/-- A key is read up to its end, and as its name, if nothing behind it belongs to a name. -/
theorem readKey_propertyKey :
    readKey ((propertyKey name).toList ++ rest) = some (units name.toList, rest) := by
  unfold IsVerbatim at h
  unfold propertyKey
  split at h
  · rename_i hbare
    rw [if_pos hbare, readKey_bare hbare, readName_append hbare h hrest]
  · rename_i hbare
    rw [if_neg hbare, readKey_quoted, (isBody_units_iff.mpr h).read, Option.map_some]
    exact congrArg (fun rest => some (units name.toList, rest)) hrest.skipBlanks_eq

theorem readAccess_propertyAccess :
    readAccess ((propertyAccess "" name).toList ++ rest) = some (units name.toList, rest) := by
  unfold IsVerbatim at h
  split at h
  · rename_i hbare
    rw [toList_propertyAccess_bare hbare, readAccess_bare hbare, readName_append hbare h hrest]
  · rename_i hbare
    rw [toList_propertyAccess_quoted hbare, List.append_assoc, List.singleton_append,
      readAccess_quoted, (isBody_units_iff.mpr h).read, Option.bind_some]
    exact congrArg (fun rest => some (units name.toList, rest)) hrest.skipBlanks_eq

end

/-! ## Everywhere -/

/-- Wherever a name is printed as that of a property, it is read as the name and as no other. -/
structure IsFaithful (name : String) : Prop where
  key (property : String) : IsKey (propertyKey name) (units property.toList) ↔ property = name
  access (owner property : String) :
    IsAccess owner (propertyAccess owner name) (units property.toList) ↔ property = name
  /-- A member of a type that is written out in place. -/
  inline {member : Member TypeExpr} (hname : member.name = name) :
    BeginsWithKey (TypeExpr.memberText member) name
      (TypeExpr.optionalMark member.optional ++ ": " ++ member.type.text)
  /-- A member of the interface of a definition. -/
  definition {entry : Definition.Entry} (hname : entry.member.name = name) :
    ∃ declared, entry.text = entry.comment ++ declared ∧ BeginsWithKey declared name
      (TypeExpr.optionalMark entry.member.optional ++ ": " ++ entry.member.type.text ++ ";")
  /-- A member of the interface of a method's parameters. -/
  parameter {field : Parameter.Field} (hname : field.parameter.name = name) :
    ∃ declared, field.text = Comment.ofValues [field.parameter.description] ++ declared ∧
      BeginsWithKey declared name (field.mark ++ ": " ++ field.type.text ++ ";")
  /-- A member of an object that copies parameters: the key that is filled in
  and the parameter read for it. -/
  literal : ∃ line access, Method.objectMembers [name] = [line] ∧
    BeginsWithKey line name (": " ++ "params" ++ access ++ ",") ∧
    BeginsWithAccess (access ++ ",") name ","
  /-- A placeholder of an address. -/
  placeholder : ∃ access, String.ofList (Url.Piece.placeholder name.toList).text =
    "$\x7bparams" ++ access ∧ BeginsWithAccess access name "\x7d"
  /-- A parameter that is passed on as the body of a request. -/
  argument : IsAccess "params" (Method.BodyArgument.parameter name).text (units name.toList)

section

variable {name after : String} (h : IsVerbatim name)

include h

theorem beginsWithKey (hafter : Behind after.toList) :
    BeginsWithKey (propertyKey name ++ after) name after := by
  rw [BeginsWithKey, String.toList_append, readKey_propertyKey h hafter]

theorem beginsWithAccess (hafter : Behind after.toList) :
    BeginsWithAccess (propertyAccess "" name ++ after) name after := by
  rw [BeginsWithAccess, String.toList_append, readAccess_propertyAccess h hafter]

/-- Behind a key a mark or a colon stands. -/
theorem beginsWithKey_marked (optional : Bool) (type : String) :
    BeginsWithKey (propertyKey name ++ (TypeExpr.optionalMark optional ++ ": " ++ type)) name
      (TypeExpr.optionalMark optional ++ ": " ++ type) := by
  refine beginsWithKey h ?_
  have hcolon : isNamePart ':' = false ∧ isJsonBlank ':' = false := by decide
  have hmark : isNamePart '?' = false ∧ isJsonBlank '?' = false := by decide
  cases optional with
  | false => simpa [TypeExpr.optionalMark] using behind_cons hcolon _
  | true => simpa [TypeExpr.optionalMark] using behind_cons hmark _

/-- A key that stands as it is, is read as its name, and as no other. -/
theorem isKey_propertyKey_iff (property : String) :
    IsKey (propertyKey name) (units property.toList) ↔ property = name := by
  have hkey : IsKey (propertyKey name) (units name.toList) := by
    have hread := readKey_propertyKey h behind_nil
    rwa [List.append_nil] at hread
  constructor
  · intro hother
    have hunits := (Prod.mk.inj (Option.some.inj (hother.symm.trans hkey))).1
    exact String.toList_inj.mp (units_injective hunits)
  · rintro rfl
    exact hkey

theorem IsVerbatim.isFaithful : IsFaithful name where
  key := isKey_propertyKey_iff h
  access _ property := isAccess_iff_isKey.trans (isKey_propertyKey_iff h property)
  inline := by
    rintro ⟨_, optional, type⟩ rfl
    simpa [TypeExpr.memberText, String.append_assoc] using beginsWithKey_marked h
      optional type.text
  definition := by
    rintro ⟨comment, _, optional, type⟩ rfl
    refine ⟨TypeExpr.memberText _ ++ ";", String.append_assoc .., ?_⟩
    simpa [TypeExpr.memberText, String.append_assoc] using
      beginsWithKey_marked h optional (type.text ++ ";")
  parameter := by
    rintro ⟨parameter, type⟩ rfl
    refine ⟨propertyKey parameter.name ++
      (Parameter.Field.mark ⟨parameter, type⟩ ++ ": " ++ type.text ++ ";"),
      by simp [Parameter.Field.text, String.append_assoc], ?_⟩
    simpa [Parameter.Field.mark, String.append_assoc] using
      beginsWithKey_marked h (!parameter.required) (type.text ++ ";")
  literal := by
    refine ⟨_, propertyAccess "" name, rfl, ?_, beginsWithAccess h (behind_cons (by decide) _)⟩
    dsimp only
    rw [propertyAccess_eq "params"]
    simpa only [TypeExpr.optionalMark, Bool.false_eq_true, if_false, String.empty_append,
      String.append_assoc] using beginsWithKey_marked h false ("params" ++
      propertyAccess "" name ++ ",")
  placeholder := by
    refine ⟨propertyAccess "" name ++ "\x7d", ?_, beginsWithAccess h (behind_cons (by decide) _)⟩
    rw [Url.Piece.text, String.ofList_toList, propertyAccess_eq, ← String.toList_inj]
    simp
  argument := isAccess_iff_isKey.mpr ((isKey_propertyKey_iff h name).mpr rfl)

end

/-- How a name is printed as that of a property. -/
structure IsPrintedAsOne (name : String) : Prop where
  /-- Key and access are the same property, whatever the name is printed like. -/
  alike {owner : String} {property : List Nat} :
    IsAccess owner (propertyAccess owner name) property ↔ IsKey (propertyKey name) property
  /-- It is the property of that name, everywhere, just if the name can stand there as it is. -/
  faithful : IsFaithful name ↔ IsVerbatim name

/-- **A name is that of its property wherever it is printed,** if it needs no escapes and, where
it is bare, is a name to its end; and of one property at most in any case. -/
theorem isPrintedAsOne (name : String) : IsPrintedAsOne name where
  alike := isAccess_iff_isKey
  faithful := ⟨fun h => isVerbatim_of_isKey ((h.key name).mpr rfl), IsVerbatim.isFaithful⟩

/-- A quote in a name ends the key too soon. -/
theorem not_isFaithful_apostrophe : ¬ IsFaithful "it's" := by
  intro h
  have hverbatim := (isPrintedAsOne "it's").faithful.mp h
  rw [IsVerbatim, if_neg (by decide)] at hverbatim
  exact (hverbatim '\'' (by decide)).1 rfl

end ApiClient.TypeScript
