import ApiClient.Method.Basic
import ApiClient.Proofs.Operation.Name
import ApiClient.Proofs.Outcome
import ApiClient.Proofs.Text.Casing
import ApiClient.Proofs.Text.Occurrence

/-!
# The names that methods get

A method gets its name from an id or from a verb and a path, in camel case, with an
underscore before a digit in front, and perhaps with a number behind. The names that come
about in this way are simple: letters and digits, and no underscore but one that guards a
digit. So an underscore can be put behind such a name, and a capital in front of it, without
giving two methods one name.
-/

namespace ApiClient.Operation

/-! ## Simple names -/

/-- A name in camel case, or a digit and what follows it behind an underscore. -/
inductive IsSimple : List Char → Prop where
  | plain {first : Char} {rest : List Char} : first.isLower = true →
      (∀ c ∈ rest, c.isAlphanum = true) → IsSimple (first :: rest)
  | guarded {digit : Char} {rest : List Char} : digit.isDigit = true →
      (∀ c ∈ rest, c.isAlphanum = true) → IsSimple ('_' :: digit :: rest)

namespace IsSimple

variable {name : List Char}

/-- Letters and digits can be put behind a simple name. -/
theorem append (h : IsSimple name) {suffix : List Char}
    (hsuffix : ∀ c ∈ suffix, c.isAlphanum = true) : IsSimple (name ++ suffix) := by
  have hboth : ∀ {rest : List Char}, (∀ c ∈ rest, c.isAlphanum = true) →
      ∀ c ∈ rest ++ suffix, c.isAlphanum = true := fun hrest c hc =>
    (List.mem_append.mp hc).elim (hrest c) (hsuffix c)
  cases h with
  | plain hfirst hrest => exact .plain hfirst (hboth hrest)
  | guarded hdigit hrest => exact .guarded hdigit (hboth hrest)

/-- Behind its first character a simple name has letters and digits only. -/
theorem tail (h : IsSimple name) : ∀ c ∈ name.tail, c.isAlphanum = true := by
  cases h with
  | plain _ hrest => exact hrest
  | guarded hdigit hrest =>
      exact List.forall_mem_cons.mpr ⟨Text.isAlphanum_of_isDigit hdigit, hrest⟩

/-- An underscore stands in front or nowhere. -/
theorem underscore_notMem_tail (h : IsSimple name) : '_' ∉ name.tail := fun hmem =>
  absurd (h.tail '_' hmem) (by decide)

/-- A simple name begins with a lower-case letter or with an underscore. -/
theorem head (h : IsSimple name) :
    ∃ c rest, name = c :: rest ∧ c.toNat < 128 ∧ c.isUpper = false := by
  cases h with
  | @plain first rest hfirst _ =>
    have hbound : first.toNat ≤ 'z'.toNat := by
      unfold Char.isLower at hfirst
      simp only [Bool.and_eq_true, decide_eq_true_eq] at hfirst
      exact hfirst.2
    exact ⟨first, rest, rfl, Nat.lt_of_le_of_lt hbound (by decide),
      Text.isUpper_of_isLower first hfirst⟩
  | guarded => exact ⟨'_', _, rfl, by decide, by decide⟩

/-- No simple name ends in an underscore. -/
theorem last (h : IsSimple name) : name.getLast? ≠ some '_' := by
  intro hlast
  -- an underscore at the end would be behind the first character, or the only one
  have htail := h.underscore_notMem_tail
  cases h with
  | plain hfirst _ =>
    rcases List.mem_cons.mp (List.mem_of_getLast? hlast) with rfl | hmem
    · exact absurd hfirst (by decide)
    · exact htail hmem
  | guarded =>
    rw [List.getLast?_cons_cons] at hlast
    exact htail (List.mem_of_getLast? hlast)

end IsSimple

/-! ## Every name is simple -/

/-- A name in camel case is simple once a digit in front of it is guarded. -/
theorem isSimple_guardDigit {name : String} (h : Text.IsCamel name.toList)
    (hne : name.toList ≠ []) : IsSimple (guardDigit name).toList := by
  obtain ⟨first, rest, hname⟩ := List.exists_cons_of_ne_nil hne
  obtain ⟨halphanum, hhead⟩ := h
  rw [hname] at halphanum hhead
  have hrest : ∀ c ∈ rest, c.isAlphanum = true :=
    fun c hc => halphanum c (List.mem_cons_of_mem _ hc)
  unfold guardDigit
  rw [hname]
  dsimp only
  -- a camel-cased name begins with a digit or with a small letter
  by_cases hdigit : first.isDigit = true
  · rw [if_pos hdigit, String.toList_append, hname]
    exact .guarded hdigit hrest
  · rw [if_neg hdigit, hname]
    refine .plain ?_ hrest
    have hfirst := halphanum first List.mem_cons_self
    have hupper := hhead first rfl
    unfold Char.isAlphanum Char.isAlpha at hfirst
    simp only [hupper, Bool.or_eq_true, hdigit] at hfirst
    simpa using hfirst

/-- A digit in front gets an underscore, and anything else stays in front. -/
theorem head?_guardDigit (name : String) : (guardDigit name).toList.head? =
    name.toList.head?.map fun c => if c.isDigit then '_' else c := by
  unfold guardDigit
  cases hname : name.toList with
  | nil => rw [hname]; rfl
  | cons c rest =>
    by_cases hdigit : c.isDigit = true
    · simp [hdigit]
    · simp [hdigit, hname]

/-- A text gives a name with an underscore in front just if the first
letter or digit in it is a digit. -/
theorem head?_guardDigit_camelCase {text : String} :
    (guardDigit (Text.camelCase text)).toList.head? = some '_' ↔
      ∃ c, text.toList.find? Char.isAlphanum = some c ∧ c.isDigit = true := by
  rw [head?_guardDigit, Text.head?_camelCase, Option.map_map]
  cases hfirst : text.toList.find? Char.isAlphanum with
  | none => simp
  | some c =>
    have hne : c.toLower ≠ '_' := fun he =>
      absurd (Text.isAlphanum_toLower (List.find?_some hfirst)) (he ▸ by decide)
    simp [Text.isDigit_toLower, hne]

/-- A verb is a word, so it gives a name at every path. -/
theorem isSimple_nameOfUrl {verb : String} (hverb : ∃ c ∈ verb.toList, c.isAlphanum = true)
    (url : String) : IsSimple (nameOfUrl verb url).toList := by
  obtain ⟨c, hc, halphanum⟩ := hverb
  unfold nameOfUrl
  dsimp only
  generalize (Url.segments url).map (fun segment => String.ofList (stripBraces segment)) = segments
  -- the verb stands in front of the segments
  have hmem : c ∈ (" ".intercalate (verb :: segments)).toList :=
    (Text.prefix_intercalate " " verb segments).mem hc
  exact isSimple_guardDigit (Text.isCamel_camelCase _) (Text.camelCase_ne_empty hmem halphanum)

/-- A path gives no name with an underscore in front, for the verb stands before it. -/
theorem head?_nameOfUrl {verb : String} {first : Char} {rest : List Char}
    (hverb : verb.toList = first :: rest) (hletter : first.isAlpha = true) (url : String) :
    (nameOfUrl verb url).toList.head? ≠ some '_' := by
  unfold nameOfUrl
  dsimp only
  generalize (Url.segments url).map (fun segment => String.ofList (stripBraces segment)) = segments
  intro hguarded
  obtain ⟨c, hfirst, hdigit⟩ := head?_guardDigit_camelCase.mp hguarded
  -- the verb stands first, so its first letter is the first of the name
  obtain ⟨more, htext⟩ : ∃ more, (" ".intercalate (verb :: segments)).toList = first :: more := by
    obtain ⟨more, hmore⟩ := Text.prefix_intercalate " " verb segments
    exact ⟨rest ++ more, by rw [← hmore, hverb, List.cons_append]⟩
  rw [htext, List.find?_cons_of_pos (Text.isAlphanum_of_isAlpha hletter)] at hfirst
  obtain rfl := Option.some.inj hfirst
  rw [Text.isDigit_of_isAlpha hletter] at hdigit
  cases hdigit

/-- The name of an operation whose id is a text, or that has none. -/
theorem nameOf_object {members : List (String × Json)} {id : Option String}
    (hid : Json.lookup? "operationId" members = id.map .string) (verb url : String) :
    nameOf (.object members) verb url = .ok
      (if Text.camelCase (id.getD "") = "" then nameOfUrl verb url
        else guardDigit (Text.camelCase (id.getD ""))) := by
  have hmember : (Json.object members).member? "operationId" = .ok (id.map .string) :=
    congrArg Except.ok hid
  have hnothing : Text.camelCase "" = "" := by
    simp [Text.camelCase, Text.words, Text.joinCamel]
  unfold nameOf
  rw [hmember]
  -- no id and a blank one both fall back to the URL, as an id without words does
  cases id with
  | none =>
    rw [Option.getD_none, if_pos hnothing]
    rfl
  | some text =>
    rw [Option.getD_some]
    by_cases hblank : text = ""
    · subst hblank
      rw [if_pos hnothing]
      rfl
    · have hgiven : (Json.string text).isBlank ≠ true := fun h => hblank (String.isEmpty_iff.mp h)
      change (if (Json.string text).isBlank = true then _ else _) = _
      rw [if_neg hgiven]
      change Except.ok (if (Text.camelCase text).isEmpty = true then _ else _) = _
      simp only [String.isEmpty_iff]

/-- An id that is left with something gives a simple name, and any other gives way to the path. -/
theorem isSimple_nameOf {value : Json} {verb url name : String}
    (hverb : ∃ c ∈ verb.toList, c.isAlphanum = true) (h : nameOf value verb url = .ok name) :
    IsSimple name.toList := by
  unfold nameOf at h
  obtain ⟨id, -, h⟩ := bind_eq_ok.mp h
  dsimp only at h
  -- without a text for an id the name comes from the URL
  split at h
  · obtain rfl := pure_eq_ok.mp h
    exact isSimple_nameOfUrl hverb url
  · split at h
    · obtain rfl := pure_eq_ok.mp h
      split
      · exact isSimple_nameOfUrl hverb url
      · rename_i hempty
        refine isSimple_guardDigit (Text.isCamel_camelCase _) fun hnil => hempty ?_
        exact String.isEmpty_iff.mpr (String.toList_eq_nil_iff.mp hnil)
    · cases h

theorem isAlphanum_of_mem_toString {n : Nat} {c : Char} (h : c ∈ (toString n).toList) :
    c.isAlphanum = true := by
  rw [Nat.toString_eq_ofList_toDigits, String.toList_ofList] at h
  exact Text.isAlphanum_of_isDigit (Nat.isDigit_of_mem_toDigits (by decide) (by decide) h)

theorem isSimple_numbered {name : String} (h : IsSimple name.toList) (n : Nat) :
    IsSimple (numbered name n).toList := by
  rw [numbered, String.toList_append]
  exact h.append fun _ => isAlphanum_of_mem_toString

section

variable {p : String → Prop} (hnumbered : ∀ name n, p name → p (numbered name n))

include hnumbered

/-- Telling names apart answers a name or a name with a number. -/
theorem forall_take {name : String} (h : p name) (numbering : Numbering) :
    p (numbering.take name).1 := by
  unfold Numbering.take
  split
  · exact hnumbered _ _ h
  · exact h

theorem forall_numberFrom {names : List String} (h : ∀ name ∈ names, p name)
    (numbering : Numbering) : ∀ name ∈ numberFrom numbering names, p name := by
  induction names generalizing numbering with
  | nil => exact fun _ hmem => absurd hmem List.not_mem_nil
  | cons first rest ih =>
    intro name hmem
    rcases List.mem_cons.mp hmem with rfl | hmem
    · exact forall_take hnumbered (h first List.mem_cons_self) numbering
    · exact ih (fun other hother => h other (List.mem_cons_of_mem _ hother)) _ name hmem

/-- What a number does not take from a name holds of names that are told apart. -/
theorem forall_distinctNames {names : List String} (h : ∀ name ∈ names, p name) :
    ∀ name ∈ distinctNames names, p name :=
  forall_numberFrom hnumbered h _

end

/-- **Names that are told apart stay simple.** -/
theorem isSimple_distinctNames {names : List String} (h : ∀ name ∈ names, IsSimple name.toList) :
    ∀ name ∈ distinctNames names, IsSimple name.toList :=
  forall_distinctNames (p := fun name => IsSimple name.toList)
    (fun _ n hname => isSimple_numbered hname n) h

/-! ## Names at any verb

What is a verb is said by a table. Where the table is not the usual one, a verb may have no
letter, and a name nothing but a number; what is known of a name then are its characters.
-/

/-- Letters, digits and underscores. -/
def IsPlain (name : String) : Prop := ∀ c ∈ name.toList, c.isAlphanum = true ∨ c = '_'

theorem isPlain_guardDigit {name : String} (h : Text.IsCamel name.toList) :
    IsPlain (guardDigit name) := by
  have hplain : IsPlain name := fun c hc => .inl (h.alphanum c hc)
  unfold guardDigit
  split
  · split
    · intro c hc
      rw [String.toList_append] at hc
      exact (List.mem_append.mp hc).elim (fun hc => .inr (List.mem_singleton.mp hc)) (hplain c)
    · exact hplain
  · exact hplain

theorem isPlain_nameOf {value : Json} {verb url name : String}
    (h : nameOf value verb url = .ok name) : IsPlain name := by
  have hguarded : ∀ text, IsPlain (guardDigit (Text.camelCase text)) := fun text =>
    isPlain_guardDigit (Text.isCamel_camelCase text)
  have hurl : IsPlain (nameOfUrl verb url) := by
    unfold nameOfUrl
    exact hguarded _
  unfold nameOf at h
  obtain ⟨id, -, h⟩ := bind_eq_ok.mp h
  dsimp only at h
  split at h
  · obtain rfl := pure_eq_ok.mp h
    exact hurl
  · split at h
    · obtain rfl := pure_eq_ok.mp h
      split
      · exact hurl
      · exact hguarded _
    · cases h

theorem isPlain_distinctNames {names : List String} (h : ∀ name ∈ names, IsPlain name) :
    ∀ name ∈ distinctNames names, IsPlain name := by
  refine forall_distinctNames (fun name n hname c hc => ?_) h
  rw [numbered, String.toList_append] at hc
  exact (List.mem_append.mp hc).elim (hname c) fun hc => .inl (isAlphanum_of_mem_toString hc)

end ApiClient.Operation
