import ApiClient.Proofs.Document.Edit

/-!
# Finding placeholders

The search for placeholders goes through the text of a document. It finds the members that are
placeholders, wherever they stand, and it finds nothing else.
-/

namespace ApiClient.Document

open Json

namespace Placeholder

/-- A word before a mark is all letters up to the quote with which the mark begins. -/
theorem wordBefore?_eq_some {mark text word rest : List Char}
    (hmark : ∃ tail, mark = '"' :: tail) : wordBefore? mark text = some (word, rest) ↔
      (∀ c ∈ word, isPlaceholderLetter c = true) ∧ text = word ++ (mark ++ rest) := by
  obtain ⟨tail, rfl⟩ := hmark
  have hquote : ¬ isPlaceholderLetter '"' = true := by decide
  constructor
  · intro h
    obtain ⟨rest', hafter, he⟩ := Option.map_eq_some_iff.mp h
    obtain ⟨rfl, rfl⟩ := Prod.mk.inj he
    refine ⟨fun c hc => List.mem_takeWhile_imp hc, ?_⟩
    rw [← Text.after?_eq_some.mp hafter, List.takeWhile_append_dropWhile]
  · rintro ⟨hword, rfl⟩
    -- the letters stop at the quote that the mark begins with
    have htake : (word ++ ('"' :: tail ++ rest)).takeWhile isPlaceholderLetter = word := by
      rw [List.takeWhile_append_of_pos hword, List.cons_append, List.takeWhile_cons_of_neg hquote,
        List.append_nil]
    have hdrop : (word ++ ('"' :: tail ++ rest)).dropWhile isPlaceholderLetter =
        '"' :: tail ++ rest := by
      rw [List.dropWhile_append_of_pos hword, List.cons_append, List.dropWhile_cons_of_neg hquote]
    rw [wordBefore?, htake, hdrop, Text.after?_eq_some.mpr rfl]
    rfl

theorem text_append (placeholder : Placeholder) (rest : List Char) :
    placeholder.text ++ rest = '"' :: (placeholder.key ++ (beforeType ++ (placeholder.type ++
      (beforeTitle ++ (placeholder.title ++ (afterTitle ++ rest)))))) := by
  unfold text
  simp only [List.append_assoc, List.cons_append]

/-- What is found at the front of a text is a placeholder, and the text goes on after it. -/
theorem atFront?_eq_some {text rest : List Char} {placeholder : Placeholder} :
    atFront? text = some (placeholder, rest) ↔
      placeholder.Proper ∧ text = placeholder.text ++ rest := by
  have htype : ∀ text word rest, wordBefore? beforeType text = some (word, rest) ↔
      (∀ c ∈ word, isPlaceholderLetter c = true) ∧ text = word ++ (beforeType ++ rest) :=
    fun _ _ _ => wordBefore?_eq_some ⟨_, beforeType_eq⟩
  have htitle : ∀ text word rest, wordBefore? beforeTitle text = some (word, rest) ↔
      (∀ c ∈ word, isPlaceholderLetter c = true) ∧ text = word ++ (beforeTitle ++ rest) :=
    fun _ _ _ => wordBefore?_eq_some ⟨_, beforeTitle_eq⟩
  have hafter : ∀ text word rest, wordBefore? afterTitle text = some (word, rest) ↔
      (∀ c ∈ word, isPlaceholderLetter c = true) ∧ text = word ++ (afterTitle ++ rest) :=
    fun _ _ _ => wordBefore?_eq_some ⟨_, afterTitle_eq⟩
  rw [text_append]
  unfold atFront?
  constructor
  · intro h
    -- each word is the longest run of letters, and the mark behind it is what ends it
    split at h
    · simp only [Option.bind_eq_bind, Option.bind_eq_some_iff, Option.pure_def, Option.some.injEq,
        Prod.mk.injEq, Prod.exists, htype, htitle, hafter] at h
      obtain ⟨key, _, ⟨hkey, rfl⟩, type, _, ⟨htype, rfl⟩, title, _, ⟨htitle, rfl⟩, rfl, rfl⟩ := h
      exact ⟨⟨hkey, htype, htitle⟩, rfl⟩
    · cases h
  · rintro ⟨⟨hkey, htype', htitle'⟩, rfl⟩
    simp only [(htype _ _ _).mpr ⟨hkey, rfl⟩, (htitle _ _ _).mpr ⟨htype', rfl⟩,
      (hafter _ _ _).mpr ⟨htitle', rfl⟩, Option.bind_eq_bind, Option.bind_some, Option.pure_def]

theorem nameAhead_of_text {placeholder : Placeholder} (hproper : placeholder.Proper)
    {text : List Char} (h : placeholder.text <+: text) : NameAhead text := by
  obtain ⟨rest, rfl⟩ := h
  refine ⟨placeholder.key, placeholder.body ++ rest, fun c hc => ?_, ?_⟩
  · simp [isNameLetter, hproper.1 c hc]
  · rw [text_eq]
    simp

/-- The search for placeholders as a scan. -/
def search : Scan Placeholder where
  run := all
  emit _ := []
  acts text := ∃ placeholder : Placeholder, placeholder.Proper ∧ placeholder.text <+: text
  anchored := by
    rintro text ⟨placeholder, hproper, hahead⟩
    exact .inl (nameAhead_of_text hproper hahead)
  step := by
    intro c text hacts
    have hnone : atFront? (c :: text) = none := by
      cases hfront : atFront? (c :: text) with
      | none => rfl
      | some found =>
        obtain ⟨placeholder, rest⟩ := found
        obtain ⟨hproper, htext⟩ := atFront?_eq_some.mp hfront
        exact absurd ⟨placeholder, hproper, rest, htext.symm⟩ hacts
    rw [all]
    split
    · rename_i h
      rw [hnone] at h
      cases h
    · rfl

theorem all_nil : all [] = [] := by
  rw [all]
  rfl

/-- A placeholder at the front is found, and the search goes on after it. -/
theorem all_append {placeholder : Placeholder} (hproper : placeholder.Proper) (rest : List Char) :
    all (placeholder.text ++ rest) = placeholder :: all rest := by
  have hfront : atFront? (placeholder.text ++ rest) = some (placeholder, rest) :=
    atFront?_eq_some.mpr ⟨hproper, rfl⟩
  rw [all]
  split
  · rename_i h
    rw [hfront] at h
    obtain ⟨rfl, rfl⟩ := Prod.mk.inj (Option.some.inj h)
    rfl
  · rename_i h
    rw [hfront] at h
    cases h

end Placeholder

/-! ## The members that are found -/

/-- The placeholder that a member is, if it is one. -/
def placeholder? (member : Name × Written) : Option Placeholder :=
  match Placeholder.atFront? (memberCore member) with
  | some (placeholder, []) => some placeholder
  | _ => none

theorem placeholder?_eq_some {member : Name × Written} {placeholder : Placeholder} :
    placeholder? member = some placeholder ↔
      placeholder.Proper ∧ memberCore member = placeholder.text := by
  have hiff : Placeholder.atFront? (memberCore member) = some (placeholder, []) ↔ _ :=
    Placeholder.atFront?_eq_some
  rw [List.append_nil] at hiff
  rw [← hiff, placeholder?]
  split
  · rename_i other h
    rw [h]
    constructor
    · intro h'
      rw [Option.some.inj h']
    · intro h'
      exact congrArg some (Prod.mk.inj (Option.some.inj h')).1
  · rename_i h
    constructor
    · intro h'
      cases h'
    · intro h'
      exact absurd h' (h placeholder)

mutual

/-- The placeholders in a document, from left to right. -/
def found : Written → List Placeholder
  | .scalar _ _ => []
  | .array _ _ items => foundItems items
  | .object _ _ members => foundMembers members
termination_by structural written => written

/-- The placeholders in some items. -/
def foundItems : List Written → List Placeholder
  | [] => []
  | item :: rest => found item ++ foundItems rest
termination_by structural items => items

/-- The placeholders among some members and in them. -/
def foundMembers : List (Name × Written) → List Placeholder
  | [] => []
  | member :: rest => foundMember member ++ foundMembers rest
termination_by structural members => members

/-- The placeholder that a member is, or those in it. -/
def foundMember : Name × Written → List Placeholder
  | (name, value) =>
    match placeholder? (name, value) with
    | some placeholder => [placeholder]
    | none => found value
termination_by structural member => member

end

theorem foundItems_eq (items : List Written) : foundItems items = items.flatMap found := by
  induction items with
  | nil => rfl
  | cons item rest ih => rw [foundItems, ih, List.flatMap_cons]

theorem foundMembers_eq (members : List (Name × Written)) :
    foundMembers members = members.flatMap foundMember := by
  induction members with
  | nil => rfl
  | cons member rest ih => rw [foundMembers, ih, List.flatMap_cons]

/-- No name of a member has a quote in it. -/
def Unquoted (written : Written) : Prop :=
  written.Every fun members => ∀ member ∈ members, '"' ∉ member.1.spelling.chars

instance (written : Written) : Decidable (Unquoted written) :=
  inferInstanceAs (Decidable (written.Every _))

open Placeholder (search)

theorem copy_search (text : List Char) : search.copy text = [] := by
  induction text with
  | nil => rfl
  | cons c text ih => rw [Scan.copy_cons, ih]; rfl

theorem joined_search (outs : List (List Placeholder)) : search.joined outs = outs.flatten := by
  cases outs with
  | nil => rfl
  | cons out outs =>
    have htail : outs.flatMap (search.emit ',' ++ ·) = outs.flatten := by
      induction outs with
      | nil => rfl
      | cons out outs ih => rw [List.flatMap_cons, ih]; rfl
    rw [Scan.joined, htail, List.flatten_cons]

/-- A member gives the placeholder that it is, or those in its value. -/
theorem gives_search_member {name : Name} {value : Written} (hname : '"' ∉ name.spelling.chars)
    (hvalue : search.Gives value.text (found value)) :
    search.Gives (Written.memberText (name, value)) (foundMember (name, value)) := by
  intro rest hrest
  rw [foundMember]
  -- either the search finds the member as a whole, or it goes on inside
  cases hmember : placeholder? (name, value) with
  | some placeholder =>
    obtain ⟨hproper, hcore⟩ := placeholder?_eq_some.mp hmember
    have hall : search.run (placeholder.text ++ (value.padding.after.chars ++ rest)) =
        placeholder :: search.run (value.padding.after.chars ++ rest) :=
      Placeholder.all_append hproper _
    rw [memberText_eq_core, hcore, List.append_assoc, List.append_assoc, search.run_blanks, hall,
      search.run_blanks, copy_search, copy_search]
    rfl
  | none =>
    have hacts : ¬ search.acts
        (name.spelling.quoted ++ (name.after.chars ++ ':' :: (value.text ++ rest))) := by
      rintro ⟨placeholder, hproper, hahead⟩
      have hcore := (Placeholder.text_ahead_iff hproper).mp hahead
      rw [placeholder?_eq_some.mpr ⟨hproper, hcore⟩] at hmember
      cases hmember
    rw [search.run_member hname hvalue hrest hacts, copy_search]
    rfl

/-- The search finds the placeholders of a document, whatever follows it. -/
theorem gives_search {written : Written} (hunquoted : Unquoted written) :
    search.Gives written.text (found written) := by
  induction written with
  | scalar padding token =>
    have hgives := search.gives_scalar padding token
    rw [copy_search] at hgives
    exact hgives
  | array padding inner items ih =>
    have hitems : List.Forall₂ search.Gives (items.map Written.text) (items.map found) := by
      rw [List.forall₂_map_left_iff, List.forall₂_map_right_iff, List.forall₂_same]
      exact fun item hitem => ih item hitem (hunquoted.items item hitem)
    have hgives := search.gives_array padding inner hitems
    rw [copy_search, copy_search, joined_search, List.append_nil, List.nil_append] at hgives
    rw [found, foundItems_eq]
    exact hgives
  | object padding inner members ih =>
    have hmembers : List.Forall₂ search.Gives (members.map Written.memberText)
        (members.map foundMember) := by
      rw [List.forall₂_map_left_iff, List.forall₂_map_right_iff, List.forall₂_same]
      intro member hmember
      obtain ⟨name, value⟩ := member
      exact gives_search_member (hunquoted.here _ hmember)
        (ih _ hmember (hunquoted.inside _ hmember))
    -- the search finds nothing at a comma
    have hcomma : ∀ text, search.run (',' :: text) = search.emit ',' ++ search.run text := by
      intro text
      refine search.step ?_
      rintro ⟨placeholder, hproper, hahead⟩
      exact absurd (Placeholder.nameAhead_of_text hproper hahead).head (by decide)
    have hrun : ∀ rest, search.run (Written.joined (members.map Written.memberText) ++
        '\x7d' :: rest) = foundMembers members ++ search.run ('\x7d' :: rest) := by
      intro rest
      rw [search.run_joined (by decide) hmembers (fun text _ rest _ => hcomma (text ++ rest)),
        joined_search, foundMembers_eq]
      rfl
    have hgives := search.gives_object padding inner hrun
    rw [copy_search, copy_search, List.append_nil, List.nil_append] at hgives
    rw [found]
    exact hgives

/-- **All placeholders are found.** Where no name of a member has a quote in it, the placeholders
that are found in a document are the members that are placeholders. -/
theorem all_text {written : Written} (hunquoted : Unquoted written) :
    Placeholder.all written.text = found written := by
  have hgives := gives_search hunquoted [] ended_nil
  rw [List.append_nil] at hgives
  refine hgives.trans ?_
  show found written ++ Placeholder.all [] = found written
  rw [Placeholder.all_nil, List.append_nil]

end ApiClient.Document
