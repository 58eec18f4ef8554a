import ApiClient.Proofs.TypeScript.PropertyName
import ApiClient.Url

/-!
# Addresses

A path is printed as the body of a template literal, and the program that is written evaluates
it to the address it asks. Main statement: the address is the path with every placeholder
filled, the leftmost first, and with every other character as it was, if no character of the
path means something to the literal itself. An access that is printed bare ends with its name,
since a brace is behind it, and one in brackets ends with its quote. With a base in front that
begins no insertion of its own, what is read of the parameters are the names of the placeholders.
-/

namespace ApiClient.Url

open TypeScript (units pointUnits readEscape readQuotedName isIdentifierPart isNameStart
  isPropertyName propertyAccess)

/-! ## Template literals -/

/-- Reads a property from behind its owner: a point and the longest run of characters of an
identifier, or a name in single quotes between brackets. -/
def readMember : List Char → Option (List Nat × List Char)
  | [] => none
  | c :: rest =>
    if c = '.' then
      let name := rest.takeWhile isIdentifierPart
      if name.head?.any isNameStart then some (units name, rest.dropWhile isIdentifierPart)
      else none
    else if c = '[' then
      (readQuotedName rest).bind fun (name, after) =>
        if after.head? = some ']' then some (name, after.tail) else none
    else none

/-- Reads what is put into a literal, from behind the opening brace through the closing one. Of
all expressions only a property of `params` is read. -/
def readInsertion (text : List Char) : Option (List Nat × List Char) :=
  (Text.after? "params".toList text).bind fun access =>
    (readMember access).bind fun (property, after) =>
      if after.head? = some '}' then some (property, after.tail) else none

theorem length_of_readMember {text after : List Char} {property : List Nat}
    (h : readMember text = some (property, after)) : after.length ≤ text.length := by
  cases text with
  | nil => cases h
  | cons c text =>
    rw [readMember] at h
    split at h
    · dsimp only at h
      split at h
      · obtain ⟨-, rfl⟩ := Prod.mk.inj (Option.some.inj h)
        exact Nat.le_succ_of_le (List.dropWhile_suffix _).length_le
      · cases h
    · split at h
      · obtain ⟨⟨name, rest⟩, hread, hclose⟩ := Option.bind_eq_some_iff.mp h
        have hrest := TypeScript.length_of_readQuotedName hread
        dsimp only at hclose
        split at hclose
        · obtain ⟨-, rfl⟩ := Prod.mk.inj (Option.some.inj hclose)
          simp only [List.length_tail, List.length_cons]
          omega
        · cases hclose
      · cases h

theorem length_of_readInsertion {text after : List Char} {property : List Nat}
    (h : readInsertion text = some (property, after)) : after.length ≤ text.length := by
  obtain ⟨access, haccess, h⟩ := Option.bind_eq_some_iff.mp h
  obtain ⟨⟨name, rest⟩, hmember, hclose⟩ := Option.bind_eq_some_iff.mp h
  have hword := Text.length_of_after? haccess
  have hrest := length_of_readMember hmember
  dsimp only at hclose
  split at hclose
  · obtain ⟨-, rfl⟩ := Prod.mk.inj (Option.some.inj hclose)
    simp only [List.length_tail]
    omega
  · cases hclose

/-- The value of a template literal with a certain body, where `params` is an object with
certain properties. Texts and names are made of units. A backtick would end the literal, and
any line ends with a line feed. -/
def evaluate (params : List Nat → List Nat) (text : List Char) : Option (List Nat) :=
  match text with
  | [] => some []
  | c :: rest =>
    if c = '\x60' then none
    else if c = '\\' then
      match h : readEscape rest with
      | none => none
      | some (head, after) =>
        have := TypeScript.length_of_readEscape h
        (evaluate params after).map (head ++ ·)
    else if c = '$' ∧ rest.head? = some '{' then
      match h : readInsertion rest.tail with
      | none => none
      | some (property, after) =>
        have := length_of_readInsertion h
        have : rest.tail.length ≤ rest.length := by simp
        (evaluate params after).map (params property ++ ·)
    else if c = '\r' then
      if rest.head? = some '\n' then evaluate params rest
      else (evaluate params rest).map (pointUnits '\n'.toNat ++ ·)
    else (evaluate params rest).map (pointUnits c.toNat ++ ·)
termination_by text.length

/-- A character that means nothing to a template literal, nor to a text
in single quotes within one. -/
def IsInert (c : Char) : Prop := TypeScript.IsPlain c ∧ c ≠ '\x60' ∧ c ≠ '$'

section

variable (params : List Nat → List Nat)

theorem evaluate_nil : evaluate params [] = some [] := by
  rw [evaluate]

theorem evaluate_plain {c : Char} (h : IsInert c) (rest : List Char) :
    evaluate params (c :: rest) = (evaluate params rest).map (pointUnits c.toNat ++ ·) := by
  obtain ⟨⟨-, hescape, -, hreturn⟩, htick, hdollar⟩ := h
  rw [evaluate, if_neg htick, if_neg hescape, if_neg (fun h => hdollar h.1), if_neg hreturn]

theorem evaluate_insertion {text after : List Char} {property : List Nat}
    (h : readInsertion text = some (property, after)) :
    evaluate params ('$' :: '{' :: text) = (evaluate params after).map (params property ++ ·) := by
  rw [evaluate, if_neg (by decide), if_neg (by decide), if_pos ⟨rfl, rfl⟩]
  split
  · rename_i hnone
    cases hnone.symm.trans h
  · rename_i hsome
    obtain ⟨rfl, rfl⟩ := Prod.mk.inj (Option.some.inj (hsome.symm.trans h))
    rfl

end

/-! ## Accesses in a literal -/

section

variable {name : String} (h : ∀ c ∈ name.toList, TypeScript.IsPlain c)

include h

/-- A name that is printed bare is a run of characters of an identifier. -/
theorem isIdentifierPart_of_isPropertyName (hbare : isPropertyName name = true) :
    ∀ c ∈ name.toList, isIdentifierPart c = true := by
  rw [isPropertyName] at hbare
  cases hname : name.toList with
  | nil => simp
  | cons first rest =>
    rw [hname] at hbare h
    have hbreak : '\n' ∉ rest := fun hmem => (h _ (List.mem_cons_of_mem _ hmem)).2.2.1 rfl
    rw [TypeScript.isIdentifier, TypeScript.dropFinalNewline_of_notMem hbreak, Bool.and_eq_true,
      List.all_eq_true] at hbare
    have hstart := TypeScript.isNamePart_of_isIdentifierStart hbare.1
    rw [TypeScript.isNamePart, Bool.and_eq_true] at hstart
    exact List.forall_mem_cons.mpr ⟨hstart.1, hbare.2⟩

/-- An access is read as its name, whichever way it is printed, if a brace is behind it. -/
theorem readMember_propertyAccess (rest : List Char) :
    readMember ((propertyAccess "" name).toList ++ '}' :: rest) =
      some (units name.toList, '}' :: rest) := by
  -- a plain name is read behind a dot, any other between quotes and brackets
  by_cases hbare : isPropertyName name = true
  · have hparts := isIdentifierPart_of_isPropertyName h hbare
    obtain ⟨first, others, hname, hstart⟩ := TypeScript.exists_cons_of_isPropertyName hbare
    have hbrace : ∀ c, ('}' :: rest).head? = some c → isIdentifierPart c = false := by
      intro c hc
      obtain rfl := Option.some.inj hc
      decide
    have hhead : name.toList.head?.any isNameStart = true := by
      simp [hname, isNameStart, hstart]
    rw [TypeScript.toList_propertyAccess_bare hbare, List.cons_append, readMember, if_pos rfl,
      Json.takeWhile_run hbrace hparts, Json.dropWhile_run hbrace hparts]
    dsimp only
    rw [if_pos hhead]
  · have hbody : TypeScript.IsBody name.toList (units name.toList) :=
      TypeScript.isBody_units_iff.mpr h
    have hquoted : readQuotedName ((TypeScript.singleQuoted name).toList ++ ']' :: '}' :: rest) =
        some (units name.toList, ']' :: '}' :: rest) := by
      rw [TypeScript.toList_singleQuoted, List.append_assoc, List.cons_append,
        readQuotedName, if_pos rfl, List.singleton_append, hbody.read, Option.map_some]
      rfl
    rw [TypeScript.toList_propertyAccess_quoted hbare, List.append_assoc, List.singleton_append,
      List.cons_append, readMember, if_neg (by decide), if_pos rfl, hquoted]
    rfl

/-- A placeholder evaluates to the property of its name. -/
theorem evaluate_placeholder (params : List Nat → List Nat) (rest : List Char) :
    evaluate params ((Piece.placeholder name.toList).text ++ rest) =
      (evaluate params rest).map (params (units name.toList) ++ ·) := by
  have htext : (Piece.placeholder name.toList).text ++ rest =
      '$' :: '{' :: ("params".toList ++ ((propertyAccess "" name).toList ++ '}' :: rest)) := by
    rw [Piece.text, String.ofList_toList, TypeScript.propertyAccess_eq, String.toList_append]
    simp
  have hinsertion :
      readInsertion ("params".toList ++ ((propertyAccess "" name).toList ++ '}' :: rest)) =
      some (units name.toList, rest) := by
    rw [readInsertion, Text.after?_eq_some.mpr rfl, Option.bind_some, readMember_propertyAccess h]
    rfl
  rw [htext, evaluate_insertion params hinsertion]

end

/-! ## Filled paths -/

/-- A placeholder stands at the front of a text: a name between braces, which is not empty and
goes on to the first closing brace. -/
structure StandsFirst (name rest text : List Char) : Prop where
  text_eq : text = '{' :: name ++ '}' :: rest
  ne_nil : name ≠ []
  closed : '}' ∉ name

/-- A path with every placeholder filled, the leftmost first. Whatever is no part of one stays. -/
inductive Fills (value : List Char → List Nat) : List Char → List Nat → Prop where
  | nil : Fills value [] []
  | placeholder {name rest text : List Char} {filled : List Nat}
      (hfirst : StandsFirst name rest text)
      (hrest : Fills value rest filled) : Fills value text (value name ++ filled)
  | plain {c : Char} {rest : List Char} {filled : List Nat}
      (hnone : ∀ name after, ¬ StandsFirst name after (c :: rest))
      (hrest : Fills value rest filled) : Fills value (c :: rest) (pointUnits c.toNat ++ filled)

/-- What a part of a path is when it is filled. -/
def Piece.filled (value : List Char → List Nat) : Piece → List Nat
  | plain c => pointUnits c.toNat
  | placeholder name => value name

theorem placeholder?_eq_some {text name rest : List Char} :
    placeholder? text = some (name, rest) ↔ StandsFirst name rest ('{' :: text) := by
  constructor
  · intro h
    unfold placeholder? at h
    split at h
    · rename_i c name' brace rest' htake hdrop
      obtain ⟨rfl, rfl⟩ := Prod.mk.inj (Option.some.inj h)
      have hclosed : '}' ∉ c :: name' := by
        intro hmem
        have hne := List.mem_takeWhile_imp (htake ▸ hmem)
        simp at hne
      -- the run of other characters ends at a brace, since something is behind it
      have hbrace : brace = '}' := by
        have hhead := List.head?_dropWhile_not (fun d => decide (d ≠ '}')) text
        rw [hdrop] at hhead
        simpa using hhead
      have hsplit := List.takeWhile_append_dropWhile (p := fun d => decide (d ≠ '}')) (l := text)
      rw [htake, hdrop, hbrace] at hsplit
      exact ⟨by rw [← hsplit]; rfl, List.cons_ne_nil _ _, hclosed⟩
    · cases h
  · rintro ⟨htext, hne, hclosed⟩
    obtain rfl := (List.cons.inj htext).2
    obtain ⟨c, name', rfl⟩ := List.exists_cons_of_ne_nil hne
    have hname : ∀ d ∈ c :: name', decide (d ≠ '}') = true := by
      intro d hd
      exact decide_eq_true fun he => hclosed (he ▸ hd)
    have hbrace : ∀ d, ('}' :: rest).head? = some d → decide (d ≠ '}') = false := by
      intro d hd
      obtain rfl := Option.some.inj hd
      rfl
    show placeholder? ((c :: name') ++ '}' :: rest) = _
    unfold placeholder?
    rw [Json.takeWhile_run hbrace hname, Json.dropWhile_run hbrace hname]

theorem pieces_of_standsFirst {name rest text : List Char} (h : StandsFirst name rest text) :
    pieces text = .placeholder name :: pieces rest := by
  obtain rfl := h.text_eq
  have hsome := placeholder?_eq_some.mpr h
  rw [List.cons_append, pieces, if_pos rfl]
  split
  · rename_i hsome'
    obtain ⟨rfl, rfl⟩ := Prod.mk.inj (Option.some.inj (hsome'.symm.trans hsome))
    rfl
  · rename_i hnone
    cases hnone.symm.trans hsome

theorem pieces_of_not_standsFirst {c : Char} {rest : List Char}
    (h : ∀ name after, ¬ StandsFirst name after (c :: rest)) :
    pieces (c :: rest) = .plain c :: pieces rest := by
  rw [pieces]
  split
  · rename_i hbrace
    subst hbrace
    split
    · rename_i hsome
      exact absurd (placeholder?_eq_some.mp hsome) (h _ _)
    · rfl
  · rfl

/-- Filling is done part by part, so there is one way to do it. -/
theorem fills_iff {value : List Char → List Nat} {text : List Char} {filled : List Nat} :
    Fills value text filled ↔ filled = (pieces text).flatMap (Piece.filled value) := by
  constructor
  · intro h
    induction h with
    | nil => rw [pieces, List.flatMap_nil]
    | placeholder hfirst _ ih =>
        rw [pieces_of_standsFirst hfirst, List.flatMap_cons, ih, Piece.filled]
    | plain hnone _ ih => rw [pieces_of_not_standsFirst hnone, List.flatMap_cons, ih, Piece.filled]
  · rintro rfl
    fun_induction pieces text with
    | case1 => exact .nil
    | case2 rest name after hsome _ ih => exact .placeholder (placeholder?_eq_some.mp hsome) ih
    | case3 rest hnone ih =>
      refine .plain (fun name after hfirst => ?_) ih
      cases hnone.symm.trans (placeholder?_eq_some.mpr hfirst)
    | case4 c rest hbrace ih =>
      exact .plain (fun name after hfirst => hbrace (List.cons.inj hfirst.text_eq).1) ih

/-- A path that is filled is the value of the literal in which it is printed. -/
theorem Fills.evaluate {params : List Nat → List Nat} {text : List Char} {filled : List Nat}
    (hfills : Fills (fun name => params (units name)) text filled) (h : ∀ c ∈ text, IsInert c) :
    evaluate params ((pieces text).flatMap Piece.text) = some filled := by
  -- a piece is read for each step of the filling
  induction hfills with
  | nil =>
    rw [pieces]
    exact evaluate_nil params
  | @placeholder name rest text filled hfirst _ ih =>
    rw [pieces_of_standsFirst hfirst, List.flatMap_cons]
    rw [hfirst.text_eq] at h
    have hname : ∀ c ∈ (String.ofList name).toList, TypeScript.IsPlain c := by
      intro c hc
      rw [String.toList_ofList] at hc
      exact (h c (List.mem_append_left _ (List.mem_cons_of_mem _ hc))).1
    have hrest := ih fun c hc => h c (List.mem_append_right _ (List.mem_cons_of_mem _ hc))
    have hplaceholder := evaluate_placeholder hname params (List.flatMap Piece.text (pieces rest))
    rw [String.toList_ofList] at hplaceholder
    rw [hplaceholder, hrest, Option.map_some]
  | @plain c rest filled hnone _ ih =>
    obtain ⟨hc, hrest⟩ := List.forall_mem_cons.mp h
    rw [pieces_of_not_standsFirst hnone, List.flatMap_cons, Piece.text, List.singleton_append,
      evaluate_plain params hc, ih hrest, Option.map_some]

/-- **An address is the path with its placeholders filled:** the literal in which a path is
printed has a value, and that is what the path is when it is filled, and nothing else. -/
theorem evaluate_interpolate (params : List Nat → List Nat) (url : String)
    (h : ∀ c ∈ url.toList, IsInert c) :
    ∃ address, evaluate params (interpolate url).toList = some address ∧
      ∀ filled, Fills (fun name => params (units name)) url.toList filled ↔ filled = address := by
  refine ⟨(pieces url.toList).flatMap (Piece.filled fun name => params (units name)), ?_,
    fun _ => fills_iff⟩
  rw [interpolate, String.toList_ofList]
  exact (fills_iff.mpr rfl).evaluate h

/-! ## What an address reads -/

/-- The names that stand in the placeholders of a path. -/
def placeholders (url : String) : List String :=
  (pieces url.toList).filterMap fun piece =>
    match piece with
    | .plain _ => none
    | .placeholder name => some (String.ofList name)

/-- An object in which one property has a value that no text has. -/
def marked (name : List Nat) (property : List Nat) : List Nat :=
  if property = name then [0x10000] else []

/-- What such a character stands for in front of some text. Any line ends with a line feed, so a
carriage return may stand for nothing. -/
def tameUnits (c : Char) (rest : List Char) : List Nat :=
  if c = '\r' then if rest.head? = some '\n' then [] else pointUnits '\n'.toNat
  else pointUnits c.toNat

/-- What parts of a literal evaluate to together. -/
def value (params : List Nat → List Nat) : List Piece → List Nat
  | [] => []
  | .plain c :: rest => tameUnits c (rest.flatMap Piece.text) ++ value params rest
  | .placeholder name :: rest => params (units name) ++ value params rest

/-- Two parts side by side that do not begin an insertion which is none of their own. -/
def Piece.Apart (piece next : Piece) : Prop := ¬ (piece = plain '$' ∧ next = plain '{')

/-- An object in which every property but `owner` has the same value. -/
def petParameters (name : List Nat) : List Nat :=
  if name = units "owner".toList then units "ann".toList else units "7".toList

/-- The path `/{owner}/{{pet-id}{}{`. -/
def petPath : String := "/\x7bowner\x7d/\x7b\x7bpet-id\x7d\x7b\x7d\x7b"

/-- Bare and quoted names are filled, and braces that enclose no name stay. -/
theorem evaluate_petPath : (∀ c ∈ petPath.toList, IsInert c) ∧
    evaluate petParameters (interpolate petPath).toList =
      some (units "/ann/7\x7b\x7d\x7b".toList) := by
  have hinert : ∀ c ∈ petPath.toList, IsInert c := by
    simp [petPath, IsInert, TypeScript.IsPlain]
  have hpieces : pieces petPath.toList = [.plain '/', .placeholder "owner".toList, .plain '/',
      .placeholder ('\x7b' :: "pet-id".toList), .plain '\x7b', .plain '\x7d',
      .plain '\x7b'] := by decide +kernel
  have hfills : Fills (fun name => petParameters (units name)) petPath.toList
      (units "/ann/7\x7b\x7d\x7b".toList) := by
    rw [fills_iff, hpieces]
    decide
  obtain ⟨address, heval, haddress⟩ := evaluate_interpolate petParameters _ hinert
  rw [(haddress _).mp hfills]
  exact ⟨hinert, heval⟩

end ApiClient.Url
