import Mathlib.Data.List.Forall2
import ApiClient.Document.Placeholder
import ApiClient.Proofs.Json.ReadWritten

/-!
# Scanning what is written

Placeholders are found and replaced in a text, without regard to what the text says. What is
looked for always begins with the name of a member and its colon, or with a comma before that.
So nothing is found inside a quoted text, where a quote has a backslash before it, nor at a
value, which has no colon after it: it is found at the members of objects alone, and everything
between them is passed over.
-/

namespace ApiClient.Document

open Json

/-- A character of the names that are looked for. -/
def isNameLetter (c : Char) : Bool := isPlaceholderLetter c || c == '$'

/-- A text goes on with the name of a member and its colon. -/
def NameAhead (text : List Char) : Prop :=
  ∃ name rest, (∀ c ∈ name, isNameLetter c = true) ∧ text = '"' :: name ++ '"' :: ':' :: rest

/-- A text goes on with the name of a member, or with a comma before one. -/
def Anchored (text : List Char) : Prop :=
  NameAhead text ∨ ∃ rest, text = ',' :: rest ∧ NameAhead rest

/-- A way to go through a text from the left, which acts at some of its names and passes over
everything else character by character. -/
structure Scan (β : Type) where
  run : List Char → List β
  /-- What a character gives that is passed over. -/
  emit : Char → List β
  /-- Where it acts. -/
  acts : List Char → Prop
  anchored : ∀ {text}, acts text → Anchored text
  step : ∀ {c text}, ¬ acts (c :: text) → run (c :: text) = emit c ++ run text

/-! ## Where names are -/

theorem not_quote_of_isNameLetter {c : Char} (h : isNameLetter c = true) : c ≠ '"' ∧ c ≠ '\\' := by
  constructor
  · rintro rfl
    exact absurd h (by decide)
  · rintro rfl
    exact absurd h (by decide)

theorem NameAhead.head {c : Char} {rest : List Char} (h : NameAhead (c :: rest)) : c = '"' := by
  obtain ⟨name, rest', -, he⟩ := h
  exact (List.cons.inj he).1

theorem not_anchored_cons {c : Char} {rest : List Char} (hquote : c ≠ '"') (hcomma : c ≠ ',') :
    ¬ Anchored (c :: rest) := by
  rintro (h | ⟨rest', he, -⟩)
  · exact hquote h.head
  · exact hcomma (List.cons.inj he).1

/-- After a closing quote no name begins. -/
theorem not_nameAhead_closing {rest : List Char}
    (h : ∀ c, rest.head? = some c → isNameLetter c = false ∧ c ≠ '"') :
    ¬ NameAhead ('"' :: rest) := by
  rintro ⟨name, rest', hname, he⟩
  have he := (List.cons.inj he).2
  cases name with
  | nil => exact (h '"' (by rw [he]; rfl)).2 rfl
  | cons c name =>
    have hc := (h c (by rw [he]; rfl)).1
    rw [hname c List.mem_cons_self] at hc
    cases hc

/-- A spelling is ahead as a name only if it is the name, with a colon right after it. -/
theorem nameAhead_quoted {chars : List Char} {codes : List Nat} (h : Spells chars codes)
    {rest : List Char} (hahead : NameAhead ('"' :: (chars ++ '"' :: rest))) :
    (∀ c ∈ chars, isNameLetter c = true) ∧ ∃ rest', rest = ':' :: rest' := by
  obtain ⟨name, rest', hname, he⟩ := hahead
  have he := (List.cons.inj he).2
  obtain ⟨rfl, hrest⟩ := h.eq_of_append (fun c hc => not_quote_of_isNameLetter (hname c hc)) he
  exact ⟨hname, rest', hrest⟩

/-- A character that ends a value is in no name. -/
theorem not_nameLetter_of_endsValue {c : Char} (h : endsValue c = true) :
    isNameLetter c = false ∧ c ≠ '"' := by
  rcases endsValue_iff.mp h with rfl | rfl | rfl | rfl | rfl | rfl | rfl <;> decide

/-- A value is not ahead as a name: no colon follows it. -/
theorem not_nameAhead_text (written : Written) {rest : List Char} (hrest : Ended rest) :
    ¬ NameAhead (written.text ++ rest) := by
  intro hahead
  have hafter : Ended (written.padding.after.chars ++ rest) :=
    ended_append written.padding.after.blank hrest
  rw [Written.text] at hahead
  -- a value begins with a blank, or with what is no name
  cases hbefore : written.padding.before.chars with
  | cons b blanks =>
    rw [hbefore] at hahead
    have hblank := written.padding.before.blank b (hbefore ▸ List.mem_cons_self)
    rw [hahead.head] at hblank
    exact absurd hblank (by decide)
  | nil =>
    rw [hbefore, List.nil_append, List.append_assoc] at hahead
    cases written with
    | scalar padding token =>
      cases token with
      | plain word =>
        obtain ⟨c, tail, hchars, hother⟩ := word.cons
        rw [show Written.core (.scalar padding (.plain word)) = c :: tail from hchars] at hahead
        exact hother '"' (by decide) hahead.head
      | quoted spelling =>
        obtain ⟨codes, hspells, -⟩ := spelling.spells
        have htext : Written.core (.scalar padding (.quoted spelling)) ++
            (padding.after.chars ++ rest) =
              '"' :: (spelling.chars ++ '"' :: (padding.after.chars ++ rest)) := by
          show '"' :: spelling.chars ++ ['"'] ++ _ = _
          simp
        have hpadding : Written.padding (.scalar padding (.quoted spelling)) = padding := rfl
        rw [hpadding] at hahead hafter
        rw [htext] at hahead
        -- a text would have to be followed by a colon, and what ends a value is none
        obtain ⟨-, rest', hcolon⟩ := nameAhead_quoted hspells hahead
        exact absurd (hafter ':' (by rw [hcolon]; rfl)) (by decide)
    | array padding inner items => exact absurd hahead.head (by decide)
    | object padding inner members => exact absurd hahead.head (by decide)

/-! ## Passing over -/

namespace Scan

variable {β : Type} (scan : Scan β)

/-- What some characters give that are passed over. -/
def copy (text : List Char) : List β := text.flatMap scan.emit

theorem copy_append (left right : List Char) :
    scan.copy (left ++ right) = scan.copy left ++ scan.copy right := List.flatMap_append

theorem copy_cons (c : Char) (text : List Char) :
    scan.copy (c :: text) = scan.emit c ++ scan.copy text := List.flatMap_cons

theorem run_cons {c : Char} {text : List Char} (h : ¬ Anchored (c :: text)) :
    scan.run (c :: text) = scan.emit c ++ scan.run text :=
  scan.step fun hacts => h (scan.anchored hacts)

/-- Characters with which nothing begins are passed over. -/
theorem run_append {block : List Char} (hblock : ∀ c ∈ block, c ≠ '"' ∧ c ≠ ',')
    (rest : List Char) : scan.run (block ++ rest) = scan.copy block ++ scan.run rest := by
  induction block with
  | nil => rfl
  | cons c block ih =>
    obtain ⟨hquote, hcomma⟩ := hblock c List.mem_cons_self
    rw [List.cons_append, scan.run_cons (not_anchored_cons hquote hcomma),
      ih fun c' hc' => hblock c' (List.mem_cons_of_mem _ hc'), copy_cons, List.append_assoc]

/-- So are characters of a class that quotes and commas are not of. -/
theorem run_class {p : Char → Bool} (hquote : p '"' = false) (hcomma : p ',' = false)
    {block : List Char} (h : ∀ c ∈ block, p c = true) (rest : List Char) :
    scan.run (block ++ rest) = scan.copy block ++ scan.run rest := by
  refine scan.run_append (fun c hc => ?_) rest
  have hclass := h c hc
  constructor
  · rintro rfl
    exact absurd hclass (by simp [hquote])
  · rintro rfl
    exact absurd hclass (by simp [hcomma])

theorem run_blanks (blanks : Blanks) (rest : List Char) :
    scan.run (blanks.chars ++ rest) = scan.copy blanks.chars ++ scan.run rest :=
  scan.run_class (by decide) (by decide) blanks.blank rest

/-- A character in an escape of its code: a digit of it, or one of those in front. -/
def isUnitLetter (c : Char) : Bool := c == '\\' || c == 'u' || (Text.hexValue? c).isSome

/-- Where a text is spelled, nothing is found behind the opening quote: a quote inside it could
only end a name, and then a name has a quote in it. -/
theorem run_spelled {chars : List Char} {codes : List Nat} (h : Spells chars codes)
    {rest : List Char} (hrest : ∀ c, rest.head? = some c → isNameLetter c = false ∧ c ≠ '"')
    (hcolon : rest.head? = some ':' → '"' ∉ chars) :
    scan.run (chars ++ '"' :: rest) = scan.copy (chars ++ ['"']) ++ scan.run rest := by
  have hclosing : ¬ NameAhead ('"' :: rest) := not_nameAhead_closing hrest
  induction h with
  | nil =>
    have hanchored : ¬ Anchored ('"' :: rest) := by
      rintro (h | ⟨rest', he, -⟩)
      · exact hclosing h
      · exact absurd (List.cons.inj he).1 (by decide)
    rw [List.nil_append, List.nil_append, scan.run_cons hanchored, copy_cons, List.append_assoc]
    rfl
  | @plain c chars codes hquote hslash hcontrol hspells ih =>
    have hanchored : ¬ Anchored (c :: (chars ++ '"' :: rest)) := by
      rintro (h | ⟨rest', he, hahead⟩)
      · exact hquote h.head
      · -- a name right after a comma would begin with the closing quote
        rw [← (List.cons.inj he).2] at hahead
        cases chars with
        | nil => exact hclosing hahead
        | cons d chars => exact hspells.ne_quote hahead.head
    rw [List.cons_append, scan.run_cons hanchored,
      ih fun hc hmem => hcolon hc (List.mem_cons_of_mem _ hmem), List.cons_append, copy_cons,
      List.append_assoc]
  | @escape c code chars codes hescape hspells ih =>
    have hcomma : c ≠ ',' := by
      rintro rfl
      cases hescape
    have hanchored : ¬ Anchored (c :: (chars ++ '"' :: rest)) := by
      rintro (h | ⟨rest', he, -⟩)
      · obtain rfl := h.head
        obtain ⟨-, rest', rfl⟩ := nameAhead_quoted hspells h
        exact hcolon rfl (List.mem_cons_of_mem _ List.mem_cons_self)
      · exact hcomma (List.cons.inj he).1
    have hslash : ¬ Anchored ('\\' :: c :: (chars ++ '"' :: rest)) :=
      not_anchored_cons (by decide) (by decide)
    rw [List.cons_append, List.cons_append, scan.run_cons hslash, scan.run_cons hanchored,
      ih fun hc hmem => hcolon hc (List.mem_cons_of_mem _ (List.mem_cons_of_mem _ hmem)),
      List.cons_append, List.cons_append, copy_cons, copy_cons, List.append_assoc,
      List.append_assoc]
  | @unit c₁ c₂ c₃ c₄ d₁ d₂ d₃ d₄ chars codes h₁ h₂ h₃ h₄ hspells ih =>
    have hblock : ∀ c ∈ ['\\', 'u', c₁, c₂, c₃, c₄], isUnitLetter c = true := by
      simp [isUnitLetter, h₁, h₂, h₃, h₄]
    have hrun := scan.run_class (by decide) (by decide) hblock (chars ++ '"' :: rest)
    have hmem : rest.head? = some ':' → '"' ∉ chars := fun hc hmem =>
      hcolon hc (List.mem_append_right ['\\', 'u', c₁, c₂, c₃, c₄] hmem)
    rw [ih hmem, ← List.append_assoc (scan.copy _), ← copy_append] at hrun
    exact hrun

/-- A text that is no name is passed over with its quotes. -/
theorem run_quoted (spelling : Spelling) {rest : List Char} (hrest : Ended rest) :
    scan.run (spelling.quoted ++ rest) = scan.copy spelling.quoted ++ scan.run rest := by
  obtain ⟨codes, hspells, -⟩ := spelling.spells
  have hcolon : rest.head? ≠ some ':' := fun h => absurd (hrest ':' h) (by decide)
  have hquoted : spelling.quoted ++ rest = '"' :: (spelling.chars ++ '"' :: rest) := by
    simp [Spelling.quoted]
  have hanchored : ¬ Anchored ('"' :: (spelling.chars ++ '"' :: rest)) := by
    rintro (h | ⟨rest', he, -⟩)
    · obtain ⟨-, rest', rfl⟩ := nameAhead_quoted hspells h
      exact hcolon rfl
    · exact absurd (List.cons.inj he).1 (by decide)
  rw [hquoted, scan.run_cons hanchored,
    scan.run_spelled hspells (fun c hc => not_nameLetter_of_endsValue (hrest c hc))
      (fun h => absurd h hcolon), ← List.append_assoc, ← copy_cons]
  rfl

/-- Going through `text` gives `out`, whatever follows the text. -/
def Gives (text : List Char) (out : List β) : Prop :=
  ∀ rest, Ended rest → scan.run (text ++ rest) = out ++ scan.run rest

theorem gives_scalar (padding : Padding) (token : Token) :
    scan.Gives (Written.scalar padding token).text
      (scan.copy (Written.scalar padding token).text) := by
  intro rest hrest
  have hafter : Ended (padding.after.chars ++ rest) := ended_append padding.after.blank hrest
  have htoken : scan.run (token.text ++ (padding.after.chars ++ rest)) =
      scan.copy token.text ++ scan.run (padding.after.chars ++ rest) := by
    cases token with
    | plain word => exact scan.run_class (by decide) (by decide) word.isPlain _
    | quoted spelling => exact scan.run_quoted spelling hafter
  show scan.run (padding.before.chars ++ token.text ++ padding.after.chars ++ rest) =
    scan.copy (padding.before.chars ++ token.text ++ padding.after.chars) ++ scan.run rest
  rw [List.append_assoc, List.append_assoc, run_blanks, htoken, run_blanks, copy_append,
    copy_append]
  simp only [List.append_assoc]

/-! ## Lists and objects -/

/-- What parts give with commas between them. -/
def joined : List (List β) → List β
  | [] => []
  | first :: rest => first ++ rest.flatMap (scan.emit ',' ++ ·)

theorem run_mark {c : Char} (hquote : c ≠ '"') (hcomma : c ≠ ',') (rest : List Char) :
    scan.run (c :: rest) = scan.emit c ++ scan.run rest :=
  scan.run_cons (not_anchored_cons hquote hcomma)

/-- What stands between brackets is gone through on its own. -/
theorem run_bracketed {opening closing : Char} (hopening : opening ≠ '"' ∧ opening ≠ ',')
    (hclosing : closing ≠ '"' ∧ closing ≠ ',') (padding : Padding) (inner : Blanks)
    {text : List Char} {out : List β}
    (htext : ∀ rest, scan.run (text ++ closing :: rest) = out ++ scan.run (closing :: rest))
    (rest : List Char) :
    scan.run (padding.before.chars ++ (opening :: inner.chars ++ text ++ [closing]) ++
      padding.after.chars ++ rest) =
      scan.copy (padding.before.chars ++ opening :: inner.chars) ++ out ++
        scan.copy (closing :: padding.after.chars) ++ scan.run rest := by
  have hshape : padding.before.chars ++ (opening :: inner.chars ++ text ++ [closing]) ++
      padding.after.chars ++ rest = padding.before.chars ++ (opening :: (inner.chars ++
        (text ++ closing :: (padding.after.chars ++ rest)))) := by
    simp
  rw [hshape, run_blanks, scan.run_mark hopening.1 hopening.2, run_blanks, htext,
    scan.run_mark hclosing.1 hclosing.2, run_blanks, copy_append, copy_cons, copy_cons]
  simp only [List.append_assoc]

/-- Parts with commas between them give what each of them gives, if nothing begins at a comma. -/
theorem run_joined {closing : Char} (hclosing : endsValue closing = true)
    {texts : List (List Char)} {outs : List (List β)} (h : List.Forall₂ scan.Gives texts outs)
    (hcomma : ∀ text ∈ texts, ∀ rest, Ended rest →
      scan.run (',' :: (text ++ rest)) = scan.emit ',' ++ scan.run (text ++ rest))
    (rest : List Char) :
    scan.run (Written.joined texts ++ closing :: rest) =
      scan.joined outs ++ scan.run (closing :: rest) := by
  -- first for texts that each have a comma in front
  have htail : ∀ {texts : List (List Char)} {outs : List (List β)},
      List.Forall₂ scan.Gives texts outs →
      (∀ text ∈ texts, ∀ rest, Ended rest →
        scan.run (',' :: (text ++ rest)) = scan.emit ',' ++ scan.run (text ++ rest)) →
      Ended (texts.flatMap (',' :: ·) ++ closing :: rest) ∧
      scan.run (texts.flatMap (',' :: ·) ++ closing :: rest) =
        outs.flatMap (scan.emit ',' ++ ·) ++ scan.run (closing :: rest) := by
    intro texts outs h hcomma
    induction h with
    | nil => exact ⟨ended_cons hclosing, rfl⟩
    | @cons text out texts outs htext _ ih =>
      obtain ⟨hended, hrun⟩ := ih fun text' ht => hcomma text' (List.mem_cons_of_mem _ ht)
      have hshape : (text :: texts).flatMap (',' :: ·) ++ closing :: rest =
          ',' :: (text ++ (texts.flatMap (',' :: ·) ++ closing :: rest)) := by
        simp
      rw [hshape]
      refine ⟨ended_cons (by decide), ?_⟩
      rw [hcomma text List.mem_cons_self _ hended, htext _ hended, hrun, List.flatMap_cons]
      simp only [List.append_assoc]
  cases h with
  | nil => rfl
  | @cons text out texts outs htext htexts =>
    obtain ⟨hended, hrun⟩ := htail htexts fun text' ht => hcomma text' (List.mem_cons_of_mem _ ht)
    have hshape : Written.joined (text :: texts) ++ closing :: rest =
        text ++ (texts.flatMap (',' :: ·) ++ closing :: rest) := by
      simp [Written.joined]
    rw [hshape, htext _ hended, hrun, joined, List.append_assoc]

/-- At a comma before a value, nothing begins. -/
theorem run_comma (written : Written) {rest : List Char} (hrest : Ended rest) :
    scan.run (',' :: (written.text ++ rest)) =
      scan.emit ',' ++ scan.run (written.text ++ rest) := by
  refine scan.run_cons ?_
  rintro (h | ⟨rest', he, hahead⟩)
  · exact absurd h.head (by decide)
  · rw [← (List.cons.inj he).2] at hahead
    exact not_nameAhead_text written hrest hahead

/-- A list gives what its items give. -/
theorem gives_array (padding : Padding) (inner : Blanks) {items : List Written}
    {outs : List (List β)} (h : List.Forall₂ scan.Gives (items.map Written.text) outs) :
    scan.Gives (Written.array padding inner items).text
      (scan.copy (padding.before.chars ++ '[' :: inner.chars) ++ scan.joined outs ++
        scan.copy (']' :: padding.after.chars)) := by
  intro rest _
  rw [Written.text_array]
  refine scan.run_bracketed (by decide) (by decide) padding inner
    (scan.run_joined (by decide) h ?_) rest
  intro text htext rest hrest
  obtain ⟨item, -, rfl⟩ := List.mem_map.mp htext
  exact scan.run_comma item hrest

/-- An object gives what its members give. -/
theorem gives_object (padding : Padding) (inner : Blanks) {members : List (Name × Written)}
    {out : List β}
    (h : ∀ rest, scan.run (Written.joined (members.map Written.memberText) ++ '\x7d' :: rest) =
      out ++ scan.run ('\x7d' :: rest)) :
    scan.Gives (Written.object padding inner members).text
      (scan.copy (padding.before.chars ++ '\x7b' :: inner.chars) ++ out ++
        scan.copy ('\x7d' :: padding.after.chars)) := by
  intro rest _
  rw [Written.text_object]
  exact scan.run_bracketed (by decide) (by decide) padding inner h rest

/-! ## Members -/

/-- A name at which nothing happens is passed over through its colon. -/
theorem run_name (name : Name) (hname : '"' ∉ name.spelling.chars) {rest : List Char}
    (hacts : ¬ scan.acts (name.spelling.quoted ++ (name.after.chars ++ ':' :: rest))) :
    scan.run (name.spelling.quoted ++ (name.after.chars ++ ':' :: rest)) =
      scan.copy (name.spelling.quoted ++ name.after.chars ++ [':']) ++ scan.run rest := by
  obtain ⟨codes, hspells, -⟩ := name.spelling.spells
  have hquoted : name.spelling.quoted ++ (name.after.chars ++ ':' :: rest) =
      '"' :: (name.spelling.chars ++ '"' :: (name.after.chars ++ ':' :: rest)) := by
    simp [Spelling.quoted]
  -- what is behind the closing quote is a blank or the colon, no part of a name
  have hhead : ∀ c, (name.after.chars ++ ':' :: rest).head? = some c →
      isNameLetter c = false ∧ c ≠ '"' := by
    intro c hc
    cases hafter : name.after.chars with
    | nil =>
      rw [hafter] at hc
      obtain rfl := Option.some.inj hc
      decide
    | cons b blanks =>
      rw [hafter] at hc
      obtain rfl := Option.some.inj hc
      have hblank := name.after.blank b (hafter ▸ List.mem_cons_self)
      exact not_nameLetter_of_endsValue (by rw [endsValue, hblank]; rfl)
  rw [hquoted] at hacts ⊢
  rw [scan.step hacts, scan.run_spelled hspells hhead (fun _ => hname), run_blanks,
    scan.run_mark (by decide) (by decide), Spelling.quoted]
  simp only [copy, List.flatMap_append, List.flatMap_cons, List.flatMap_nil, List.append_nil,
    List.nil_append, List.cons_append, List.append_assoc]

/-- A member at which nothing happens gives its name and what its value gives. -/
theorem run_member {name : Name} {value : Written} (hname : '"' ∉ name.spelling.chars)
    {out : List β} (hvalue : scan.Gives value.text out) {rest : List Char} (hrest : Ended rest)
    (hacts : ¬ scan.acts
      (name.spelling.quoted ++ (name.after.chars ++ ':' :: (value.text ++ rest)))) :
    scan.run (Written.memberText (name, value) ++ rest) =
      scan.copy (name.text ++ [':']) ++ out ++ scan.run rest := by
  have hshape : Written.memberText (name, value) ++ rest = name.before.chars ++
      (name.spelling.quoted ++ (name.after.chars ++ ':' :: (value.text ++ rest))) := by
    rw [Written.memberText_eq, Name.text]
    simp
  rw [hshape, run_blanks, scan.run_name name hname hacts, hvalue _ hrest, Name.text]
  simp only [copy_append, List.append_assoc]

end Scan

end ApiClient.Document
