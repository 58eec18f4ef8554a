import ApiClient.Proofs.TypeScript.Pieces
import ApiClient.Proofs.TypeScript.Unambiguous

/-!
# What is printed is read

A printed type is the text of a phrase for the type, so it is read as the type and as no
other. Each way to print a type keeps this up. Brackets go behind an operand: a phrase
that is none has a blank in its text, and is put in parentheses for that. But a line break
in a text ends its line, and a name may be empty; a type with either cannot be read at all
from what is printed for it.
-/

namespace ApiClient.TypeScript

/-! ## Legible types -/

namespace Tree

mutual

/-- Whether a type has no empty name in it and no text with a line break. -/
def isLegible : Tree → Bool
  | named path => path.all (· != "")
  | literal value => isLegibleLiteral value
  | array item => isLegible item
  | tuple items => allLegible items
  | map value => isLegible value
  | record members => membersLegible members
  | union types => allLegible types
  | intersection types => allLegible types
termination_by structural type => type

def allLegible : List Tree → Bool
  | [] => true
  | type :: rest => isLegible type && allLegible rest
termination_by structural types => types

def membersLegible : List (Member Tree) → Bool
  | [] => true
  | member :: rest => memberLegible member && membersLegible rest
termination_by structural members => members

def memberLegible : Member Tree → Bool
  | ⟨_, _, type⟩ => isLegible type
termination_by structural member => member

end

/-- The union of the literals of some values. -/
def ofValues (values : List Json) : Tree := ofSum (values.map fun value => [literal value])

theorem isLegible_ofValues {values : List Json} (hne : values ≠ []) :
    (ofValues values).isLegible = values.all isLegibleLiteral := by
  have hall : ∀ values : List Json,
      allLegible ((values.map fun value => [literal value]).map ofProduct) =
        values.all isLegibleLiteral := by
    intro values
    induction values with
    | nil => rfl
    | cons value rest ih => rw [List.map_cons, List.map_cons, allLegible, ih, List.all_cons]; rfl
  match values, hne with
  | [value], _ => simp [ofValues, ofSum, ofProduct, isLegible]
  | first :: second :: rest, _ => exact hall (first :: second :: rest)

end Tree

/-! ## Printed types -/

/-- A phrase without operators. -/
def Alternatives.IsOperand (phrase : Alternatives) : Prop :=
  ∃ core arrays, phrase = .last (.last core arrays)

/-- A text is that of a phrase for a type. -/
structure IsTextOf (text : String) (tree : Tree) (phrase : Alternatives) : Prop where
  denotes : phrase.tree = tree
  cut : IsCut text.toList tree.isLegible phrase.tokens
  operand : ' ' ∈ text.toList ∨ phrase.IsOperand

/-- A text is what is printed for a type. -/
def Prints (text : String) (tree : Tree) : Prop := ∃ phrase, IsTextOf text tree phrase

/-- **What is printed for a type is read as the type,** and as no other; it is not
read if the type is not legible. -/
theorem Prints.reads_iff {text : String} {tree other : Tree} (h : Prints text tree) :
    Reads text other ↔ tree.isLegible = true ∧ other = tree := by
  obtain ⟨phrase, hphrase⟩ := h
  have hcut := hphrase.cut.tokens_eq
  -- an illegible literal leaves the text without tokens
  cases hlegible : tree.isLegible with
  | true =>
    rw [hlegible, if_pos rfl] at hcut
    have hreads : Reads text tree := ⟨_, ⟨phrase, hcut, rfl⟩, hphrase.denotes⟩
    constructor
    · exact fun hother => ⟨rfl, hother.unique hreads⟩
    · rintro ⟨-, rfl⟩
      exact hreads
  | false =>
    rw [hlegible, if_neg Bool.false_ne_true] at hcut
    constructor
    · rintro ⟨products, ⟨phrase', htokens, -⟩, -⟩
      rw [hcut] at htokens
      cases htokens
    · rintro ⟨h, -⟩
      cases h

/-- A text that is cut into the tokens of a phrase is read as the phrase. -/
theorem IsCut.readsAs {text : String} {phrase : Alternatives}
    (h : IsCut text.toList true phrase.tokens) : ReadsAs text phrase.products :=
  ⟨phrase, by rw [h.tokens_eq, if_pos rfl], rfl⟩

/-- A phrase in one piece. -/
theorem prints_core {text : String} (core : Primary)
    (hcut : IsCut text.toList core.tree.isLegible core.tokens) : Prints text core.tree := by
  have htokens : (Alternatives.last (.last core 0)).tokens = core.tokens := List.append_nil _
  exact ⟨.last (.last core 0), rfl, htokens ▸ hcut, .inr ⟨core, 0, rfl⟩⟩

/-- A word is printed for the type it names. -/
theorem prints_word {word : String} (hword : isWord word.toList = true)
    (hvalue : Tree.wordLiterals.lookup word = none) : Prints word (.named [word]) := by
  have hne : word ≠ "" := by
    rintro rfl
    cases hword
  have htree : (Primary.name [word]).tree = .named [word] := by
    rw [Primary.tree, Tree.ofPath, hvalue]
    rfl
  have hlegible : (Tree.named [word]).isLegible = true := by simp [Tree.isLegible, hne]
  exact htree ▸ prints_core (.name [word]) (by rw [htree, hlegible]; exact isCut_word hword)

theorem prints_model (key : String) :
    Prints (modelNamespace ++ "." ++ typeName key) (.named [modelNamespace, typeName key]) := by
  have hlegible : (Tree.named [modelNamespace, typeName key]).isLegible =
      (typeName key != "") := by
    have hne : (modelNamespace != "") = true := by decide
    simp [Tree.isLegible, hne]
  exact prints_core (.name [modelNamespace, typeName key]) (hlegible ▸ isCut_model key)

theorem readsAs_model {key name : String} (hname : typeName key = name) (hne : name ≠ "") :
    ReadsAs (modelNamespace ++ "." ++ name) [[.named [modelNamespace, name]]] := by
  subst hname
  have hcut := isCut_model key
  rw [bne_iff_ne.mpr hne] at hcut
  exact ⟨.last (.last (.name [modelNamespace, typeName key]) 0), by rw [hcut.tokens_eq]; rfl, rfl⟩

/-! ## Unions -/

theorem toList_literalUnion (first second : Json) (rest : List Json) :
    (literalUnion (first :: second :: rest)).toList =
      (literal first).toList ++ ' ' :: '|' :: ' ' :: (literalUnion (second :: rest)).toList := by
  unfold literalUnion
  rw [List.map_cons, List.map_cons, String.intercalate_cons_cons, String.toList_append,
    String.toList_append, List.append_assoc]
  rfl

/-- The phrase of a union has an operand for each value. -/
theorem exists_union {values : List Json} (hne : values ≠ [])
    (h : ∀ value ∈ values, isBasic value = true) :
    ∃ phrase : Alternatives, phrase.products = values.map (fun value => [Tree.literal value]) ∧
      IsCut (literalUnion values).toList (values.all isLegibleLiteral) phrase.tokens ∧
      (' ' ∈ (literalUnion values).toList ∨ phrase.IsOperand) := by
  induction values with
  | nil => exact absurd rfl hne
  | cons first rest ih =>
    obtain ⟨hfirst, hrest⟩ := List.forall_mem_cons.mp h
    obtain ⟨core, htree, hcut⟩ := exists_literal hfirst
    cases rest with
    | nil =>
      refine ⟨.last (.last core 0), ?_, ?_, .inr ⟨core, 0, rfl⟩⟩
      · rw [Alternatives.products, Factors.trees, Tree.arrays, htree]
        rfl
      · rw [literalUnion, List.map_singleton, String.intercalate_singleton,
          List.all_cons, List.all_nil,
          Bool.and_true, Alternatives.tokens, Factors.tokens, bracketTokens, List.append_nil]
        exact hcut
    | cons second rest =>
      obtain ⟨phrase, hproducts, hphrase, -⟩ := ih (List.cons_ne_nil _ _) hrest
      rw [toList_literalUnion]
      refine ⟨.more (.last core 0) phrase, ?_, ?_,
        .inl (List.mem_append_right _ List.mem_cons_self)⟩
      · rw [Alternatives.products, Factors.trees, Tree.arrays, htree, hproducts]
        rfl
      · have hunion := hcut.append (hphrase.blank.mark (c := '|') (by decide)).blank
          (parted_cons (by decide) _)
        rwa [Alternatives.tokens, Factors.tokens, bracketTokens, List.append_nil, List.all_cons]

theorem prints_union {values : List Json} (hne : values ≠ [])
    (h : ∀ value ∈ values, isBasic value = true) :
    Prints (literalUnion values) (Tree.ofValues values) := by
  obtain ⟨phrase, hproducts, hcut, hoperand⟩ := exists_union hne h
  refine ⟨phrase, ?_, ?_, hoperand⟩
  · rw [Alternatives.tree, hproducts, Tree.ofValues]
  · rwa [Tree.isLegible_ofValues hne]

/-- A union of legible literals is read as a sum of them. -/
theorem readsAs_union {values : List Json} (hne : values ≠ [])
    (h : ∀ value ∈ values, isBasic value = true) (hlegible : values.all isLegibleLiteral = true) :
    ReadsAs (literalUnion values) (values.map fun value => [Tree.literal value]) := by
  obtain ⟨phrase, hproducts, hcut, -⟩ := exists_union hne h
  rw [hlegible] at hcut
  exact hproducts ▸ hcut.readsAs

/-! ## Arrays and maps -/

theorem bracketTokens_succ (arrays : Nat) :
    bracketTokens (arrays + 1) = bracketTokens arrays ++ [.mark '[', .mark ']'] := by
  induction arrays with
  | zero => rfl
  | succ arrays ih => exact congrArg (fun cut => .mark '[' :: .mark ']' :: cut) ih

/-- A pair of brackets behind a run of tokens. -/
theorem IsCut.brackets {text : List Char} {legible : Bool} {cut : List Token}
    (h : IsCut text legible cut) :
    IsCut (text ++ ['[', ']']) legible (cut ++ [.mark '[', .mark ']']) := by
  have hpair := (h.concat (c := '[') (by decide)).concat (c := ']') (by decide)
  rwa [List.append_assoc, List.append_assoc] at hpair

/-- **Brackets make an array of what is in front of them,** since a text with a blank is put in
parentheses and one without has no operator. -/
theorem Prints.array {text : String} {item : Tree} (h : Prints text item) :
    Prints (TypeExpr.grouped text ++ "[]") item.array := by
  obtain ⟨phrase, rfl, hcut, hoperand⟩ := h
  unfold TypeExpr.grouped
  by_cases hblank : ' ' ∈ text.toList
  · rw [if_pos (by simpa using hblank)]
    refine ⟨.last (.last (.group phrase) 1), rfl, ?_, .inr ⟨_, _, rfl⟩⟩
    have hgroup := ((hcut.concat (c := ')') (by decide)).mark (c := '(') (by decide)).brackets
    simp only [String.toList_append]
    exact hgroup
  · obtain ⟨core, arrays, rfl⟩ := hoperand.resolve_left hblank
    rw [if_neg (by simpa using hblank)]
    refine ⟨.last (.last core (arrays + 1)), rfl, ?_, .inr ⟨_, _, rfl⟩⟩
    have harray := hcut.brackets
    rw [Alternatives.tokens, Factors.tokens, List.append_assoc, ← bracketTokens_succ] at harray
    rw [String.toList_append]
    exact harray

theorem Prints.map {text : String} {value : Tree} (h : Prints text value) :
    Prints ("\x7b[key: string]: " ++ text ++ "\x7d") value.map := by
  obtain ⟨phrase, rfl, hcut, -⟩ := h
  refine prints_core (.map "key" phrase) ?_
  have hvalue := (hcut.concat (c := '\x7d') (by decide)).blank.mark (c := ':') (by decide)
  have hkind := (isCut_word (by decide : isWord "string".toList = true)).append
    (hvalue.mark (c := ']') (by decide)) (parted_cons (by decide) _)
  have hkey := (isCut_word (by decide : isWord "key".toList = true)).append
    (hkind.blank.mark (c := ':') (by decide)) (parted_cons (by decide) _)
  rw [String.toList_append, String.toList_append]
  exact (hkey.mark (c := '[') (by decide)).mark (c := '\x7b') (by decide)

/-! ## Records -/

/-- A text is what is printed for a member. -/
def PrintsMember (text : String) (member : Member Tree) : Prop :=
  ∃ (key : Key) (phrase : Alternatives), key.name = member.name ∧ phrase.tree = member.type ∧
    IsCut text.toList member.type.isLegible
      (key.token :: (colonTokens member.optional ++ phrase.tokens))

theorem Prints.member {text name : String} {type : Tree} (h : Prints text type)
    (hname : IsPlainKey name) (optional : Bool) :
    PrintsMember (propertyKey name ++ TypeExpr.optionalMark optional ++ ": " ++ text)
      ⟨name, optional, type⟩ := by
  obtain ⟨phrase, hdenotes, hcut, -⟩ := h
  obtain ⟨key, hkey, hkeyCut⟩ := exists_key hname
  refine ⟨key, phrase, hkey, hdenotes, ?_⟩
  have htype := hcut.blank.mark (c := ':') (by decide)
  simp only [String.toList_append, List.append_assoc]
  cases optional with
  | false => exact hkeyCut.append htype (parted_cons (by decide) _)
  | true => exact hkeyCut.append (htype.mark (c := '?') (by decide)) (parted_cons (by decide) _)

/-- Members with semicolons between them, and a brace behind them. -/
theorem exists_fields {texts : List String} {members : List (Member Tree)}
    (h : List.Forall₂ PrintsMember texts members) :
    ∃ fields : Fields, fields.members = members ∧
      IsCut (("; ".intercalate texts).toList ++ ['\x7d']) (Tree.membersLegible members)
        fields.tokens := by
  induction h with
  | nil => exact ⟨.none, rfl, IsCut.nil.mark (by decide)⟩
  | @cons text member texts members hmember hmembers ih =>
    -- the last member has no separator behind it, so it is told apart
    obtain ⟨key, phrase, hkey, htype, hcut⟩ := hmember
    obtain ⟨name, optional, type⟩ := member
    obtain rfl : key.name = name := hkey
    obtain rfl : phrase.tree = type := htype
    obtain ⟨fields, hfields, hrest⟩ := ih
    cases hmembers with
    | nil =>
      refine ⟨.last key optional phrase, rfl, ?_⟩
      have hlast := hcut.concat (c := '\x7d') (by decide)
      rw [List.cons_append, List.append_assoc] at hlast
      rw [String.intercalate_singleton, Tree.membersLegible, Tree.membersLegible, Bool.and_true]
      exact hlast
    | cons hsecond hothers =>
      refine ⟨.more key optional phrase .semicolon fields, ?_, ?_⟩
      · rw [Fields.members, hfields]
        rfl
      · have hmore :=
          hcut.append (hrest.blank.mark (c := ';') (by decide)) (parted_cons (by decide) _)
        rw [List.cons_append, List.append_assoc] at hmore
        rw [String.intercalate_cons_cons, String.toList_append, String.toList_append,
          List.append_assoc, List.append_assoc, Tree.membersLegible]
        exact hmore

theorem prints_record {texts : List String} {members : List (Member Tree)}
    (h : List.Forall₂ PrintsMember texts members) :
    Prints ("\x7b" ++ "; ".intercalate texts ++ "\x7d") (.record members) := by
  obtain ⟨fields, rfl, hcut⟩ := exists_fields h
  refine prints_core (.record fields) ?_
  rw [String.toList_append, String.toList_append]
  exact hcut.mark (c := '\x7b') (by decide)

end ApiClient.TypeScript
