import ApiClient.Json.Reader
import ApiClient.TypeScript.TypeExpr

/-!
# The grammar of types

How TypeScript reads a type from a text. The text is cut into tokens, and the tokens are a
phrase: names and literals, parentheses and braces and brackets that enclose phrases, `[]`
behind any of these, operands with `&` between them, and of such products alternatives with `|`
between them. So `[]` binds tighter than `&`, and `&` tighter than `|`. A phrase stands for a
type, which knows of no parentheses.

Beyond ASCII any character may stand in a name. Of the escapes in single quotes only those of a
backslash and a quote are read; texts in double quotes and numbers are read as in JSON.
-/

namespace ApiClient.TypeScript

/-! ## Types -/

/-- A type, whichever way it is written. -/
inductive Tree where
  | named (path : List String)
  | literal (value : Json)
  | array (item : Tree)
  | tuple (items : List Tree)
  /-- An object with any keys. -/
  | map (value : Tree)
  | record (members : List (Member Tree))
  | union (alternatives : List Tree)
  | intersection (factors : List Tree)

namespace Tree

/-- The words that are values. -/
def wordLiterals : List (String × Json) :=
  [("true", .bool true), ("false", .bool false), ("null", .null)]

/-- The type of a name, which may be the word for a value. -/
def ofPath (path : List String) : Tree :=
  match path with
  | [name] => (wordLiterals.lookup name).elim (named [name]) literal
  | path => named path

/-- The intersection of some types; of one type it is that type. -/
def ofProduct : List Tree → Tree
  | [factor] => factor
  | factors => intersection factors

/-- The union of some products; of one product it is that product. -/
def ofSum : List (List Tree) → Tree
  | [product] => ofProduct product
  | products => union (products.map ofProduct)

end Tree

/-! ## Tokens -/

/-- The parts into which a text is cut. -/
inductive Token where
  /-- A name, or names with points between them. -/
  | name (path : List String)
  | text (value : String)
  | number (value : Json)
  | mark (sign : Char)

/-- The characters that are tokens of their own. -/
def marks : List Char := ['(', ')', '\x7b', '\x7d', '[', ']', ':', ';', ',', '?', '|', '&']

/-- A character of a name. -/
def isNameChar (c : Char) : Bool := c.isAlphanum || c == '_' || c == '$' || 0x80 ≤ c.toNat

/-- A character of names with points between them. -/
def isPathChar (c : Char) : Bool := isNameChar c || c == '.'

/-- Whether characters are a name: some, and no digit in front. -/
def isName : List Char → Bool
  | [] => false
  | c :: _ => !c.isDigit

/-- The names of a run of characters, if it is one. -/
def path? (chars : List Char) : Option (List String) :=
  let parts := chars.splitOn '.'
  if parts.all isName then some (parts.map String.ofList) else none

/-- Reads a text in single quotes, from behind the first of them; it ends on its line. -/
def readSingle : List Char → Option (List Char × List Char)
  | [] => none
  | c :: rest =>
    if c = '\'' then some ([], rest)
    else if c = '\n' ∨ c = '\r' then none
    else if c = '\\' then
      match rest with
      | escaped :: after =>
        if escaped = '\\' ∨ escaped = '\'' then
          (readSingle after).map fun (chars, after) => (escaped :: chars, after)
        else none
      | [] => none
    else (readSingle rest).map fun (chars, after) => (c :: chars, after)

/-- The token at the front of a text, and what is behind it. -/
def nextToken : List Char → Option (Token × List Char)
  | [] => none
  | c :: rest =>
    if c ∈ marks then some (.mark c, rest)
    else if c = '\'' then
      (readSingle rest).map fun (chars, after) => (.text (String.ofList chars), after)
    else if c = '"' then
      match Json.readText (c :: rest) .value with
      | .ok reading => some (.text reading.value, reading.rest)
      | .error _ => none
    else if c.isDigit ∨ c = '-' then
      (Json.readNumeral? (c :: rest)).map fun (numeral, after) => (.number numeral.value, after)
    else
      (path? ((c :: rest).takeWhile isPathChar)).map fun path =>
        (.name path, (c :: rest).dropWhile isPathChar)

theorem length_of_readSingle {text chars after : List Char}
    (h : readSingle text = some (chars, after)) : after.length < text.length := by
  fun_induction readSingle text generalizing chars with
  | case1 => cases h
  | case2 rest =>
    obtain ⟨-, rfl⟩ := Prod.mk.inj (Option.some.inj h)
    exact Nat.lt_succ_self _
  | case3 => cases h
  | case4 escaped rest _ _ _ ih =>
    obtain ⟨⟨chars', after'⟩, hread, he⟩ := Option.map_eq_some_iff.mp h
    obtain ⟨-, rfl⟩ := Prod.mk.inj he
    exact Nat.lt_succ_of_lt (Nat.lt_succ_of_lt (ih hread))
  | case5 => cases h
  | case6 => cases h
  | case7 c rest _ _ _ ih =>
    obtain ⟨⟨chars', after'⟩, hread, he⟩ := Option.map_eq_some_iff.mp h
    obtain ⟨-, rfl⟩ := Prod.mk.inj he
    exact Nat.lt_succ_of_lt (ih hread)

/-- A path has a character. -/
theorem ne_nil_of_path? {chars : List Char} {path : List String} (h : path? chars = some path) :
    chars ≠ [] := by
  rintro rfl
  cases h

/-- A token has a character. -/
theorem length_of_nextToken {text after : List Char} {token : Token}
    (h : nextToken text = some (token, after)) : after.length < text.length := by
  cases text with
  | nil => cases h
  | cons c rest =>
    rw [nextToken] at h
    split at h
    · obtain ⟨-, rfl⟩ := Prod.mk.inj (Option.some.inj h)
      exact Nat.lt_succ_self _
    · split at h
      · obtain ⟨⟨chars, after'⟩, hread, he⟩ := Option.map_eq_some_iff.mp h
        obtain ⟨-, rfl⟩ := Prod.mk.inj he
        exact Nat.lt_succ_of_lt (length_of_readSingle hread)
      · split at h
        · split at h
          · rename_i reading _
            obtain ⟨-, rfl⟩ := Prod.mk.inj (Option.some.inj h)
            exact reading.shorter
          · cases h
        · split at h
          · obtain ⟨⟨numeral, after'⟩, hread, he⟩ := Option.map_eq_some_iff.mp h
            obtain ⟨-, rfl⟩ := Prod.mk.inj he
            exact Json.length_of_readNumeral? hread
          · obtain ⟨path, hpath, he⟩ := Option.map_eq_some_iff.mp h
            obtain ⟨-, rfl⟩ := Prod.mk.inj he
            -- a path has a character, so the run of them is not empty
            cases hc : isPathChar c with
            | false =>
              exact absurd (List.takeWhile_cons_of_neg (by simp [hc])) (ne_nil_of_path? hpath)
            | true =>
              rw [List.dropWhile_cons_of_pos hc]
              exact Nat.lt_succ_of_le (Json.length_dropWhile_le _ _)

/-- The tokens of a text, if it is cut into tokens. -/
def tokens (text : List Char) : Option (List Token) :=
  match hskip : Json.skipBlanks text with
  | [] => some []
  | c :: rest =>
    match hnext : nextToken (c :: rest) with
    | none => none
    | some (token, after) =>
      have : after.length < text.length :=
        Nat.lt_of_lt_of_le (length_of_nextToken hnext) (hskip ▸ Json.length_skipBlanks_le text)
      (tokens after).map (token :: ·)
termination_by text.length

/-! ## Phrases -/

/-- The key of a member: a name, or a text. -/
inductive Key where
  | bare (name : String)
  | quoted (name : String)

/-- What separates the members of a record. -/
inductive Separator where
  | semicolon
  | comma

mutual

/-- A phrase that no operator takes apart. -/
inductive Primary where
  | name (path : List String)
  | text (value : String)
  | number (value : Json)
  | group (type : Alternatives)
  | tuple (items : Items)
  /-- An object whose keys are given a name. -/
  | map (key : String) (value : Alternatives)
  | record (fields : Fields)

/-- Phrases with `&` between them; behind each some pairs of brackets. -/
inductive Factors where
  | last (core : Primary) (arrays : Nat)
  | more (core : Primary) (arrays : Nat) (rest : Factors)

/-- Products with `|` between them. -/
inductive Alternatives where
  | last (factors : Factors)
  | more (factors : Factors) (rest : Alternatives)

/-- What is in the brackets of a tuple. -/
inductive Items where
  | none
  | last (type : Alternatives)
  | more (type : Alternatives) (rest : Items)

/-- What is in the braces of a record. -/
inductive Fields where
  | none
  | last (key : Key) (optional : Bool) (type : Alternatives)
  | more (key : Key) (optional : Bool) (type : Alternatives) (separator : Separator)
      (rest : Fields)

end

/-! ## The tokens of a phrase -/

def Key.name : Key → String
  | bare name | quoted name => name

def Key.token : Key → Token
  | bare name => .name [name]
  | quoted name => .text name

def Separator.token : Separator → Token
  | semicolon => .mark ';'
  | comma => .mark ','

/-- The tokens of some pairs of brackets. -/
def bracketTokens : Nat → List Token
  | 0 => []
  | arrays + 1 => .mark '[' :: .mark ']' :: bracketTokens arrays

/-- The tokens between the key and the type of a member. -/
def colonTokens (optional : Bool) : List Token :=
  if optional then [.mark '?', .mark ':'] else [.mark ':']

mutual

def Primary.tokens : Primary → List Token
  | .name path => [.name path]
  | .text value => [.text value]
  | .number value => [.number value]
  | .group type => .mark '(' :: (type.tokens ++ [.mark ')'])
  | .tuple items => .mark '[' :: items.tokens
  | .map key value =>
      [.mark '\x7b', .mark '[', .name [key], .mark ':', .name ["string"], .mark ']',
      .mark ':'] ++ (value.tokens ++ [.mark '\x7d'])
  | .record fields => .mark '\x7b' :: fields.tokens
termination_by structural primary => primary

def Factors.tokens : Factors → List Token
  | .last core arrays => core.tokens ++ bracketTokens arrays
  | .more core arrays rest => core.tokens ++ (bracketTokens arrays ++ .mark '&' :: rest.tokens)
termination_by structural factors => factors

def Alternatives.tokens : Alternatives → List Token
  | .last factors => factors.tokens
  | .more factors rest => factors.tokens ++ .mark '|' :: rest.tokens
termination_by structural alternatives => alternatives

/-- The tokens through the closing bracket. -/
def Items.tokens : Items → List Token
  | .none => [.mark ']']
  | .last type => type.tokens ++ [.mark ']']
  | .more type rest => type.tokens ++ .mark ',' :: rest.tokens
termination_by structural items => items

/-- The tokens through the closing brace. -/
def Fields.tokens : Fields → List Token
  | .none => [.mark '\x7d']
  | .last key optional type =>
      key.token :: (colonTokens optional ++ (type.tokens ++ [.mark '\x7d']))
  | .more key optional type separator rest =>
    key.token :: (colonTokens optional ++ (type.tokens ++ separator.token :: rest.tokens))
termination_by structural fields => fields

end

/-! ## The type of a phrase -/

/-- An array of arrays, as many as there are pairs of brackets. -/
def Tree.arrays (item : Tree) : Nat → Tree
  | 0 => item
  | count + 1 => (item.arrays count).array

mutual

def Primary.tree : Primary → Tree
  | .name path => Tree.ofPath path
  | .text value => .literal (.string value)
  | .number value => .literal value
  | .group type => Tree.ofSum type.products
  | .tuple items => .tuple items.trees
  | .map _ value => .map (Tree.ofSum value.products)
  | .record fields => .record fields.members
termination_by structural primary => primary

def Factors.trees : Factors → List Tree
  | .last core arrays => [core.tree.arrays arrays]
  | .more core arrays rest => core.tree.arrays arrays :: rest.trees
termination_by structural factors => factors

/-- The types of the products, each as the list of its factors. -/
def Alternatives.products : Alternatives → List (List Tree)
  | .last factors => [factors.trees]
  | .more factors rest => factors.trees :: rest.products
termination_by structural alternatives => alternatives

def Items.trees : Items → List Tree
  | .none => []
  | .last type => [Tree.ofSum type.products]
  | .more type rest => Tree.ofSum type.products :: rest.trees
termination_by structural items => items

def Fields.members : Fields → List (Member Tree)
  | .none => []
  | .last key optional type => [⟨key.name, optional, Tree.ofSum type.products⟩]
  | .more key optional type _ rest =>
      ⟨key.name, optional, Tree.ofSum type.products⟩ :: rest.members
termination_by structural fields => fields

end

/-- The type that is read from a whole phrase. -/
def Alternatives.tree (type : Alternatives) : Tree := Tree.ofSum type.products

/-! ## Reading -/

/-- A text is read as a sum of products if it is cut into the tokens of a phrase for it. -/
def ReadsAs (text : String) (products : List (List Tree)) : Prop :=
  ∃ phrase : Alternatives, tokens text.toList = some phrase.tokens ∧ phrase.products = products

/-- A text is read as a type. -/
def Reads (text : String) (tree : Tree) : Prop :=
  ∃ products, ReadsAs text products ∧ Tree.ofSum products = tree

end ApiClient.TypeScript
