import Mathlib.Data.List.Forall2
import ApiClient.Proofs.TypeScript.Lexing
import ApiClient.Proofs.TypeScript.Unambiguous

/-!
# Texts with `&` between them

An `&` joins the product before it with the product behind it, and leaves alone what a `|` parts
from them. So texts with `&` between them are read as the intersection of what they are read as
alone only if there is just one text, or none of them is read as a union of several products.
-/

namespace ApiClient.TypeScript

/-! ## Phrases -/

/-- Two products with an `&` between them. -/
def Factors.join : Factors → Factors → Factors
  | .last core arrays, others => .more core arrays others
  | .more core arrays rest, others => .more core arrays (rest.join others)
termination_by structural factors => factors

theorem Factors.tokens_join (factors others : Factors) :
    (factors.join others).tokens = factors.tokens ++ .mark '&' :: others.tokens := by
  cases factors with
  | last core arrays => simp [join, tokens]
  | more core arrays rest => simp [join, tokens, rest.tokens_join others]
termination_by structural factors

theorem Factors.trees_join (factors others : Factors) :
    (factors.join others).trees = factors.trees ++ others.trees := by
  cases factors with
  | last core arrays => rfl
  | more core arrays rest => simp [join, trees, rest.trees_join others]
termination_by structural factors

/-- Two sums with an `&` between them. -/
def Alternatives.meet : Alternatives → Alternatives → Alternatives
  | .last factors, .last others => .last (factors.join others)
  | .last factors, .more others rest => .more (factors.join others) rest
  | .more factors rest, other => .more factors (rest.meet other)
termination_by structural type => type

theorem Alternatives.tokens_meet (type other : Alternatives) :
    (type.meet other).tokens = type.tokens ++ .mark '&' :: other.tokens := by
  cases type with
  | last factors => cases other <;> simp [meet, tokens, Factors.tokens_join]
  | more factors rest => simp [meet, tokens, rest.tokens_meet other]
termination_by structural type

/-! ## Sums -/

/-- The products of two sums with an `&` between them. -/
def meet : List (List Tree) → List (List Tree) → List (List Tree)
  | [], others => others
  | [last], [] => [last]
  | [last], first :: others => (last ++ first) :: others
  | product :: rest, others => product :: meet rest others

/-- The products of several sums with `&` between them. -/
def meetAll : List (List (List Tree)) → List (List Tree)
  | [] => []
  | [sum] => sum
  | sum :: rest => meet sum (meetAll rest)

theorem meetAll_cons_cons (first second : List (List Tree)) (rest : List (List (List Tree))) :
    meetAll (first :: second :: rest) = meet first (meetAll (second :: rest)) := rfl

theorem Alternatives.products_ne_nil (type : Alternatives) : type.products ≠ [] := by
  cases type <;> exact List.cons_ne_nil _ _

theorem Factors.trees_ne_nil (factors : Factors) : factors.trees ≠ [] := by
  cases factors <;> exact List.cons_ne_nil _ _

theorem Alternatives.ne_nil_of_mem_products (type : Alternatives) :
    ∀ product ∈ type.products, product ≠ [] := by
  cases type with
  | last factors =>
    exact List.forall_mem_singleton.mpr factors.trees_ne_nil
  | more factors rest =>
    exact List.forall_mem_cons.mpr ⟨factors.trees_ne_nil, rest.ne_nil_of_mem_products⟩
termination_by structural type

theorem meet_cons {rest : List (List Tree)} (hne : rest ≠ []) (product : List Tree)
    (others : List (List Tree)) : meet (product :: rest) others = product :: meet rest others := by
  cases rest with
  | nil => exact absurd rfl hne
  | cons second rest => rfl

theorem Alternatives.products_meet (type other : Alternatives) :
    (type.meet other).products = TypeScript.meet type.products other.products := by
  cases type with
  | last factors =>
    cases other <;> exact congrArg (· :: _) (factors.trees_join _)
  | more factors rest =>
    rw [meet, products, products, meet_cons rest.products_ne_nil, rest.products_meet other]
termination_by structural type

/-! ## Reading -/

/-- Two texts with an `&` between them. -/
theorem ReadsAs.meet {text other : String} {sum others : List (List Tree)} (h : ReadsAs text sum)
    (hother : ReadsAs other others) : ReadsAs (text ++ " & " ++ other) (meet sum others) := by
  obtain ⟨phrase, htokens, rfl⟩ := h
  obtain ⟨phrase', htokens', rfl⟩ := hother
  refine ⟨phrase.meet phrase', ?_, phrase.products_meet phrase'⟩
  have htext : (text ++ " & " ++ other).toList = text.toList ++ ' ' :: '&' ::
      ' ' :: other.toList := by
    rw [String.toList_append, String.toList_append, List.append_assoc]
    rfl
  rw [htext, tokens_append htokens (parted_cons (by decide) _), tokens_blank rfl,
    tokens_mark (by decide), tokens_blank rfl, htokens', phrase.tokens_meet]
  rfl

/-- **An `&` takes the products next to it.** -/
theorem readsAs_intercalate {texts : List String} {sums : List (List (List Tree))}
    (h : List.Forall₂ ReadsAs texts sums) (hne : texts ≠ []) :
    ReadsAs (" & ".intercalate texts) (meetAll sums) := by
  induction h with
  | nil => exact absurd rfl hne
  | cons hfirst hrest ih =>
    cases hrest with
    | nil =>
      rw [String.intercalate_singleton]
      exact hfirst
    | cons hsecond hothers =>
      rw [String.intercalate_cons_cons]
      exact hfirst.meet (ih (List.cons_ne_nil _ _))

/-! ## Intersections -/

/-- The factors that a sum adds to an intersection: a sum of several products is one factor. -/
def factorsOf : List (List Tree) → List Tree
  | [product] => product
  | sum => [Tree.ofSum sum]

/-- The intersection of several sums. -/
def Tree.meet (sums : List (List (List Tree))) : Tree := Tree.ofProduct (sums.flatMap factorsOf)

/-- What a text can be read as: there are products, and each has a factor. -/
structure IsSum (sum : List (List Tree)) : Prop where
  product : sum ≠ []
  factor : ∀ product ∈ sum, product ≠ []

theorem ReadsAs.isSum {text : String} {sum : List (List Tree)}
    (h : ReadsAs text sum) : IsSum sum := by
  obtain ⟨phrase, -, rfl⟩ := h
  exact ⟨phrase.products_ne_nil, phrase.ne_nil_of_mem_products⟩

theorem IsSum.factorsOf_ne_nil {sum : List (List Tree)} (h : IsSum sum) : factorsOf sum ≠ [] := by
  match sum, h with
  | [product], h => exact h.factor product List.mem_cons_self
  | [], _ => exact List.cons_ne_nil _ _
  | _ :: _ :: _, _ => exact List.cons_ne_nil _ _

section

variable {sums : List (List (List Tree))}

theorem length_meet {sum others : List (List Tree)} (hsum : sum ≠ []) (hothers : others ≠ []) :
    (meet sum others).length + 1 = sum.length + others.length := by
  induction sum with
  | nil => exact absurd rfl hsum
  | cons product rest ih =>
    cases rest with
    | nil =>
      obtain ⟨first, others, rfl⟩ := List.exists_cons_of_ne_nil hothers
      simp only [meet, List.length_cons, List.length_nil]
      omega
    | cons second rest =>
      have hrest := ih (List.cons_ne_nil _ _)
      rw [meet_cons (List.cons_ne_nil _ _)]
      simp only [List.length_cons] at hrest ⊢
      omega

theorem meetAll_ne_nil (hne : sums ≠ []) (h : ∀ sum ∈ sums, sum ≠ []) : meetAll sums ≠ [] := by
  induction sums with
  | nil => exact absurd rfl hne
  | cons sum rest ih =>
    obtain ⟨hsum, hrest⟩ := List.forall_mem_cons.mp h
    cases rest with
    | nil => exact hsum
    | cons second rest =>
      have hmeet := length_meet hsum (ih (List.cons_ne_nil _ _) hrest)
      have hpos := List.length_pos_iff.mpr hsum
      have hpos' := List.length_pos_iff.mpr (ih (List.cons_ne_nil _ _) hrest)
      rw [meetAll_cons_cons]
      exact List.ne_nil_of_length_pos (by omega)

/-- No product of a sum is lost. -/
theorem length_le_meetAll (h : ∀ sum ∈ sums, sum ≠ []) {sum : List (List Tree)}
    (hsum : sum ∈ sums) : sum.length ≤ (meetAll sums).length := by
  induction sums with
  | nil => cases hsum
  | cons first rest ih =>
    obtain ⟨hfirst, hrest⟩ := List.forall_mem_cons.mp h
    cases rest with
    | nil => rw [List.mem_singleton.mp hsum]; exact Nat.le_refl _
    | cons second rest =>
      have hothers := meetAll_ne_nil (List.cons_ne_nil second rest) hrest
      have hmeet := length_meet hfirst hothers
      have hpos := List.length_pos_iff.mpr hfirst
      have hpos' := List.length_pos_iff.mpr hothers
      rw [meetAll_cons_cons]
      rcases List.mem_cons.mp hsum with rfl | hsum
      · omega
      · have hle := ih hrest hsum
        omega

/-- Products are joined to one product. -/
theorem meetAll_of_products (hne : sums ≠ []) (h : ∀ sum ∈ sums, sum.length = 1) :
    meetAll sums = [sums.flatMap factorsOf] := by
  induction sums with
  | nil => exact absurd rfl hne
  | cons sum rest ih =>
    obtain ⟨hsum, hrest⟩ := List.forall_mem_cons.mp h
    obtain ⟨product, rfl⟩ := List.length_eq_one_iff.mp hsum
    cases rest with
    | nil => simp [meetAll, factorsOf]
    | cons second rest =>
      rw [List.flatMap_cons, meetAll_cons_cons, ih (List.cons_ne_nil _ _) hrest]
      rfl

/-- Every sum adds a factor to the intersection. -/
theorem length_le_flatMap_factorsOf (h : ∀ sum ∈ sums, IsSum sum) :
    sums.length ≤ (sums.flatMap factorsOf).length := by
  induction sums with
  | nil => exact Nat.le_refl _
  | cons sum rest ih =>
    obtain ⟨hsum, hrest⟩ := List.forall_mem_cons.mp h
    have hpos := List.length_pos_iff.mpr hsum.factorsOf_ne_nil
    have hle := ih hrest
    rw [List.flatMap_cons, List.length_append, List.length_cons]
    omega

theorem ofSum_of_two_le {sum : List (List Tree)} (h : 2 ≤ sum.length) :
    Tree.ofSum sum = .union (sum.map Tree.ofProduct) := by
  match sum, h with
  | _ :: _ :: _, _ => rfl

theorem ofProduct_of_two_le {factors : List Tree} (h : 2 ≤ factors.length) :
    Tree.ofProduct factors = .intersection factors := by
  match factors, h with
  | _ :: _ :: _, _ => rfl

/-- Sums with `&` between them are their intersection only if no `|` is taken apart. -/
theorem ofSum_meetAll_eq_iff (hne : sums ≠ []) (h : ∀ sum ∈ sums, IsSum sum) :
    Tree.ofSum (meetAll sums) = Tree.meet sums ↔
      sums.length = 1 ∨ ∀ sum ∈ sums, sum.length = 1 := by
  constructor
  · intro he
    by_contra hnot
    obtain ⟨hmany, hproducts⟩ := not_or.mp hnot
    obtain ⟨sum, hsum, hlength⟩ : ∃ sum ∈ sums, sum.length ≠ 1 := by simpa using hproducts
    have hpos := List.length_pos_iff.mpr hne
    have hpos' := List.length_pos_iff.mpr (h sum hsum).product
    have hle := length_le_meetAll (fun sum hsum => (h sum hsum).product) hsum
    have hle' := length_le_flatMap_factorsOf h
    -- what is read is a union, and the intersection has a factor for each text
    rw [Tree.meet, ofSum_of_two_le (by omega), ofProduct_of_two_le (by omega)] at he
    cases he
  · rintro (hone | hproducts)
    · obtain ⟨sum, rfl⟩ := List.length_eq_one_iff.mp hone
      match sum with
      | [] => rfl
      | [product] => simp [meetAll, Tree.meet, factorsOf, Tree.ofSum]
      | _ :: _ :: _ => rfl
    · rw [meetAll_of_products hne hproducts]
      rfl

end

end ApiClient.TypeScript
