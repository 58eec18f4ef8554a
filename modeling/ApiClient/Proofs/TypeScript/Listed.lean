import ApiClient.Proofs.Text.Lines
import ApiClient.TypeScript.Literal

/-!
# What stands in a declaration of values

A declaration lists its values between marks: quotes, bars, signs of equality, ends of lines.
Words that stay clear of these marks stand in a declaration only if they stand in its head or in
what is printed of one value. For a text that is the text itself, since an escape only puts
something before a mark. Any other value is printed as JSON, where an escape ends in a letter or
a digit of its own, which the value need not have.
-/

namespace ApiClient.TypeScript

/-! ## Escapes -/

section

variable {pattern chars : List Char} (hquote : '\'' ∉ pattern) (hescape : '\\' ∉ pattern)

include hquote hescape

theorem prefix_of_prefix_escaped (h : pattern <+: chars.flatMap escapeLiteral) :
    pattern <+: chars := by
  induction chars generalizing pattern with
  | nil => exact h
  | cons c chars ih =>
    cases pattern with
    | nil => exact List.nil_prefix
    | cons d pattern =>
      rw [List.flatMap_cons, escapeLiteral] at h
      split at h
      · exact absurd ((List.cons_prefix_cons.mp h).1 ▸ List.mem_cons_self) hescape
      · obtain ⟨rfl, hrest⟩ := List.cons_prefix_cons.mp h
        exact List.cons_prefix_cons.mpr ⟨rfl, ih (List.not_mem_of_not_mem_cons hquote)
          (List.not_mem_of_not_mem_cons hescape) hrest⟩

/-- What needs no escape stands in an escaped text only where it stands in the text. -/
theorem infix_of_infix_escaped (h : pattern <:+: chars.flatMap escapeLiteral) :
    pattern <:+: chars := by
  induction chars with
  | nil => exact h
  | cons c chars ih =>
    rw [List.flatMap_cons] at h
    by_cases hspecial : c = '\\' ∨ c = '\''
    · rw [escapeLiteral, if_pos hspecial] at h
      have hclear : ∀ d ∈ ['\\', c], pattern.head? ≠ some d := by
        intro d hd hhead
        have hmem := List.mem_of_head? hhead
        rcases List.mem_cons.mp hd with rfl | hd
        · exact hescape hmem
        · obtain rfl := List.mem_singleton.mp hd
          exact hspecial.elim (fun he => hescape (he ▸ hmem)) fun he => hquote (he ▸ hmem)
      exact (ih (Text.infix_of_infix_append_right hclear h)).trans
        (List.suffix_cons c chars).isInfix
    · have hplain : escapeLiteral c = [c] := if_neg hspecial
      rw [hplain, List.singleton_append] at h
      rcases List.infix_cons_iff.mp h with h | h
      · refine (prefix_of_prefix_escaped hquote hescape ?_ : pattern <+: c :: chars).isInfix
        rwa [List.flatMap_cons, hplain, List.singleton_append]
      · exact (ih h).trans (List.suffix_cons c chars).isInfix

/-- What needs no escape stands in a literal only if it stands in its text. -/
theorem infix_of_infix_textLiteral {text : String} (h : pattern <:+: (textLiteral text).toList) :
    pattern <:+: text.toList := by
  have hhead : ∀ c ∈ ['\''], pattern.head? ≠ some c := fun c hc he =>
    hquote (List.mem_singleton.mp hc ▸ List.mem_of_head? he)
  have hlast : ∀ c ∈ ['\''], pattern.getLast? ≠ some c := fun c hc he =>
    hquote (List.mem_singleton.mp hc ▸ List.mem_of_getLast? he)
  simp only [textLiteral, singleQuoted, String.toList_append, String.toList_ofList,
    List.append_assoc] at h
  exact infix_of_infix_escaped hquote hescape
    (Text.infix_of_infix_append_left hlast (Text.infix_of_infix_append_right hhead h))

end

namespace Enumeration

/-- What a declaration prints of a value, but for the escapes of a text. -/
def printed : Json → String
  | .string text => text
  | value => value.render

/-- The marks between the parts of a declaration. -/
def marks : List String := [" \x7b\n", "\n", "\n\x7d", " = ", ",", " | ", ";"]

/-- Words that stay clear of the marks of a declaration. -/
structure IsClear (pattern : List Char) : Prop where
  nonempty : pattern ≠ []
  quote : '\'' ∉ pattern
  escape : '\\' ∉ pattern
  marks : ∀ mark ∈ marks, Text.IsForeign mark.toList pattern
  blank : pattern.head? ≠ some ' '

variable {pattern : List Char} (hclear : IsClear pattern)

include hclear

theorem infix_of_infix_literal {value : Json} (h : pattern <:+: (literal value).toList) :
    pattern <:+: (printed value).toList := by
  cases value with
  | string text => exact infix_of_infix_textLiteral hclear.quote hclear.escape h
  | null | bool _ | int _ | double _ | array _ | object _ => exact h

theorem infix_of_infix_memberName {text : String}
    (h : pattern <:+: (memberName (.string text)).toList) : pattern <:+: text.toList := by
  unfold memberName at h
  split at h
  · exact h
  · exact infix_of_infix_textLiteral hclear.quote hclear.escape h

/-- What stands in the line of a text stands in the text. -/
theorem infix_of_infix_memberLine {text : String}
    (h : pattern <:+: (memberLine (.string text)).toList) : pattern <:+: text.toList := by
  have hindent : ∀ c ∈ "  ".toList, pattern.head? ≠ some c := by
    simpa using hclear.blank
  simp only [memberLine, String.toList_append, List.append_assoc] at h
  have h := Text.infix_of_infix_append_right hindent h
  rcases Text.infix_of_infix_append_mark (hclear.marks " = " (by decide)) h with h | h
  · exact infix_of_infix_memberName hclear h
  · exact infix_of_infix_literal hclear
      (Text.infix_of_infix_append_last (hclear.marks "," (by decide)) h)

/-- **What stands in a declaration** stands in its head or in what is printed of a value. -/
theorem infix_of_infix_declaration {name : String} {values : List Json}
    (h : pattern <:+: (declaration name values).toList) :
    (∃ kind ∈ ["export enum ", "export type "], pattern <:+: (kind ++ name).toList) ∨
      ∃ value ∈ values, pattern <:+: (printed value).toList := by
  unfold declaration at h
  split at h
  · rename_i htexts
    simp only [String.toList_append, List.append_assoc] at h
    rw [← List.append_assoc, ← String.toList_append] at h
    rcases Text.infix_of_infix_append_mark (hclear.marks " \x7b\n" (by decide)) h with h | h
    · exact .inl ⟨_, by simp, h⟩
    · have h := Text.infix_of_infix_append_last (hclear.marks "\n\x7d" (by decide)) h
      obtain ⟨line, hline, h⟩ :=
        Text.infix_of_infix_intercalate hclear.nonempty (hclear.marks "\n" (by decide)) h
      obtain ⟨value, hvalue, rfl⟩ := List.mem_map.mp hline
      have htext := List.all_eq_true.mp htexts value hvalue
      cases value with
      | string text => exact .inr ⟨_, hvalue, infix_of_infix_memberLine hclear h⟩
      | null | bool _ | int _ | double _ | array _ | object _ => simp [Json.text?] at htext
  · simp only [String.toList_append, List.append_assoc] at h
    rw [← List.append_assoc, ← String.toList_append] at h
    rcases Text.infix_of_infix_append_mark (hclear.marks " = " (by decide)) h with h | h
    · exact .inl ⟨_, by simp, h⟩
    · have h := Text.infix_of_infix_append_last (hclear.marks ";" (by decide)) h
      obtain ⟨part, hpart, h⟩ :=
        Text.infix_of_infix_intercalate hclear.nonempty (hclear.marks " | " (by decide)) h
      obtain ⟨value, hvalue, rfl⟩ := List.mem_map.mp hpart
      exact .inr ⟨value, hvalue, infix_of_infix_literal hclear h⟩

end Enumeration

end ApiClient.TypeScript
