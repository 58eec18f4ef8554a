import ApiClient.Proofs.Document.Loss
import ApiClient.Proofs.Json.Compact
import ApiClient.Proofs.Text.Occurrence

/-!
# Taking placeholders out twice

What is left of a document should have no placeholders left in it, so that taking them out again
changes nothing. But a reference that becomes a plain type, or a member that goes, can leave an
object with a type and a title and nothing else. Taking placeholders out a second time changes
nothing just if no member is left so.
-/

namespace ApiClient.Document

open Json

/-! ## Every step takes something out or does nothing -/

/-- A text is as it was, or something has been taken out of it. -/
def Reduced (before after : List Char) : Prop := after = before ∨ after.length < before.length

theorem Reduced.refl (text : List Char) : Reduced text text := .inl rfl

theorem Reduced.length_le {before after : List Char} (h : Reduced before after) :
    after.length ≤ before.length := by
  rcases h with rfl | h
  · exact Nat.le_refl _
  · exact Nat.le_of_lt h

theorem Reduced.trans {before middle after : List Char} (h : Reduced before middle)
    (h' : Reduced middle after) : Reduced before after := by
  rcases h with rfl | h
  · exact h'
  · exact .inr (Nat.lt_of_le_of_lt h'.length_le h)

theorem Reduced.foldl {α : Type} {step : List Char → α → List Char}
    (hstep : ∀ text item, Reduced text (step text item)) (items : List α) (text : List Char) :
    Reduced text (items.foldl step text) := by
  induction items generalizing text with
  | nil => exact .refl text
  | cons item rest ih => exact (hstep text item).trans (ih (step text item))

theorem reduced_replaceAll {pattern replacement : List Char}
    (hlt : replacement.length < pattern.length) (text : List Char) :
    Reduced text (Text.replaceAll pattern replacement text) := by
  by_cases hoccurs : pattern <:+: text
  · exact .inr (Text.length_replaceAll_lt hlt hoccurs)
  · have hne : pattern ≠ [] := List.ne_nil_of_length_pos (Nat.zero_lt_of_lt hlt)
    exact .inl (Text.replaceAll_of_not_infix hne hoccurs)

namespace Placeholder

theorem length_genericObject : genericObject.length = 15 := by
  rw [genericObject_eq]
  rfl

theorem length_reference (placeholder : Placeholder) :
    placeholder.reference.length = placeholder.key.length + 23 := by
  have hahead : "\"$ref\":\"#/definitions/".toList.length = 22 := rfl
  unfold reference
  rw [List.length_append, List.length_append, hahead, List.length_singleton]
  omega

/-- A reference is longer than what it becomes. -/
theorem length_genericObject_lt (placeholder : Placeholder) :
    genericObject.length < placeholder.reference.length := by
  rw [length_genericObject, length_reference]
  omega

theorem reduced_inlineReferences (text : List Char) (placeholder : Placeholder) :
    Reduced text (inlineReferences text placeholder) :=
  reduced_replaceAll placeholder.length_genericObject_lt text

/-- Taking a placeholder out leaves less of a text in which it occurs. -/
theorem reduced_remove (text : List Char) (placeholder : Placeholder) :
    Reduced text (remove text placeholder) ∧
      (placeholder.text <:+: text → (remove text placeholder).length < text.length) := by
  have hround : ∀ pattern : List Char, pattern ≠ [] → ∀ text,
      Reduced text (Text.replaceAll pattern [] text) :=
    fun _ hne => reduced_replaceAll (List.length_pos_iff.mpr hne)
  have hlater := hround (',' :: placeholder.text) (List.cons_ne_nil _ _) text
  have hearlier :=
    hround (placeholder.text ++ [',']) (List.append_ne_nil_of_right_ne_nil _ (by simp))
    (Text.replaceAll (',' :: placeholder.text) [] text)
  have halone :=
    hround placeholder.text text_ne_nil (Text.replaceAll (placeholder.text ++ [',']) []
    (Text.replaceAll (',' :: placeholder.text) [] text))
  refine ⟨(hlater.trans hearlier).trans halone, fun hoccurs => ?_⟩
  rcases hlater.trans hearlier with hsame | hlt
  · -- neither of the first two rounds has done anything, so the third finds what is there
    rw [remove, hsame]
    exact Text.length_replaceAll_lt (List.length_pos_iff.mpr text_ne_nil) hoccurs
  · exact Nat.lt_of_le_of_lt halone.length_le hlt

theorem infix_of_mem_all {text : List Char} {placeholder : Placeholder}
    (h : placeholder ∈ all text) : placeholder.text <:+: text := by
  fun_induction all text with
  | case1 text other rest hfront _ ih =>
    obtain ⟨-, rfl⟩ := atFront?_eq_some.mp hfront
    rcases List.mem_cons.mp h with rfl | h
    · exact (List.prefix_append _ _).isInfix
    · exact (ih h).trans (List.suffix_append _ _).isInfix
  | case2 => exact absurd h List.not_mem_nil
  | case3 c rest _ ih => exact (ih h).trans (List.suffix_cons c rest).isInfix

end Placeholder

/-- A text is left as it is just if no placeholder is found in it. -/
theorem withoutPlaceholders_eq_self_iff {text : List Char} :
    withoutPlaceholders text = text ↔ Placeholder.all text = [] := by
  constructor
  · intro hsame
    by_contra hsome
    obtain ⟨placeholder, rest, hall⟩ := List.exists_cons_of_ne_nil hsome
    have hoccurs : placeholder.text <:+: text :=
      Placeholder.infix_of_mem_all (hall ▸ List.mem_cons_self)
    have hremove := fun text placeholder => (Placeholder.reduced_remove text placeholder).1
    -- what is found is removed, and nothing makes the text longer
    have hlt : (withoutPlaceholders text).length < text.length := by
      rw [withoutPlaceholders, hall]
      rcases Reduced.foldl Placeholder.reduced_inlineReferences (placeholder :: rest) text
        with hinlined | hlt
      · rw [hinlined, List.foldl_cons]
        exact Nat.lt_of_le_of_lt (Reduced.foldl hremove rest _).length_le
          ((Placeholder.reduced_remove text placeholder).2 hoccurs)
      · exact Nat.lt_of_le_of_lt (Reduced.foldl hremove _ _).length_le hlt
    rw [hsame] at hlt
    exact Nat.lt_irrefl _ hlt
  · intro hnone
    rw [withoutPlaceholders, hnone]
    rfl

/-! ## Members that turn into placeholders -/

variable {placeholders : List Placeholder}

/-- No member of an object turns into a placeholder when the document is normalised. -/
def Lasting (placeholders : List Placeholder) (members : List (Name × Written)) : Prop :=
  ∀ member ∈ members, placeholder? member = none →
    placeholder? (member.1, normalise placeholders member.2) = none

instance (placeholders : List Placeholder) (members : List (Name × Written)) :
    Decidable (Lasting placeholders members) :=
  inferInstanceAs (Decidable (∀ member ∈ members, _ → _))

/-- No placeholder is found just if no member is one. -/
theorem found_eq_nil_iff {written : Written} : found written = [] ↔ written.Every Free := by
  refine ⟨fun hnone => ?_, found_of_free⟩
  have hknown := known_found written
  rw [hnone] at hknown
  refine hknown.mono fun members hknown => ?_
  exact fun member hmember => hknown.eq_none hmember List.not_mem_nil

/-- What a member is left as is no placeholder just if the member has not turned into one. -/
theorem free_normalised_iff (hproper : ∀ placeholder ∈ placeholders, placeholder.Proper)
    {members : List (Name × Written)} (hknown : Known placeholders members) :
    Free (members.filterMap (normalised placeholders)) ↔ Lasting placeholders members := by
  constructor
  · intro hfree member hmember hnone
    have htext := not_mem_texts_of_none hproper hnone
    -- what a reference becomes is no placeholder; any other member is left in place
    by_cases href : memberCore member ∈ references placeholders
    · obtain ⟨-, -, -, padding, token, hvalue, -⟩ := scalar_of_mem_references hproper href
      rw [hvalue]
      exact placeholder?_scalar member.1 padding (.quoted token)
    · refine hfree _ (List.mem_filterMap.mpr ⟨member, hmember, ?_⟩)
      rw [normalised, if_neg htext, if_neg href]
  · intro hlasting left hleft
    obtain ⟨member, hmember, hnormalised⟩ := List.mem_filterMap.mp hleft
    unfold normalised at hnormalised
    split at hnormalised
    · cases hnormalised
    · rename_i htext
      have hnone := hknown.eq_none hmember htext
      split at hnormalised
      · obtain rfl := Option.some.inj hnormalised
        exact placeholder?_scalar _ _ _
      · obtain rfl := Option.some.inj hnormalised
        exact hlasting member hmember hnone

/-- A normalised document is without placeholders just if none of its
members has turned into one. -/
theorem free_normalise_iff (hproper : ∀ placeholder ∈ placeholders, placeholder.Proper)
    {written : Written} (hknown : written.Every (Known placeholders)) :
    (normalise placeholders written).Every Free ↔ written.Every (Lasting placeholders) := by
  induction written with
  | scalar => exact ⟨fun _ => .scalar, fun _ => .scalar⟩
  | array padding inner items ih =>
    have hitems := fun item hitem => ih item hitem (hknown.items item hitem)
    rw [normalise, edit_array]
    constructor
    · intro hfree
      exact .array fun item hitem =>
        (hitems item hitem).mp (hfree.items _ (List.mem_map_of_mem hitem))
    · intro hlasting
      refine .array fun left hleft => ?_
      obtain ⟨item, hitem, rfl⟩ := List.mem_map.mp hleft
      exact (hitems item hitem).mpr (hlasting.items item hitem)
  | object padding inner members ih =>
    have hmembers := fun member hmember => ih member hmember (hknown.inside member hmember)
    rw [normalise_object]
    constructor
    · intro hfree
      refine .object ((free_normalised_iff hproper hknown.here).mp hfree.here)
        fun member hmember => ?_
      refine (hmembers member hmember).mp ?_
      by_cases htext : memberCore member ∈ texts placeholders
      · -- nothing changes inside a placeholder, and there is no other in it
        rw [normalise, edit_of_mem_texts hproper sound_normalRule htext]
        exact (harmless_of_text hproper htext).mono fun _ hharmless => hharmless.none
      · by_cases href : memberCore member ∈ references placeholders
        · obtain ⟨-, -, -, padding, token, hvalue, -⟩ := scalar_of_mem_references hproper href
          rw [hvalue]
          exact .scalar
        · refine hfree.inside (member.1, normalise placeholders member.2) ?_
          refine List.mem_filterMap.mpr ⟨member, hmember, ?_⟩
          rw [normalised, if_neg htext, if_neg href]
    · intro hlasting
      refine .object ((free_normalised_iff hproper hknown.here).mpr hlasting.here)
        fun left hleft => ?_
      obtain ⟨member, hmember, hnormalised⟩ := List.mem_filterMap.mp hleft
      unfold normalised at hnormalised
      split at hnormalised
      · cases hnormalised
      · split at hnormalised
        · obtain rfl := Option.some.inj hnormalised
          exact .scalar
        · obtain rfl := Option.some.inj hnormalised
          exact (hmembers member hmember).mpr (hlasting.inside member hmember)

/-! ## The second time -/

/-- Taking the placeholders out of a text a second time changes nothing. -/
def Settled (text : List Char) : Prop :=
  withoutPlaceholders (withoutPlaceholders text) = withoutPlaceholders text

/--
**One pass settles a text just if it leaves no placeholder.** For a document
whose members are orderly, that is so just if no member turns into a placeholder
by what is taken out of its value.
-/
theorem settled_iff (text : List Char) :
    (Settled text ↔ Placeholder.all (withoutPlaceholders text) = []) ∧
      ∀ written : Written, written.text = text → Ready (found written) written →
        (Settled text ↔ written.Every (Lasting (found written))) := by
  have hsettled : Settled text ↔ Placeholder.all (withoutPlaceholders text) = [] :=
    withoutPlaceholders_eq_self_iff
  refine ⟨hsettled, ?_⟩
  rintro written rfl hready
  have hproper : ∀ placeholder ∈ found written, placeholder.Proper := proper_of_mem_found
  have hnormal : Unquoted (normalise (found written) written) :=
    (ready_edit hproper sound_normalRule hready).unquoted
  rw [hsettled, withoutPlaceholders_text hready, all_text hnormal, found_eq_nil_iff,
    free_normalise_iff hproper (known_found written)]

/-- A document with a placeholder `A` and a definition `B` that refers to
it under a title of its own. -/
def renamedDocument : Written :=
  let member (name text : String) : Name × Written :=
    (.compact name, .scalar .none (.quoted (.compact text)))
  let placeholder : Written := .object .none .none [member "type" "object", member "title" "A"]
  let renamed : Written :=
    .object .none .none [member "$ref" "#/definitions/A", member "title" "B"]
  .object .none .none
    [(.compact "definitions", .object .none .none [(.compact "A", placeholder),
      (.compact "B", renamed)])]

/-- The definition has become a placeholder, and goes the second time. -/
theorem not_settled_renamed : ¬ Settled renamedDocument.text := by
  have hready : Ready (found renamedDocument) renamedDocument := by decide +kernel
  rw [(settled_iff renamedDocument.text).2 renamedDocument rfl hready]
  decide +kernel

end ApiClient.Document
