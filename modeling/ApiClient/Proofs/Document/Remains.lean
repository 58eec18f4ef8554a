import ApiClient.Proofs.Document.Cut
import ApiClient.Proofs.Document.Loss
import ApiClient.Proofs.Json.Compact

/-!
# What remains of a document

`remains` is what is left of a document when all its placeholders are cut out one after the
other, wherever its blanks stand. A later placeholder can take a comma along that an
earlier one has left, and an object can turn into a placeholder by what it loses, so that
nothing less than the rounds themselves tells what is left. What is left is JSON just if no
gap stands beside another slot.
-/

namespace ApiClient.Document

open Json

variable {placeholder : Placeholder}

/-- A document in which the references to its placeholders have become plain types. -/
def inlinedAll (written : Written) : Written :=
  (found written).foldl (fun written placeholder => edit (inlineRule placeholder) written) written

/-- What is left of a document when its placeholders are cut out. -/
def remains (written : Written) : Gapped :=
  (found written).foldl cutOut (inlinedAll written).gapless

/-! ## Names stay without quotes -/

/-- The name in a slot, if there is one, has no quote in it, and none inside has. -/
def PlainSlot (slot : Slot) : Prop :=
  ∀ name value, slot = .member name value → '"' ∉ name.spelling.chars ∧ Plainly value

theorem plainly_object_iff {padding : Padding} {slots : List Slot} :
    Plainly (.object padding slots) ↔ ∀ slot ∈ slots, PlainSlot slot := by
  constructor
  · intro h slot hslot name value he
    cases h with
    | object hnames hvalues =>
        exact ⟨hnames name value (he ▸ hslot), hvalues name value (he ▸ hslot)⟩
  · intro h
    exact .object (fun name value hslot => (h _ hslot name value rfl).1)
      fun name value hslot => (h _ hslot name value rfl).2

theorem plainSlot_gap (blanks : Blanks) : PlainSlot (.gap blanks) := by
  intro name value he
  cases he

theorem PlainSlot.lead {slot : Slot} (h : PlainSlot slot) (blanks : Blanks) :
    PlainSlot (slot.lead blanks) := by
  intro name value he
  cases slot with
  | gap others => cases he
  | member name' value' =>
    obtain ⟨rfl, rfl⟩ := Slot.member.inj he
    exact h name' value' rfl

theorem PlainSlot.trail {slot : Slot} (h : PlainSlot slot) (blanks : Blanks) :
    PlainSlot (slot.trail blanks) := by
  intro name value he
  cases slot with
  | gap others => cases he
  | member name' value' =>
    obtain ⟨rfl, rfl⟩ := Slot.member.inj he
    obtain ⟨hname, hvalue⟩ := h name' value' rfl
    refine ⟨hname, ?_⟩
    cases hvalue with
    | scalar => exact .scalar
    | array hitems => exact .array hitems
    | object hnames hvalues => exact .object hnames hvalues

/-- A settlement makes slots of nothing but those it is given. -/
def Settles (settle : Settlement) : Prop :=
  ∀ pairs, (∀ pair ∈ pairs, PlainSlot pair.2) → ∀ slot ∈ settle pairs, PlainSlot slot

theorem plainly_cut {settle : Settlement} (hsettle : Settles settle) {value : Gapped}
    (h : Plainly value) : Plainly (cut settle value) := by
  induction h with
  | scalar => exact .scalar
  | @array padding inner items _ ih =>
    rw [cut, cutItems_eq]
    refine .array fun item hitem => ?_
    obtain ⟨original, horiginal, rfl⟩ := List.mem_map.mp hitem
    exact ih original horiginal
  | @object padding slots hnames _ ih =>
    rw [cut, plainly_object_iff, cutSlots_eq]
    refine hsettle _ fun pair hpair => ?_
    obtain ⟨slot, hslot, rfl⟩ := List.mem_map.mp hpair
    cases slot with
    | gap blanks => exact plainSlot_gap blanks
    | member name value =>
      intro name' value' he
      obtain ⟨rfl, rfl⟩ := Slot.member.inj he
      exact ⟨hnames name value hslot, ih name value hslot⟩

theorem settles_laterRow : Settles (laterRow placeholder) := by
  -- the slot in front may get blanks of those that are dropped, and stays plain
  have hdrop : ∀ (pairs : List (Slot × Slot)) (previous : Slot), PlainSlot previous →
      (∀ pair ∈ pairs, PlainSlot pair.2) →
      ∀ slot ∈ dropLater placeholder previous pairs, PlainSlot slot := by
    intro pairs
    induction pairs with
    | nil => exact fun previous hprevious _ slot h => List.mem_singleton.mp h ▸ hprevious
    | cons pair rest ih =>
      intro previous hprevious hpairs slot h
      have hrest := fun other ho => hpairs other (List.mem_cons_of_mem _ ho)
      rw [dropLater] at h
      split at h
      · exact ih _ (hprevious.trail _) hrest slot h
      · rcases List.mem_cons.mp h with rfl | h
        · exact hprevious
        · exact ih _ (hpairs _ List.mem_cons_self) hrest slot h
  intro pairs hpairs slot h
  cases pairs with
  | nil => exact absurd h List.not_mem_nil
  | cons pair rest =>
    exact hdrop rest pair.2 (hpairs _ List.mem_cons_self)
      (fun other ho => hpairs other (List.mem_cons_of_mem _ ho)) slot h

theorem settles_earlierRow : Settles (earlierRow placeholder) := by
  -- the next slot may get blanks of those that are dropped, and stays plain
  have hdrop : ∀ (pairs : List (Slot × Slot)) (left : Blanks),
      (∀ pair ∈ pairs, PlainSlot pair.2) →
      ∀ slot ∈ dropEarlier placeholder left pairs, PlainSlot slot := by
    intro pairs
    induction pairs with
    | nil => exact fun _ _ _ h => absurd h List.not_mem_nil
    | cons pair rest ih =>
      intro left hpairs slot h
      have hfirst := hpairs pair List.mem_cons_self
      cases rest with
      | nil => exact List.mem_singleton.mp h ▸ hfirst.lead left
      | cons next rest =>
        have hrest := fun other ho => hpairs other (List.mem_cons_of_mem _ ho)
        rw [dropEarlier] at h
        split at h
        · exact ih _ hrest slot h
        · rcases List.mem_cons.mp h with rfl | h
          · exact hfirst.lead left
          · exact ih _ hrest slot h
  exact fun pairs => hdrop pairs .none

theorem settles_gapRow : Settles (gapRow placeholder) := by
  intro pairs hpairs slot h
  obtain ⟨pair, hpair, rfl⟩ := List.mem_map.mp h
  dsimp only
  split
  · exact plainSlot_gap _
  · exact hpairs pair hpair

/-! ## All rounds -/

/-- Three rounds of replacing cut a placeholder out. -/
theorem remove_text (hproper : placeholder.Proper) {value : Gapped} (h : Plainly value) :
    Placeholder.remove value.text placeholder = (cutOut value placeholder).text ∧
      Plainly (cutOut value placeholder) := by
  have hlater : Plainly (cut (laterRow placeholder) value) := plainly_cut settles_laterRow h
  have hearlier : Plainly (cut (earlierRow placeholder) (cut (laterRow placeholder) value)) :=
    plainly_cut settles_earlierRow hlater
  refine ⟨?_, plainly_cut settles_gapRow hearlier⟩
  unfold Placeholder.remove
  dsimp only
  rw [replaceAll_laterRow hproper h, replaceAll_earlierRow hproper hlater,
    replaceAll_gapRow hproper hearlier]
  rfl

theorem foldl_remove_text (placeholders : List Placeholder)
    (hproper : ∀ placeholder ∈ placeholders, placeholder.Proper) {value : Gapped}
    (h : Plainly value) :
    placeholders.foldl Placeholder.remove value.text = (placeholders.foldl cutOut value).text := by
  induction placeholders generalizing value with
  | nil => rfl
  | cons placeholder rest ih =>
    obtain ⟨htext, hplainly⟩ := remove_text (hproper placeholder List.mem_cons_self) h
    rw [List.foldl_cons, List.foldl_cons, htext,
      ih (fun other ho => hproper other (List.mem_cons_of_mem _ ho)) hplainly]

/-- Inlining makes no name with a quote in it. -/
theorem unquoted_inline {written : Written} (h : Unquoted written) :
    Unquoted (edit (inlineRule placeholder) written) := by
  induction written with
  | scalar => exact .scalar
  | array padding inner items ih =>
    rw [edit_array]
    refine .array fun item hitem => ?_
    obtain ⟨original, horiginal, rfl⟩ := List.mem_map.mp hitem
    exact ih original horiginal (h.items original horiginal)
  | object padding inner members ih =>
    refine .object (fun edited hedited => ?_) fun edited hedited => ?_
    · obtain ⟨member, hmember, _, _, ⟨-, rfl⟩ | ⟨-, rfl⟩⟩ := mem_editMembers hedited
      · exact h.here member hmember
      · exact (by decide : '"' ∉ "type".toList)
    · obtain ⟨member, hmember, _, _, ⟨-, rfl⟩ | ⟨-, rfl⟩⟩ := mem_editMembers hedited
      · exact ih member hmember (h.inside member hmember)
      · exact .scalar

theorem foldl_inline_text (placeholders : List Placeholder)
    (hproper : ∀ placeholder ∈ placeholders, placeholder.Proper) {written : Written}
    (h : Unquoted written) :
    placeholders.foldl Placeholder.inlineReferences written.text =
        (placeholders.foldl (fun written placeholder => edit (inlineRule placeholder) written)
          written).text ∧
      Unquoted (placeholders.foldl (fun written placeholder =>
        edit (inlineRule placeholder) written) written) := by
  induction placeholders generalizing written with
  | nil => exact ⟨rfl, h⟩
  | cons placeholder rest ih =>
    rw [List.foldl_cons, List.foldl_cons,
      inlineReferences_text (hproper placeholder List.mem_cons_self) h]
    exact ih (fun other ho => hproper other (List.mem_cons_of_mem _ ho)) (unquoted_inline h)

/-- A document without quotes in its names has none without gaps. -/
theorem plainly_gapless {written : Written} (h : Unquoted written) : Plainly written.gapless := by
  induction written with
  | scalar => exact .scalar
  | array padding inner items ih =>
    rw [Written.gapless, Written.gaplessItems_eq]
    refine .array fun item hitem => ?_
    obtain ⟨original, horiginal, rfl⟩ := List.mem_map.mp hitem
    exact ih original horiginal (h.items original horiginal)
  | object padding inner members ih =>
    have hmembers : ∀ slot ∈ members.map Written.gaplessMember, PlainSlot slot := by
      intro slot hslot
      obtain ⟨⟨name, value⟩, hmember, rfl⟩ := List.mem_map.mp hslot
      intro name' value' he
      obtain ⟨rfl, rfl⟩ := Slot.member.inj he
      exact ⟨h.here _ hmember, ih _ hmember (h.inside _ hmember)⟩
    rw [Written.gapless, Written.gaplessMembers_eq, plainly_object_iff]
    -- the blanks behind the opening brace belong to the first slot
    cases hslots : members.map Written.gaplessMember with
    | nil => exact fun slot hslot => List.mem_singleton.mp hslot ▸ plainSlot_gap inner
    | cons first rest =>
      rw [hslots] at hmembers
      intro slot hslot
      rcases List.mem_cons.mp hslot with rfl | hslot
      · exact (hmembers first List.mem_cons_self).lead inner
      · exact hmembers slot (List.mem_cons_of_mem _ hslot)

/-- **Replacing is cutting.** Where no name has a quote in it, taking the placeholders out of
the text of a document gives the text of what remains of it, wherever its blanks stand. -/
theorem withoutPlaceholders_remains {written : Written} (h : Unquoted written) :
    withoutPlaceholders written.text = (remains written).text := by
  have hproper : ∀ placeholder ∈ found written, placeholder.Proper := proper_of_mem_found
  obtain ⟨hinlined, hunquoted⟩ := foldl_inline_text (found written) hproper h
  rw [withoutPlaceholders, all_text h, hinlined, ← Written.text_gapless,
    foldl_remove_text (found written) hproper (plainly_gapless hunquoted)]
  rfl

/-! ## What is left of JSON -/

/-- A text is JSON. -/
def IsJson (text : List Char) : Prop := ∃ value, Json.read text = .ok value

/-- Taking the placeholders out of a text leaves JSON. -/
def StaysJson (text : List Char) : Prop := IsJson (withoutPlaceholders text)

/--
**What stays JSON.** Every text that is JSON is that of a document, and where no
name in it has a quote, it stays JSON just if no gap is left beside another slot
when its placeholders are cut out.
-/
theorem staysJson_iff {text : List Char} (h : IsJson text) :
    (∃ written : Written, written.text = text) ∧
      ∀ written : Written, written.text = text → Unquoted written →
        (StaysJson text ↔ (remains written).Whole) := by
  constructor
  · obtain ⟨value, hread⟩ := h
    obtain ⟨written, htext, -⟩ := Written.read_eq_ok_iff.mp hread
    exact ⟨written, htext⟩
  · rintro written rfl hunquoted
    rw [StaysJson, withoutPlaceholders_remains hunquoted, IsJson]
    constructor
    · rintro ⟨value, hread⟩
      obtain ⟨left, hleft, -⟩ := Gapped.read_text_iff.mp hread
      exact ⟨left, hleft⟩
    · rintro ⟨left, hleft⟩
      exact ⟨_, Gapped.read_text_iff.mpr ⟨left, hleft, rfl⟩⟩

/-! ## A blank after a comma -/

/-- A document with a placeholder behind a comma and a blank. -/
def spacedDocument : Written :=
  let blank : Blanks := ⟨[' '], by decide⟩
  let member (name text : String) : Name × Written :=
    (.compact name, .scalar .none (.quoted (.compact text)))
  let pet : Written := .object .none .none [member "type" "object"]
  let placeholder : Written := .object .none .none [member "type" "object", member "title" "Any"]
  .object .none .none
    [(.compact "definitions", .object .none .none
      [(.compact "Pet", pet), (⟨blank, .compact "Any", .none⟩, placeholder)])]

/-- The comma before the placeholder is left behind. -/
theorem not_staysJson_spaced : ¬ StaysJson spacedDocument.text := by
  have hjson : IsJson spacedDocument.text := ⟨_, spacedDocument.read_text⟩
  have hunquoted : Unquoted spacedDocument := by decide +kernel
  rw [(staysJson_iff hjson).2 spacedDocument rfl hunquoted]
  decide +kernel

end ApiClient.Document
