import ApiClient.Proofs.Document.Rounds
import ApiClient.Proofs.Json.Gapped

/-!
# Cutting a placeholder out

A placeholder is cut out of a text with the comma before it, else with the comma after it,
else alone. A comma is found only if no blanks are between, so that a placeholder can go
and leave its comma. Wherever the blanks stand, each of these rounds of replacing is a
round over the rows of a value: it drops slots from them, with the blanks left to the slot
beside, or makes gaps of them.
-/

namespace ApiClient.Json.Slot

/-- The blanks before what stands in a slot. -/
def before : Slot → Blanks
  | .gap blanks => blanks
  | .member name _ => name.before

/-- The blanks after it. -/
def after : Slot → Blanks
  | .gap _ => .none
  | .member _ value => value.padding.after

/-- The text of what stands in a slot, without the blanks around it. -/
def core : Slot → List Char
  | .gap _ => []
  | .member name value => name.spelling.quoted ++ name.after.chars ++
      ':' :: (value.padding.before.chars ++ value.core)

theorem text_eq (slot : Slot) :
    slot.text = slot.before.chars ++ slot.core ++ slot.after.chars := by
  cases slot with
  | gap blanks =>
    show blanks.chars = blanks.chars ++ [] ++ []
    rw [List.append_nil, List.append_nil]
  | member name value =>
    rw [text_member, Name.text, Gapped.text, before, core, after]
    simp only [List.append_assoc, List.cons_append]

/-- A member goes on with its name, its colon and its value. -/
theorem core_append (name : Name) (value : Gapped) (rest : List Char) :
    (member name value).core ++ (value.padding.after.chars ++ rest) =
      name.spelling.quoted ++ (name.after.chars ++ ':' :: (value.text ++ rest)) := by
  rw [core, Gapped.text]
  simp only [List.append_assoc, List.cons_append]

end ApiClient.Json.Slot

namespace ApiClient.Document

open Json

/-! ## Rounds over rows -/

/-- Settles what becomes of a row, given each slot with what has become of it inside. -/
abbrev Settlement := List (Slot × Slot) → List Slot

mutual

/-- A round over a value. -/
def cut (settle : Settlement) : Gapped → Gapped
  | .scalar padding token => .scalar padding token
  | .array padding inner items => .array padding inner (cutItems settle items)
  | .object padding slots => .object padding (settle (cutSlots settle slots))
termination_by structural value => value

/-- A round over some items. -/
def cutItems (settle : Settlement) : List Gapped → List Gapped
  | [] => []
  | item :: rest => cut settle item :: cutItems settle rest
termination_by structural items => items

/-- A round over what is inside some slots. -/
def cutSlots (settle : Settlement) : List Slot → List (Slot × Slot)
  | [] => []
  | slot :: rest => (slot, cutSlot settle slot) :: cutSlots settle rest
termination_by structural slots => slots

/-- A round over what is inside a slot. -/
def cutSlot (settle : Settlement) : Slot → Slot
  | .gap blanks => .gap blanks
  | .member name value => .member name (cut settle value)
termination_by structural slot => slot

end

variable {placeholder : Placeholder}

/-- The slots after one: where the placeholder stands right behind its comma it goes with the
comma, and the blanks after it are left to the slot before. -/
def dropLater (placeholder : Placeholder) (previous : Slot) : List (Slot × Slot) → List Slot
  | [] => [previous]
  | (slot, inside) :: rest =>
    if slot.core = placeholder.text ∧ slot.before.chars = [] then
      dropLater placeholder (previous.trail slot.after) rest
    else previous :: dropLater placeholder inside rest

/-- The placeholder goes with the comma before it. -/
def laterRow (placeholder : Placeholder) : Settlement
  | [] => []
  | (_, first) :: rest => dropLater placeholder first rest

/-- Some slots after dropped ones, which have left blanks: where a comma stands right behind the
placeholder it goes with the comma, and the blanks before it are left to the slot after. -/
def dropEarlier (placeholder : Placeholder) (left : Blanks) : List (Slot × Slot) → List Slot
  | [] => []
  | [(_, last)] => [last.lead left]
  | (slot, inside) :: next :: rest =>
    if slot.core = placeholder.text ∧ slot.after.chars = [] then
      dropEarlier placeholder (left.append slot.before) (next :: rest)
    else inside.lead left :: dropEarlier placeholder .none (next :: rest)

/-- The placeholder goes with the comma after it. -/
abbrev earlierRow (placeholder : Placeholder) : Settlement := dropEarlier placeholder .none

/-- Where the placeholder stands, it leaves a gap. -/
def gapRow (placeholder : Placeholder) : Settlement := List.map fun (slot, inside) =>
  if slot.core = placeholder.text then .gap (slot.before.append slot.after) else inside

/-- What is left of a value when a placeholder is cut out. -/
def cutOut (value : Gapped) (placeholder : Placeholder) : Gapped :=
  cut (gapRow placeholder) (cut (earlierRow placeholder) (cut (laterRow placeholder) value))

section

variable {settle : Settlement}

theorem cutItems_eq (items : List Gapped) : cutItems settle items = items.map (cut settle) := by
  induction items with
  | nil => rfl
  | cons item rest ih => rw [cutItems, ih]; rfl

theorem cutSlots_eq (slots : List Slot) :
    cutSlots settle slots = slots.map fun slot => (slot, cutSlot settle slot) := by
  induction slots with
  | nil => rfl
  | cons slot rest ih => rw [cutSlots, ih]; rfl

end

/-! ## Where placeholders are -/

/-- A value is not ahead as a name: no colon follows it. -/
theorem not_nameAhead_gapped (value : Gapped) {rest : List Char} (hrest : Ended rest) :
    ¬ NameAhead (value.text ++ rest) := by
  -- blanks or a bracket come first, and a name begins with a quote
  have hbracket : ∀ {blanks : Blanks} {c : Char} {text : List Char}, c ≠ '"' →
      ¬ NameAhead (blanks.chars ++ c :: text) := by
    intro blanks c text hc hahead
    cases hblanks : blanks.chars with
    | nil =>
      rw [hblanks] at hahead
      exact hc hahead.head
    | cons b others =>
      rw [hblanks] at hahead
      have hblank := blanks.blank b (hblanks ▸ List.mem_cons_self)
      rw [hahead.head] at hblank
      exact absurd hblank (by decide)
  cases value with
  | scalar padding token => exact not_nameAhead_text (.scalar padding token) hrest
  | array padding inner items =>
    rw [Gapped.text, List.append_assoc, List.append_assoc]
    exact hbracket (by decide)
  | object padding slots =>
    rw [Gapped.text, List.append_assoc, List.append_assoc]
    exact hbracket (by decide)

/-- A value whose text goes on with a bare text is that text. -/
theorem quoted_of_gapped {value : Gapped} {chars rest rest' : List Char} (hbare : Bare chars)
    (h : value.text ++ rest = '"' :: (chars ++ '"' :: rest')) :
    ∃ padding spelling, value = .scalar padding (.quoted spelling) ∧
      padding.after.chars ++ rest = rest' := by
  cases value with
  | scalar padding token =>
    obtain ⟨_, spelling, he, -, -, hafter⟩ := @quoted_of_text (.scalar padding token) _ _ _ hbare h
    obtain ⟨rfl, rfl⟩ := Written.scalar.inj he
    exact ⟨padding, spelling, rfl, hafter⟩
  | array padding inner items =>
    rw [Gapped.text, List.append_assoc, List.append_assoc] at h
    obtain ⟨-, h⟩ := no_blanks (by decide) h
    exact absurd (List.cons.inj h).1 (by decide)
  | object padding slots =>
    rw [Gapped.text, List.append_assoc, List.append_assoc] at h
    obtain ⟨-, h⟩ := no_blanks (by decide) h
    exact absurd (List.cons.inj h).1 (by decide)

/-- A slot whose text goes on with a bare name and a bare text holds those. -/
theorem member_of_slot {slot : Slot} {chars chars' rest rest' : List Char} (hchars : Bare chars)
    (hchars' : Bare chars') (hrest : Ended rest)
    (h : slot.text ++ rest = '"' :: (chars ++ '"' :: ':' :: '"' :: (chars' ++ '"' :: rest'))) :
    ∃ name padding spelling, slot = .member name (.scalar padding (.quoted spelling)) ∧
      padding.after.chars ++ rest = rest' := by
  cases slot with
  | gap blanks =>
    obtain ⟨-, h⟩ := no_blanks (by decide) h
    exact absurd (hrest '"' (by rw [h]; rfl)) (by decide)
  | member name value =>
    -- the quotes of the name stand where the text of the member begins
    have hshape : (Slot.member name value).text ++ rest = name.before.chars ++
        (name.spelling.quoted ++ (name.after.chars ++ ':' :: (value.text ++ rest))) := by
      rw [Slot.text_member, Name.text]
      simp only [List.append_assoc, List.cons_append]
    rw [hshape] at h
    obtain ⟨-, h⟩ := no_blanks (by decide) h
    obtain ⟨-, -, hvalue⟩ := name_of_text hchars h
    obtain ⟨padding, spelling, rfl, hafter⟩ := quoted_of_gapped hchars' hvalue
    exact ⟨name, padding, spelling, rfl, hafter⟩

section

variable (hproper : placeholder.Proper)

include hproper

/-- A value whose text goes on with the object of a placeholder is that object. -/
theorem core_of_body {value : Gapped} {rest rest' : List Char}
    (h : value.core ++ rest = placeholder.body ++ rest') : value.core = placeholder.body := by
  have htype : Bare placeholder.type := bare_of_letters hproper.2.1
  have htitle : Bare placeholder.title := bare_of_letters hproper.2.2
  have htypeWord : Bare "type".toList := by decide
  have htitleWord : Bare "title".toList := by decide
  cases value with
  | scalar padding token =>
    exact (@Placeholder.describes_of_core _ hproper (.scalar padding token) _ _ h).core
  | array padding inner items => exact absurd (List.cons.inj h).1 (by decide)
  | object padding slots =>
    have hcore := h
    rw [Gapped.core_object, Placeholder.body_append] at h
    simp only [List.append_assoc, List.cons_append, List.nil_append] at h
    have hslots := (List.cons.inj h).2
    cases slots with
    | nil => exact absurd (List.cons.inj hslots).1 (by decide)
    | cons first others =>
      -- the first slot holds the type, and a comma follows it
      simp only [List.map_cons, Written.joined, List.append_assoc] at hslots
      obtain ⟨_, _, _, rfl, hafter⟩ :=
        member_of_slot htypeWord htype (ended_behind (others.map Slot.text) rest) hslots
      obtain ⟨-, hafter⟩ := no_blanks (by decide) hafter
      cases others with
      | nil => exact absurd (List.cons.inj hafter).1 (by decide)
      | cons second others =>
        -- the second holds the title, and the brace that follows it is the last
        simp only [List.map_cons, List.flatMap_cons, List.append_assoc, List.cons_append] at hafter
        obtain ⟨_, _, _, rfl, hclose⟩ :=
          member_of_slot htitleWord htitle (ended_behind (others.map Slot.text) rest)
          (List.cons.inj hafter).2
        obtain ⟨-, hclose⟩ := no_blanks (by decide) hclose
        cases others with
        | cons third others => exact absurd (List.cons.inj hclose).1 (by decide)
        | nil =>
          obtain rfl : rest = rest' := (List.cons.inj hclose).2
          exact List.append_cancel_right hcore

/-- Where the text of a placeholder is ahead at a member, it is that placeholder. -/
theorem text_ahead_core_iff {name : Name} {value : Gapped} {rest : List Char} :
    placeholder.text <+: (Slot.member name value).core ++ (value.padding.after.chars ++ rest) ↔
      (Slot.member name value).core = placeholder.text := by
  constructor
  · rintro ⟨rest', h⟩
    have htext : placeholder.text ++ rest' =
        '"' :: (placeholder.key ++ '"' :: ':' :: (placeholder.body ++ rest')) := by
      rw [Placeholder.text_eq]
      simp only [List.append_assoc, List.cons_append]
    rw [htext, Slot.core_append] at h
    obtain ⟨hname, hafter, hvalue⟩ := name_of_text (bare_of_letters hproper.1) h.symm
    rw [Gapped.text, List.append_assoc, List.append_assoc] at hvalue
    obtain ⟨hbefore, hvalue⟩ := no_blanks (by decide) hvalue
    rw [Slot.core, hbefore, hafter, core_of_body hproper hvalue, Spelling.quoted, hname,
      Placeholder.text_eq]
    simp only [List.append_assoc, List.cons_append, List.nil_append]
  · rintro h
    rw [h]
    exact List.prefix_append _ _

/-- The text of a placeholder is ahead at a slot just if it stands
there without blanks before it. -/
theorem text_ahead_slot_iff {slot : Slot} {rest : List Char} (hrest : Ended rest) :
    placeholder.text <+: slot.text ++ rest ↔
      slot.core = placeholder.text ∧ slot.before.chars = [] := by
  rw [Slot.text_eq, List.append_assoc, List.append_assoc]
  constructor
  · intro h
    obtain ⟨tail, htail⟩ : ∃ tail, placeholder.text = '"' :: tail := ⟨_, placeholder.text_eq⟩
    obtain ⟨rest', hahead⟩ := h
    rw [htail] at hahead
    obtain ⟨hbefore, hcore⟩ := no_blanks (by decide) hahead.symm
    refine ⟨?_, hbefore⟩
    -- a gap is followed by what ends a value, which is no quote
    cases slot with
    | gap blanks => exact absurd (hrest '"' (by rw [show rest = _ from hcore]; rfl)) (by decide)
    | member name value =>
      have hahead : placeholder.text <+:
          (Slot.member name value).core ++ (value.padding.after.chars ++ rest) := by
        rw [htail]
        exact ⟨rest', hcore.symm⟩
      exact (text_ahead_core_iff hproper).mp hahead
  · rintro ⟨hcore, hbefore⟩
    rw [hbefore, hcore]
    exact List.prefix_append _ _

end

/-! ## Names without quotes -/

/-- No name of a member has a quote in it. -/
inductive Plainly : Gapped → Prop
  | scalar {padding : Padding} {token : Token} : Plainly (.scalar padding token)
  | array {padding : Padding} {inner : Blanks} {items : List Gapped} :
      (∀ item ∈ items, Plainly item) → Plainly (.array padding inner items)
  | object {padding : Padding} {slots : List Slot} :
      (∀ name value, Slot.member name value ∈ slots → '"' ∉ name.spelling.chars) →
      (∀ name value, Slot.member name value ∈ slots → Plainly value) →
        Plainly (.object padding slots)

/-! ## Rounds over a text -/

section

variable {scan : Scan Char} (hcopy : ∀ c, scan.emit c = [c])

include hcopy

variable {settle : Settlement}

/-- A row that a round goes through name by name: no name has a quote in it, and the round
has been through each value. -/
structure Passed (scan : Scan Char) (settle : Settlement) (slots : List Slot) : Prop where
  names : ∀ name value, Slot.member name value ∈ slots → '"' ∉ name.spelling.chars
  values : ∀ name value, Slot.member name value ∈ slots →
    scan.Gives value.text (cut settle value).text

omit hcopy in
theorem Passed.tail {slot : Slot} {others : List Slot} (h : Passed scan settle (slot :: others)) :
    Passed scan settle others where
  names name value hmem := h.names name value (List.mem_cons_of_mem _ hmem)
  values name value hmem := h.values name value (List.mem_cons_of_mem _ hmem)

/-- A slot at which nothing happens is kept, and its value becomes what it becomes. -/
theorem Passed.run_slot {slots : List Slot} (h : Passed scan settle slots) {slot : Slot}
    (hslot : slot ∈ slots) {rest : List Char} (hrest : Ended rest)
    (hacts : ∀ name value, slot = .member name value →
      ¬ scan.acts (slot.core ++ (slot.after.chars ++ rest))) :
    scan.run (slot.text ++ rest) = (cutSlot settle slot).text ++ scan.run rest := by
  cases slot with
  | gap blanks =>
    show scan.run (blanks.chars ++ rest) = blanks.chars ++ scan.run rest
    rw [scan.run_blanks, copy_eq hcopy]
  | member name value =>
    have hacts := hacts name value rfl
    rw [Slot.after, Slot.core_append] at hacts
    have hshape : (Slot.member name value).text ++ rest = name.before.chars ++
        (name.spelling.quoted ++ (name.after.chars ++ ':' :: (value.text ++ rest))) := by
      rw [Slot.text_member, Name.text]
      simp only [List.append_assoc, List.cons_append]
    -- what stands before the value is passed on: blanks, and a name the scan does not act at
    rw [hshape, scan.run_blanks, scan.run_name name (h.names name value hslot) hacts,
      h.values name value hslot _ hrest, copy_eq hcopy, copy_eq hcopy, cutSlot, Slot.text_member,
      Name.text]
    simp only [List.append_assoc, List.cons_append, List.nil_append]

/-- A round over a text is a round over the value if it is one over each row. -/
theorem gives_cut
    (hrow : ∀ slots, Passed scan settle slots → ∀ rest,
      scan.run (Written.joined (slots.map Slot.text) ++ '\x7d' :: rest) =
        Written.joined ((settle (cutSlots settle slots)).map Slot.text) ++
          scan.run ('\x7d' :: rest))
    {value : Gapped} (h : Plainly value) : scan.Gives value.text (cut settle value).text := by
  induction h with
  | @scalar padding token =>
    have hgives := scan.gives_scalar padding token
    rw [copy_eq hcopy] at hgives
    exact hgives
  | @array padding inner items _ ih =>
    intro rest _
    have hitems : List.Forall₂ scan.Gives (items.map Gapped.text)
        ((items.map (cut settle)).map Gapped.text) := by
      rw [List.map_map, List.forall₂_map_left_iff, List.forall₂_map_right_iff, List.forall₂_same]
      exact ih
    -- no name comes behind a comma between items
    have hcomma : ∀ text ∈ items.map Gapped.text, ∀ rest, Ended rest →
        scan.run (',' :: (text ++ rest)) = scan.emit ',' ++ scan.run (text ++ rest) := by
      intro text htext rest hrest
      obtain ⟨item, -, rfl⟩ := List.mem_map.mp htext
      refine scan.run_cons ?_
      rintro (h | ⟨rest', he, hahead⟩)
      · exact absurd h.head (by decide)
      · rw [← (List.cons.inj he).2] at hahead
        exact not_nameAhead_gapped item hrest hahead
    have hrun := @Scan.run_bracketed _ scan '[' ']' (by decide) (by decide) padding inner _ _
      (scan.run_joined (by decide) hitems hcomma) rest
    rw [copy_eq hcopy, copy_eq hcopy, joined_eq hcopy] at hrun
    rw [Gapped.text, Gapped.core_array, cut, cutItems_eq, Gapped.text, Gapped.core_array]
    refine hrun.trans ?_
    simp only [Gapped.padding, List.append_assoc, List.cons_append, List.nil_append]
  | @object padding slots hnames _ ih =>
    intro rest _
    have hrun := @Scan.run_bracketed _ scan '\x7b' '\x7d' (by decide) (by decide) padding .none _ _
      (hrow slots ⟨hnames, ih⟩) rest
    rw [copy_eq hcopy, copy_eq hcopy] at hrun
    rw [Gapped.text, Gapped.core_object, cut, Gapped.text, Gapped.core_object]
    refine hrun.trans ?_
    simp only [Gapped.padding, Blanks.none, List.append_assoc, List.cons_append, List.nil_append]

end

/-! ## The three rounds -/

theorem dropLater_ne_nil (previous : Slot) (slots : List (Slot × Slot)) :
    dropLater placeholder previous slots ≠ [] := by
  induction slots generalizing previous with
  | nil => exact List.cons_ne_nil _ _
  | cons pair rest ih =>
    obtain ⟨slot, inside⟩ := pair
    rw [dropLater]
    split
    · exact ih _
    · exact List.cons_ne_nil _ _

theorem dropEarlier_ne_nil (left : Blanks) (pair : Slot × Slot) (rest : List (Slot × Slot)) :
    dropEarlier placeholder left (pair :: rest) ≠ [] := by
  induction rest generalizing left pair with
  | nil => exact List.cons_ne_nil _ _
  | cons next rest ih =>
    obtain ⟨slot, inside⟩ := pair
    rw [dropEarlier]
    split
    · exact ih _ _
    · exact List.cons_ne_nil _ _

/-- A row that goes on has a comma after its first slot. -/
theorem joined_cons_of_ne_nil (first : Slot) {others : List Slot} (h : others ≠ []) :
    Written.joined ((first :: others).map Slot.text) =
      first.text ++ ',' :: Written.joined (others.map Slot.text) := by
  obtain ⟨second, others, rfl⟩ := List.exists_cons_of_ne_nil h
  exact Written.joined_cons_cons _ _ _

section

variable (hproper : placeholder.Proper)

/-- Nothing happens at a name itself, for the comma would have to be before it. -/
theorem laterScan_slot {slots : List Slot}
    (h : Passed (laterScan hproper) (laterRow placeholder) slots)
    {slot : Slot} (hslot : slot ∈ slots) {rest : List Char} (hrest : Ended rest) :
    (laterScan hproper).run (slot.text ++ rest) =
      (cutSlot (laterRow placeholder) slot).text ++ (laterScan hproper).run rest := by
  refine h.run_slot (fun _ => rfl) hslot hrest ?_
  rintro name inside rfl hacts
  exact absurd ((laterScan_acts_iff hproper).mp hacts).1 (by decide)

/-- Behind a slot, each is dropped or kept with the comma before it. -/
theorem laterScan_row {slots : List Slot}
    (h : Passed (laterScan hproper) (laterRow placeholder) slots)
    (previous : Slot) (rest : List Char) :
    previous.text ++ (laterScan hproper).run ((slots.map Slot.text).flatMap (',' :: ·) ++
      '\x7d' :: rest) = Written.joined ((dropLater placeholder previous
        (cutSlots (laterRow placeholder) slots)).map Slot.text) ++
        (laterScan hproper).run ('\x7d' :: rest) := by
  have hcopy : ∀ c, (laterScan hproper).emit c = [c] := fun _ => rfl
  induction slots generalizing previous with
  | nil => simp [cutSlots, dropLater, Written.joined]
  | cons slot others ih =>
    have ih := ih h.tail
    have hended := ended_behind (others.map Slot.text) rest
    rw [List.map_cons, List.flatMap_cons, List.append_assoc, List.cons_append, cutSlots, dropLater]
    -- the slot is dropped with the comma in front of it, and its blanks go to the one before
    by_cases hdrop : slot.core = placeholder.text ∧ slot.before.chars = []
    · rw [if_pos hdrop, slot.text_eq, hdrop.1, hdrop.2, List.nil_append, List.append_assoc,
        laterScan_drop, Scan.run_blanks, copy_eq hcopy, ← ih, Slot.text_trail, List.append_assoc]
    · have hacts : ¬ (laterScan hproper).acts (',' :: (slot.text ++
          ((others.map Slot.text).flatMap (',' :: ·) ++ '\x7d' :: rest))) := fun h =>
        hdrop ((text_ahead_slot_iff hproper hended).mp ((laterScan_acts_iff hproper).mp h).2)
      rw [if_neg hdrop, (laterScan hproper).step hacts,
        laterScan_slot hproper h List.mem_cons_self hended, ih,
        joined_cons_of_ne_nil _ (dropLater_ne_nil _ _)]
      simp only [hcopy, List.append_assoc, List.cons_append, List.nil_append]

/-- Something happens at a member only if it is the placeholder, and
the comma is right behind it. -/
theorem slot_of_earlierScan {name : Name} {inside : Gapped} {c : Char} {rest : List Char}
    (hahead : (earlierScan hproper).acts
      ((Slot.member name inside).core ++ ((Slot.member name inside).after.chars ++ c :: rest))) :
    (Slot.member name inside).core = placeholder.text ∧
    (Slot.member name inside).after.chars = [] ∧
      c = ',' := by
  have hcore := (text_ahead_core_iff hproper).mp (ahead_of_earlierScan hproper hahead)
  have hahead : placeholder.text ++ [','] <+: _ := hahead
  rw [hcore, List.prefix_append_right_inj] at hahead
  obtain ⟨tail, htail⟩ := hahead
  obtain ⟨hafter, hrest⟩ := no_blanks (by decide) htail.symm
  exact ⟨hcore, hafter, (List.cons.inj hrest).1⟩

/-- Each slot but the last is dropped or kept with the comma after it. -/
theorem earlierScan_row {slot : Slot} {others : List Slot}
    (h : Passed (earlierScan hproper) (earlierRow placeholder) (slot :: others)) (left : Blanks)
    (rest : List Char) :
    left.chars ++
        (earlierScan hproper).run (Written.joined ((slot :: others).map Slot.text) ++
          '\x7d' :: rest) =
      Written.joined ((dropEarlier placeholder left
        (cutSlots (earlierRow placeholder) (slot :: others))).map Slot.text) ++
          (earlierScan hproper).run ('\x7d' :: rest) := by
  have hcopy : ∀ c, (earlierScan hproper).emit c = [c] := fun _ => rfl
  induction others generalizing slot left with
  | nil =>
    have hended : Ended ('\x7d' :: rest) := ended_cons (by decide)
    have hrun := h.run_slot hcopy List.mem_cons_self hended fun name inside he hahead => by
      subst he
      exact absurd (slot_of_earlierScan hproper hahead).2.2 (by decide)
    simp [Written.joined, cutSlots, dropEarlier, hrun, Slot.text_lead]
  | cons next others ih =>
    have ih := fun left => ih h.tail left
    rw [joined_cons_of_ne_nil _ (List.cons_ne_nil _ _), List.append_assoc, List.cons_append,
      cutSlots, cutSlots, dropEarlier, ← cutSlots]
    -- the slot is dropped with the comma behind it, and its blanks go to the next
    by_cases hdrop : slot.core = placeholder.text ∧ slot.after.chars = []
    · rw [if_pos hdrop, ← ih, slot.text_eq, hdrop.1, hdrop.2, List.append_nil, List.append_assoc,
        Scan.run_blanks, copy_eq hcopy, earlierScan_drop]
      exact (List.append_assoc _ _ _).symm
    · have hkept := h.run_slot hcopy List.mem_cons_self
        (ended_cons (by decide) :
          Ended (',' :: (Written.joined ((next :: others).map Slot.text) ++ '\x7d' :: rest)))
        fun name inside he hahead => by
          subst he
          obtain ⟨hcore, hafter, -⟩ := slot_of_earlierScan hproper hahead
          exact hdrop ⟨hcore, hafter⟩
      have hleft : dropEarlier placeholder .none
          (cutSlots (earlierRow placeholder) (next :: others)) ≠ [] := dropEarlier_ne_nil _ _ _
      rw [if_neg hdrop, hkept, earlierScan_comma, joined_cons_of_ne_nil _ hleft, Slot.text_lead,
        List.append_assoc, List.append_assoc, List.cons_append, ← ih .none]
      rfl

/-- A slot that is the placeholder is left as a gap, and any other is kept. -/
theorem aloneScan_slot {slots : List Slot}
    (h : Passed (aloneScan hproper) (gapRow placeholder) slots)
    {slot : Slot} (hslot : slot ∈ slots) : (aloneScan hproper).Gives slot.text
      (if slot.core = placeholder.text then .gap (slot.before.append slot.after)
        else cutSlot (gapRow placeholder) slot : Slot).text := by
  have hcopy : ∀ c, (aloneScan hproper).emit c = [c] := fun _ => rfl
  intro rest hrest
  -- a slot that is the placeholder is dropped with its blanks kept, any other is passed
  by_cases hcore : slot.core = placeholder.text
  · rw [if_pos hcore, slot.text_eq, hcore, List.append_assoc, List.append_assoc, Scan.run_blanks,
      aloneScan_drop, Scan.run_blanks, copy_eq hcopy, copy_eq hcopy]
    exact (List.append_assoc _ _ _).symm
  · rw [if_neg hcore]
    refine h.run_slot hcopy hslot hrest fun name inside he hahead => ?_
    subst he
    exact hcore ((text_ahead_core_iff hproper).mp hahead)

variable {value : Gapped} (hplainly : Plainly value)

include hproper hplainly

/-- One round of replacing drops the placeholder behind commas. -/
theorem replaceAll_laterRow : Text.replaceAll (',' :: placeholder.text) [] value.text =
    (cut (laterRow placeholder) value).text := by
  have hgives : (laterScan hproper).Gives value.text (cut (laterRow placeholder) value).text := by
    refine gives_cut (fun _ => rfl) (fun slots h rest => ?_) hplainly
    cases slots with
    | nil => rfl
    | cons first others =>
      rw [List.map_cons, Written.joined, List.append_assoc,
        laterScan_slot hproper h List.mem_cons_self (ended_behind (others.map Slot.text) rest),
        laterScan_row hproper h.tail, cutSlots, laterRow]
  exact replaceAll_of_gives hgives

/-- One round of replacing drops the placeholder in front of commas. -/
theorem replaceAll_earlierRow : Text.replaceAll (placeholder.text ++ [',']) [] value.text =
    (cut (earlierRow placeholder) value).text := by
  have hgives :
      (earlierScan hproper).Gives value.text (cut (earlierRow placeholder) value).text := by
    refine gives_cut (fun _ => rfl) (fun slots h rest => ?_) hplainly
    cases slots with
    | nil => rfl
    | cons slot others => exact earlierScan_row hproper h .none rest
  exact replaceAll_of_gives hgives

/-- One round of replacing makes gaps where the placeholder is left. -/
theorem replaceAll_gapRow :
    Text.replaceAll placeholder.text [] value.text = (cut (gapRow placeholder) value).text := by
  have hcopy : ∀ c, (aloneScan hproper).emit c = [c] := fun _ => rfl
  have hgives : (aloneScan hproper).Gives value.text (cut (gapRow placeholder) value).text := by
    refine gives_cut hcopy (fun slots h rest => ?_) hplainly
    have htexts : List.Forall₂ (aloneScan hproper).Gives (slots.map Slot.text)
        ((gapRow placeholder (cutSlots (gapRow placeholder) slots)).map Slot.text) := by
      rw [cutSlots_eq, gapRow, List.map_map, List.map_map, List.forall₂_map_left_iff,
        List.forall₂_map_right_iff, List.forall₂_same]
      exact fun slot hslot => aloneScan_slot hproper h hslot
    rw [Scan.run_joined _ (by decide) htexts (fun text _ rest _ =>
      aloneScan_comma hproper (text ++ rest)), joined_eq hcopy]
  exact replaceAll_of_gives hgives

end

end ApiClient.Document
