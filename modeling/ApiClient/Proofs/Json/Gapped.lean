import ApiClient.Proofs.Json.Complete

/-!
# JSON with gaps

Where members are cut out of a text, commas can be left behind. `Gapped` is what the text can
be then: an object is a row of slots with commas between them, and a slot holds a member or
is a gap. Such a text is JSON just if no object has a gap beside another slot, and then it is
the text of a written value.
-/

namespace ApiClient.Json

mutual

/-- A value in which members may be missing. -/
inductive Gapped where
  | scalar (padding : Padding) (token : Token)
  | array (padding : Padding) (inner : Blanks) (items : List Gapped)
  | object (padding : Padding) (slots : List Slot)

/-- What stands between two commas of an object: a member, or the blanks that are left of one. -/
inductive Slot where
  | gap (blanks : Blanks)
  | member (name : Name) (value : Gapped)

end

/-- Blanks after others. -/
def Blanks.append (left right : Blanks) : Blanks where
  chars := left.chars ++ right.chars
  blank c hc := (List.mem_append.mp hc).elim (left.blank c) (right.blank c)

/-- The blanks around a value. -/
def Gapped.padding : Gapped → Padding
  | .scalar padding _ | .array padding _ _ | .object padding _ => padding

/-- A value with more blanks after it. -/
def Gapped.trail (blanks : Blanks) : Gapped → Gapped
  | .scalar padding token => .scalar ⟨padding.before, padding.after.append blanks⟩ token
  | .array padding inner items => .array ⟨padding.before, padding.after.append blanks⟩ inner items
  | .object padding slots => .object ⟨padding.before, padding.after.append blanks⟩ slots

/-- A slot with more blanks before it. -/
def Slot.lead (blanks : Blanks) : Slot → Slot
  | .gap others => .gap (blanks.append others)
  | .member name value => .member ⟨blanks.append name.before, name.spelling, name.after⟩ value

/-- A slot with more blanks after it. -/
def Slot.trail (blanks : Blanks) : Slot → Slot
  | .gap others => .gap (others.append blanks)
  | .member name value => .member name (value.trail blanks)

mutual

/-- The text of a value, without the blanks around it. -/
def Gapped.core : Gapped → List Char
  | .scalar _ token => token.text
  | .array _ inner items => '[' :: inner.chars ++ Written.joined (Gapped.itemTexts items) ++ [']']
  | .object _ slots => '\x7b' :: Written.joined (Gapped.slotTexts slots) ++ ['\x7d']
termination_by structural value => value

/-- The texts of some items. -/
def Gapped.itemTexts : List Gapped → List (List Char)
  | [] => []
  | item :: rest =>
    (item.padding.before.chars ++ item.core ++ item.padding.after.chars) :: Gapped.itemTexts rest
termination_by structural items => items

/-- The texts of some slots. -/
def Gapped.slotTexts : List Slot → List (List Char)
  | [] => []
  | slot :: rest => slot.text :: Gapped.slotTexts rest
termination_by structural slots => slots

/-- The text of a slot. -/
def Slot.text : Slot → List Char
  | .gap blanks => blanks.chars
  | .member name value =>
    name.text ++ ':' :: (value.padding.before.chars ++ value.core ++ value.padding.after.chars)
termination_by structural slot => slot

end

/-- The text of a value. -/
def Gapped.text (value : Gapped) : List Char :=
  value.padding.before.chars ++ value.core ++ value.padding.after.chars

theorem Gapped.text_trail (blanks : Blanks) (value : Gapped) :
    (value.trail blanks).text = value.text ++ blanks.chars := by
  cases value <;> exact (List.append_assoc _ _ _).symm

theorem Slot.text_member (name : Name) (value : Gapped) :
    (Slot.member name value).text = name.text ++ ':' :: value.text := rfl

theorem Slot.text_lead (blanks : Blanks) (slot : Slot) :
    (slot.lead blanks).text = blanks.chars ++ slot.text := by
  cases slot with
  | gap others => rfl
  | member name value =>
    rw [lead, text_member, text_member, Name.text, Name.text, Blanks.append]
    simp only [List.append_assoc]

theorem Slot.text_trail (blanks : Blanks) (slot : Slot) :
    (slot.trail blanks).text = slot.text ++ blanks.chars := by
  cases slot with
  | gap others => rfl
  | member name value =>
    rw [trail, text_member, text_member, Gapped.text_trail]
    simp only [List.append_assoc, List.cons_append]

namespace Gapped

theorem itemTexts_eq (items : List Gapped) : itemTexts items = items.map text := by
  induction items with
  | nil => rfl
  | cons item rest ih => rw [itemTexts, ih]; rfl

theorem slotTexts_eq (slots : List Slot) : slotTexts slots = slots.map Slot.text := by
  induction slots with
  | nil => rfl
  | cons slot rest ih => rw [slotTexts, ih]; rfl

theorem core_array (padding : Padding) (inner : Blanks) (items : List Gapped) :
    core (array padding inner items) =
      '[' :: inner.chars ++ Written.joined (items.map text) ++ [']'] := by
  rw [core, itemTexts_eq]

theorem core_object (padding : Padding) (slots : List Slot) :
    core (object padding slots) =
      '\x7b' :: Written.joined (slots.map Slot.text) ++ ['\x7d'] := by
  rw [core, slotTexts_eq]

/-- What holds of a value if it holds of the values inside it holds of every one. -/
@[elab_as_elim, induction_eliminator]
theorem induction {motive : Gapped → Prop}
    (scalar : ∀ padding token, motive (scalar padding token))
    (array : ∀ padding inner items, (∀ item ∈ items, motive item) →
      motive (array padding inner items))
    (object : ∀ padding slots, (∀ name value, Slot.member name value ∈ slots → motive value) →
      motive (object padding slots)) (value : Gapped) : motive value :=
  @Gapped.rec motive (fun slot => ∀ name value, slot = .member name value → motive value)
    (fun items => ∀ item ∈ items, motive item)
    (fun slots => ∀ name value, Slot.member name value ∈ slots → motive value)
    scalar array object
    (fun _ _ _ h => by cases h)
    (fun _ _ ih _ _ h => by
      obtain ⟨-, rfl⟩ := Slot.member.inj h
      exact ih)
    (fun _ h => absurd h List.not_mem_nil)
    (fun _ _ hitem hrest other h => by
      rcases List.mem_cons.mp h with rfl | h
      · exact hitem
      · exact hrest other h)
    (fun _ _ h => absurd h List.not_mem_nil)
    (fun _ _ hslot hrest name value h => by
      rcases List.mem_cons.mp h with h | h
      · exact hslot name value h.symm
      · exact hrest name value h)
    value

end Gapped

/-! ## Values without gaps -/

/-- A row of slots with blanks before the first. -/
def Slot.row (inner : Blanks) : List Slot → List Slot
  | [] => [.gap inner]
  | first :: rest => first.lead inner :: rest

mutual

/-- A written value as one without gaps, except that an object without members is one with a single
gap. -/
def Written.gapless : Written → Gapped
  | .scalar padding token => .scalar padding token
  | .array padding inner items => .array padding inner (Written.gaplessItems items)
  | .object padding inner members =>
      .object padding (Slot.row inner (Written.gaplessMembers members))
termination_by structural written => written

/-- Written items as items without gaps. -/
def Written.gaplessItems : List Written → List Gapped
  | [] => []
  | item :: rest => item.gapless :: Written.gaplessItems rest
termination_by structural items => items

/-- Written members as a row without gaps. -/
def Written.gaplessMembers : List (Name × Written) → List Slot
  | [] => []
  | member :: rest => Written.gaplessMember member :: Written.gaplessMembers rest
termination_by structural members => members

/-- A written member as a slot. -/
def Written.gaplessMember : Name × Written → Slot
  | (name, value) => .member name value.gapless
termination_by structural member => member

end

namespace Written

theorem gaplessItems_eq (items : List Written) : gaplessItems items = items.map gapless := by
  induction items with
  | nil => rfl
  | cons item rest ih => rw [gaplessItems, ih]; rfl

theorem gaplessMembers_eq (members : List (Name × Written)) :
    gaplessMembers members = members.map gaplessMember := by
  induction members with
  | nil => rfl
  | cons member rest ih => rw [gaplessMembers, ih]; rfl

theorem padding_gapless (written : Written) : written.gapless.padding = written.padding := by
  cases written <;> rfl

theorem joined_row (inner : Blanks) (slots : List Slot) :
    joined ((Slot.row inner slots).map Slot.text) =
      inner.chars ++ joined (slots.map Slot.text) := by
  cases slots with
  | nil => rfl
  | cons first rest =>
    rw [Slot.row, List.map_cons, List.map_cons, Slot.text_lead, joined, joined, List.append_assoc]

/-- Written without gaps, a value has the text it is written in. -/
theorem core_gapless (written : Written) : written.gapless.core = written.core := by
  induction written with
  | scalar => rfl
  | array padding inner items ih =>
    have htexts : (items.map gapless).map Gapped.text = items.map text := by
      rw [List.map_map]
      refine List.map_congr_left fun item hitem => ?_
      rw [Function.comp, Gapped.text, ih item hitem, padding_gapless, text]
    rw [gapless, gaplessItems_eq, Gapped.core_array, core_array, htexts]
  | object padding inner members ih =>
    have htexts : (members.map gaplessMember).map Slot.text = members.map memberText := by
      rw [List.map_map]
      refine List.map_congr_left fun member hmember => ?_
      obtain ⟨name, value⟩ := member
      rw [Function.comp, gaplessMember, Slot.text_member, Gapped.text, ih _ hmember,
        padding_gapless, memberText_eq, text]
    rw [gapless, gaplessMembers_eq, Gapped.core_object, joined_row, core_object, htexts]
    rfl

theorem text_gapless (written : Written) : written.gapless.text = written.text := by
  rw [Gapped.text, core_gapless, padding_gapless, text]

end Written

/-! ## Values that are written -/

/-- The blanks of a row that is a single gap. -/
def Slot.soleGap? : List Slot → Option Blanks
  | [.gap blanks] => some blanks
  | _ => none

mutual

/-- The written value that a value is, if it has no gap beside another slot. -/
def Gapped.written? : Gapped → Option Written
  | .scalar padding token => some (.scalar padding token)
  | .array padding inner items => (Gapped.writtenItems? items).map (.array padding inner)
  | .object padding slots =>
    match Slot.soleGap? slots with
    | some blanks => some (.object padding blanks [])
    | none => (Gapped.writtenMembers? slots).map (.object padding .none)
termination_by structural value => value

/-- The written items that some items are. -/
def Gapped.writtenItems? : List Gapped → Option (List Written)
  | [] => some []
  | item :: rest =>
    match item.written?, Gapped.writtenItems? rest with
    | some item, some rest => some (item :: rest)
    | _, _ => none
termination_by structural items => items

/-- The written members that the slots of a row are. -/
def Gapped.writtenMembers? : List Slot → Option (List (Name × Written))
  | [] => some []
  | slot :: rest =>
    match slot.writtenMember?, Gapped.writtenMembers? rest with
    | some member, some rest => some (member :: rest)
    | _, _ => none
termination_by structural slots => slots

/-- The written member that a slot is, if it is none of the gaps. -/
def Slot.writtenMember? : Slot → Option (Name × Written)
  | .gap _ => none
  | .member name value => value.written?.map (name, ·)
termination_by structural slot => slot

end

namespace Gapped

/-- No gap stands beside another slot. -/
def Whole (value : Gapped) : Prop := ∃ written, value.written? = some written

instance (value : Gapped) : Decidable value.Whole :=
  decidable_of_iff (value.written?.isSome = true) Option.isSome_iff_exists

/-- Items that are written are written one by one. -/
theorem writtenItems?_cons {item : Gapped} {rest : List Gapped} {items : List Written} :
    writtenItems? (item :: rest) = some items ↔
      ∃ first others, item.written? = some first ∧ writtenItems? rest = some others ∧
        items = first :: others := by
  rw [writtenItems?]
  cases item.written? <;> cases writtenItems? rest <;> simp [eq_comm]

/-- Slots that are written members are so one by one. -/
theorem writtenMembers?_cons {slot : Slot} {rest : List Slot} {members : List (Name × Written)} :
    writtenMembers? (slot :: rest) = some members ↔
      ∃ first others, slot.writtenMember? = some first ∧ writtenMembers? rest = some others ∧
        members = first :: others := by
  rw [writtenMembers?]
  cases slot.writtenMember? <;> cases writtenMembers? rest <;> simp [eq_comm]

theorem text_eq_of_core {value : Gapped} {written : Written}
    (h : written.core = value.core ∧ written.padding = value.padding) :
    written.text = value.text := by
  rw [Written.text, text, h.1, h.2]

/-- Items that are written values have the same texts, if each that is has. -/
theorem itemTexts_of_written {items : List Gapped} {others : List Written}
    (htexts : ∀ item ∈ items, ∀ written, item.written? = some written → written.text = item.text)
    (h : writtenItems? items = some others) : others.map Written.text = items.map text := by
  induction items generalizing others with
  | nil =>
    obtain rfl := Option.some.inj h
    rfl
  | cons item rest ih =>
    obtain ⟨first, others, hfirst, hrest, rfl⟩ := writtenItems?_cons.mp h
    obtain ⟨hitem, hothers⟩ := List.forall_mem_cons.mp htexts
    rw [List.map_cons, List.map_cons, hitem first hfirst, ih hothers hrest]

/-- Slots that are written members have the same texts, if the value of each that is has. -/
theorem slotTexts_of_written {slots : List Slot} {members : List (Name × Written)}
    (htexts : ∀ name value, Slot.member name value ∈ slots → ∀ written,
      value.written? = some written → written.text = value.text)
    (h : writtenMembers? slots = some members) :
    members.map Written.memberText = slots.map Slot.text := by
  induction slots generalizing members with
  | nil =>
    obtain rfl := Option.some.inj h
    rfl
  | cons slot rest ih =>
    obtain ⟨first, others, hfirst, hrest, rfl⟩ := writtenMembers?_cons.mp h
    have hothers :=
      ih (fun name value hmem => htexts name value (List.mem_cons_of_mem _ hmem)) hrest
    cases slot with
    | gap blanks => cases hfirst
    | member name value =>
      obtain ⟨written, hwritten, rfl⟩ := Option.map_eq_some_iff.mp hfirst
      rw [List.map_cons, List.map_cons, Written.memberText_eq, Slot.text_member,
        htexts name value List.mem_cons_self written hwritten, hothers]

/-- The written value that a value is has the same text. -/
theorem core_of_written {value : Gapped} {written : Written} (h : value.written? = some written) :
    written.core = value.core ∧ written.padding = value.padding := by
  induction value generalizing written with
  | scalar padding token =>
    obtain rfl := Option.some.inj h
    exact ⟨rfl, rfl⟩
  | array padding inner items ih =>
    obtain ⟨others, hothers, rfl⟩ := Option.map_eq_some_iff.mp h
    have htexts :=
      itemTexts_of_written (fun item hitem _ hwritten => text_eq_of_core (ih item hitem hwritten))
      hothers
    exact ⟨by rw [Written.core_array, core_array, htexts], rfl⟩
  | object padding slots ih =>
    rw [written?] at h
    -- an object with one gap is an empty one, with its blanks inside
    split at h
    · rename_i blanks hsole
      obtain rfl := Option.some.inj h
      unfold Slot.soleGap? at hsole
      split at hsole
      · obtain rfl := Option.some.inj hsole
        refine ⟨?_, rfl⟩
        rw [Written.core_object, core_object, List.map_nil, List.map_singleton, Slot.text,
          Written.joined, Written.joined, List.flatMap_nil, List.append_nil, List.append_nil]
      · cases hsole
    · obtain ⟨members, hmembers, rfl⟩ := Option.map_eq_some_iff.mp h
      have htexts := slotTexts_of_written
        (fun name value hmem _ hwritten => text_eq_of_core (ih name value hmem hwritten)) hmembers
      refine ⟨?_, rfl⟩
      rw [Written.core_object, core_object, htexts]
      rfl

theorem text_of_written {value : Gapped} {written : Written} (h : value.written? = some written) :
    written.text = value.text := text_eq_of_core (core_of_written h)

/-! ## Reading them -/

/-- A value begins with none of the characters that can follow one. -/
theorem core_cons (value : Gapped) :
    ∃ c rest, value.core = c :: rest ∧ isJsonBlank c = false ∧ endsValue c = false := by
  cases value with
  | scalar padding token =>
    obtain ⟨c, rest, hcore, hblank, hends, -⟩ := (Written.scalar padding token).core_cons
    exact ⟨c, rest, hcore, hblank, hends⟩
  | array padding inner items => exact ⟨'[', _, rfl, by decide, by decide⟩
  | object padding slots => exact ⟨'\x7b', _, rfl, by decide, by decide⟩

theorem skipBlanks_text (value : Gapped) (rest : List Char) :
    skipBlanks (value.text ++ rest) = value.core ++ (value.padding.after.chars ++ rest) := by
  obtain ⟨c, tail, hcore, hblank, -⟩ := value.core_cons
  rw [text, List.append_assoc, List.append_assoc, skipBlanks_append]
  refine skipBlanks_unpadded ?_
  rw [hcore]
  exact unpadded_cons hblank

/-- The reader passes over the blanks before the name of a member. -/
theorem skipBlanks_member (name : Name) (value : Gapped) (rest : List Char) :
    skipBlanks ((Slot.member name value).text ++ rest) =
      name.spelling.quoted ++ (name.after.chars ++ ':' :: (value.text ++ rest)) := by
  rw [Slot.text_member, Name.text]
  simp only [List.append_assoc, List.cons_append]
  rw [skipBlanks_append]
  exact skipBlanks_unpadded (unpadded_cons (by decide))

/-- A value is read only if it is a written one, and it is read up to where it ends. -/
def Faithful (value : Gapped) : Prop :=
  ∀ {text rest : List Char} {reading : Reading Json text}, text = value.core ++ rest → Ended rest →
    readValue text = .ok reading → ∃ written, value.written? = some written ∧ reading.rest = rest

/-- A written value is read up to where it ends. -/
theorem faithful_of_forall {value : Gapped}
    (h : ∀ {text rest : List Char} {reading : Reading Json text}, text = value.core ++ rest →
      readValue text = .ok reading → ∃ written, value.written? = some written) :
    Faithful value := by
  intro text rest reading htext hrest hread
  obtain ⟨written, hwritten⟩ := h htext hread
  refine ⟨written, hwritten, ?_⟩
  have hreadable := written.readable rest hrest
  rw [(core_of_written hwritten).1, ← htext, hread] at hreadable
  obtain ⟨hshorter, hreadable⟩ := hreadable
  rw [Except.ok.inj hreadable]

/-- Items are read only if they are written ones. -/
theorem written_of_readItems (others : List Gapped) :
    ∀ (item : Gapped), (∀ other ∈ item :: others, Faithful other) →
      ∀ {text rest : List Char} {reading : Reading (List Json) text},
        text = item.core ++ (item.padding.after.chars ++
          ((others.map Gapped.text).flatMap (',' :: ·) ++ ']' :: rest)) →
        readItems text = .ok reading → ∃ items, writtenItems? (item :: others) = some items := by
  induction others with
  | nil =>
    intro item hfaithful text rest reading htext h
    obtain ⟨first, hfirst, -⟩ := of_readItems h
    obtain ⟨written, hwritten, -⟩ := hfaithful item List.mem_cons_self htext
      (ended_append item.padding.after.blank (ended_cons (by decide))) hfirst
    exact ⟨[written], writtenItems?_cons.mpr ⟨_, _, hwritten, rfl, rfl⟩⟩
  | cons next others ih =>
    intro item hfaithful text rest reading htext h
    have hothers : ((next :: others).map Gapped.text).flatMap (',' :: ·) ++ ']' :: rest =
        ',' :: (next.text ++ ((others.map Gapped.text).flatMap (',' :: ·) ++ ']' :: rest)) := by
      simp
    rw [hothers] at htext
    obtain ⟨first, hfirst, hmore⟩ := of_readItems h
    obtain ⟨written, hwritten, hafter⟩ := hfaithful item List.mem_cons_self htext
      (ended_append item.padding.after.blank (ended_cons (by decide))) hfirst
    -- behind the item comes the comma that was written
    rw [hafter, Written.skipBlanks_after (by decide)] at hmore
    obtain ⟨hclose, -⟩ | ⟨rest', reading', hcomma, hread, -⟩ := hmore
    · exact absurd (List.cons.inj hclose).1 (by decide)
    · obtain rfl := (List.cons.inj hcomma).2
      obtain ⟨items, hitems⟩ :=
        ih next (fun other ho => hfaithful other (List.mem_cons_of_mem _ ho))
        (next.skipBlanks_text _) hread
      exact ⟨_, writtenItems?_cons.mpr ⟨_, _, hwritten, hitems, rfl⟩⟩

/-- A slot is read as a member only if it is a written one, and a comma after it only if members
follow. -/
theorem written_of_readMember {slot : Slot} {c : Char} {text rest : List Char}
    {done : List (String × Json)} {reading : Reading (List (String × Json)) text}
    (hfaithful : ∀ name value, slot = .member name value → Faithful value)
    (hc : endsValue c = true)
    (hblank : isJsonBlank c = false) (htext : text = skipBlanks (slot.text ++ c :: rest))
    (h : readMembers done text = .ok reading) :
    (∃ member, slot.writtenMember? = some member) ∧
      (c = ',' → ∃ done', ∃ others : Reading (List (String × Json)) (skipBlanks rest),
        readMembers done' (skipBlanks rest) = .ok others) := by
  obtain ⟨name, hname, afterColon, hcolon, value, hvalue, hmore⟩ := of_readMembers h
  obtain ⟨spelling, hspelled, -⟩ := spelling_of_readText hname
  cases slot with
  | gap blanks =>
    -- a name begins with a quote, and no quote can follow a value
    rw [Slot.text, Written.skipBlanks_after hblank] at htext
    obtain rfl : c = '"' := (List.cons.inj (htext.symm.trans hspelled)).1
    exact absurd hc (by decide)
  | member slotName slotValue =>
    rw [skipBlanks_member] at htext
    have hread := slotName.spelling.readText_quoted
      (slotName.after.chars ++ ':' :: (slotValue.text ++ c :: rest)) .memberName
    rw [← htext, hname] at hread
    obtain ⟨_, hread⟩ := hread
    rw [Except.ok.inj hread, Written.skipBlanks_after (by decide)] at hcolon
    obtain rfl := (List.cons.inj hcolon).2
    obtain ⟨written, hwritten, hafter⟩ := hfaithful slotName slotValue rfl
      (slotValue.skipBlanks_text _)
      (ended_append slotValue.padding.after.blank (ended_cons hc)) hvalue
    refine ⟨⟨(slotName, written), by rw [Slot.writtenMember?, hwritten]; rfl⟩, ?_⟩
    rintro rfl
    rw [hafter, Written.skipBlanks_after hblank] at hmore
    obtain ⟨hclose, -⟩ | ⟨rest', others, hcomma, hothers, -⟩ := hmore
    · exact absurd (List.cons.inj hclose).1 (by decide)
    · obtain rfl := (List.cons.inj hcomma).2
      exact ⟨_, others, hothers⟩

/-- The slots of a row are read as members only if they are written ones. -/
theorem written_of_readMembers (others : List Slot) :
    ∀ (slot : Slot), (∀ name value, Slot.member name value ∈ slot :: others → Faithful value) →
      ∀ {text rest : List Char} {done : List (String × Json)}
        {reading : Reading (List (String × Json)) text},
        text = skipBlanks (slot.text ++
          ((others.map Slot.text).flatMap (',' :: ·) ++ '\x7d' :: rest)) →
        readMembers done text = .ok reading →
          ∃ members, writtenMembers? (slot :: others) = some members := by
  induction others with
  | nil =>
    intro slot hfaithful text rest done reading htext h
    have hslot : ∀ name value, slot = .member name value → Faithful value :=
      fun name value he => hfaithful name value (he ▸ List.mem_cons_self)
    obtain ⟨⟨member, hmember⟩, -⟩ :=
      written_of_readMember hslot (c := '\x7d') (by decide) (by decide) htext h
    exact ⟨[member], writtenMembers?_cons.mpr ⟨_, _, hmember, rfl, rfl⟩⟩
  | cons next others ih =>
    intro slot hfaithful text rest done reading htext h
    have hothers : ((next :: others).map Slot.text).flatMap (',' :: ·) ++ '\x7d' :: rest =
        ',' :: (next.text ++ ((others.map Slot.text).flatMap (',' :: ·) ++ '\x7d' :: rest)) := by
      simp
    rw [hothers] at htext
    have hslot : ∀ name value, slot = .member name value → Faithful value :=
      fun name value he => hfaithful name value (he ▸ List.mem_cons_self)
    obtain ⟨⟨member, hmember⟩, hmore⟩ :=
      written_of_readMember hslot (c := ',') (by decide) (by decide) htext h
    obtain ⟨done', reading', hread⟩ := hmore rfl
    -- what the member in front was does not matter to those behind
    obtain ⟨members, hmembers⟩ := ih next
      (fun name value ho => hfaithful name value (List.mem_cons_of_mem _ ho)) rfl hread
    exact ⟨_, writtenMembers?_cons.mpr ⟨_, _, hmember, hmembers, rfl⟩⟩

/-- An object is closed at once only if its row is a single gap. -/
theorem row_not_closed {slot : Slot} {others : List Slot} {rest after : List Char}
    (h : Slot.soleGap? (slot :: others) = none) :
    skipBlanks (slot.text ++ ((others.map Slot.text).flatMap (',' :: ·) ++ '\x7d' :: rest)) ≠
      '\x7d' :: after := by
  intro hclose
  cases slot with
  | member name value =>
    rw [skipBlanks_member] at hclose
    exact absurd (List.cons.inj hclose).1 (by decide)
  | gap blanks =>
    cases others with
    | nil => cases h
    | cons next others =>
      rw [Slot.text, List.map_cons, List.flatMap_cons, List.cons_append, List.cons_append,
        Written.skipBlanks_after (by decide)] at hclose
      exact absurd (List.cons.inj hclose).1 (by decide)

/-- Every value is read only if it is a written one. -/
theorem faithful (value : Gapped) : Faithful value := by
  induction value with
  | scalar padding token => exact faithful_of_forall fun _ _ => ⟨_, rfl⟩
  | array padding inner items ih =>
    refine faithful_of_forall fun {text rest reading} htext h => ?_
    rw [core_array] at htext
    cases items with
    | nil => exact ⟨_, rfl⟩
    | cons item others =>
      have hshape : text = '[' :: (inner.chars ++ (item.text ++
          ((others.map Gapped.text).flatMap (',' :: ·) ++ ']' :: rest))) := by
        rw [htext]
        simp [Written.joined]
      subst hshape
      -- the list is not empty, so what is read behind the bracket is its first item
      obtain ⟨hclose, -⟩ | ⟨items, hitems, -⟩ := of_readValue_array h
      · obtain ⟨c, tail, hcore, -, hends⟩ := item.core_cons
        rw [skipBlanks_append, skipBlanks_text, hcore] at hclose
        obtain rfl := (List.cons.inj hclose).1
        cases hends
      · have hskip := (skipBlanks_append inner _).trans (item.skipBlanks_text
          ((others.map Gapped.text).flatMap (',' :: ·) ++ ']' :: rest))
        obtain ⟨written, hwritten⟩ := written_of_readItems others item ih hskip hitems
        exact ⟨_, Option.map_eq_some_iff.mpr ⟨written, hwritten, rfl⟩⟩
  | object padding slots ih =>
    refine faithful_of_forall fun {text rest reading} htext h => ?_
    rw [core_object] at htext
    rw [written?]
    cases hsole : Slot.soleGap? slots with
    | some blanks => exact ⟨_, rfl⟩
    | none =>
      cases slots with
      | nil => exact ⟨_, rfl⟩
      | cons slot others =>
        have hshape : text = '\x7b' :: (slot.text ++
            ((others.map Slot.text).flatMap (',' :: ·) ++ '\x7d' :: rest)) := by
          rw [htext]
          simp [Written.joined]
        subst hshape
        -- no gap is the whole row, so the brace is not closed at once
        obtain ⟨hclose, -⟩ | ⟨members, hmembers, -⟩ := of_readValue_object h
        · exact absurd hclose (row_not_closed hsole)
        · obtain ⟨written, hwritten⟩ := written_of_readMembers others slot ih rfl hmembers
          exact ⟨_, Option.map_eq_some_iff.mpr ⟨written, hwritten, rfl⟩⟩

/-- **What has gaps is no JSON.** A text denotes a value just if what it is the text of is a
written one with that value. -/
theorem read_text_iff {value : Gapped} {result : Json} :
    read value.text = .ok result ↔ ∃ written, value.written? = some written ∧
    written.value = result := by
  constructor
  · intro h
    obtain ⟨written, htext, hvalue⟩ := Written.read_eq_ok_iff.mp h
    have hskip := value.skipBlanks_text []
    have hended : Ended (value.padding.after.chars ++ []) :=
      ended_append value.padding.after.blank ended_nil
    have hreadable := written.readable _ (ended_append written.padding.after.blank ended_nil)
    rw [← Written.skipBlanks_text, htext] at hreadable
    obtain ⟨_, hread⟩ := hreadable
    obtain ⟨written', hwritten', -⟩ := value.faithful hskip hended hread
    refine ⟨written', hwritten', ?_⟩
    rw [← text_of_written hwritten', Written.read_text] at h
    exact Except.ok.inj h
  · rintro ⟨written, hwritten, rfl⟩
    rw [← text_of_written hwritten, Written.read_text]

end Gapped

end ApiClient.Json
