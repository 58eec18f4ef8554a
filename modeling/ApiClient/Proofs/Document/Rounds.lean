import ApiClient.Proofs.Document.Found

/-!
# Rounds of replacing

Each round replaces one text by another throughout a document. Where the document can be
edited, a round of replacing is a round of editing: references are inlined one placeholder
after the other, and a placeholder is dropped in three rounds, with the comma before it, with
the comma after it, and alone.
-/

namespace ApiClient.Document

open Json

/-! ## Rounds over a text -/

section

variable {scan : Scan Char} (hcopy : ∀ c, scan.emit c = [c])

include hcopy

theorem copy_eq (text : List Char) : scan.copy text = text := by
  induction text with
  | nil => rfl
  | cons c text ih => rw [Scan.copy_cons, ih, hcopy]; rfl

theorem joined_eq (outs : List (List Char)) : scan.joined outs = Written.joined outs := by
  cases outs with
  | nil => rfl
  | cons out outs =>
    rw [Scan.joined, Written.joined]
    simp only [hcopy, List.cons_append, List.nil_append]

/-- A member at which nothing happens keeps its name, and its value becomes what it becomes. -/
theorem run_kept {name : Name} {value value' : Written} (hname : '"' ∉ name.spelling.chars)
    (hvalue : scan.Gives value.text value'.text) {rest : List Char} (hrest : Ended rest)
    (hacts : ¬ scan.acts
      (name.spelling.quoted ++ (name.after.chars ++ ':' :: (value.text ++ rest)))) :
    scan.run (Written.memberText (name, value) ++ rest) =
      Written.memberText (name, value') ++ scan.run rest := by
  rw [scan.run_member hname hvalue hrest hacts, copy_eq hcopy, Written.memberText_eq]
  simp

/-- A round over a text is a round over the document if it is one over
the members of each object. -/
theorem gives_edit {rule : Rule} {P : List (Name × Written) → Prop}
    (hmembers : ∀ members, P members →
      (∀ member ∈ members, scan.Gives member.2.text (edit rule member.2).text) → ∀ rest,
      scan.run (Written.joined (members.map Written.memberText) ++ '\x7d' :: rest) =
        Written.joined ((editMembers rule true members).map Written.memberText) ++
          scan.run ('\x7d' :: rest))
    {written : Written} (h : written.Every P) :
    scan.Gives written.text (edit rule written).text := by
  induction written with
  | scalar padding token =>
    have hgives := scan.gives_scalar padding token
    rw [copy_eq hcopy] at hgives
    exact hgives
  | array padding inner items ih =>
    have hitems : List.Forall₂ scan.Gives (items.map Written.text)
        ((items.map (edit rule)).map Written.text) := by
      rw [List.map_map, List.forall₂_map_left_iff, List.forall₂_map_right_iff, List.forall₂_same]
      exact fun item hitem => ih item hitem (h.items item hitem)
    have hgives := scan.gives_array padding inner hitems
    rw [copy_eq hcopy, copy_eq hcopy, joined_eq hcopy] at hgives
    have htext : (edit rule (.array padding inner items)).text =
        padding.before.chars ++ '[' :: inner.chars ++
          Written.joined ((items.map (edit rule)).map Written.text) ++
            ']' :: padding.after.chars := by
      rw [edit_array, Written.text_array]
      simp only [List.append_assoc, List.cons_append, List.nil_append]
    rw [htext]
    exact hgives
  | object padding inner members ih =>
    -- what a round does to the members is up to it; the values are edited before
    have hinside : ∀ member ∈ members, scan.Gives member.2.text (edit rule member.2).text :=
      fun member hmember => ih member hmember (h.inside member hmember)
    have hgives := scan.gives_object padding inner (hmembers members h.here hinside)
    rw [copy_eq hcopy, copy_eq hcopy] at hgives
    have htext : (edit rule (.object padding inner members)).text =
        padding.before.chars ++ '\x7b' :: inner.chars ++
          Written.joined ((editMembers rule true members).map Written.memberText) ++
            '\x7d' :: padding.after.chars := by
      rw [edit, Written.text_object]
      simp only [List.append_assoc, List.cons_append, List.nil_append]
    rw [htext]
    exact hgives

omit hcopy in
/-- A round that drops no member of an object is one over each of its members. -/
theorem forall₂_editMembers {rule : Rule} {members : List (Name × Written)}
    (hkept : ∀ member ∈ members, ∀ first last, rule first last member ≠ .drop)
    (hgives : ∀ member ∈ members, ∀ edited, BecomesOf rule member edited →
      scan.Gives (Written.memberText member) (Written.memberText edited)) (first : Bool) :
    List.Forall₂ scan.Gives (members.map Written.memberText)
      ((editMembers rule first members).map Written.memberText) := by
  induction members generalizing first with
  | nil => exact .nil
  | cons member others ih =>
    rw [List.forall_mem_cons] at hkept hgives
    have hothers := ih hkept.2 hgives.2 false
    rw [editMembers]
    -- none is dropped, so the two rows have the same length
    cases hfate : rule first others.isEmpty member with
    | keep =>
      rw [editMember_eq]
      exact .cons (hgives.1 _ ⟨first, _, .inl ⟨hfate, rfl⟩⟩) hothers
    | drop => exact absurd hfate (hkept.1 _ _)
    | inline => exact .cons (hgives.1 _ ⟨first, _, .inr ⟨hfate, rfl⟩⟩) hothers

end

/-- Replacing as a scan. -/
def replacing (pattern replacement : List Char) (hne : pattern ≠ [])
    (hanchored : ∀ text, pattern <+: text → Anchored text) : Scan Char where
  run := Text.replaceAll pattern replacement
  emit c := [c]
  acts text := pattern <+: text
  anchored := hanchored _
  step h := Text.replaceAll_cons hne h

/-- What replacing gives at the front of any text, it gives for a whole text. -/
theorem replaceAll_of_gives {pattern replacement text out : List Char} {hne : pattern ≠ []}
    {hanchored : ∀ text, pattern <+: text → Anchored text}
    (h : (replacing pattern replacement hne hanchored).Gives text out) :
    Text.replaceAll pattern replacement text = out := by
  have hrun : Text.replaceAll pattern replacement (text ++ []) =
      out ++ Text.replaceAll pattern replacement [] := h [] ended_nil
  rw [Text.replaceAll_nil, List.append_nil, List.append_nil] at hrun
  exact hrun

/-! ## References -/

variable {placeholders : List Placeholder} {placeholder : Placeholder}

/-- References to one placeholder are inlined. -/
def inlineRule (placeholder : Placeholder) : Rule := fun _ _ member =>
  if memberCore member = placeholder.reference then .inline else .keep

theorem inlineRule_ne_drop {first last : Bool} {member : Name × Written} :
    inlineRule placeholder first last member ≠ .drop := by
  unfold inlineRule
  split <;> exact nofun

theorem sound_inlineRule (hmem : placeholder ∈ placeholders) :
    Sound placeholders (inlineRule placeholder) where
  drops h := absurd h inlineRule_ne_drop
  inlines h := by
    unfold inlineRule at h
    split at h
    · rename_i hcore
      exact List.mem_map.mpr ⟨placeholder, hmem, hcore.symm⟩
    · cases h

theorem reference_ne_nil : placeholder.reference ≠ [] := by
  rw [Placeholder.reference_eq]
  exact List.cons_ne_nil _ _

theorem reference_anchored (text : List Char) (h : placeholder.reference <+: text) :
    Anchored text := by
  obtain ⟨rest, rfl⟩ := h
  refine .inl ⟨"$ref".toList, '"' :: (placeholder.target ++ ['"']) ++ rest, by decide, ?_⟩
  rw [Placeholder.reference_eq]
  simp only [List.append_assoc, List.cons_append]

theorem genericObject_eq : Placeholder.genericObject =
    '"' :: ("type".toList ++ '"' :: ':' :: '"' :: ("object".toList ++ ['"'])) := by decide +kernel

theorem core_inlined (member : Name × Written) :
    memberCore (inlined member) = Placeholder.genericObject := by
  rw [genericObject_eq]
  rfl

/-- Going through a text, references to a placeholder are inlined. -/
def inlineScan (placeholder : Placeholder) : Scan Char :=
  replacing placeholder.reference Placeholder.genericObject reference_ne_nil reference_anchored

theorem inlineScan_comma (text : List Char) :
    (inlineScan placeholder).run (',' :: text) = ',' :: (inlineScan placeholder).run text := by
  refine (inlineScan placeholder).step fun hahead => ?_
  obtain ⟨tail, he⟩ := hahead
  rw [Placeholder.reference_eq] at he
  exact absurd (List.cons.inj he).1 (by decide)

/-- A member that refers to the placeholder is inlined, and any other is kept. -/
theorem inlineScan_member (hproper : placeholder.Proper) {member edited : Name × Written}
    (hname : '"' ∉ member.1.spelling.chars)
    (hvalue : (inlineScan placeholder).Gives member.2.text
      (edit (inlineRule placeholder) member.2).text)
    (h : BecomesOf (inlineRule placeholder) member edited) :
    (inlineScan placeholder).Gives (Written.memberText member) (Written.memberText edited) := by
  have hcopy : ∀ c, (inlineScan placeholder).emit c = [c] := fun _ => rfl
  intro rest hrest
  -- the scan acts at a member just if it is the reference
  obtain ⟨first, last, ⟨hfate, rfl⟩ | ⟨hfate, rfl⟩⟩ := h
  · refine run_kept hcopy hname hvalue hrest fun hacts => ?_
    have hcore : memberCore member = placeholder.reference :=
      (Placeholder.reference_ahead_iff hproper).mp hacts
    rw [inlineRule, if_pos hcore] at hfate
    cases hfate
  · have hcore : memberCore member = placeholder.reference := by
      by_contra hcore
      rw [inlineRule, if_neg hcore] at hfate
      cases hfate
    have hrun :
        (inlineScan placeholder).run
          (placeholder.reference ++ (member.2.padding.after.chars ++ rest)) =
        Placeholder.genericObject ++
        (inlineScan placeholder).run (member.2.padding.after.chars ++ rest) :=
      Text.replaceAll_append reference_ne_nil _
    rw [memberText_eq_core, hcore, List.append_assoc, List.append_assoc, Scan.run_blanks, hrun,
      Scan.run_blanks, copy_eq hcopy, copy_eq hcopy, memberText_eq_core, core_inlined]
    simp only [inlined, Written.padding, List.append_assoc]

/-- One round of replacing inlines the references to one placeholder. -/
theorem inlineReferences_text (hproper : placeholder.Proper) {written : Written}
    (hunquoted : Unquoted written) :
    Placeholder.inlineReferences written.text placeholder =
      (edit (inlineRule placeholder) written).text := by
  have hcopy : ∀ c, (inlineScan placeholder).emit c = [c] := fun _ => rfl
  have hgives :
      (inlineScan placeholder).Gives written.text
      (edit (inlineRule placeholder) written).text := by
    refine gives_edit hcopy (fun members hnames hvalues rest => ?_) hunquoted
    have htexts := forall₂_editMembers (fun member _ first last => inlineRule_ne_drop)
      (fun member hmember _ =>
        inlineScan_member hproper (hnames member hmember) (hvalues member hmember)) true
    rw [Scan.run_joined _ (by decide) htexts (fun text _ rest _ =>
      inlineScan_comma (text ++ rest)), joined_eq hcopy]
  exact replaceAll_of_gives hgives

/-! ## Placeholders -/

/-- A placeholder is dropped, unless `spared` says otherwise. -/
def dropRule (placeholder : Placeholder) (spared : (first last : Bool) → Bool) : Rule :=
  fun first last member =>
    if memberCore member = placeholder.text ∧ spared first last = false then .drop else .keep

/-- All but the first member of an object are dropped with the comma before them. -/
abbrev laterRule (placeholder : Placeholder) : Rule := dropRule placeholder fun first _ => first

/-- All but the last member are dropped with the comma after them. -/
abbrev earlierRule (placeholder : Placeholder) : Rule := dropRule placeholder fun _ last => last

/-- A member that is alone in its object is dropped on its own. -/
abbrev aloneRule (placeholder : Placeholder) : Rule := dropRule placeholder fun _ _ => false

variable {spared : (first last : Bool) → Bool}

theorem dropRule_ne_inline {first last : Bool} {member : Name × Written} :
    dropRule placeholder spared first last member ≠ .inline := by
  unfold dropRule
  split <;> exact nofun

/-- Only the placeholder is dropped. -/
theorem core_of_drop {first last : Bool} {member : Name × Written}
    (h : dropRule placeholder spared first last member = .drop) :
    memberCore member = placeholder.text := by
  unfold dropRule at h
  split at h
  · rename_i hcore
    exact hcore.1
  · cases h

theorem sound_dropRule (hmem : placeholder ∈ placeholders) :
    Sound placeholders (dropRule placeholder spared) where
  drops h := List.mem_map.mpr ⟨placeholder, hmem, (core_of_drop h).symm⟩
  inlines h := absurd h dropRule_ne_inline

theorem text_ne_nil : placeholder.text ≠ [] := by
  rw [Placeholder.text_eq]
  exact List.cons_ne_nil _ _

/-- What a round asks of the members of an object: no name has a quote in it, and the placeholder
that is dropped has no blanks around it. -/
def Tidy (placeholder : Placeholder) (members : List (Name × Written)) : Prop :=
  (∀ member ∈ members, '"' ∉ member.1.spelling.chars) ∧
    ∀ member ∈ members, memberCore member = placeholder.text →
      member.1.before.chars = [] ∧ member.2.padding.after.chars = []

theorem Tidy.tail {member : Name × Written} {rest : List (Name × Written)}
    (h : Tidy placeholder (member :: rest)) : Tidy placeholder rest :=
  ⟨fun other ho => h.1 other (List.mem_cons_of_mem _ ho),
    fun other ho => h.2 other (List.mem_cons_of_mem _ ho)⟩

theorem Tidy.memberText {members : List (Name × Written)} (h : Tidy placeholder members)
    {member : Name × Written} (hmember : member ∈ members)
    (hcore : memberCore member = placeholder.text) :
    Written.memberText member = placeholder.text := by
  obtain ⟨hbefore, hafter⟩ := h.2 member hmember hcore
  rw [memberText_eq_core, hbefore, hafter, hcore, List.nil_append, List.append_nil]

/-! ## Scans for a placeholder -/

/-- Each text that is joined to others stands before a comma or a closing brace. -/
theorem ended_behind (texts : List (List Char)) (rest : List Char) :
    Ended (texts.flatMap (',' :: ·) ++ '\x7d' :: rest) := by
  cases texts <;> exact ended_cons (by decide)

section

variable (hproper : placeholder.Proper)

/-- Going through a text, a placeholder is dropped with the comma before it. -/
def laterScan : Scan Char :=
  replacing (',' :: placeholder.text) [] (List.cons_ne_nil _ _) fun _ h => by
    obtain ⟨rest, rfl⟩ := h
    exact .inr ⟨_, rfl, Placeholder.nameAhead_of_text hproper (List.prefix_append _ _)⟩

/-- Going through a text, a placeholder is dropped with the comma after it. -/
def earlierScan : Scan Char :=
  replacing (placeholder.text ++ [',']) []
    (List.append_ne_nil_of_right_ne_nil _ (List.cons_ne_nil _ _))
    fun _ h => .inl (Placeholder.nameAhead_of_text hproper ((List.prefix_append _ _).trans h))

/-- Going through a text, a placeholder is dropped on its own. -/
def aloneScan : Scan Char :=
  replacing placeholder.text [] text_ne_nil fun _ h =>
  .inl (Placeholder.nameAhead_of_text hproper h)

theorem laterScan_acts_iff {c : Char} {text : List Char} :
    (laterScan hproper).acts (c :: text) ↔ c = ',' ∧ placeholder.text <+: text :=
  List.cons_prefix_cons.trans (and_congr_left' eq_comm)

theorem ahead_of_earlierScan {text : List Char} (h : (earlierScan hproper).acts text) :
    placeholder.text <+: text := (List.prefix_append _ _).trans h

theorem earlierScan_comma (text : List Char) :
    (earlierScan hproper).run (',' :: text) = ',' :: (earlierScan hproper).run text := by
  refine (earlierScan hproper).step fun h => ?_
  exact absurd (Placeholder.nameAhead_of_text hproper (ahead_of_earlierScan hproper h)).head
    (by decide)

theorem aloneScan_comma (text : List Char) :
    (aloneScan hproper).run (',' :: text) = ',' :: (aloneScan hproper).run text := by
  refine (aloneScan hproper).step fun h => ?_
  exact absurd (Placeholder.nameAhead_of_text hproper h).head (by decide)

theorem laterScan_drop (rest : List Char) :
    (laterScan hproper).run (',' :: (placeholder.text ++ rest)) = (laterScan hproper).run rest :=
  Text.replaceAll_append (List.cons_ne_nil _ _) rest

theorem earlierScan_drop (rest : List Char) :
    (earlierScan hproper).run (placeholder.text ++ ',' :: rest) =
      (earlierScan hproper).run rest := by
  have hne : placeholder.text ++ [','] ≠ [] :=
    List.append_ne_nil_of_right_ne_nil _ (List.cons_ne_nil _ _)
  have hrun : (earlierScan hproper).run (placeholder.text ++ [','] ++ rest) =
      (earlierScan hproper).run rest :=
    Text.replaceAll_append hne rest
  rwa [List.append_assoc] at hrun

theorem aloneScan_drop (rest : List Char) :
    (aloneScan hproper).run (placeholder.text ++ rest) = (aloneScan hproper).run rest :=
  Text.replaceAll_append text_ne_nil rest

/-! ## Rounds that drop a placeholder -/

/-- Nothing happens at a member itself, for the comma would have to be before it. -/
theorem laterScan_member {member : Name × Written} (hname : '"' ∉ member.1.spelling.chars)
    (hvalue : (laterScan hproper).Gives member.2.text
      (edit (laterRule placeholder) member.2).text) :
    (laterScan hproper).Gives (Written.memberText member)
      (Written.memberText (editMember (laterRule placeholder) member)) := by
  intro rest hrest
  rw [editMember_eq]
  refine run_kept (fun _ => rfl) hname hvalue hrest fun hacts => ?_
  exact absurd ((laterScan_acts_iff hproper).mp hacts).1 (by decide)

/-- Behind the first member of an object, each is dropped or kept with the comma before it. -/
theorem laterScan_members {members : List (Name × Written)} (htidy : Tidy placeholder members)
    (hvalues : ∀ member ∈ members,
      (laterScan hproper).Gives member.2.text (edit (laterRule placeholder) member.2).text)
    (rest : List Char) :
    (laterScan hproper).run ((members.map Written.memberText).flatMap (',' :: ·) ++
      '\x7d' :: rest) =
      ((editMembers (laterRule placeholder) false members).map Written.memberText).flatMap
        (',' :: ·) ++
        (laterScan hproper).run ('\x7d' :: rest) := by
  have hcopy : ∀ c, (laterScan hproper).emit c = [c] := fun _ => rfl
  induction members with
  | nil => rfl
  | cons member others ih =>
    have hrun := ih htidy.tail fun other ho => hvalues other (List.mem_cons_of_mem _ ho)
    rw [List.map_cons, List.flatMap_cons, List.append_assoc, List.cons_append, editMembers]
    -- from behind a comma, a member is dropped together with it or stays
    by_cases hcore : memberCore member = placeholder.text
    · have hfate : laterRule placeholder false others.isEmpty member = .drop := if_pos ⟨hcore, rfl⟩
      rw [hfate, htidy.memberText List.mem_cons_self hcore, laterScan_drop, hrun]
    · have hfate : laterRule placeholder false others.isEmpty member = .keep :=
        if_neg fun h => hcore h.1
      have hacts : ¬ (laterScan hproper).acts (',' :: (Written.memberText member ++
          ((others.map Written.memberText).flatMap (',' :: ·) ++ '\x7d' :: rest))) := fun h =>
        hcore (Placeholder.core_of_ahead hproper ((laterScan_acts_iff hproper).mp h).2)
      have hfirst :=
        laterScan_member hproper (htidy.1 _ List.mem_cons_self) (hvalues _ List.mem_cons_self) _
        (ended_behind (others.map Written.memberText) rest)
      rw [hfate, (laterScan hproper).step hacts, hfirst, hrun, List.map_cons, List.flatMap_cons]
      simp only [hcopy, List.append_assoc, List.cons_append, List.nil_append]

include hproper in
/-- One round drops the placeholder wherever a comma is before it. -/
theorem replaceAll_later {written : Written} (htidy : written.Every (Tidy placeholder)) :
    Text.replaceAll (',' :: placeholder.text) [] written.text =
      (edit (laterRule placeholder) written).text := by
  have hgives :
      (laterScan hproper).Gives written.text (edit (laterRule placeholder) written).text := by
    refine gives_edit (fun _ => rfl) (fun members htidy hvalues rest => ?_) htidy
    cases members with
    | nil => rfl
    | cons member others =>
      have hothers := laterScan_members hproper htidy.tail
        (fun other ho => hvalues other (List.mem_cons_of_mem _ ho)) rest
      have hfirst :=
        laterScan_member hproper (htidy.1 _ List.mem_cons_self) (hvalues _ List.mem_cons_self) _
        (ended_behind (others.map Written.memberText) rest)
      -- no comma is before the first member
      have hfate : laterRule placeholder true others.isEmpty member = .keep :=
        if_neg fun h => Bool.noConfusion h.2
      rw [List.map_cons, Written.joined, List.append_assoc, hfirst, hothers, editMembers, hfate]
      simp only [List.map_cons, Written.joined, List.append_assoc]
  exact replaceAll_of_gives hgives

/-- The last member of an object is left where a comma has to follow. -/
theorem editMembers_earlier_ne_nil :
    ∀ (members : List (Name × Written)) (first : Bool), members ≠ [] →
      editMembers (earlierRule placeholder) first members ≠ [] := by
  intro members
  induction members with
  | nil => exact fun _ h => absurd rfl h
  | cons member others ih =>
    intro first _
    rw [editMembers]
    -- the last member is always kept
    cases others with
    | nil =>
      have hfate : earlierRule placeholder first true member = .keep :=
        if_neg fun h => Bool.noConfusion h.2
      rw [List.isEmpty_nil, hfate]
      exact List.cons_ne_nil _ _
    | cons next others =>
      have hrest := ih false (List.cons_ne_nil _ _)
      split
      · exact List.cons_ne_nil _ _
      · exact hrest
      · exact List.cons_ne_nil _ _

/-- Nothing happens at the last member of an object: a brace follows, and no comma. -/
theorem earlierScan_last {member : Name × Written} (hname : '"' ∉ member.1.spelling.chars)
    (hafter : memberCore member = placeholder.text → member.2.padding.after.chars = [])
    (hvalue : (earlierScan hproper).Gives member.2.text
      (edit (earlierRule placeholder) member.2).text)
    (rest : List Char) :
    (earlierScan hproper).run (Written.memberText member ++ '\x7d' :: rest) =
      Written.memberText (editMember (earlierRule placeholder) member) ++
        (earlierScan hproper).run ('\x7d' :: rest) := by
  rw [editMember_eq]
  refine run_kept (fun _ => rfl) hname hvalue (ended_cons (by decide)) fun hacts => ?_
  have hcore := (Placeholder.text_ahead_iff hproper).mp (ahead_of_earlierScan hproper hacts)
  have hshape : member.1.spelling.quoted ++
      (member.1.after.chars ++ ':' :: (member.2.text ++ '\x7d' :: rest)) =
        placeholder.text ++ '\x7d' :: rest := by
    rw [← hcore, memberCore, Written.text, hafter hcore]
    simp
  -- the scan acts on a placeholder with a comma, but a brace stands there
  have hacts : placeholder.text ++ [','] <+: _ := hacts
  rw [hshape, List.prefix_append_right_inj] at hacts
  exact absurd (List.cons_prefix_cons.mp hacts).1 (by decide)

/-- Each member but the last is dropped or kept with the comma after it. -/
theorem earlierScan_members {members : List (Name × Written)} (htidy : Tidy placeholder members)
    (hvalues : ∀ member ∈ members,
      (earlierScan hproper).Gives member.2.text (edit (earlierRule placeholder) member.2).text)
    (first : Bool) (rest : List Char) :
    (earlierScan hproper).run (Written.joined (members.map Written.memberText) ++ '\x7d' :: rest) =
      Written.joined ((editMembers (earlierRule placeholder) first members).map
        Written.memberText) ++ (earlierScan hproper).run ('\x7d' :: rest) := by
  induction members generalizing first with
  | nil => rfl
  | cons member others ih =>
    have hname := htidy.1 _ List.mem_cons_self
    have hvalue := hvalues _ List.mem_cons_self
    rw [editMembers]
    -- the last member has no comma behind it and stays; before it, one is dropped with its comma
    cases others with
    | nil =>
      have hrun :=
        earlierScan_last hproper hname (fun h => (htidy.2 _ List.mem_cons_self h).2) hvalue rest
      have hfate : earlierRule placeholder first true member = .keep :=
        if_neg fun h => Bool.noConfusion h.2
      rw [List.isEmpty_nil, hfate]
      simpa [Written.joined, editMembers] using hrun
    | cons next others =>
      have hrest := ih htidy.tail (fun other ho => hvalues other (List.mem_cons_of_mem _ ho)) false
      have hleft : editMembers (earlierRule placeholder) false (next :: others) ≠ [] :=
        editMembers_earlier_ne_nil _ _ (List.cons_ne_nil _ _)
      rw [List.map_cons, List.map_cons, Written.joined_cons_cons, List.append_assoc,
        List.cons_append, ← List.map_cons]
      by_cases hcore : memberCore member = placeholder.text
      · have hfate : earlierRule placeholder first false member = .drop := if_pos ⟨hcore, rfl⟩
        rw [htidy.memberText List.mem_cons_self hcore, List.isEmpty_cons, hfate,
          earlierScan_drop, hrest]
      · have hfate : earlierRule placeholder first false member = .keep :=
          if_neg fun h => hcore h.1
        rw [run_kept (fun _ => rfl) hname hvalue (ended_cons (by decide)) fun h => hcore
            ((Placeholder.text_ahead_iff hproper).mp (ahead_of_earlierScan hproper h)),
          earlierScan_comma, hrest, List.isEmpty_cons, hfate]
        obtain ⟨left, lefts, hlefts⟩ := List.exists_cons_of_ne_nil hleft
        simp only [hlefts, editMember_eq, List.map_cons, Written.joined_cons_cons,
          List.append_assoc, List.cons_append]

include hproper in
/-- One round drops the placeholder wherever a comma is after it. -/
theorem replaceAll_earlier {written : Written} (htidy : written.Every (Tidy placeholder)) :
    Text.replaceAll (placeholder.text ++ [',']) [] written.text =
      (edit (earlierRule placeholder) written).text := by
  have hgives :
      (earlierScan hproper).Gives written.text (edit (earlierRule placeholder) written).text :=
    gives_edit (fun _ => rfl)
      (fun _ htidy hvalues rest => earlierScan_members hproper htidy hvalues true rest) htidy
  exact replaceAll_of_gives hgives

/-- A placeholder stands in an object only if it stands there alone. -/
def Alone (placeholder : Placeholder) (members : List (Name × Written)) : Prop :=
  ∀ member ∈ members, memberCore member = placeholder.text → members = [member]

/-- A member that is not the placeholder is kept. -/
theorem aloneScan_member {member edited : Name × Written} (hname : '"' ∉ member.1.spelling.chars)
    (hvalue : (aloneScan hproper).Gives member.2.text (edit (aloneRule placeholder) member.2).text)
    (hother : memberCore member ≠ placeholder.text)
    (h : BecomesOf (aloneRule placeholder) member edited) :
    (aloneScan hproper).Gives (Written.memberText member) (Written.memberText edited) := by
  intro rest hrest
  obtain ⟨first, last, ⟨-, rfl⟩ | ⟨hfate, -⟩⟩ := h
  · exact run_kept (fun _ => rfl) hname hvalue hrest fun h =>
      hother ((Placeholder.text_ahead_iff hproper).mp h)
  · exact absurd hfate dropRule_ne_inline

include hproper in
/-- One round drops the placeholder where it stands alone. -/
theorem replaceAll_alone {written : Written}
    (htidy : written.Every fun members => Tidy placeholder members ∧ Alone placeholder members) :
    Text.replaceAll placeholder.text [] written.text =
      (edit (aloneRule placeholder) written).text := by
  have hcopy : ∀ c, (aloneScan hproper).emit c = [c] := fun _ => rfl
  have hgives :
      (aloneScan hproper).Gives written.text (edit (aloneRule placeholder) written).text := by
    refine gives_edit hcopy (fun members hmembers hvalues rest => ?_) htidy
    obtain ⟨htidy, halone⟩ := hmembers
    -- if the placeholder stands in an object it is all of it
    by_cases hstands : ∃ member ∈ members, memberCore member = placeholder.text
    · obtain ⟨member, hmember, hcore⟩ := hstands
      have hfate : aloneRule placeholder true true member = .drop := if_pos ⟨hcore, rfl⟩
      rw [halone member hmember hcore, editMembers, List.isEmpty_nil, hfate]
      simpa [Written.joined, editMembers, htidy.memberText hmember hcore] using
        aloneScan_drop hproper ('\x7d' :: rest)
    · have hother : ∀ member ∈ members, memberCore member ≠ placeholder.text :=
        fun member hmember hcore => hstands ⟨member, hmember, hcore⟩
      have htexts := forall₂_editMembers
        (fun member hmember first last hdrop => hother member hmember (core_of_drop hdrop))
        (fun member hmember _ =>
          aloneScan_member hproper (htidy.1 member hmember) (hvalues member hmember)
          (hother member hmember)) true
      rw [Scan.run_joined _ (by decide) htexts (fun text _ rest _ =>
        aloneScan_comma hproper (text ++ rest)), joined_eq hcopy]
  exact replaceAll_of_gives hgives

end

end ApiClient.Document
