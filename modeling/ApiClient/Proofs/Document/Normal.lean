import ApiClient.Document.Load
import ApiClient.Proofs.Document.Rounds

/-!
# Documents without placeholders

All rounds together: first each placeholder has the references to it inlined, then each is
dropped in three rounds. What is settled in one round stays settled in those after it, so that
in the end nothing is left to be looked for, and the text is that of the normalised document.
-/

namespace ApiClient.Document

open Json

variable {placeholders : List Placeholder} {placeholder : Placeholder}

/-- No member of a document has the text `mark`. -/
def Absent (mark : List Char) (written : Written) : Prop :=
  written.Every fun members => ∀ member ∈ members, memberCore member ≠ mark

/-! ## What a round achieves -/

section

variable (hproper : ∀ placeholder ∈ placeholders, placeholder.Proper) {rule : Rule}
  (hsound : Sound placeholders rule)

include hproper hsound

omit hproper hsound in
/-- What a round does to the members of one object, it does everywhere. -/
theorem every_edit {P Q : List (Name × Written) → Prop}
    (h : ∀ members, P members → (∀ member ∈ members, Orderly placeholders member) →
      (∀ member ∈ members, Ready placeholders member.2) → Q (editMembers rule true members))
    {written : Written} (hready : Ready placeholders written) (hP : written.Every P) :
    (edit rule written).Every Q := by
  induction written with
  | scalar => exact .scalar
  | array padding inner items ih =>
    rw [edit_array]
    refine .array fun item hitem => ?_
    obtain ⟨original, horiginal, rfl⟩ := List.mem_map.mp hitem
    exact ih original horiginal (hready.items original horiginal) (hP.items original horiginal)
  | object padding inner members ih =>
    refine .object (h members hP.here hready.here hready.inside) fun edited hedited => ?_
    -- a member is kept, with its value edited, or inlined
    obtain ⟨member, hmember, _, _, ⟨-, rfl⟩ | ⟨-, rfl⟩⟩ := mem_editMembers hedited
    · exact ih member hmember (hready.inside member hmember) (hP.inside member hmember)
    · exact .scalar

/-- A member that is kept is looked for after a round just if it was before. -/
theorem core_edit_iff {member : Name × Written} (horderly : Orderly placeholders member)
    (hready : Ready placeholders member.2) {mark : List Char}
    (hmark : mark ∈ texts placeholders ∨ mark ∈ references placeholders) :
    memberCore (member.1, edit rule member.2) = mark ↔ memberCore member = mark := by
  have hnormal := normalise_edit hproper hsound hready
  -- a placeholder or a reference to one stays as it is where it is kept
  have hsame : memberCore member ∈ texts placeholders ∨
      memberCore member ∈ references placeholders → (member.1, edit rule member.2) = member := by
    rintro (h | h)
    · rw [edit_of_mem_texts hproper hsound h]
    · rw [edit_of_mem_references hproper h]
  constructor
  · rintro rfl
    have hmember : memberCore member ∈ texts placeholders ∨
        memberCore member ∈ references placeholders := by
      rcases hmark with h | h
      · exact .inl (mem_texts_of_edit hproper horderly hnormal h)
      · exact .inr (mem_references_of_edit hproper h)
    rw [hsame hmember]
  · rintro rfl
    rw [hsame hmark]

omit hsound in
theorem core_inlined_ne (member : Name × Written) {mark : List Char}
    (hmark : mark ∈ texts placeholders ∨ mark ∈ references placeholders) :
    memberCore (inlined member) ≠ mark := by
  obtain ⟨htext, href⟩ := not_mem_inlined hproper member
  rintro rfl
  rcases hmark with h | h
  · exact htext h
  · exact href h

/-- What is absent stays absent, and what a rule keeps nowhere becomes absent. -/
theorem absent_edit {mark : List Char}
    (hmark : mark ∈ texts placeholders ∨ mark ∈ references placeholders)
    {P : List (Name × Written) → Prop}
    (h : ∀ members, P members → ∀ member ∈ members, ∀ first last,
      rule first last member = .keep → memberCore member ≠ mark)
    {written : Written} (hready : Ready placeholders written) (hP : written.Every P) :
    Absent mark (edit rule written) := by
  refine every_edit (fun members hP horderly hinside edited hedited => ?_) hready hP
  obtain ⟨member, hmember, first, last, ⟨hkeep, rfl⟩ | ⟨-, rfl⟩⟩ := mem_editMembers hedited
  · rw [ne_eq,
      core_edit_iff hproper hsound (horderly member hmember) (hinside member hmember) hmark]
    exact h members hP member hmember first last hkeep
  · exact core_inlined_ne hproper member hmark

/-- What is absent stays absent. -/
theorem Absent.edit {mark : List Char}
    (hmark : mark ∈ texts placeholders ∨ mark ∈ references placeholders) {written : Written}
    (hready : Ready placeholders written) (h : Absent mark written) :
    Absent mark (edit rule written) :=
  absent_edit hproper hsound hmark (fun _ habsent member hmember _ _ _ => habsent member hmember)
    hready h

end

theorem every_true (written : Written) : written.Every fun _ => True := by
  induction written with
  | scalar => exact .scalar
  | array padding inner items ih => exact .array ih
  | object padding inner members ih => exact .object trivial ih

theorem Ready.unquoted {written : Written} (h : Ready placeholders written) : Unquoted written :=
  h.mono fun _ horderly member hmember => (horderly member hmember).name

theorem Ready.tidy {written : Written} (h : Ready placeholders written)
    (hmem : placeholder ∈ placeholders) : written.Every (Tidy placeholder) :=
  h.mono fun _ horderly => ⟨fun member hmember => (horderly member hmember).name,
    fun member hmember hcore =>
      (horderly member hmember).tidy (List.mem_map.mpr ⟨placeholder, hmem, hcore.symm⟩)⟩

/-! ## One placeholder -/

/-- A document that some rounds turn into another: it can still be edited, what is left to be
done is the same, and nothing has come up that was absent. -/
structure Leads (placeholders : List Placeholder) (written written' : Written) : Prop where
  ready : Ready placeholders written'
  normal : normalise placeholders written' = normalise placeholders written
  absent : ∀ mark, mark ∈ texts placeholders ∨ mark ∈ references placeholders →
    Absent mark written → Absent mark written'

theorem Leads.refl {written : Written} (h : Ready placeholders written) :
    Leads placeholders written written := ⟨h, rfl, fun _ _ h => h⟩

theorem Leads.trans {written written' written'' : Written}
    (h : Leads placeholders written written') (h' : Leads placeholders written' written'') :
    Leads placeholders written written'' :=
  ⟨h'.ready, h'.normal.trans h.normal, fun mark hmark habsent =>
    h'.absent mark hmark (h.absent mark hmark habsent)⟩

section

variable (hproper : ∀ placeholder ∈ placeholders, placeholder.Proper)

include hproper

theorem leads_edit {rule : Rule} (hsound : Sound placeholders rule) {written : Written}
    (hready : Ready placeholders written) : Leads placeholders written (edit rule written) :=
  ⟨ready_edit hproper hsound hready, normalise_edit hproper hsound hready,
    fun _ hmark habsent => habsent.edit hproper hsound hmark hready⟩

/-- Inlining leaves no reference to the placeholder. -/
theorem inlineReferences_leads (hmem : placeholder ∈ placeholders) {written : Written}
    (hready : Ready placeholders written) :
    ∃ written', Placeholder.inlineReferences written.text placeholder = written'.text ∧
      Leads placeholders written written' ∧ Absent placeholder.reference written' := by
  have hsound := sound_inlineRule hmem
  refine ⟨_, inlineReferences_text (hproper _ hmem) hready.unquoted,
    leads_edit hproper hsound hready, ?_⟩
  have hmark : placeholder.reference ∈ references placeholders :=
    List.mem_map.mpr ⟨placeholder, hmem, rfl⟩
  refine absent_edit hproper hsound (.inr hmark) (fun _ _ member _ _ _ hkeep hcore => ?_) hready
    (every_true written)
  unfold inlineRule at hkeep
  rw [if_pos hcore] at hkeep
  cases hkeep

/-- After the first round, the placeholder stands first in its object. -/
theorem later_first (hmem : placeholder ∈ placeholders) {written : Written}
    (hready : Ready placeholders written) :
    (edit (laterRule placeholder) written).Every fun members =>
      ∀ member ∈ members.tail, memberCore member ≠ placeholder.text := by
  have hsound : Sound placeholders (laterRule placeholder) := sound_dropRule hmem
  have hmark : placeholder.text ∈ texts placeholders := List.mem_map.mpr ⟨placeholder, hmem, rfl⟩
  -- behind the first member the placeholder is dropped wherever it stands
  have htail : ∀ members, (∀ member ∈ members, Orderly placeholders member) →
      (∀ member ∈ members, Ready placeholders member.2) →
      ∀ edited ∈ editMembers (laterRule placeholder) false members,
        memberCore edited ≠ placeholder.text := by
    intro members horderly hinside
    induction members with
    | nil => exact fun _ h => absurd h List.not_mem_nil
    | cons member others ih =>
      have hothers := ih (fun other ho => horderly other (List.mem_cons_of_mem _ ho))
        fun other ho => hinside other (List.mem_cons_of_mem _ ho)
      rw [editMembers]
      by_cases hcore : memberCore member = placeholder.text
      · have hfate : laterRule placeholder false others.isEmpty member = .drop :=
          if_pos ⟨hcore, rfl⟩
        rw [hfate]
        exact hothers
      · have hfate : laterRule placeholder false others.isEmpty member = .keep :=
          if_neg fun h => hcore h.1
        rw [hfate, editMember_eq]
        intro edited hedited
        rcases List.mem_cons.mp hedited with rfl | hedited
        · rw [ne_eq, core_edit_iff hproper hsound (horderly member List.mem_cons_self)
            (hinside member List.mem_cons_self) (.inl hmark)]
          exact hcore
        · exact hothers edited hedited
  refine every_edit (fun members _ horderly hinside => ?_) hready (every_true written)
  cases members with
  | nil => exact fun _ h => absurd h List.not_mem_nil
  | cons member others =>
    have hfate : laterRule placeholder true others.isEmpty member = .keep :=
      if_neg fun h => Bool.noConfusion h.2
    rw [editMembers, hfate]
    exact htail others (fun other ho => horderly other (List.mem_cons_of_mem _ ho))
      fun other ho => hinside other (List.mem_cons_of_mem _ ho)

/-- After the second round, the placeholder stands alone in its object. -/
theorem earlier_alone (hmem : placeholder ∈ placeholders) {written : Written}
    (hready : Ready placeholders written)
    (hfirst : written.Every fun members =>
      ∀ member ∈ members.tail, memberCore member ≠ placeholder.text) :
    (edit (earlierRule placeholder) written).Every (Alone placeholder) := by
  have hsound : Sound placeholders (earlierRule placeholder) := sound_dropRule hmem
  have hmark : placeholder.text ∈ texts placeholders := List.mem_map.mpr ⟨placeholder, hmem, rfl⟩
  refine every_edit (fun members hfirst horderly hinside => ?_) hready hfirst
  cases members with
  | nil => exact fun _ h => absurd h List.not_mem_nil
  | cons member others =>
    have hothers : ∀ edited ∈ editMembers (earlierRule placeholder) false others,
        memberCore edited ≠ placeholder.text := by
      intro edited hedited
      obtain ⟨other, hother, _, _, ⟨-, rfl⟩ | ⟨-, rfl⟩⟩ := mem_editMembers hedited
      · rw [ne_eq, core_edit_iff hproper hsound (horderly other (List.mem_cons_of_mem _ hother))
          (hinside other (List.mem_cons_of_mem _ hother)) (.inl hmark)]
        exact hfirst other hother
      · exact core_inlined_ne hproper other (.inl hmark)
    rw [editMembers]
    by_cases hcore : memberCore member = placeholder.text
    · -- the first member is dropped unless it is the only one
      cases others with
      | nil =>
        have hfate : earlierRule placeholder true true member = .keep :=
          if_neg fun h => Bool.noConfusion h.2
        rw [List.isEmpty_nil, hfate, editMembers]
        intro edited hedited _
        rw [List.mem_singleton.mp hedited]
      | cons next others =>
        have hfate : earlierRule placeholder true false member = .drop := if_pos ⟨hcore, rfl⟩
        rw [List.isEmpty_cons, hfate]
        exact fun edited hedited h => absurd h (hothers edited hedited)
    · have hfate : earlierRule placeholder true others.isEmpty member = .keep :=
        if_neg fun h => hcore h.1
      rw [hfate, editMember_eq]
      intro edited hedited h
      rcases List.mem_cons.mp hedited with rfl | hedited
      · rw [core_edit_iff hproper hsound (horderly member List.mem_cons_self)
          (hinside member List.mem_cons_self) (.inl hmark)] at h
        exact absurd h hcore
      · exact absurd h (hothers edited hedited)

/-- Three rounds leave nothing of the placeholder. -/
theorem remove_leads (hmem : placeholder ∈ placeholders) {written : Written}
    (hready : Ready placeholders written) :
    ∃ written', Placeholder.remove written.text placeholder = written'.text ∧
      Leads placeholders written written' ∧ Absent placeholder.text written' := by
  have hsound : ∀ spared, Sound placeholders (dropRule placeholder spared) :=
    fun _ => sound_dropRule hmem
  have hplaceholder := hproper _ hmem
  -- three rounds: behind a comma, before a comma, alone
  have hlater := leads_edit hproper (hsound fun first _ => first) hready
  have hearlier := leads_edit hproper (hsound fun _ last => last) hlater.ready
  have halone := leads_edit hproper (hsound fun _ _ => false) hearlier.ready
  have hstands := earlier_alone hproper hmem hlater.ready (later_first hproper hmem hready)
  have htidy := hearlier.ready.tidy hmem
  refine ⟨_, ?_, (hlater.trans hearlier).trans halone, ?_⟩
  · unfold Placeholder.remove
    dsimp only
    rw [replaceAll_later hplaceholder (hready.tidy hmem),
      replaceAll_earlier hplaceholder (hlater.ready.tidy hmem),
      replaceAll_alone hplaceholder (htidy.and hstands)]
  · have hmark : placeholder.text ∈ texts placeholders := List.mem_map.mpr ⟨placeholder, hmem, rfl⟩
    refine absent_edit hproper (hsound _) (.inl hmark) (fun _ _ member _ _ _ hkeep hcore => ?_)
      hearlier.ready (every_true _)
    unfold dropRule at hkeep
    rw [if_pos ⟨hcore, rfl⟩] at hkeep
    cases hkeep

end

/-! ## All placeholders -/

/-- Rounds for some placeholders, one after the other, lead to a document in which what each
of them looks for is absent. -/
theorem foldl_leads {step : List Char → Placeholder → List Char} {mark : Placeholder → List Char}
    (hmark : ∀ placeholder ∈ placeholders,
      mark placeholder ∈ texts placeholders ∨ mark placeholder ∈ references placeholders)
    (hstep : ∀ placeholder ∈ placeholders, ∀ written, Ready placeholders written →
      ∃ written', step written.text placeholder = written'.text ∧
        Leads placeholders written written' ∧ Absent (mark placeholder) written') :
    ∀ chosen ⊆ placeholders, ∀ written, Ready placeholders written →
      ∃ written', chosen.foldl step written.text = written'.text ∧
        Leads placeholders written written' ∧
          ∀ placeholder ∈ chosen, Absent (mark placeholder) written' := by
  intro chosen
  induction chosen with
  | nil => exact fun _ written hready =>
      ⟨written, rfl, .refl hready, fun _ h => absurd h List.not_mem_nil⟩
  | cons first rest ih =>
    intro hsub written hready
    have hfirst := hsub List.mem_cons_self
    obtain ⟨next, htext, hleads, habsent⟩ := hstep first hfirst written hready
    obtain ⟨last, hrest, hleads', habsent'⟩ :=
      ih (fun p hp => hsub (List.mem_cons_of_mem _ hp)) next hleads.ready
    refine ⟨last, by rw [List.foldl_cons, htext, hrest], hleads.trans hleads', ?_⟩
    intro placeholder hp
    -- what has become absent stays absent in the steps after it
    rcases List.mem_cons.mp hp with rfl | hp
    · exact hleads'.absent _ (hmark _ hfirst) habsent
    · exact habsent' placeholder hp

/-- A document in which nothing is left to be looked for is normal. -/
theorem normalise_of_absent {written : Written}
    (h : ∀ mark, mark ∈ texts placeholders ∨ mark ∈ references placeholders →
      Absent mark written) : normalise placeholders written = written := by
  induction written with
  | scalar => rfl
  | array padding inner items ih =>
    have hitems : items.map (normalise placeholders) = items := by
      refine (List.map_congr_left fun item hitem => ?_).trans (List.map_id items)
      exact ih item hitem fun mark hmark => (h mark hmark).items item hitem
    exact (edit_array padding inner items).trans (congrArg _ hitems)
  | object padding inner members ih =>
    -- no member is a placeholder or a reference to one, so all are kept
    have hmembers : members.filterMap (normalised placeholders) = members := by
      refine (List.filterMap_congr fun member hmember => ?_).trans List.filterMap_some
      have htext : memberCore member ∉ texts placeholders := fun hmem =>
        (h _ (.inl hmem)).here member hmember rfl
      have href : memberCore member ∉ references placeholders := fun hmem =>
        (h _ (.inr hmem)).here member hmember rfl
      have hvalue := ih member hmember fun mark hmark => (h mark hmark).inside member hmember
      rw [normalised, if_neg htext, if_neg href, hvalue]
    rw [normalise_object, hmembers]

theorem proper_of_mem_found {written : Written} :
    ∀ placeholder ∈ found written, placeholder.Proper := by
  induction written with
  | scalar => exact fun _ h => absurd h List.not_mem_nil
  | array padding inner items ih =>
    intro placeholder h
    rw [found, foundItems_eq] at h
    obtain ⟨item, hitem, h⟩ := List.mem_flatMap.mp h
    exact ih item hitem placeholder h
  | object padding inner members ih =>
    intro placeholder h
    rw [found, foundMembers_eq] at h
    obtain ⟨⟨name, value⟩, hmember, h⟩ := List.mem_flatMap.mp h
    rw [foundMember] at h
    -- what is inside a placeholder is not searched
    cases hplaceholder : placeholder? (name, value) with
    | some other =>
      rw [hplaceholder] at h
      rw [List.mem_singleton.mp h]
      exact (placeholder?_eq_some.mp hplaceholder).1
    | none =>
      rw [hplaceholder] at h
      exact ih _ hmember placeholder h

/--
**Replacing is editing.** Taking the placeholders out of the text of a document gives the text
of the normalised document, if its members are orderly.
-/
theorem withoutPlaceholders_text {written : Written} (hready : Ready (found written) written) :
    withoutPlaceholders written.text = (normalise (found written) written).text := by
  have hproper : ∀ placeholder ∈ found written, placeholder.Proper := proper_of_mem_found
  have htexts : ∀ placeholder ∈ found written, placeholder.text ∈ texts (found written) :=
    fun placeholder hmem => List.mem_map.mpr ⟨placeholder, hmem, rfl⟩
  have hreferences : ∀ placeholder ∈ found written,
      placeholder.reference ∈ references (found written) :=
    fun placeholder hmem => List.mem_map.mpr ⟨placeholder, hmem, rfl⟩
  -- first all references are inlined, then all placeholders removed
  obtain ⟨inlined, hinlined, hleads, hnoReference⟩ := foldl_leads
    (fun placeholder hmem => .inr (hreferences placeholder hmem))
    (fun placeholder hmem written => inlineReferences_leads hproper hmem) _ (List.Subset.refl _)
    written hready
  obtain ⟨last, hlast, hleads', hnoText⟩ := foldl_leads
    (fun placeholder hmem => .inl (htexts placeholder hmem))
    (fun placeholder hmem written => remove_leads hproper hmem) _ (List.Subset.refl _)
    inlined hleads.ready
  -- after that nothing is left to be done
  have hnormal : normalise (found written) last = last := by
    refine normalise_of_absent fun mark hmark => ?_
    rcases hmark with hmark | hmark
    · obtain ⟨placeholder, hmem, rfl⟩ := List.mem_map.mp hmark
      exact hnoText placeholder hmem
    · obtain ⟨placeholder, hmem, rfl⟩ := List.mem_map.mp hmark
      exact hleads'.absent _ (.inr hmark) (hnoReference placeholder hmem)
  rw [withoutPlaceholders, all_text hready.unquoted, hinlined, hlast,
    ← (hleads.trans hleads').normal, hnormal]

/-- The text without placeholders is read as the value of the normalised document. -/
theorem read_withoutPlaceholders {written : Written} (hready : Ready (found written) written) :
    Json.read (withoutPlaceholders written.text) =
      .ok (normalise (found written) written).value := by
  rw [withoutPlaceholders_text hready, Written.read_text]

end ApiClient.Document
