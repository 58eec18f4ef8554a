import ApiClient.Proofs.Json.Written

/-!
# A written value is read

Reading what is written gives the value that is written: the blanks are passed over, each token is
read up to its end, and the members of an object are put in their places one after the other.
-/

namespace ApiClient.Json

/-! ## Blanks -/

/-- A text that does not begin with a blank. -/
def Unpadded (text : List Char) : Prop := ∀ c, text.head? = some c → isJsonBlank c = false

theorem unpadded_cons {c : Char} {text : List Char} (h : isJsonBlank c = false) :
    Unpadded (c :: text) := by
  intro c' hc
  obtain rfl := Option.some.inj hc
  exact h

theorem skipBlanks_unpadded {text : List Char} (h : Unpadded text) : skipBlanks text = text := by
  cases text with
  | nil => rfl
  | cons c text => exact List.dropWhile_cons_of_neg (by simp [h c rfl])

theorem skipBlanks_append (blanks : Blanks) (text : List Char) :
    skipBlanks (blanks.chars ++ text) = skipBlanks text := by
  unfold skipBlanks
  rw [List.dropWhile_append_of_pos blanks.blank]

/-! ## Tokens -/

/-- Characters with which no word and no numeral begins. -/
def otherStarts : List Char :=
  [' ', '\t', '\n', '\r', '"', '[', '\x7b', ',', ']', '\x7d', '\uFEFF']

/-- A word or a numeral begins with a character of its own. -/
theorem Plain.cons (word : Plain) :
    ∃ c rest, word.chars = c :: rest ∧ ∀ d ∈ otherStarts, c ≠ d := by
  have hreads := word.reads
  cases hchars : word.chars with
  | nil =>
    rw [hchars] at hreads
    obtain ⟨hshorter, -⟩ := hreads
    exact absurd hshorter (Nat.lt_irrefl _)
  | cons c rest =>
    rw [hchars] at hreads
    obtain ⟨hshorter, hread⟩ := hreads
    refine ⟨c, rest, rfl, ?_⟩
    rintro d hd rfl
    simp only [otherStarts, List.mem_cons, List.not_mem_nil, or_false] at hd
    -- no word and no numeral begins like that
    have hword : readWord? (c :: rest) = none := by
      rcases hd with rfl | rfl | rfl | rfl | rfl | rfl | rfl | rfl | rfl | rfl | rfl <;>
        simp [readWord?, wordValues, Text.after?]
    have hnumeral : readNumeral? (c :: rest) = none := by
      rcases hd with rfl | rfl | rfl | rfl | rfl | rfl | rfl | rfl | rfl | rfl | rfl <;> rfl
    unfold readPlain at hread
    split at hread
    · rename_i h
      rw [hword] at h
      cases h
    · split at hread
      · rename_i h
        rw [hnumeral] at h
        cases h
      · cases hread

theorem readValue_plain (word : Plain) {rest : List Char} (hrest : Ended rest) :
    ∃ h, readValue (word.chars ++ rest) = .ok ⟨word.value, rest, h⟩ := by
  obtain ⟨c, tail, hchars, hother⟩ := word.cons
  obtain ⟨hshorter, hread⟩ := word.reads
  obtain ⟨h, hplain⟩ := readPlain_append hrest.detached hread
  refine ⟨h, Eq.trans ?_ hplain⟩
  have hhead : word.chars ++ rest = c :: (tail ++ rest) := by rw [hchars]; rfl
  rw [hhead, readValue]
  · exact fun _ he => hother '"' (by decide) (List.cons.inj he).1
  · exact fun _ he => hother '[' (by decide) (List.cons.inj he).1
  · exact fun _ he => hother '\x7b' (by decide) (List.cons.inj he).1

theorem readValue_quoted (spelling : Spelling) (rest : List Char) :
    ∃ h, readValue (spelling.quoted ++ rest) = .ok ⟨.string spelling.text, rest, h⟩ := by
  have hread := spelling.readText_quoted rest .value
  have hquoted : spelling.quoted ++ rest = '"' :: (spelling.chars ++ ['"'] ++ rest) := rfl
  rw [hquoted] at hread ⊢
  obtain ⟨h, hread⟩ := hread
  refine ⟨h, ?_⟩
  rw [readValue, hread]
  rfl

/-! ## Steps of the reader -/

section Steps

variable {text afterItem rest : List Char} {item : Json} {hi : afterItem.length < text.length}

theorem readItems_last (hitem : readValue text = .ok ⟨item, afterItem, hi⟩)
    (hclose : skipBlanks afterItem = ']' :: rest) :
    ∃ h, readItems text = .ok ⟨[item], rest, h⟩ := by
  have hle := length_skipBlanks_le afterItem
  rw [hclose, List.length_cons] at hle
  refine ⟨by omega, ?_⟩
  rw [readItems, hitem]
  simp only [bind, Except.bind]
  split
  · rename_i hskip
    rw [hclose] at hskip
    obtain ⟨-, rfl⟩ := List.cons.inj hskip
    rfl
  · rename_i hskip
    rw [hclose] at hskip
    exact absurd (List.cons.inj hskip).1 (by decide)
  · rename_i hnot _
    exact (hnot rest hclose).elim

theorem readItems_more (hitem : readValue text = .ok ⟨item, afterItem, hi⟩)
    (hcomma : skipBlanks afterItem = ',' :: rest) {items : List Json} {after : List Char}
    {hr : after.length < (skipBlanks rest).length}
    (hrest : readItems (skipBlanks rest) = .ok ⟨items, after, hr⟩) :
    ∃ h, readItems text = .ok ⟨item :: items, after, h⟩ := by
  have hle := length_skipBlanks_le afterItem
  have hle' := length_skipBlanks_le rest
  rw [hcomma, List.length_cons] at hle
  refine ⟨by omega, ?_⟩
  rw [readItems, hitem]
  simp only [bind, Except.bind]
  split
  · rename_i hskip
    rw [hcomma] at hskip
    exact absurd (List.cons.inj hskip).1 (by decide)
  · rename_i hskip
    rw [hcomma] at hskip
    obtain ⟨-, rfl⟩ := List.cons.inj hskip
    rw [hrest]
    rfl
  · rename_i hnot
    exact (hnot rest hcomma).elim

variable {done : List (String × Json)} {name : String} {value : Json}
  {afterName afterColon afterValue : List Char} {hn : afterName.length < text.length}
  {hv : afterValue.length < (skipBlanks afterColon).length}

theorem readMembers_last (hname : readText text .memberName = .ok ⟨name, afterName, hn⟩)
    (hcolon : skipBlanks afterName = ':' :: afterColon)
    (hvalue : readValue (skipBlanks afterColon) = .ok ⟨value, afterValue, hv⟩)
    (hclose : skipBlanks afterValue = '\x7d' :: rest) :
    ∃ h, readMembers done text = .ok ⟨put name value done, rest, h⟩ := by
  have hleName := length_skipBlanks_le afterName
  have hleColon := length_skipBlanks_le afterColon
  have hleValue := length_skipBlanks_le afterValue
  rw [hcolon, List.length_cons] at hleName
  rw [hclose, List.length_cons] at hleValue
  refine ⟨by omega, ?_⟩
  rw [readMembers, hname]
  simp only [bind, Except.bind]
  -- the reader branches on the texts behind the name and behind the value, which are given
  split
  · rename_i hskip
    rw [hcolon] at hskip
    obtain ⟨-, rfl⟩ := List.cons.inj hskip
    rw [hvalue]
    dsimp only
    split
    · rename_i hskip
      rw [hclose] at hskip
      obtain ⟨-, rfl⟩ := List.cons.inj hskip
      rfl
    · rename_i hskip
      rw [hclose] at hskip
      exact absurd (List.cons.inj hskip).1 (by decide)
    · rename_i hnot _
      exact (hnot rest hclose).elim
  · rename_i hnot
    exact (hnot afterColon hcolon).elim

theorem readMembers_more (hname : readText text .memberName = .ok ⟨name, afterName, hn⟩)
    (hcolon : skipBlanks afterName = ':' :: afterColon)
    (hvalue : readValue (skipBlanks afterColon) = .ok ⟨value, afterValue, hv⟩)
    (hcomma : skipBlanks afterValue = ',' :: rest) {members : List (String × Json)}
    {after : List Char} {hr : after.length < (skipBlanks rest).length}
    (hrest : readMembers (put name value done) (skipBlanks rest) = .ok ⟨members, after, hr⟩) :
    ∃ h, readMembers done text = .ok ⟨members, after, h⟩ := by
  have hleName := length_skipBlanks_le afterName
  have hleColon := length_skipBlanks_le afterColon
  have hleValue := length_skipBlanks_le afterValue
  have hleRest := length_skipBlanks_le rest
  rw [hcolon, List.length_cons] at hleName
  rw [hcomma, List.length_cons] at hleValue
  refine ⟨by omega, ?_⟩
  rw [readMembers, hname]
  simp only [bind, Except.bind]
  split
  · rename_i hskip
    rw [hcolon] at hskip
    obtain ⟨-, rfl⟩ := List.cons.inj hskip
    rw [hvalue]
    dsimp only
    split
    · rename_i hskip
      rw [hcomma] at hskip
      exact absurd (List.cons.inj hskip).1 (by decide)
    · rename_i hskip
      rw [hcomma] at hskip
      obtain ⟨-, rfl⟩ := List.cons.inj hskip
      rw [hrest]
      rfl
    · rename_i hnot
      exact (hnot rest hcomma).elim
  · rename_i hnot
    exact (hnot afterColon hcolon).elim

theorem readValue_emptyArray (hclose : skipBlanks text = ']' :: rest) :
    ∃ h, readValue ('[' :: text) = .ok ⟨.array [], rest, h⟩ := by
  have hle := length_skipBlanks_le text
  rw [hclose, List.length_cons] at hle
  refine ⟨by rw [List.length_cons]; omega, ?_⟩
  rw [readValue]
  split
  · rename_i hskip
    rw [hclose] at hskip
    obtain ⟨-, rfl⟩ := List.cons.inj hskip
    rfl
  · rename_i hnot
    exact (hnot rest hclose).elim

theorem readValue_array {items : List Json} {hr : rest.length < (skipBlanks text).length}
    (hopen : ∀ tail, skipBlanks text ≠ ']' :: tail)
    (hitems : readItems (skipBlanks text) = .ok ⟨items, rest, hr⟩) :
    ∃ h, readValue ('[' :: text) = .ok ⟨.array items, rest, h⟩ := by
  have hle := length_skipBlanks_le text
  refine ⟨by rw [List.length_cons]; omega, ?_⟩
  rw [readValue]
  split
  · rename_i hskip
    exact absurd hskip (hopen _)
  · rw [hitems]
    rfl

theorem readValue_emptyObject (hclose : skipBlanks text = '\x7d' :: rest) :
    ∃ h, readValue ('\x7b' :: text) = .ok ⟨.object [], rest, h⟩ := by
  have hle := length_skipBlanks_le text
  rw [hclose, List.length_cons] at hle
  refine ⟨by rw [List.length_cons]; omega, ?_⟩
  rw [readValue]
  split
  · rename_i hskip
    rw [hclose] at hskip
    obtain ⟨-, rfl⟩ := List.cons.inj hskip
    rfl
  · rename_i hnot
    exact (hnot rest hclose).elim

theorem readValue_object {members : List (String × Json)}
    {hr : rest.length < (skipBlanks text).length}
    (hopen : ∀ tail, skipBlanks text ≠ '\x7d' :: tail)
    (hmembers : readMembers [] (skipBlanks text) = .ok ⟨members, rest, hr⟩) :
    ∃ h, readValue ('\x7b' :: text) = .ok ⟨.object members, rest, h⟩ := by
  have hle := length_skipBlanks_le text
  refine ⟨by rw [List.length_cons]; omega, ?_⟩
  rw [readValue]
  split
  · rename_i hskip
    exact absurd hskip (hopen _)
  · rw [hmembers]
    rfl

end Steps

/-! ## Values -/

namespace Written

/-- A value begins with none of the characters that can follow one. -/
theorem core_cons (written : Written) :
    ∃ c rest, written.core = c :: rest ∧ isJsonBlank c = false ∧ endsValue c = false ∧
      c ≠ '\uFEFF' := by
  cases written with
  | scalar padding token =>
    cases token with
    | plain word =>
      obtain ⟨c, rest, hchars, hother⟩ := word.cons
      simp only [otherStarts, List.forall_mem_cons, List.not_mem_nil, false_implies, implies_true,
        and_true] at hother
      refine ⟨c, rest, hchars, ?_, ?_, hother.2.2.2.2.2.2.2.2.2.2⟩ <;>
        simp [endsValue, isJsonBlank, hother]
    | quoted spelling => exact ⟨'"', _, rfl, by decide, by decide, by decide⟩
  | array padding inner items => exact ⟨'[', _, rfl, by decide, by decide, by decide⟩
  | object padding inner members => exact ⟨'\x7b', _, rfl, by decide, by decide, by decide⟩

/-- The reader passes over the blanks before a value. -/
theorem skipBlanks_text (written : Written) (rest : List Char) :
    skipBlanks (written.text ++ rest) =
      written.core ++ (written.padding.after.chars ++ rest) := by
  obtain ⟨c, tail, hcore, hblank, -, -⟩ := written.core_cons
  rw [text, List.append_assoc, List.append_assoc, skipBlanks_append]
  refine skipBlanks_unpadded ?_
  rw [hcore]
  exact unpadded_cons hblank

/-- The reader passes over the blanks before the name of a member. -/
theorem skipBlanks_memberText (name : Name) (value : Written) (rest : List Char) :
    skipBlanks (memberText (name, value) ++ rest) =
      name.spelling.quoted ++ (name.after.chars ++ ':' :: (value.text ++ rest)) := by
  rw [memberText_eq, Name.text]
  simp only [List.append_assoc, List.cons_append]
  rw [skipBlanks_append]
  exact skipBlanks_unpadded (unpadded_cons (by decide))

/-- What follows a part, if it begins as it should, comes next once the blanks are passed over. -/
theorem skipBlanks_after {c : Char} (hc : isJsonBlank c = false) (blanks : Blanks)
    (rest : List Char) : skipBlanks (blanks.chars ++ c :: rest) = c :: rest := by
  rw [skipBlanks_append]
  exact skipBlanks_unpadded (unpadded_cons hc)

/-- A value is read up to where it ends. -/
def Readable (written : Written) : Prop :=
  ∀ rest, Ended rest → ∃ h, readValue (written.core ++ rest) = .ok ⟨written.value, rest, h⟩

/-- The blanks after a value, and a character that can follow it, do not belong to it. -/
theorem Readable.before {written : Written} (h : Readable written) {c : Char}
    (hc : endsValue c = true) (rest : List Char) :
    ∃ h, readValue (written.core ++ (written.padding.after.chars ++ c :: rest)) =
      .ok ⟨written.value, written.padding.after.chars ++ c :: rest, h⟩ :=
  h _ (ended_append written.padding.after.blank (ended_cons hc))

/-- The items of a list are read through the closing bracket. -/
theorem readItems_text (others : List Written) :
    ∀ (item : Written), (∀ written ∈ item :: others, Readable written) → ∀ rest,
      ∃ h, readItems (item.core ++ (item.padding.after.chars ++
        ((others.map text).flatMap (',' :: ·) ++ ']' :: rest))) =
          .ok ⟨(item :: others).map value, rest, h⟩ := by
  induction others with
  | nil =>
    intro item hreadable rest
    obtain ⟨h, hread⟩ :=
      (hreadable item List.mem_cons_self).before (c := ']') (by decide) rest
    exact readItems_last hread (skipBlanks_after (by decide) _ rest)
  | cons next others ih =>
    intro item hreadable rest
    -- the comma belongs to the rest
    have hothers : ((next :: others).map text).flatMap (',' :: ·) ++ ']' :: rest =
        ',' :: (next.text ++ ((others.map text).flatMap (',' :: ·) ++ ']' :: rest)) := by
      simp
    rw [hothers]
    obtain ⟨h, hread⟩ :=
      (hreadable item List.mem_cons_self).before (c := ',') (by decide)
        (next.text ++ ((others.map text).flatMap (',' :: ·) ++ ']' :: rest))
    have hrest := ih next (fun other ho => hreadable other (List.mem_cons_of_mem _ ho)) rest
    rw [← skipBlanks_text] at hrest
    obtain ⟨hr, hrest⟩ := hrest
    exact readItems_more hread (skipBlanks_after (by decide) _ _) hrest

/-- The members of an object are read through the closing brace. -/
theorem readMembers_text (others : List (Name × Written)) :
    ∀ (name : Name) (value : Written) (done : List (String × Json)),
      (∀ member ∈ (name, value) :: others, Readable member.2) → ∀ rest,
      ∃ h, readMembers done (name.spelling.quoted ++ (name.after.chars ++ ':' :: (value.text ++
        ((others.map memberText).flatMap (',' :: ·) ++ '\x7d' :: rest)))) =
          .ok ⟨(memberValues ((name, value) :: others)).foldl
            (fun done entry => put entry.1 entry.2 done) done, rest, h⟩ := by
  induction others with
  | nil =>
    intro name value done hreadable rest
    obtain ⟨hn, hname⟩ := name.spelling.readText_quoted
      (name.after.chars ++ ':' :: (value.text ++ '\x7d' :: rest)) .memberName
    have hvalue := (hreadable _ List.mem_cons_self).before (c := '\x7d') (by decide) rest
    rw [← skipBlanks_text] at hvalue
    obtain ⟨hv, hvalue⟩ := hvalue
    exact readMembers_last hname (skipBlanks_after (by decide) _ _) hvalue
      (skipBlanks_after (by decide) _ rest)
  | cons next others ih =>
    intro name value done hreadable rest
    obtain ⟨nextName, nextValue⟩ := next
    -- the comma belongs to the rest
    have hothers : (((nextName, nextValue) :: others).map memberText).flatMap (',' :: ·) ++
        '\x7d' :: rest = ',' :: (memberText (nextName, nextValue) ++
          ((others.map memberText).flatMap (',' :: ·) ++ '\x7d' :: rest)) := by
      simp
    rw [hothers]
    obtain ⟨hn, hname⟩ := name.spelling.readText_quoted
      (name.after.chars ++ ':' :: (value.text ++ ',' :: (memberText (nextName, nextValue) ++
        ((others.map memberText).flatMap (',' :: ·) ++ '\x7d' :: rest)))) .memberName
    have hvalue := (hreadable _ List.mem_cons_self).before (c := ',') (by decide)
      (memberText (nextName, nextValue) ++
        ((others.map memberText).flatMap (',' :: ·) ++ '\x7d' :: rest))
    rw [← skipBlanks_text] at hvalue
    obtain ⟨hv, hvalue⟩ := hvalue
    have hrest := ih nextName nextValue (put name.spelling.text value.value done)
      (fun other ho => hreadable other (List.mem_cons_of_mem _ ho)) rest
    rw [← skipBlanks_memberText] at hrest
    obtain ⟨hr, hrest⟩ := hrest
    exact readMembers_more hname (skipBlanks_after (by decide) _ _) hvalue
      (skipBlanks_after (by decide) _ _) hrest

/-- A list is read up to its closing bracket, if its items are read. -/
theorem readable_array (padding : Padding) (inner : Blanks) {items : List Written}
    (h : ∀ item ∈ items, Readable item) : Readable (.array padding inner items) := by
  intro rest _
  rw [core_array]
  cases items with
  | nil =>
    have hclose : skipBlanks (inner.chars ++ ']' :: rest) = ']' :: rest :=
      skipBlanks_after (by decide) inner rest
    have htext : '[' :: inner.chars ++ joined ([].map text) ++ [']'] ++ rest =
        '[' :: (inner.chars ++ ']' :: rest) := by
      simp [joined_nil]
    rw [htext, value_array]
    exact readValue_emptyArray hclose
  | cons item others =>
    have htext : '[' :: inner.chars ++ joined ((item :: others).map text) ++ [']'] ++ rest =
        '[' :: (inner.chars ++ (item.text ++
          ((others.map text).flatMap (',' :: ·) ++ ']' :: rest))) := by
      simp [joined]
    have hskip : skipBlanks (inner.chars ++ (item.text ++
        ((others.map text).flatMap (',' :: ·) ++ ']' :: rest))) =
          item.core ++ (item.padding.after.chars ++
            ((others.map text).flatMap (',' :: ·) ++ ']' :: rest)) := by
      rw [skipBlanks_append, skipBlanks_text]
    have hitems := readItems_text others item h rest
    rw [← hskip] at hitems
    obtain ⟨h, hitems⟩ := hitems
    rw [htext, value_array]
    -- a value does not begin with the bracket that would close the list
    refine readValue_array ?_ hitems
    intro tail he
    obtain ⟨c, rest', hcore, -, hends, -⟩ := item.core_cons
    rw [hskip, hcore] at he
    obtain rfl := (List.cons.inj he).1
    cases hends

/-- An object is read up to its closing brace, if the values of its members are read. -/
theorem readable_object (padding : Padding) (inner : Blanks) {members : List (Name × Written)}
    (h : ∀ member ∈ members, Readable member.2) : Readable (.object padding inner members) := by
  intro rest _
  rw [core_object]
  cases members with
  | nil =>
    have hclose : skipBlanks (inner.chars ++ '\x7d' :: rest) = '\x7d' :: rest :=
      skipBlanks_after (by decide) inner rest
    have htext : '\x7b' :: inner.chars ++ joined ([].map memberText) ++ ['\x7d'] ++ rest =
        '\x7b' :: (inner.chars ++ '\x7d' :: rest) := by
      simp [joined_nil]
    rw [htext, value]
    exact readValue_emptyObject hclose
  | cons member others =>
    obtain ⟨name, first⟩ := member
    have htext : '\x7b' :: inner.chars ++ joined (((name, first) :: others).map memberText) ++
        ['\x7d'] ++ rest = '\x7b' :: (inner.chars ++ (memberText (name, first) ++
          ((others.map memberText).flatMap (',' :: ·) ++ '\x7d' :: rest))) := by
      simp [joined]
    have hskip : skipBlanks (inner.chars ++ (memberText (name, first) ++
        ((others.map memberText).flatMap (',' :: ·) ++ '\x7d' :: rest))) =
          name.spelling.quoted ++ (name.after.chars ++ ':' :: (first.text ++
            ((others.map memberText).flatMap (',' :: ·) ++ '\x7d' :: rest))) := by
      rw [skipBlanks_append, skipBlanks_memberText]
    have hmembers := readMembers_text others name first [] h rest
    rw [← hskip] at hmembers
    obtain ⟨h, hmembers⟩ := hmembers
    rw [htext, value]
    -- a name does not begin with the brace that would close the object
    refine readValue_object ?_ hmembers
    intro tail he
    rw [hskip] at he
    exact absurd (List.cons.inj he).1 (by decide)

/-- Every value is read up to where it ends. -/
theorem readable (written : Written) : Readable written := by
  induction written with
  | scalar padding token =>
    intro rest hrest
    cases token with
    | plain word => exact readValue_plain word hrest
    | quoted spelling => exact readValue_quoted spelling rest
  | array padding inner items ih => exact readable_array padding inner ih
  | object padding inner members ih => exact readable_object padding inner ih

/-- The mark of a byte order is no part of a value. -/
theorem head_text (written : Written) : written.text.head? ≠ some '\uFEFF' := by
  obtain ⟨c, rest, hcore, -, -, hmark⟩ := written.core_cons
  rw [text, hcore]
  cases hbefore : written.padding.before.chars with
  | nil => exact fun h => hmark (Option.some.inj h)
  | cons b blanks =>
    intro h
    obtain rfl : b = '\uFEFF' := Option.some.inj h
    have hblank := written.padding.before.blank '\uFEFF' (hbefore ▸ List.mem_cons_self)
    exact absurd hblank (by decide)

/-- **What is written is read.** -/
theorem read_text (written : Written) : read written.text = .ok written.value := by
  have hended : Ended (written.padding.after.chars ++ []) :=
    ended_append written.padding.after.blank ended_nil
  have hread := written.readable _ hended
  rw [← skipBlanks_text, List.append_nil, List.append_nil] at hread
  obtain ⟨h, hread⟩ := hread
  have hdone : skipBlanks written.padding.after.chars = [] := by
    have := skipBlanks_append written.padding.after []
    rwa [List.append_nil] at this
  unfold read readWholeText
  split
  · rename_i hmark
    exact absurd (congrArg List.head? hmark) written.head_text
  · rw [hread]
    simp only [bind, Except.bind, hdone]
    rfl

end Written

end ApiClient.Json
