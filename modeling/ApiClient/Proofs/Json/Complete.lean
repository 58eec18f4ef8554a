import ApiClient.Proofs.Json.ReadWritten

/-!
# Every text that is read is written

The reader reads nothing but what is written: where it comes to an end, the text is that of a
written value, and what was read is its value. Each step of the reader is taken back, and what
it passed over is put in its place.
-/

namespace ApiClient.Json

/-! ## Steps of the reader, taken back -/

section Steps

variable {text : List Char}

/-- Items are read one after the other. -/
theorem of_readItems {reading : Reading (List Json) text} (h : readItems text = .ok reading) :
    ∃ item : Reading Json text, readValue text = .ok item ∧
      ((skipBlanks item.rest = ']' :: reading.rest ∧ reading.value = [item.value]) ∨
        ∃ rest, ∃ others : Reading (List Json) (skipBlanks rest),
          skipBlanks item.rest = ',' :: rest ∧ readItems (skipBlanks rest) = .ok others ∧
            reading.rest = others.rest ∧ reading.value = item.value :: others.value) := by
  rw [readItems] at h
  cases hitem : readValue text with
  | error stuck =>
    rw [hitem] at h
    cases h
  | ok item =>
    refine ⟨item, rfl, ?_⟩
    rw [hitem] at h
    simp only [bind, Except.bind] at h
    -- behind the item the list is closed, or goes on behind a comma
    split at h
    · rename_i rest hclose
      obtain rfl := Except.ok.inj h
      exact .inl ⟨hclose, rfl⟩
    · rename_i rest hcomma
      cases hothers : readItems (skipBlanks rest) with
      | error stuck =>
        rw [hothers] at h
        cases h
      | ok others =>
        rw [hothers] at h
        obtain rfl := Except.ok.inj h
        exact .inr ⟨rest, others, hcomma, hothers, rfl, rfl⟩
    · cases h

/-- Members are read one after the other, and each is put in its place. -/
theorem of_readMembers {done : List (String × Json)}
    {reading : Reading (List (String × Json)) text} (h : readMembers done text = .ok reading) :
    ∃ name : Reading String text, readText text .memberName = .ok name ∧
      ∃ afterColon, skipBlanks name.rest = ':' :: afterColon ∧
      ∃ value : Reading Json (skipBlanks afterColon),
        readValue (skipBlanks afterColon) = .ok value ∧
        ((skipBlanks value.rest = '\x7d' :: reading.rest ∧
            reading.value = put name.value value.value done) ∨
          ∃ rest, ∃ others : Reading (List (String × Json)) (skipBlanks rest),
            skipBlanks value.rest = ',' :: rest ∧
              readMembers (put name.value value.value done) (skipBlanks rest) = .ok others ∧
                reading.rest = others.rest ∧ reading.value = others.value) := by
  rw [readMembers] at h
  cases hname : readText text .memberName with
  | error stuck =>
    rw [hname] at h
    cases h
  | ok name =>
    refine ⟨name, rfl, ?_⟩
    rw [hname] at h
    simp only [bind, Except.bind] at h
    split at h
    · rename_i afterColon hcolon
      refine ⟨afterColon, hcolon, ?_⟩
      cases hvalue : readValue (skipBlanks afterColon) with
      | error stuck =>
        rw [hvalue] at h
        cases h
      | ok value =>
        refine ⟨value, rfl, ?_⟩
        rw [hvalue] at h
        -- behind the value the object is closed, or goes on behind a comma
        dsimp only at h
        split at h
        · rename_i rest hclose
          obtain rfl := Except.ok.inj h
          exact .inl ⟨hclose, rfl⟩
        · rename_i rest hcomma
          cases hothers : readMembers (put name.value value.value done) (skipBlanks rest) with
          | error stuck =>
            rw [hothers] at h
            cases h
          | ok others =>
            rw [hothers] at h
            obtain rfl := Except.ok.inj h
            exact .inr ⟨rest, others, hcomma, hothers, rfl, rfl⟩
        · cases h
    · cases h

theorem of_readValue_quoted {reading : Reading Json ('"' :: text)}
    (h : readValue ('"' :: text) = .ok reading) :
    ∃ quoted : Reading String ('"' :: text), readText ('"' :: text) .value = .ok quoted ∧
      reading.rest = quoted.rest ∧ reading.value = .string quoted.value := by
  rw [readValue] at h
  cases hquoted : readText ('"' :: text) .value with
  | error stuck =>
    rw [hquoted] at h
    cases h
  | ok quoted =>
    rw [hquoted] at h
    obtain rfl := Except.ok.inj h
    exact ⟨quoted, rfl, rfl, rfl⟩

theorem of_readValue_array {reading : Reading Json ('[' :: text)}
    (h : readValue ('[' :: text) = .ok reading) :
    (skipBlanks text = ']' :: reading.rest ∧ reading.value = .array []) ∨
      ∃ items : Reading (List Json) (skipBlanks text), readItems (skipBlanks text) = .ok items ∧
        reading.rest = items.rest ∧ reading.value = .array items.value := by
  rw [readValue] at h
  split at h
  · rename_i rest hclose
    obtain rfl := Except.ok.inj h
    exact .inl ⟨hclose, rfl⟩
  · cases hitems : readItems (skipBlanks text) with
    | error stuck =>
      rw [hitems] at h
      cases h
    | ok items =>
      rw [hitems] at h
      obtain rfl := Except.ok.inj h
      exact .inr ⟨items, rfl, rfl, rfl⟩

theorem of_readValue_object {reading : Reading Json ('\x7b' :: text)}
    (h : readValue ('\x7b' :: text) = .ok reading) :
    (skipBlanks text = '\x7d' :: reading.rest ∧ reading.value = .object []) ∨
      ∃ members : Reading (List (String × Json)) (skipBlanks text),
        readMembers [] (skipBlanks text) = .ok members ∧
          reading.rest = members.rest ∧ reading.value = .object members.value := by
  rw [readValue] at h
  split at h
  · rename_i rest hclose
    obtain rfl := Except.ok.inj h
    exact .inl ⟨hclose, rfl⟩
  · cases hmembers : readMembers [] (skipBlanks text) with
    | error stuck =>
      rw [hmembers] at h
      cases h
    | ok members =>
      rw [hmembers] at h
      obtain rfl := Except.ok.inj h
      exact .inr ⟨members, rfl, rfl, rfl⟩

end Steps

/-! ## Tokens -/

/-- Inside a unit escape, the reader reads a digit. -/
theorem digit_of_readCodes {opening mark text : List Char} {done : List Nat} {digits value : Nat}
    {read : List Nat × List Char}
    (h : readCodes opening done (.unit mark digits value) text = .ok read) :
    ∃ c rest digit, text = c :: rest ∧ Text.hexValue? c = some digit ∧
      if digits < 3 then
        readCodes opening done (.unit mark (digits + 1) (value * 16 + digit)) rest = .ok read
      else readCodes opening ((value * 16 + digit) :: done) .plain rest = .ok read := by
  cases text with
  | nil => simp [readCodes] at h
  | cons c rest =>
    simp only [readCodes] at h
    split at h
    · cases h
    · rename_i digit hdigit
      refine ⟨c, rest, digit, rfl, hdigit, ?_⟩
      -- the fourth digit ends the escape, and cannot end the text
      split at h
      · rename_i hmore
        rw [if_pos hmore]
        exact h
      · rename_i hlast
        rw [if_neg hlast]
        split at h
        · cases h
        · exact h

/-- A unit escape has four digits. -/
theorem unit_of_readCodes {opening mark text : List Char} {done : List Nat}
    {read : List Nat × List Char} (h : readCodes opening done (.unit mark 0 0) text = .ok read) :
    ∃ c₁ c₂ c₃ c₄ d₁ d₂ d₃ d₄ rest, text = c₁ :: c₂ :: c₃ :: c₄ :: rest ∧
      Text.hexValue? c₁ = some d₁ ∧ Text.hexValue? c₂ = some d₂ ∧ Text.hexValue? c₃ = some d₃ ∧
      Text.hexValue? c₄ = some d₄ ∧
      readCodes opening ((((d₁ * 16 + d₂) * 16 + d₃) * 16 + d₄) :: done) .plain rest =
        .ok read := by
  obtain ⟨c₁, _, d₁, rfl, h₁, h⟩ := digit_of_readCodes h
  obtain ⟨c₂, _, d₂, rfl, h₂, h⟩ := digit_of_readCodes h
  obtain ⟨c₃, _, d₃, rfl, h₃, h⟩ := digit_of_readCodes h
  obtain ⟨c₄, rest, d₄, rfl, h₄, h⟩ := digit_of_readCodes h
  rw [if_neg (by decide), Nat.zero_mul, Nat.zero_add] at h
  exact ⟨c₁, c₂, c₃, c₄, d₁, d₂, d₃, d₄, rest, rfl, h₁, h₂, h₃, h₄, h⟩

/-- What the reader reads as codes is spelled. -/
theorem spells_of_readCodes {opening text : List Char} {done : List Nat}
    {read : List Nat × List Char} (h : readCodes opening done .plain text = .ok read) :
    ∃ chars codes, Spells chars codes ∧ text = chars ++ '"' :: read.2 ∧
      read.1 = done.reverse ++ codes := by
  induction hlength : text.length using Nat.strong_induction_on generalizing text done with
  | _ length ih =>
    cases text with
    | nil => simp [readCodes] at h
    | cons c text =>
      -- what is read from a shorter text goes on with the code that was read before it
      have hrest : ∀ {code : Nat} {rest : List Char}, rest.length < length →
          readCodes opening (code :: done) .plain rest = .ok read →
          ∃ chars codes, Spells chars codes ∧ rest = chars ++ '"' :: read.2 ∧
            read.1 = done.reverse ++ code :: codes := by
        intro code rest hshorter hread
        obtain ⟨chars, codes, hspells, htext, hcodes⟩ := ih _ hshorter hread rfl
        refine ⟨chars, codes, hspells, htext, ?_⟩
        rw [hcodes, List.reverse_cons, List.append_assoc]
        rfl
      rw [List.length_cons] at hlength
      simp only [readCodes] at h
      split at h
      · -- the quote that closes the text
        rename_i hquote
        obtain rfl := Except.ok.inj h
        exact ⟨[], [], .nil, by rw [hquote]; rfl, by rw [List.append_nil]⟩
      · rename_i hquote
        split at h
        · -- a backslash, and an escape behind it
          rename_i hslash
          subst hslash
          cases text with
          | nil => simp [readCodes] at h
          | cons c text =>
            simp only [readCodes] at h
            split at h
            · -- four hexadecimal digits
              rename_i hunit
              subst hunit
              obtain ⟨_, _, _, _, _, _, _, _, rest, rfl, h₁, h₂, h₃, h₄, h⟩ := unit_of_readCodes h
              obtain ⟨chars, codes, hspells, rfl, hcodes⟩ :=
                hrest (by rw [← hlength]; simp only [List.length_cons]; omega) h
              exact ⟨_, _, .unit h₁ h₂ h₃ h₄ hspells, rfl, hcodes⟩
            · split at h
              · -- one of the letters that are escapes
                rename_i code hescape
                obtain ⟨chars, codes, hspells, rfl, hcodes⟩ :=
                  hrest (by rw [← hlength, List.length_cons]; omega) h
                exact ⟨_, _, .escape hescape hspells, rfl, hcodes⟩
              · cases h
        · -- any other character stands for itself, if it may stand there at all
          rename_i hslash
          split at h
          · cases h
          · rename_i hcontrol
            obtain ⟨chars, codes, hspells, rfl, hcodes⟩ := hrest (by omega) h
            exact ⟨_, _, .plain hquote hslash (Nat.not_lt.mp hcontrol) hspells, rfl, hcodes⟩

theorem spelling_of_readText {text : List Char} {complaint : Complaint}
    {reading : Reading String text} (h : readText text complaint = .ok reading) :
    ∃ spelling : Spelling, text = spelling.quoted ++ reading.rest ∧
    spelling.text = reading.value := by
  unfold readText at h
  split at h
  · rename_i rest
    split at h
    · rename_i codes after hcodes
      obtain ⟨chars, codes', hspells, htext, hread⟩ := spells_of_readCodes hcodes
      obtain rfl := Except.ok.inj h
      obtain rfl : codes = codes' := hread
      refine ⟨⟨chars, _, codes, hspells, rfl⟩, (congrArg (List.cons '"') htext).trans ?_, rfl⟩
      simp [Spelling.quoted]
    · cases h
  · cases h

theorem readPlain_of_word {text rest : List Char} {value : Json}
    (h : readWord? text = some (value, rest)) :
    ∃ hshorter, readPlain text = .ok ⟨value, rest, hshorter⟩ := by
  refine ⟨length_of_readWord? h, ?_⟩
  unfold readPlain
  split
  · rename_i hword
    rw [h] at hword
    obtain ⟨rfl, rfl⟩ := Prod.mk.inj (Option.some.inj hword)
    rfl
  · rename_i hword
    rw [h] at hword
    cases hword

theorem readPlain_of_numeral {text rest : List Char} {numeral : Numeral}
    (hword : readWord? text = none) (h : readNumeral? text = some (numeral, rest))
    (hlong : ¬ numeral.isTooLong = true) :
    ∃ hshorter, readPlain text = .ok ⟨numeral.value, rest, hshorter⟩ := by
  refine ⟨length_of_readNumeral? h, ?_⟩
  unfold readPlain
  split
  · rename_i hword'
    rw [hword] at hword'
    cases hword'
  · split
    · rename_i hnumeral
      rw [h] at hnumeral
      obtain ⟨rfl, rfl⟩ := Prod.mk.inj (Option.some.inj hnumeral)
      rw [if_neg hlong]
    · rename_i hnumeral
      rw [h] at hnumeral
      cases hnumeral

/-- What is read as a word or a numeral is one, if what follows can follow it. -/
theorem plain_of_readPlain {text : List Char} {reading : Reading Json text}
    (h : readPlain text = .ok reading) (hrest : Ended reading.rest) :
    ∃ word : Plain, text = word.chars ++ reading.rest ∧ word.value = reading.value := by
  obtain ⟨chars, htext, -⟩ := leaves_of_readPlain h
  -- words and numerals are read alike with and without what follows, so what is read is the whole
  -- of `chars`
  have hword := readWord?_append hrest.detached chars
  have hnumeral := readNumeral?_append hrest.detached chars
  rw [← htext] at hword hnumeral
  unfold readPlain at h
  split at h
  · rename_i value rest hread
    obtain rfl := Except.ok.inj h
    obtain ⟨⟨value', after⟩, hchars, he⟩ := Option.map_eq_some_iff.mp (hword.symm.trans hread)
    obtain ⟨rfl, hafter⟩ := Prod.mk.inj he
    obtain rfl := List.append_left_eq_self.mp hafter
    exact ⟨⟨chars, value', readPlain_of_word hchars⟩, htext, rfl⟩
  · rename_i hnone
    rw [hnone] at hword
    split at h
    · rename_i numeral rest hread
      split at h
      · cases h
      · rename_i hlong
        obtain rfl := Except.ok.inj h
        obtain ⟨⟨numeral', after⟩, hchars, he⟩ :=
          Option.map_eq_some_iff.mp (hnumeral.symm.trans hread)
        obtain ⟨rfl, hafter⟩ := Prod.mk.inj he
        obtain rfl := List.append_left_eq_self.mp hafter
        exact ⟨⟨chars, _,
          readPlain_of_numeral (Option.map_eq_none_iff.mp hword.symm) hchars hlong⟩, htext, rfl⟩
    · cases h

/-! ## Values -/

/-- A value with other blanks around it. -/
def Written.padded (padding : Padding) : Written → Written
  | .scalar _ token => .scalar padding token
  | .array _ inner items => .array padding inner items
  | .object _ inner members => .object padding inner members

theorem Written.padding_padded (padding : Padding) (written : Written) :
    (written.padded padding).padding = padding := by
  cases written <;> rfl

theorem Written.core_padded (padding : Padding) (written : Written) :
    (written.padded padding).core = written.core := by
  cases written <;> rfl

theorem Written.value_padded (padding : Padding) (written : Written) :
    (written.padded padding).value = written.value := by
  cases written <;> rfl

theorem Written.text_padded (padding : Padding) (written : Written) :
    (written.padded padding).text = padding.before.chars ++ written.core ++
    padding.after.chars := by
  rw [text, padding_padded, core_padded]

/-- What is passed over are blanks. -/
theorem exists_blanks (text : List Char) :
    ∃ blanks : Blanks, text = blanks.chars ++ skipBlanks text :=
  ⟨⟨text.takeWhile isJsonBlank, fun _ hc => List.mem_takeWhile_imp hc⟩,
    List.takeWhile_append_dropWhile.symm⟩

/-- Behind a character that follows some blanks there is less. -/
theorem length_behind_blanks_lt {text rest whole : List Char} {c : Char}
    (h : skipBlanks text = c :: rest)
    (hshorter : text.length < whole.length) : (skipBlanks rest).length < whole.length := by
  have hle := length_skipBlanks_le text
  have hle' := length_skipBlanks_le rest
  rw [h, List.length_cons] at hle
  omega

/-- What comes after some blanks is after a value. -/
theorem exists_ended {text rest : List Char} {c : Char} (h : skipBlanks text = c :: rest)
    (hc : endsValue c = true) :
    ∃ blanks : Blanks, text = blanks.chars ++ c :: rest ∧ Ended text := by
  obtain ⟨blanks, htext⟩ := exists_blanks text
  rw [h] at htext
  refine ⟨blanks, htext, ?_⟩
  rw [htext]
  exact ended_append blanks.blank (ended_cons hc)

namespace Written

/-- Every value that is read from a text of at most `bound` characters is written there. -/
def WrittenUpTo (bound : Nat) : Prop :=
  ∀ {text : List Char} {reading : Reading Json text}, text.length ≤ bound →
    readValue text = .ok reading → Ended reading.rest →
      ∃ written : Written, text = written.core ++ reading.rest ∧ written.value = reading.value

section

variable {bound : Nat} (ih : WrittenUpTo bound)

include ih

/-- The items that are read from a text are written there. -/
theorem exists_items (length : Nat) : ∀ {text : List Char} {reading : Reading (List Json) text},
    text.length = length → text.length ≤ bound → readItems text = .ok reading →
      ∃ item others, text = item.core ++ (item.padding.after.chars ++
          ((others.map Written.text).flatMap (',' :: ·) ++ ']' :: reading.rest)) ∧
        (item :: others).map value = reading.value := by
  induction length using Nat.strong_induction_on with
  | _ length ihItems =>
    intro text reading hlength hbound h
    obtain ⟨item, hitem, ⟨hclose, hvalue⟩ | ⟨rest, others, hcomma, hothers, hrest, hvalue⟩⟩ :=
      of_readItems h
    · obtain ⟨after, hafter, hended⟩ := exists_ended hclose (by decide)
      obtain ⟨written, htext, hwritten⟩ := ih hbound hitem hended
      refine ⟨written.padded ⟨.none, after⟩, [], htext.trans ?_, ?_⟩
      · rw [core_padded, padding_padded, hafter]
        rfl
      · rw [hvalue, List.map_singleton, value_padded, hwritten]
    · obtain ⟨after, hafter, hended⟩ := exists_ended hcomma (by decide)
      obtain ⟨written, htext, hwritten⟩ := ih hbound hitem hended
      obtain ⟨before, hbefore⟩ := exists_blanks rest
      -- the rest is shorter, and its first item takes the blanks behind the comma
      have hshorter := length_behind_blanks_lt hcomma item.shorter
      obtain ⟨next, others', htext', hothers'⟩ :=
        ihItems _ (hlength ▸ hshorter) rfl
          (Nat.le_of_lt (Nat.lt_of_lt_of_le hshorter hbound)) hothers
      refine ⟨written.padded ⟨.none, after⟩, next.padded ⟨before, next.padding.after⟩ :: others',
        htext.trans ?_, ?_⟩
      · rw [core_padded, padding_padded, List.map_cons, text_padded, List.flatMap_cons, hafter,
          hbefore, htext', hrest]
        simp only [List.append_assoc, List.cons_append]
      · rw [hvalue, ← hothers', List.map_cons, value_padded, hwritten,
          List.map_cons, List.map_cons, value_padded]

/-- The members that are read from a text are written there. -/
theorem exists_members (length : Nat) : ∀ {text : List Char} {done : List (String × Json)}
    {reading : Reading (List (String × Json)) text},
    text.length = length → text.length ≤ bound → readMembers done text = .ok reading →
      ∃ (name : Name) (first : Written) (others : List (Name × Written)),
        text = name.spelling.quoted ++ (name.after.chars ++ ':' :: (first.text ++
          ((others.map memberText).flatMap (',' :: ·) ++ '\x7d' :: reading.rest))) ∧
        (memberValues ((name, first) :: others)).foldl
          (fun done entry => put entry.1 entry.2 done) done = reading.value := by
  induction length using Nat.strong_induction_on with
  | _ length ihMembers =>
    intro text done reading hlength hbound h
    obtain ⟨name, hname, afterColon, hcolon, value, hvalue, hmembers⟩ := of_readMembers h
    obtain ⟨spelling, hspelled, hspelling⟩ := spelling_of_readText hname
    obtain ⟨afterName, hafterName⟩ := exists_blanks name.rest
    rw [hcolon] at hafterName
    obtain ⟨before, hbefore⟩ := exists_blanks afterColon
    have hshorter := length_behind_blanks_lt hcolon name.shorter
    have hbound' := Nat.le_of_lt (Nat.lt_of_lt_of_le hshorter hbound)
    obtain ⟨hclose, hread⟩ | ⟨rest, others, hcomma, hothers, hrest, hread⟩ := hmembers
    · obtain ⟨after, hafter, hended⟩ := exists_ended hclose (by decide)
      obtain ⟨written, htext, hwritten⟩ := ih hbound' hvalue hended
      refine ⟨⟨.none, spelling, afterName⟩, written.padded ⟨before, after⟩, [],
        hspelled.trans ?_, ?_⟩
      · rw [text_padded, hafterName, hbefore, htext, hafter]
        simp only [List.map_nil, List.flatMap_nil, List.nil_append, List.append_assoc]
      · rw [hread, ← hspelling, ← hwritten, memberValues_eq, List.map_singleton, List.foldl_cons,
          List.foldl_nil]
        rw [memberValue, value_padded]
    · obtain ⟨after, hafter, hended⟩ := exists_ended hcomma (by decide)
      obtain ⟨written, htext, hwritten⟩ := ih hbound' hvalue hended
      -- the next name takes the blanks behind the comma
      obtain ⟨nextBefore, hnextBefore⟩ := exists_blanks rest
      have hshorter' := length_behind_blanks_lt hcomma (Nat.lt_trans value.shorter hshorter)
      obtain ⟨nextName, next, others', htext', hothers'⟩ := ihMembers _ (hlength ▸ hshorter') rfl
        (Nat.le_of_lt (Nat.lt_of_lt_of_le hshorter' hbound)) hothers
      refine ⟨⟨.none, spelling, afterName⟩, written.padded ⟨before, after⟩,
        (⟨nextBefore, nextName.spelling, nextName.after⟩, next) :: others', hspelled.trans ?_, ?_⟩
      · rw [text_padded, hafterName, hbefore, htext, hafter, hnextBefore, htext', List.map_cons,
          List.flatMap_cons, memberText_eq, Name.text, hrest]
        simp only [List.append_assoc, List.cons_append]
      · rw [hread, ← hothers', ← hspelling, ← hwritten]
        simp only [memberValues, memberValue, List.foldl_cons, value_padded]

/-- A list that is read is written. -/
theorem exists_array {text : List Char} {reading : Reading Json ('[' :: text)}
    (hbound : text.length ≤ bound) (h : readValue ('[' :: text) = .ok reading) :
    ∃ written : Written, '[' :: text = written.core ++ reading.rest ∧
    written.value = reading.value := by
  obtain ⟨inner, hinner⟩ := exists_blanks text
  obtain ⟨hclose, hvalue⟩ | ⟨items, hitems, hrest, hvalue⟩ := of_readValue_array h
  · refine ⟨.array .none inner [], (congrArg (List.cons '[') hinner).trans ?_, ?_⟩
    · rw [core_array, hclose]
      simp [joined_nil]
    · rw [value_array, hvalue]
      rfl
  · have hbound' := Nat.le_trans (length_skipBlanks_le text) hbound
    obtain ⟨item, others, htext, hothers⟩ := exists_items ih _ rfl hbound' hitems
    refine ⟨.array .none inner (item.padded ⟨.none, item.padding.after⟩ :: others),
      (congrArg (List.cons '[') hinner).trans ?_, ?_⟩
    · rw [core_array, htext, List.map_cons, text_padded, joined, hrest]
      simp only [Blanks.none, List.nil_append, List.append_assoc, List.cons_append]
    · rw [value_array, hvalue, ← hothers, List.map_cons, List.map_cons, value_padded]

/-- An object that is read is written. -/
theorem exists_object {text : List Char} {reading : Reading Json ('\x7b' :: text)}
    (hbound : text.length ≤ bound) (h : readValue ('\x7b' :: text) = .ok reading) :
    ∃ written : Written, '\x7b' :: text = written.core ++ reading.rest ∧
    written.value = reading.value := by
  obtain ⟨inner, hinner⟩ := exists_blanks text
  obtain ⟨hclose, hvalue⟩ | ⟨members, hmembers, hrest, hvalue⟩ := of_readValue_object h
  · refine ⟨.object .none inner [], (congrArg (List.cons '\x7b') hinner).trans ?_, ?_⟩
    · rw [core_object, hclose]
      simp [joined_nil]
    · rw [hvalue]
      rfl
  · have hbound' := Nat.le_trans (length_skipBlanks_le text) hbound
    obtain ⟨name, first, others, htext, hothers⟩ := exists_members ih _ rfl hbound' hmembers
    refine ⟨.object .none inner ((⟨.none, name.spelling, name.after⟩, first) :: others),
      (congrArg (List.cons '\x7b') hinner).trans ?_, ?_⟩
    · rw [core_object, htext, List.map_cons, memberText_eq, Name.text, joined, hrest]
      simp only [Blanks.none, List.nil_append, List.append_assoc, List.cons_append]
    · rw [hvalue, ← hothers]
      rfl

end

/-- A quoted text that is read is written. -/
theorem exists_quoted {text : List Char} {reading : Reading Json ('"' :: text)}
    (h : readValue ('"' :: text) = .ok reading) :
    ∃ written : Written, '"' :: text = written.core ++ reading.rest ∧
    written.value = reading.value := by
  obtain ⟨quoted, hquoted, hrest, hvalue⟩ := of_readValue_quoted h
  obtain ⟨spelling, htext, hspelling⟩ := spelling_of_readText hquoted
  refine ⟨.scalar .none (.quoted spelling), htext.trans ?_, ?_⟩
  · rw [hrest]
    rfl
  · rw [hvalue, ← hspelling]
    rfl

/-- Every value that is read is written. -/
theorem writtenUpTo (bound : Nat) : WrittenUpTo bound := by
  induction bound with
  | zero =>
    intro text reading hlength
    exact absurd (Nat.lt_of_lt_of_le reading.shorter hlength) (Nat.not_lt_zero _)
  | succ bound ih =>
    intro text reading hlength h hended
    cases text with
    | nil => exact absurd reading.shorter (Nat.not_lt_zero _)
    | cons c text =>
      have hbound : text.length ≤ bound := Nat.le_of_succ_le_succ hlength
      -- the first character tells what is read
      by_cases hquote : c = '"'
      · subst hquote
        exact exists_quoted h
      by_cases hbracket : c = '['
      · subst hbracket
        exact exists_array ih hbound h
      by_cases hbrace : c = '\x7b'
      · subst hbrace
        exact exists_object ih hbound h
      · have hplain : readValue (c :: text) = readPlain (c :: text) := by
          rw [readValue]
          · exact fun _ he => hquote (List.cons.inj he).1
          · exact fun _ he => hbracket (List.cons.inj he).1
          · exact fun _ he => hbrace (List.cons.inj he).1
        rw [hplain] at h
        obtain ⟨word, htext, hvalue⟩ := plain_of_readPlain h hended
        exact ⟨.scalar .none (.plain word), htext, hvalue⟩

/-- **What is read is written.** A text denotes a value just if it is the text of a
written value with that value. -/
theorem read_eq_ok_iff {text : List Char} {value : Json} :
    read text = .ok value ↔ ∃ written : Written, written.text = text ∧ written.value = value := by
  constructor
  · intro h
    unfold read readWholeText at h
    split at h
    · cases h
    · cases hread : readValue (skipBlanks text) with
      | error stuck =>
        rw [hread] at h
        cases h
      | ok reading =>
        rw [hread] at h
        simp only [bind, Except.bind] at h
        split at h
        · rename_i hdone
          obtain ⟨before, hbefore⟩ := exists_blanks text
          obtain ⟨after, hafter⟩ := exists_blanks reading.rest
          rw [List.isEmpty_iff.mp hdone, List.append_nil] at hafter
          -- what is left is blanks, and they end the value
          have hended : Ended reading.rest := by
            have hended := ended_append after.blank ended_nil
            rwa [List.append_nil, ← hafter] at hended
          obtain ⟨written, htext, hvalue⟩ := writtenUpTo _ (Nat.le_refl _) hread hended
          refine ⟨written.padded ⟨before, after⟩, ?_, ?_⟩
          · rw [text_padded, List.append_assoc, ← hafter, ← htext, ← hbefore]
          · rw [value_padded, hvalue]
            exact Except.ok.inj h
        · cases h
  · rintro ⟨written, rfl, rfl⟩
    exact written.read_text

end Written

end ApiClient.Json
