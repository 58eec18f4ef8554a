import ApiClient.Proofs.Json.Complete
import ApiClient.Proofs.TypeScript.Grammar

/-!
# Where tokens end

A token ends where a blank or a mark stands, whatever comes behind it. So a text
that is cut into tokens is cut into the same tokens when such a text follows, and
tokens can be found part by part.
-/

namespace ApiClient.TypeScript

/-! ## Ends of tokens -/

/-- The characters at which every token ends. -/
def breaks : List Char := [' ', '\t', '\n', '\r'] ++ marks

/-- A text before which a token ends. -/
def Parted (rest : List Char) : Prop := ∀ c, rest.head? = some c → c ∈ breaks

theorem parted_nil : Parted [] := fun _ h => by cases h

theorem parted_cons {c : Char} (h : c ∈ breaks) (rest : List Char) : Parted (c :: rest) := by
  intro d hd
  obtain rfl := Option.some.inj hd
  exact h

theorem Parted.append {text rest : List Char} (h : Parted text) (hrest : Parted rest) :
    Parted (text ++ rest) := by
  cases text with
  | nil => exact hrest
  | cons c text => exact h

theorem Parted.not_isPathChar {rest : List Char} (h : Parted rest) :
    ∀ c, rest.head? = some c → isPathChar c = false := by
  have hbreaks : ∀ c ∈ breaks, isPathChar c = false := by decide
  exact fun c hc => hbreaks c (h c hc)

theorem Parted.detached {rest : List Char} (h : Parted rest) : Json.Detached rest := by
  have hbreaks : ∀ c ∈ breaks, Json.isPlain c = false := by decide
  exact fun c hc => hbreaks c (h c hc)

/-! ## One token -/

section

variable {c : Char} (rest : List Char)

theorem readSingle_quote : readSingle ('\'' :: rest) = some ([], rest) := by
  rw [readSingle.eq_def]
  rfl

theorem readSingle_line (h : c = '\n' ∨ c = '\r') : readSingle (c :: rest) = none := by
  rcases h with rfl | rfl <;> rw [readSingle.eq_def] <;> rfl

theorem readSingle_escape (h : c = '\\' ∨ c = '\'') : readSingle ('\\' :: c :: rest) =
    (readSingle rest).map fun (chars, after) => (c :: chars, after) := by
  rw [readSingle.eq_def]
  exact if_pos h

theorem readSingle_plain (hquote : c ≠ '\'') (hline : ¬ (c = '\n' ∨ c = '\r'))
    (hescape : c ≠ '\\') :
    readSingle (c :: rest) = (readSingle rest).map fun (chars, after) => (c :: chars, after) := by
  rw [readSingle.eq_def]
  simp only [if_neg hquote, if_neg hline, if_neg hescape]

end

/-- A text in single quotes ends with its quote. -/
theorem readSingle_append {text chars after : List Char}
    (h : readSingle text = some (chars, after))
    (rest : List Char) : readSingle (text ++ rest) = some (chars, after ++ rest) := by
  fun_induction readSingle text generalizing chars with
  | case1 => cases h
  | case2 text =>
    obtain ⟨rfl, rfl⟩ := Prod.mk.inj (Option.some.inj h)
    exact readSingle_quote _
  | case3 => cases h
  | case4 escaped text hescaped _ _ ih =>
    obtain ⟨⟨chars', after'⟩, hread, he⟩ := Option.map_eq_some_iff.mp h
    obtain ⟨rfl, rfl⟩ := Prod.mk.inj he
    rw [List.cons_append, List.cons_append, readSingle_escape _ hescaped, ih hread,
      Option.map_some]
  | case5 => cases h
  | case6 => cases h
  | case7 c text hquote hline hescape ih =>
    obtain ⟨⟨chars', after'⟩, hread, he⟩ := Option.map_eq_some_iff.mp h
    obtain ⟨rfl, rfl⟩ := Prod.mk.inj he
    rw [List.cons_append, readSingle_plain _ hquote hline hescape, ih hread, Option.map_some]

/-- A text in double quotes ends with its quote. -/
theorem readText_append {text : List Char} {complaint : Json.Complaint}
    {reading : Json.Reading String text}
    (h : Json.readText text complaint = .ok reading) (rest : List Char) :
    ∃ hshorter, Json.readText (text ++ rest) complaint =
      .ok ⟨reading.value, reading.rest ++ rest, hshorter⟩ := by
  obtain ⟨spelling, htext, hvalue⟩ := Json.spelling_of_readText h
  have happend : text ++ rest = spelling.quoted ++ (reading.rest ++ rest) :=
    (congrArg (· ++ rest) htext).trans (List.append_assoc _ _ _)
  rw [← hvalue, happend]
  exact spelling.readText_quoted (reading.rest ++ rest) complaint

/-- **A token ends where it ends alone,** if what follows parts it from the rest. -/
theorem nextToken_append {text after rest : List Char} {token : Token} (hrest : Parted rest)
    (h : nextToken text = some (token, after)) :
    nextToken (text ++ rest) = some (token, after ++ rest) := by
  cases text with
  | nil => cases h
  | cons c text =>
    rw [List.cons_append, nextToken]
    rw [nextToken] at h
    split at h
    · obtain ⟨rfl, rfl⟩ := Prod.mk.inj (Option.some.inj h)
      rw [if_pos ‹_›]
    · rw [if_neg ‹_›]
      split at h
      · obtain ⟨⟨chars, after'⟩, hread, he⟩ := Option.map_eq_some_iff.mp h
        obtain ⟨rfl, rfl⟩ := Prod.mk.inj he
        rw [if_pos ‹_›, readSingle_append hread, Option.map_some]
      · rw [if_neg ‹_›]
        split at h
        · rw [if_pos ‹_›]
          split at h
          · rename_i reading hread
            obtain ⟨rfl, rfl⟩ := Prod.mk.inj (Option.some.inj h)
            obtain ⟨hshorter, happend⟩ := readText_append hread rest
            simp only [← List.cons_append, happend]
          · cases h
        · rw [if_neg ‹_›]
          split at h
          · obtain ⟨⟨numeral, after'⟩, hread, he⟩ := Option.map_eq_some_iff.mp h
            obtain ⟨rfl, rfl⟩ := Prod.mk.inj he
            rw [if_pos ‹_›, ← List.cons_append, Json.readNumeral?_append hrest.detached, hread]
            rfl
          · obtain ⟨path, hpath, he⟩ := Option.map_eq_some_iff.mp h
            obtain ⟨rfl, rfl⟩ := Prod.mk.inj he
            rw [if_neg ‹_›, ← List.cons_append, Json.takeWhile_append_of_head hrest.not_isPathChar,
              Json.dropWhile_append_of_head hrest.not_isPathChar, hpath, Option.map_some]

/-! ## Tokens one after the other -/

theorem tokens_eq (text : List Char) : tokens text =
    if Json.skipBlanks text = [] then some []
    else (nextToken (Json.skipBlanks text)).bind fun read =>
      (tokens read.2).map (read.1 :: ·) := by
  rw [tokens]
  split
  · rename_i hskip
    rw [if_pos hskip]
  · rename_i c rest hskip
    rw [if_neg (by rw [hskip]; exact List.cons_ne_nil _ _)]
    split
    · rename_i hnext
      rw [hskip, hnext, Option.bind_none]
    · rename_i token after hnext
      show (tokens after).map (token :: ·) = _
      rw [hskip, hnext, Option.bind_some]

theorem tokens_nil : tokens [] = some [] := by
  rw [tokens_eq]
  exact if_pos rfl

/-- A blank is no token. -/
theorem tokens_blank {c : Char} (hc : Json.isJsonBlank c = true) (text : List Char) :
    tokens (c :: text) = tokens text := by
  have hskip : Json.skipBlanks (c :: text) = Json.skipBlanks text := List.dropWhile_cons_of_pos hc
  rw [tokens_eq, hskip, ← tokens_eq]

/-- No token begins with a blank. -/
theorem nextToken_blank {c : Char} (hc : Json.isJsonBlank c = true) (text : List Char) :
    nextToken (c :: text) = none := by
  rcases Json.isJsonBlank_iff.mp hc with rfl | rfl | rfl | rfl <;> rfl

/-- What stands at the front is the first token, if it is one. -/
theorem tokens_cons {c : Char} (hc : Json.isJsonBlank c = false) (text : List Char) :
    tokens (c :: text) =
      (nextToken (c :: text)).bind fun read => (tokens read.2).map (read.1 :: ·) := by
  have hskip : Json.skipBlanks (c :: text) = c :: text :=
    List.dropWhile_cons_of_neg (by rw [hc]; decide)
  rw [tokens_eq, hskip, if_neg (List.cons_ne_nil _ _)]

theorem tokens_of_nextToken {text after : List Char} {token : Token}
    (h : nextToken text = some (token, after)) :
    tokens text = (tokens after).map (token :: ·) := by
  cases text with
  | nil => cases h
  | cons c text =>
    cases hc : Json.isJsonBlank c with
    | true =>
      rw [nextToken_blank hc] at h
      cases h
    | false => rw [tokens_cons hc, h, Option.bind_some]

theorem tokens_mark {c : Char} (hc : c ∈ marks) (text : List Char) :
    tokens (c :: text) = (tokens text).map (.mark c :: ·) :=
  tokens_of_nextToken (by rw [nextToken, if_pos hc])

/-- **A text keeps its tokens** when another follows that parts them from its own. -/
theorem tokens_append {text rest : List Char} {cut : List Token} (h : tokens text = some cut)
    (hrest : Parted rest) : tokens (text ++ rest) = (tokens rest).map (cut ++ ·) := by
  rw [tokens_eq] at h
  have hskip : Json.skipBlanks (text ++ rest) =
      if Json.skipBlanks text = [] then Json.skipBlanks rest
      else Json.skipBlanks text ++ rest := by
    simp [Json.skipBlanks, List.dropWhile_append]
  -- blanks alone give no token, and what follows them is read as if they were not there
  by_cases hblank : Json.skipBlanks text = []
  · rw [if_pos hblank] at h hskip
    obtain rfl := Option.some.inj h
    rw [tokens_eq, hskip, ← tokens_eq]
    simp
  · rw [if_neg hblank] at h hskip
    obtain ⟨⟨token, after⟩, hnext, h⟩ := Option.bind_eq_some_iff.mp h
    obtain ⟨others, hafter, rfl⟩ := Option.map_eq_some_iff.mp h
    have hshorter : after.length < text.length :=
      Nat.lt_of_lt_of_le (length_of_nextToken hnext) (Json.length_skipBlanks_le text)
    have hne : Json.skipBlanks text ++ rest ≠ [] :=
      fun he => hblank (List.append_eq_nil_iff.mp he).1
    rw [tokens_eq, hskip, if_neg hne, nextToken_append hrest hnext, Option.bind_some]
    simp only [tokens_append hafter hrest, Option.map_map]
    rfl
termination_by text.length

/-! ## Runs of tokens -/

/-- A legible text is a run of tokens, whatever follows it; another is
not cut into tokens at all. -/
def IsCut (text : List Char) (legible : Bool) (cut : List Token) : Prop :=
  ∀ rest, Parted rest →
    tokens (text ++ rest) = if legible then (tokens rest).map (cut ++ ·) else none

namespace IsCut

variable {text text' : List Char} {legible legible' : Bool} {cut cut' : List Token}

theorem tokens_eq (h : IsCut text legible cut) :
    tokens text = if legible then some cut else none := by
  have hwhole := h [] parted_nil
  rw [List.append_nil, tokens_nil] at hwhole
  rw [hwhole, Option.map_some, List.append_nil]

theorem nil : IsCut [] true [] := by
  intro rest _
  simp

theorem of_tokens (h : tokens text = some cut) : IsCut text true cut :=
  fun _ hrest => tokens_append h hrest

/-- Runs of tokens go one behind the other, if the second begins where a token ends. -/
theorem append (h : IsCut text legible cut) (h' : IsCut text' legible' cut')
    (hparted : Parted text') : IsCut (text ++ text') (legible && legible') (cut ++ cut') := by
  intro rest hrest
  rw [List.append_assoc, h _ (hparted.append hrest), h' _ hrest]
  cases legible <;> cases legible' <;> simp [Function.comp_def]

theorem mark {c : Char} (hc : c ∈ marks) (h : IsCut text legible cut) :
    IsCut (c :: text) legible (.mark c :: cut) := by
  intro rest hrest
  rw [List.cons_append, tokens_mark hc, h _ hrest]
  cases legible <;> simp [Function.comp_def]

theorem blank (h : IsCut text legible cut) : IsCut (' ' :: text) legible cut := by
  intro rest hrest
  rw [List.cons_append, tokens_blank rfl, h _ hrest]

end IsCut

/-- One mark behind a run of tokens. -/
theorem IsCut.concat {text : List Char} {legible : Bool} {cut : List Token}
    (h : IsCut text legible cut) {c : Char} (hc : c ∈ marks) :
    IsCut (text ++ [c]) legible (cut ++ [.mark c]) := by
  have hmark := h.append (IsCut.nil.mark hc) (parted_cons (List.mem_append_right _ hc) _)
  rwa [Bool.and_true] at hmark

end ApiClient.TypeScript
