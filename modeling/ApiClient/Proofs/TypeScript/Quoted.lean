import ApiClient.Text.Hex

/-!
# Texts in single quotes

What a text in single quotes stands for. The value is made of units of sixteen bits, since
an escape may give half of a character. A backslash and what follows it stand for less than
they take, so a text that stands between the quotes as it is, is its own value just if
nothing in it is escaped; and the quotes end where the first quote stands that is not
escaped, whatever comes behind it.
-/

namespace ApiClient.TypeScript

/-! ## Units -/

/-- The units of a code point: one, or two halves beyond the first plane. -/
def pointUnits (code : Nat) : List Nat :=
  if code < 0x10000 then [code] else
    [0xD800 + (code - 0x10000) / 0x400, 0xDC00 + (code - 0x10000) % 0x400]

/-- The units of a text. -/
def units (text : List Char) : List Nat := text.flatMap fun c => pointUnits c.toNat

@[simp]
theorem units_nil : units [] = [] := rfl

@[simp]
theorem units_cons (c : Char) (text : List Char) :
    units (c :: text) = pointUnits c.toNat ++ units text := rfl

@[simp]
theorem units_append (text other : List Char) :
    units (text ++ other) = units text ++ units other :=
  List.flatMap_append

theorem length_pointUnits_pos (code : Nat) : 0 < (pointUnits code).length := by
  unfold pointUnits
  split <;> simp

/-- No character is a half of another. -/
theorem pointUnits_append_inj {c d : Char} {rest rest' : List Nat}
    (h : pointUnits c.toNat ++ rest = pointUnits d.toNat ++ rest') : c = d ∧ rest = rest' := by
  have hvalid : ∀ e : Char, e.toNat < 0xD800 ∨ 0xDFFF < e.toNat ∧ e.toNat < 0x110000 :=
    fun e => e.valid
  have hc := hvalid c
  have hd := hvalid d
  rw [← Char.toNat_inj]
  unfold pointUnits at h
  split at h <;> split at h <;> simp only [List.cons_append, List.nil_append, List.cons.injEq] at h
  · exact h
  · -- the halves lie where no characters are
    omega
  · omega
  · obtain ⟨hhigh, hlow, hrest⟩ := h
    exact ⟨by omega, hrest⟩

/-- Texts are told apart by their units. -/
theorem units_injective : Function.Injective units := by
  intro text other h
  induction text generalizing other with
  | nil =>
    -- a text that is not empty has at least one unit
    cases other with
    | nil => rfl
    | cons d other =>
      have hpos := length_pointUnits_pos d.toNat
      have hlength := congrArg List.length h
      simp only [units_nil, units_cons, List.length_nil, List.length_append] at hlength
      omega
  | cons c text ih =>
    cases other with
    | nil =>
      have hpos := length_pointUnits_pos c.toNat
      have hlength := congrArg List.length h
      simp only [units_nil, units_cons, List.length_nil, List.length_append] at hlength
      omega
    | cons d other =>
      obtain ⟨rfl, hrest⟩ := pointUnits_append_inj h
      rw [ih hrest]

/-! ## Escapes -/

/-- The letters that are escapes, and the unit for which each stands. -/
def letterEscapes : List (Char × Nat) :=
  [('b', 8), ('t', 9), ('n', 10), ('v', 11), ('f', 12), ('r', 13)]

/-- A character that ends a line. -/
def isLineEnd (c : Char) : Bool := c == '\n' || c == '\r' || c.toNat == 0x2028 || c.toNat == 0x2029

/-- The number that some hexadecimal digits are. -/
def hexNumber? (digits : List Char) : Option Nat :=
  digits.foldlM (fun number digit => (Text.hexValue? digit).map (16 * number + ·)) 0

/-- Reads a unit of just `width` hexadecimal digits. -/
def readUnit (width : Nat) (text : List Char) : Option (List Nat × List Char) :=
  if width ≤ text.length then (hexNumber? (text.take width)).map fun unit =>
    ([unit], text.drop width) else none

/-- Reads the other hexadecimal digits of a code point up to a brace, and passes over the brace. -/
def readPoint (code : Nat) : List Char → Option (List Nat × List Char)
  | [] => none
  | c :: rest =>
    if c = '\x7d' then if code ≤ 0x10FFFF then some (pointUnits code, rest) else none
    else (Text.hexValue? c).bind fun digit => readPoint (16 * code + digit) rest

/-- Reads a code point in braces, from behind the first brace. -/
def readBraced : List Char → Option (List Nat × List Char)
  | [] => none
  | c :: rest => (Text.hexValue? c).bind fun digit => readPoint digit rest

/-- Reads a code point in braces, or a unit of four digits. -/
def readCode (text : List Char) : Option (List Nat × List Char) :=
  if text.head? = some '\x7b' then readBraced text.tail else readUnit 4 text

/-- Reads an escape without hexadecimal digits, from behind its first character. A line that
goes on stands for nothing, and a carriage return and a line feed end one line only. Of the
digits just a zero on its own is an escape. -/
def readShort (c : Char) (text : List Char) : Option (List Nat × List Char) :=
  if isLineEnd c then some ([], if c = '\r' ∧ text.head? = some '\n' then text.tail else text)
  else if c.isDigit then
    if c = '0' ∧ text.head?.all (fun next => !next.isDigit) then some ([0], text) else none
  else some ((letterEscapes.lookup c).elim (pointUnits c.toNat) ([·]), text)

/-- Reads what follows a backslash. -/
def readEscape : List Char → Option (List Nat × List Char)
  | [] => none
  | c :: rest =>
    if c = 'x' then readUnit 2 rest else if c = 'u' then readCode rest else readShort c rest

/-- How an escape is spelled that stands for some units, if a certain text is behind it. Of that
text only the first character matters. -/
structure Spells (spelling after : List Char) (value : List Nat) : Prop where
  short : value.length ≤ (units spelling).length
  read (rest : List Char) (hrest : rest.head? = after.head?) :
    readEscape (spelling ++ rest) = some (value, rest)

theorem readUnit_eq_some {width : Nat} {text after : List Char} {value : List Nat}
    (h : readUnit width text = some (value, after)) :
    ∃ digits, text = digits ++ after ∧ digits.length = width ∧ value.length = 1 ∧
      ∀ rest, readUnit width (digits ++ rest) = some (value, rest) := by
  unfold readUnit at h
  split at h
  · rename_i hwidth
    obtain ⟨unit, hunit, he⟩ := Option.map_eq_some_iff.mp h
    obtain ⟨rfl, rfl⟩ := Prod.mk.inj he
    have hlength : (text.take width).length = width := List.length_take_of_le hwidth
    refine ⟨text.take width, (List.take_append_drop _ _).symm, hlength, rfl, fun rest => ?_⟩
    unfold readUnit
    rw [if_pos (by simp [hlength]), List.take_left' hlength, List.drop_left' hlength, hunit]
    rfl
  · cases h

theorem readPoint_eq_some {code : Nat} {text after : List Char} {value : List Nat}
    (h : readPoint code text = some (value, after)) :
    ∃ digits, text = digits ++ after ∧ value.length ≤ 2 ∧
      ∀ rest, readPoint code (digits ++ rest) = some (value, rest) := by
  induction text generalizing code with
  | nil => cases h
  | cons c text ih =>
    rw [readPoint] at h
    split at h
    · split at h
      · obtain ⟨rfl, rfl⟩ := Prod.mk.inj (Option.some.inj h)
        refine ⟨[c], rfl, ?_, fun rest => ?_⟩
        · unfold pointUnits
          split <;> simp
        · rw [List.singleton_append, readPoint, if_pos ‹_›, if_pos ‹_›]
      · cases h
    · obtain ⟨digit, hdigit, h⟩ := Option.bind_eq_some_iff.mp h
      obtain ⟨digits, rfl, hlength, hread⟩ := ih h
      refine ⟨c :: digits, rfl, hlength, fun rest => ?_⟩
      rw [List.cons_append, readPoint, if_neg ‹_›, hdigit, Option.bind_some, hread rest]

theorem readBraced_eq_some {text after : List Char} {value : List Nat}
    (h : readBraced text = some (value, after)) :
    ∃ digits, text = digits ++ after ∧ value.length ≤ 2 ∧
      ∀ rest, readBraced (digits ++ rest) = some (value, rest) := by
  cases text with
  | nil => cases h
  | cons c text =>
    obtain ⟨digit, hdigit, h⟩ := Option.bind_eq_some_iff.mp h
    obtain ⟨digits, rfl, hlength, hread⟩ := readPoint_eq_some h
    refine ⟨c :: digits, rfl, hlength, fun rest => ?_⟩
    rw [List.cons_append, readBraced, hdigit, Option.bind_some, hread rest]

theorem length_units (text : List Char) : text.length ≤ (units text).length := by
  induction text with
  | nil => exact Nat.le_refl _
  | cons c text ih =>
    have hpos := length_pointUnits_pos c.toNat
    rw [units_cons, List.length_append, List.length_cons]
    omega

theorem readCode_eq_some {text after : List Char} {value : List Nat}
    (h : readCode text = some (value, after)) :
    ∃ digits, text = digits ++ after ∧ value.length ≤ digits.length + 1 ∧
      ∀ rest, readCode (digits ++ rest) = some (value, rest) := by
  unfold readCode at h
  split at h
  · rename_i hbrace
    obtain ⟨text, rfl⟩ := List.head?_eq_some_iff.mp hbrace
    obtain ⟨digits, rfl, hlength, hread⟩ := readBraced_eq_some h
    refine ⟨'\x7b' :: digits, rfl, Nat.le_trans hlength ?_, fun rest => ?_⟩
    · rw [List.length_cons]
      omega
    · exact (if_pos rfl).trans (hread rest)
  · rename_i hbrace
    obtain ⟨digits, rfl, hwidth, hlength, hread⟩ := readUnit_eq_some h
    refine ⟨digits, rfl, by omega, fun rest => ?_⟩
    -- four digits stand there, and the first of them is no brace
    have hhead : (digits ++ rest).head? ≠ some '\x7b' := by
      cases digits with
      | nil => cases hwidth
      | cons digit digits => exact hbrace
    rw [readCode, if_neg hhead, hread]

theorem readShort_eq_some {c : Char} {text after : List Char} {value : List Nat}
    (h : readShort c text = some (value, after)) :
    ∃ spelling, text = spelling ++ after ∧ value.length ≤ (pointUnits c.toNat).length ∧
      ∀ rest, rest.head? = after.head? → readShort c (spelling ++ rest) = some (value, rest) := by
  unfold readShort at h
  split at h
  · rename_i hline
    obtain ⟨rfl, rfl⟩ := Prod.mk.inj (Option.some.inj h)
    -- a carriage return takes the line feed behind it along
    split
    · rename_i hboth
      obtain ⟨text, rfl⟩ := List.head?_eq_some_iff.mp hboth.2
      refine ⟨['\n'], rfl, Nat.zero_le _, fun rest _ => ?_⟩
      rw [readShort, if_pos hline, if_pos ⟨hboth.1, rfl⟩]
      rfl
    · rename_i hboth
      refine ⟨[], rfl, Nat.zero_le _, fun rest hrest => ?_⟩
      rw [List.nil_append, readShort, if_pos hline, hrest, if_neg hboth]
  · rename_i hline
    split at h
    · rename_i hdigit
      split at h
      · rename_i hzero
        obtain ⟨rfl, rfl⟩ := Prod.mk.inj (Option.some.inj h)
        refine ⟨[], rfl, length_pointUnits_pos _, fun rest hrest => ?_⟩
        rw [List.nil_append, readShort, if_neg hline, if_pos hdigit, hrest, if_pos hzero]
      · cases h
    · rename_i hdigit
      obtain ⟨rfl, rfl⟩ := Prod.mk.inj (Option.some.inj h)
      refine ⟨[], rfl, ?_, fun rest _ => ?_⟩
      · cases letterEscapes.lookup c with
        | none => exact Nat.le_refl _
        | some unit => exact length_pointUnits_pos _
      · rw [List.nil_append, readShort, if_neg hline, if_neg hdigit]

/-- An escape has a spelling, and stands for no more than that takes. -/
theorem exists_spells {text after : List Char} {value : List Nat}
    (h : readEscape text = some (value, after)) :
    ∃ spelling, text = spelling ++ after ∧ Spells spelling after value := by
  cases text with
  | nil => cases h
  | cons c text =>
    have hpos := length_pointUnits_pos c.toNat
    have hunits : ∀ {spelling}, (pointUnits c.toNat).length + spelling.length ≤
        (units (c :: spelling)).length := fun {spelling} => by
      rw [units_cons, List.length_append]
      exact Nat.add_le_add_left (length_units spelling) _
    rw [readEscape] at h
    split at h
    · rename_i hx
      obtain ⟨digits, rfl, -, hlength, hread⟩ := readUnit_eq_some h
      refine ⟨c :: digits, rfl, Nat.le_trans (by omega) hunits, fun rest _ => ?_⟩
      rw [List.cons_append, readEscape, if_pos hx, hread]
    · rename_i hx
      split at h
      · rename_i hu
        obtain ⟨digits, rfl, hlength, hread⟩ := readCode_eq_some h
        refine ⟨c :: digits, rfl, Nat.le_trans (by omega) hunits, fun rest _ => ?_⟩
        rw [List.cons_append, readEscape, if_neg hx, if_pos hu, hread]
      · rename_i hu
        obtain ⟨spelling, rfl, hlength, hread⟩ := readShort_eq_some h
        refine ⟨c :: spelling, rfl, Nat.le_trans (by omega) hunits, fun rest hrest => ?_⟩
        rw [List.cons_append, readEscape, if_neg hx, if_neg hu, hread rest hrest]

theorem length_of_readEscape {text after : List Char} {value : List Nat}
    (h : readEscape text = some (value, after)) : after.length ≤ text.length := by
  obtain ⟨spelling, rfl, -⟩ := exists_spells h
  rw [List.length_append]
  exact Nat.le_add_left _ _

/-! ## Quotes -/

/-- Reads a text in single quotes, from behind the first of them: its
value, and what is behind it. -/
def readQuoted (text : List Char) : Option (List Nat × List Char) :=
  match text with
  | [] => none
  | c :: rest =>
    if c = '\'' then some ([], rest)
    else if c = '\n' ∨ c = '\r' then none
    else if c = '\\' then
      match h : readEscape rest with
      | none => none
      | some (head, after) =>
        have := length_of_readEscape h
        (readQuoted after).map fun (tail, after) => (head ++ tail, after)
    else (readQuoted rest).map fun (tail, after) => (pointUnits c.toNat ++ tail, after)
termination_by text.length

/-- A character that may stand between quotes as it is. -/
def IsPlain (c : Char) : Prop := c ≠ '\'' ∧ c ≠ '\\' ∧ c ≠ '\n' ∧ c ≠ '\r'

theorem readQuoted_quote (rest : List Char) : readQuoted ('\'' :: rest) = some ([], rest) := by
  rw [readQuoted, if_pos rfl]

theorem readQuoted_plain {c : Char} (h : IsPlain c) (rest : List Char) : readQuoted (c :: rest) =
    (readQuoted rest).map fun (tail, after) => (pointUnits c.toNat ++ tail, after) := by
  rw [readQuoted, if_neg h.1, if_neg (not_or.mpr h.2.2), if_neg h.2.1]

theorem readQuoted_escape {rest after : List Char} {head : List Nat}
    (h : readEscape rest = some (head, after)) : readQuoted ('\\' :: rest) =
      (readQuoted after).map fun (tail, after) => (head ++ tail, after) := by
  rw [readQuoted, if_neg (by decide), if_neg (by decide), if_pos rfl]
  split
  · rename_i hnone
    cases h.symm.trans hnone
  · rename_i hsome
    obtain ⟨rfl, rfl⟩ := Prod.mk.inj (Option.some.inj (h.symm.trans hsome))
    rfl

/-- What stands between quotes for some units. -/
structure IsBody (body : List Char) (value : List Nat) : Prop where
  /-- It is read up to the next quote, whatever comes behind. -/
  read (rest : List Char) : readQuoted (body ++ '\'' :: rest) = some (value, rest)
  /-- It is its own value, or it is longer. -/
  exact : (∀ c ∈ body, IsPlain c) ∧ value = units body ∨ value.length < (units body).length

theorem isBody_nil : IsBody [] [] := ⟨readQuoted_quote, .inl ⟨by simp, rfl⟩⟩

theorem IsBody.plain {c : Char} {body : List Char} {value : List Nat} (h : IsBody body value)
    (hc : IsPlain c) : IsBody (c :: body) (pointUnits c.toNat ++ value) where
  read rest := by rw [List.cons_append, readQuoted_plain hc, h.read, Option.map_some]
  exact := by
    rcases h.exact with ⟨hplain, rfl⟩ | hshort
    · exact .inl ⟨List.forall_mem_cons.mpr ⟨hc, hplain⟩, rfl⟩
    · refine .inr ?_
      rw [units_cons, List.length_append, List.length_append]
      exact Nat.add_lt_add_left hshort _

/-- What is behind an escape is seen of it only in its first character, which stays
whatever comes behind the quote. -/
theorem IsBody.escape {spelling body after : List Char} {head value : List Nat}
    (h : IsBody body value) (hspells : Spells spelling (body ++ '\'' :: after) head) :
    IsBody ('\\' :: spelling ++ body) (head ++ value) where
  read rest := by
    have hhead : (body ++ '\'' :: rest).head? = (body ++ '\'' :: after).head? := by
      cases body <;> rfl
    rw [List.append_assoc, List.cons_append, readQuoted_escape (hspells.read _ hhead), h.read,
      Option.map_some]
  exact := by
    have hvalue : value.length ≤ (units body).length := by
      rcases h.exact with ⟨-, rfl⟩ | hshort
      · exact Nat.le_refl _
      · exact Nat.le_of_lt hshort
    have hpos := length_pointUnits_pos '\\'.toNat
    have hshort := hspells.short
    refine .inr ?_
    rw [units_append, units_cons, List.length_append, List.length_append, List.length_append]
    omega

/-- **A text in single quotes ends at a quote,** and what stands before it is a body. -/
theorem readQuoted_eq_some {text after : List Char} {value : List Nat} :
    readQuoted text = some (value, after) ↔ ∃ body, text = body ++ '\'' :: after ∧
    IsBody body value := by
  constructor
  · -- along the reader: the body grows by a plain character or by an escape
    intro h
    fun_induction readQuoted text generalizing value with
    | case1 => cases h
    | case2 rest =>
      obtain ⟨rfl, rfl⟩ := Prod.mk.inj (Option.some.inj h)
      exact ⟨[], rfl, isBody_nil⟩
    | case3 => cases h
    | case4 => cases h
    | case5 rest head after' hescape _ _ _ ih =>
      obtain ⟨⟨tail, _⟩, htail, he⟩ := Option.map_eq_some_iff.mp h
      obtain ⟨rfl, rfl⟩ := Prod.mk.inj he
      obtain ⟨spelling, rfl, hspells⟩ := exists_spells hescape
      obtain ⟨body, rfl, hbody⟩ := ih htail
      exact ⟨'\\' :: spelling ++ body, by simp, hbody.escape hspells⟩
    | case6 c rest hquote hline hescape ih =>
      obtain ⟨⟨tail, _⟩, htail, he⟩ := Option.map_eq_some_iff.mp h
      obtain ⟨rfl, rfl⟩ := Prod.mk.inj he
      obtain ⟨body, rfl, hbody⟩ := ih htail
      exact ⟨c :: body, rfl, hbody.plain ⟨hquote, hescape, not_or.mp hline⟩⟩
  · rintro ⟨body, rfl, hbody⟩
    exact hbody.read after

example : readQuoted "\\d+'".toList = some (units "d+".toList, []) := by cbv

/-- A body is its own value just if every character stands in it as it is. -/
theorem isBody_units_iff {body : List Char} :
    IsBody body (units body) ↔ ∀ c ∈ body, IsPlain c := by
  constructor
  · intro h
    exact (h.exact.resolve_right (Nat.lt_irrefl _)).1
  · intro h
    induction body with
    | nil => exact isBody_nil
    | cons c body ih =>
      obtain ⟨hc, hbody⟩ := List.forall_mem_cons.mp h
      exact (ih hbody).plain hc

end ApiClient.TypeScript
