import ApiClient.Proofs.Json.Compact
import ApiClient.Proofs.Json.Doubles
import ApiClient.Proofs.Outcome

/-!
# Values that are written compactly

A value has a compact text, and that text is a way to write the value: every part of it is
read as the part that was written. Only numbers could stand in the way, and they do not,
since a double is written with digits that lead back to it. The numbers that can be written
so are all that a text can hold.
-/

namespace ApiClient.Json

/-- A value whose numbers can be read when they are written: whole numbers of no more
digits than are read, and doubles in the one form that they have. A text has no
others (`Written.writable_value`). -/
inductive Writable : Json → Prop where
  | null : Writable null
  | bool {value : Bool} : Writable (bool value)
  | int {value : Int} : (Nat.toDigits 10 value.natAbs).length ≤ mostDigits → Writable (int value)
  | double {value : Binary64} : value.Canonical → Writable (double value)
  | string {value : String} : Writable (string value)
  | array {items : List Json} : (∀ item ∈ items, Writable item) → Writable (array items)
  | object {members : List (String × Json)} : (∀ entry ∈ members, Writable entry.2) →
      Writable (object members)

namespace Writable

@[simp]
theorem string_iff {value : String} : Writable (.string value) ↔ True := iff_true_intro .string

@[simp]
theorem double_iff {value : Binary64} : Writable (.double value) ↔ value.Canonical :=
  ⟨fun h => by cases h; assumption, .double⟩

@[simp]
theorem object_iff {members : List (String × Json)} :
    Writable (.object members) ↔ ∀ entry ∈ members, Writable entry.2 :=
  ⟨fun h => by cases h; assumption, .object⟩

end Writable

theorem compactItems_eq (items : List Json) : compactItems items = items.map compact := by
  induction items with
  | nil => rfl
  | cons item rest ih => rw [compactItems, ih]; rfl

theorem compactMembers_eq (members : List (String × Json)) :
    compactMembers members = members.map compactMember := by
  induction members with
  | nil => rfl
  | cons entry rest ih => rw [compactMembers, ih]; rfl

open Written (Tight Once nameOf memberValue memberValue_eq)

/-- A way to write a value: without blanks, as its compact text. -/
structure Writes (value : Json) (written : Written) : Prop where
  tight : Tight written
  once : written.Every Once
  text : written.text = compact value
  value : written.value = value

/-- A word or a numeral writes what it is read as. -/
theorem exists_writes_plain {value : Json}
    (h : ∃ hlength, readPlain (compact value) = .ok ⟨value, [], hlength⟩) :
    ∃ written, Writes value written :=
  ⟨.scalar .none (.plain ⟨compact value, value, h⟩), .plain, .scalar, List.append_nil _, rfl⟩

/-- A list is written item by item. -/
theorem exists_writes_array {items : List Json}
    (h : ∀ item ∈ items, ∃ written, Writes item written) :
    ∃ written, Writes (array items) written := by
  obtain ⟨parts, hparts⟩ := exists_forall₂ h
  have htexts : parts.map Written.text = items.map compact :=
    map_eq_of_forall₂ (fun _ _ h => h.text) hparts
  have hvalues : parts.map Written.value = items.map id :=
    map_eq_of_forall₂ (fun _ _ h => h.value) hparts
  have hall : ∀ part ∈ parts, ∃ item, Writes item part := fun part hpart =>
    let ⟨item, _, hitem⟩ := exists_of_forall₂_right hparts hpart
    ⟨item, hitem⟩
  refine ⟨.array .none .none parts, .array fun part hpart => ?_,
    .array fun part hpart => ?_, ?_, ?_⟩
  · exact (hall part hpart).elim fun _ h => h.tight
  · exact (hall part hpart).elim fun _ h => h.once
  · rw [Written.text_array, htexts, ← compactItems_eq]
    exact List.append_nil _
  · rw [Written.value_array, hvalues, List.map_id]

/-- A member is written under its own name. -/
structure WritesMember (entry : String × Json) (member : Name × Written) : Prop where
  name : member.1 = .compact entry.1
  value : Writes entry.2 member.2

namespace WritesMember

variable {entry : String × Json} {member : Name × Written}

theorem nameOf_eq (h : WritesMember entry member) : nameOf member = entry.1 := by
  rw [nameOf, h.name]
  rfl

theorem memberValue_eq_entry (h : WritesMember entry member) : memberValue member = entry := by
  rw [memberValue_eq, h.nameOf_eq, h.value.value]

theorem memberText_eq_compactMember (h : WritesMember entry member) :
    Written.memberText member = compactMember entry := by
  obtain ⟨name, written⟩ := member
  obtain rfl : name = .compact entry.1 := h.name
  have hname : (Name.compact entry.1).text = compactText entry.1 := List.append_nil _
  rw [Written.memberText_eq, hname, h.value.text, compactMember]

end WritesMember

/-- An object in which every name stands once is written member by member. -/
theorem exists_writes_object {members : List (String × Json)} (hnd : (names members).Nodup)
    (h : ∀ entry ∈ members, ∃ written, Writes entry.2 written) :
    ∃ written, Writes (object members) written := by
  -- the members are written one by one, and then only their texts and values are compared
  obtain ⟨parts, hparts⟩ := exists_forall₂ fun entry hentry =>
    (h entry hentry).elim fun written hwritten =>
      (⟨(.compact entry.1, written), rfl, hwritten⟩ : ∃ member, WritesMember entry member)
  have htexts : parts.map Written.memberText = members.map compactMember :=
    map_eq_of_forall₂ (fun _ _ h => h.memberText_eq_compactMember) hparts
  have hnames : parts.map nameOf = names members :=
    map_eq_of_forall₂ (fun _ _ h => h.nameOf_eq) hparts
  have hvalues : parts.map memberValue = members.map id :=
    map_eq_of_forall₂ (fun _ _ h => h.memberValue_eq_entry) hparts
  have hall : ∀ part ∈ parts, ∃ entry, WritesMember entry part := fun part hpart =>
    let ⟨entry, _, hentry⟩ := exists_of_forall₂_right hparts hpart
    ⟨entry, hentry⟩
  have honce : Once parts := by
    rw [Once, hnames]
    exact hnd
  refine ⟨.object .none .none parts, .object (fun part hpart => ?_) (fun part hpart => ?_),
    .object honce (fun part hpart => ?_), ?_, ?_⟩
  · exact (hall part hpart).elim fun entry h => ⟨entry.1, h.name⟩
  · exact (hall part hpart).elim fun _ h => h.value.tight
  · exact (hall part hpart).elim fun _ h => h.value.once
  · rw [Written.text_object, htexts, ← compactMembers_eq]
    exact List.append_nil _
  · rw [Written.value_object honce, hvalues, List.map_id]

/-- A value without repeated names is written by its compact text. -/
theorem exists_writes {value : Json} (h : value.Writable) (honce : value.NamesOnce) :
    ∃ written, Writes value written := by
  induction h with
  | null => exact exists_writes_plain ⟨_, rfl⟩
  | @bool value => cases value <;> exact exists_writes_plain ⟨_, rfl⟩
  | int hdigits => exact exists_writes_plain (reads_int hdigits)
  | double hcanonical => exact exists_writes_plain (reads_double hcanonical)
  | string =>
    exact ⟨.scalar .none (.quoted (.compact _)), .quoted, .scalar, List.append_nil _, rfl⟩
  | array _ ih =>
    have hinside := everywhere_array.mp honce
    exact exists_writes_array fun item hitem => ih item hitem (hinside item hitem)
  | object _ ih =>
    obtain ⟨hnd, hinside⟩ := everywhere_object.mp honce
    exact exists_writes_object hnd fun entry hentry => ih entry hentry (hinside entry hentry)

/-! ## Whatever is read -/

/-- A numeral of no more digits than are read denotes a number that can be written. -/
theorem Numeral.writable_value {numeral : Numeral} (hdigits : Digits numeral.whole)
    (hshort : numeral.isTooLong = false) : numeral.value.Writable := by
  obtain ⟨negative, whole, fraction, power⟩ := numeral
  cases fraction with
  | some places => exact .double (Binary64.canonical_ofDecimal _ _ _)
  | none =>
    cases power with
    | some power => exact .double (Binary64.canonical_ofDecimal _ _ _)
    | none =>
      refine .int ?_
      have hlength : whole.length ≤ mostDigits := by
        simpa [isTooLong] using hshort
      have hpos : 0 < whole.length := List.length_pos_iff.mpr hdigits.ne_nil
      -- the shortest form of a whole number is not longer than the digits it was read from
      have hshown : (Nat.toDigits 10 (decimalValue whole)).length ≤ whole.length :=
        (Nat.length_toDigits_le_iff (by omega) hpos).mpr (decimalValue_lt hdigits.digit)
      have hmagnitude :
          (if negative then -(decimalValue whole : Int) else decimalValue whole).natAbs =
            decimalValue whole := by
        split
        · exact (Int.natAbs_neg _).trans (Int.natAbs_natCast _)
        · exact Int.natAbs_natCast _
      dsimp only
      rw [hmagnitude]
      exact hshown.trans hlength

/-- A word or a numeral is read as a value that can be written. -/
theorem Plain.writable_value (word : Plain) : word.value.Writable := by
  obtain ⟨entry, hmem, hvalue⟩ | ⟨numeral, _, hnumeral, hshort, hvalue⟩ := word.value_cases
  · have hwords : ∀ entry ∈ wordValues, entry.2.Writable := by
      simp [wordValues, Writable.null, Writable.bool, Binary64.Canonical]
    exact hvalue ▸ hwords entry hmem
  · exact hvalue ▸ Numeral.writable_value (digits_of_readNumeral? hnumeral) hshort

/-- Whatever is written has a value that can be written compactly. -/
theorem Written.writable_value (written : Written) : written.value.Writable := by
  induction written with
  | scalar padding token =>
    cases token with
    | plain word => exact word.writable_value
    | quoted spelling => exact .string
  | array padding inner items ih =>
    rw [value_array]
    exact .array (List.forall_mem_map.mpr ih)
  | object padding inner members ih =>
    rw [value_object_eq]
    refine .object fun entry hentry => ?_
    obtain ⟨member, hmember, rfl⟩ := List.mem_map.mp (mem_of_mem_merged hentry)
    rw [memberValue_eq]
    exact ih member hmember

/-- Where every name stands once, the values that have a compact text
are those that a text can have. -/
theorem writable_iff {value : Json} (honce : value.NamesOnce) :
    value.Writable ↔ ∃ written : Written, written.value = value :=
  ⟨fun h => (exists_writes h honce).imp fun _ hwrites => hwrites.value,
    fun ⟨written, hvalue⟩ => hvalue ▸ written.writable_value⟩

end ApiClient.Json
