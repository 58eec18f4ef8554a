import ApiClient.Proofs.Operation.Name

/-!
# The least free numbers

A search for a free number does not begin at two each time, but behind the number that the name
was last given. Nothing is missed by that: the numbers that are passed over were tried before,
their names were taken then, and a name that is taken stays so. So names are told apart as if
there were no counters, each by the least number that makes it free.
-/

namespace ApiClient.Operation

/-! ## Searching -/

/-- The numbers behind `last` are tried one after another, and `n` is the
first that makes a free name. -/
inductive Search (taken : List String) (name : String) : Nat → Nat → Prop
  | found {last : Nat} (h : numbered name (last + 1) ∉ taken) : Search taken name last (last + 1)
  | next {last n : Nat} (h : numbered name (last + 1) ∈ taken)
      (hrest : Search taken name (last + 1) n) : Search taken name last n

section

variable {taken : List String} {name : String} {last n : Nat}

/-- A search ends at the least number that makes a free name. -/
theorem search_iff : Search taken name last n ↔
    last < n ∧ numbered name n ∉ taken ∧ ∀ k, last < k → k < n → numbered name k ∈ taken := by
  constructor
  · intro h
    induction h with
    | found h => exact ⟨Nat.lt_succ_self _, h, fun k hlast hk => by omega⟩
    | @next last n h _ ih =>
      obtain ⟨hlast, hfree, hleast⟩ := ih
      refine ⟨by omega, hfree, fun k hk hkn => ?_⟩
      rcases Nat.eq_or_lt_of_le hk with rfl | hk
      · exact h
      · exact hleast k hk hkn
  · rintro ⟨hlast, hfree, hleast⟩
    -- by induction on how many numbers are tried in vain
    induction hdistance : n - (last + 1) generalizing last with
    | zero =>
      obtain rfl : n = last + 1 := by omega
      exact .found hfree
    | succ distance ih =>
      refine .next (hleast _ (Nat.lt_succ_self _) (by omega)) (ih (by omega) ?_ (by omega))
      exact fun k hk hkn => hleast k (by omega) hkn

theorem Search.unique {m : Nat} (h : Search taken name last n) (h' : Search taken name last m) :
    n = m := by
  obtain ⟨hlast, hfree, hleast⟩ := search_iff.mp h
  obtain ⟨hlast', hfree', hleast'⟩ := search_iff.mp h'
  rcases Nat.lt_trichotomy n m with hlt | he | hgt
  · exact absurd (hleast' n hlast hlt) hfree
  · exact he
  · exact absurd (hleast m hlast' hgt) hfree'

/-- Every search comes to an end. -/
theorem search_firstFree (taken : List String) (name : String) (last : Nat) :
    Search taken name last (firstFree taken name last) := by
  obtain ⟨n, hn, hfree⟩ := exists_free taken name last
  unfold firstFree
  cases hfind : (List.range' (last + 1) (taken.length + 1)).find?
      fun n => !taken.contains (numbered name n) with
  | none =>
    have := List.find?_eq_none.mp hfind n hn
    simp [hfree] at this
  | some found =>
    obtain ⟨hfound, hmem, hleast⟩ := List.find?_range'_eq_some.mp hfind
    rw [Option.getD_some, search_iff]
    refine ⟨(List.mem_range'_1.mp hmem).1, by simpa using hfound, fun k hk hkn => ?_⟩
    simpa using hleast k hk hkn

/-- A search can begin at any number, as long as all the numbers before it are of no use. -/
theorem firstFree_eq_of_taken {first : Nat} (hlast : first ≤ last)
    (h : ∀ k, first < k → k ≤ last → numbered name k ∈ taken) :
    firstFree taken name last = firstFree taken name first := by
  obtain ⟨hn, hfree, hleast⟩ := search_iff.mp (search_firstFree taken name last)
  refine Search.unique (search_iff.mpr ⟨by omega, hfree, fun k hk hkn => ?_⟩)
    (search_firstFree _ _ _)
  by_cases hbefore : k ≤ last
  · exact h k hk hbefore
  · exact hleast k (by omega) hkn

end

/-! ## Counters -/

/-- What a name is told apart as when every search begins at two. -/
def freshName (taken : List String) (name : String) : String :=
  if taken.contains name then numbered name (firstFree taken name 1) else name

/-- Tells apart names in order without any counters. -/
def freshFrom (taken : List String) : List String → List String
  | [] => []
  | name :: rest => freshName taken name :: freshFrom (freshName taken name :: taken) rest

namespace Numbering

/-- The number behind which the search for a name begins. -/
def last (numbering : Numbering) (name : String) : Nat := (numbering.counters.lookup name).getD 1

/-- No counter is ahead: the numbers up to it make names that are taken. -/
def Sound (numbering : Numbering) : Prop :=
  ∀ name, 1 ≤ numbering.last name ∧
    ∀ k, 1 < k → k ≤ numbering.last name → numbered name k ∈ numbering.taken

theorem sound_empty : Sound ⟨[], []⟩ :=
  fun _ => ⟨Nat.le_refl 1, fun _ hk hlast => absurd hlast (Nat.not_le.mpr hk)⟩

end Numbering

theorem lookup_setCounter (name other : String) (n : Nat) (counters : List (String × Nat)) :
    (setCounter name n counters).lookup other =
      if other = name then some n else counters.lookup other := by
  unfold setCounter
  rw [List.lookup_cons]
  by_cases he : other = name
  · rw [if_pos he, he, beq_self_eq_true]
  · rw [if_neg he, beq_false_of_ne he]
    -- what is left out is the counter of another name
    induction counters with
    | nil => rfl
    | cons counter rest ih =>
      obtain ⟨key, value⟩ := counter
      rw [List.filter_cons, List.lookup_cons]
      by_cases hkey : key = name
      · have hother : (other == key) = false := beq_false_of_ne fun h => he (h.trans hkey)
        rw [hother]
        simpa [hkey] using ih
      · have hkept : (key != name) = true := by simpa using hkey
        rw [if_pos hkept, List.lookup_cons]
        cases other == key with
        | true => rfl
        | false => exact ih

namespace Numbering

variable {numbering : Numbering}

theorem last_setCounter (name other : String) (n : Nat) (taken : List String) :
    last ⟨setCounter name n numbering.counters, taken⟩ other =
      if other = name then n else numbering.last other := by
  unfold last
  rw [lookup_setCounter]
  split <;> rfl

/-- With sound counters the search that begins behind one finds what the search from two does. -/
theorem Sound.take_eq (h : numbering.Sound) (name : String) :
    (numbering.take name).1 = freshName numbering.taken name := by
  unfold take freshName
  split
  · exact congrArg (numbered name) (firstFree_eq_of_taken (h name).1 (h name).2)
  · rfl

/-- A step keeps the counters sound: it passes over numbers whose names are taken, and takes the
name of the one that it gives. -/
theorem Sound.take (h : numbering.Sound) (name : String) : (numbering.take name).2.Sound := by
  intro other
  obtain ⟨hone, htaken⟩ := h other
  unfold Numbering.take
  split
  · -- the search went from the old counter up to the number it gave, and everything on the way
    -- was taken
    obtain ⟨hn, -, hleast⟩ :=
      search_iff.mp (search_firstFree numbering.taken name (numbering.last name))
    change 1 ≤ last ⟨setCounter name _ _, _⟩ other ∧
      ∀ k, 1 < k → k ≤ last ⟨setCounter name _ _, _⟩ other → _
    rw [last_setCounter]
    -- only the counter of `name` is moved
    by_cases he : other = name
    · subst he
      rw [if_pos rfl]
      refine ⟨Nat.le_trans hone (Nat.le_of_lt hn), fun k hk hkn => ?_⟩
      rcases Nat.eq_or_lt_of_le hkn with rfl | hkn
      · exact List.mem_cons_self
      · refine List.mem_cons_of_mem _ ?_
        by_cases hbefore : k ≤ numbering.last other
        · exact htaken k hk hbefore
        · exact hleast k (Nat.lt_of_not_le hbefore) hkn
    · rw [if_neg he]
      exact ⟨hone, fun k hk hlast => List.mem_cons_of_mem _ (htaken k hk hlast)⟩
  · exact ⟨hone, fun k hk hlast => List.mem_cons_of_mem _ (htaken k hk hlast)⟩

/-- Sound counters make no difference to what names are told apart as. -/
theorem Sound.numberFrom_eq (h : numbering.Sound) (names : List String) :
    numberFrom numbering names = freshFrom numbering.taken names := by
  induction names generalizing numbering with
  | nil => rfl
  | cons name rest ih =>
    change (numbering.take name).1 :: numberFrom (numbering.take name).2 rest = _
    rw [freshFrom, ih (h.take name), take_taken, h.take_eq]

end Numbering

/-! ## What names become -/

/-- What a name becomes where some names are taken: itself if it is free, and otherwise itself
with the least number from two that makes a free name. -/
inductive Becomes (taken : List String) (name : String) : String → Prop
  | kept (h : name ∉ taken) : Becomes taken name name
  | numbered {n : Nat} (h : name ∈ taken) (htwo : 2 ≤ n) (hfree : numbered name n ∉ taken)
      (hleast : ∀ k, 2 ≤ k → k < n → numbered name k ∈ taken) :
      Becomes taken name (numbered name n)

/-- What a name becomes does not hang on the order of the names that are taken. -/
theorem Becomes.congr {taken other : List String} {name result : String}
    (hsame : ∀ x, x ∈ other ↔ x ∈ taken) (h : Becomes taken name result) :
    Becomes other name result := by
  cases h with
  | kept h => exact .kept (mt (hsame _).mp h)
  | numbered h htwo hfree hleast =>
    exact .numbered ((hsame _).mpr h) htwo (mt (hsame _).mp hfree)
      fun k hk hkn => (hsame _).mpr (hleast k hk hkn)

theorem becomes_freshName (taken : List String) (name : String) :
    Becomes taken name (freshName taken name) := by
  unfold freshName
  split
  · rename_i h
    obtain ⟨hone, hfree, hleast⟩ := search_iff.mp (search_firstFree taken name 1)
    exact .numbered (List.contains_iff_mem.mp h) hone hfree fun k hk hkn => hleast k hk hkn
  · rename_i h
    exact .kept (mt List.contains_iff_mem.mpr h)

/-- Each name becomes what the results before it, and the names taken
from the start, leave to it. -/
theorem exists_becomes_freshFrom {names taken : List String} {i : Nat} {name : String}
    (h : names[i]? = some name) : ∃ result, (freshFrom taken names)[i]? = some result ∧
      Becomes ((freshFrom taken names).take i ++ taken) name result := by
  induction names generalizing taken i with
  | nil => cases h
  | cons first rest ih =>
    cases i with
    | zero =>
      obtain rfl : first = name := by simpa using h
      exact ⟨_, rfl, becomes_freshName taken first⟩
    | succ i =>
      obtain ⟨result, hresult, hbecomes⟩ := @ih (freshName taken first :: taken) i h
      refine ⟨result, hresult, hbecomes.congr fun x => ?_⟩
      rw [freshFrom, List.take_succ_cons, List.cons_append, List.mem_cons, List.mem_append,
        List.mem_append, List.mem_cons, or_left_comm]

/-- Names that are told apart already stay as they are. -/
theorem freshFrom_of_nodup {names taken : List String} (hnd : names.Nodup)
    (hfree : ∀ name ∈ names, name ∉ taken) : freshFrom taken names = names := by
  induction names generalizing taken with
  | nil => rfl
  | cons name rest ih =>
    obtain ⟨hnew, hnd⟩ := List.nodup_cons.mp hnd
    have hfirst : freshName taken name = name := by
      unfold freshName
      rw [if_neg (mt List.contains_iff_mem.mp (hfree name List.mem_cons_self))]
    rw [freshFrom, hfirst, ih hnd fun other hother => ?_]
    rw [List.mem_cons, not_or]
    exact ⟨fun he => hnew (he ▸ hother), hfree other (List.mem_cons_of_mem _ hother)⟩

theorem distinctNames_eq_freshFrom (names : List String) :
    distinctNames names = freshFrom [] names :=
  Numbering.sound_empty.numberFrom_eq names

/-- The names in `results` tell apart those in `names`. -/
structure ToldApart (names results : List String) : Prop where
  length : results.length = names.length
  nodup : results.Nodup
  /-- A name becomes what the results before it leave to it. -/
  each : ∀ i name, names[i]? = some name →
    ∃ result, results[i]? = some result ∧ Becomes (results.take i) name result

/-- **Names that repeat get the least number that makes them free.** Each search for a number
comes to an end, and with the counters it finds what it would find from two on. Telling names
apart once more changes nothing. -/
theorem toldApart_distinctNames (names : List String) :
    (∀ taken name last, Search taken name last (firstFree taken name last)) ∧
      ToldApart names (distinctNames names) ∧
      distinctNames names = freshFrom [] names ∧
      distinctNames (distinctNames names) = distinctNames names := by
  refine ⟨search_firstFree, ⟨length_distinctNames names, nodup_distinctNames names, ?_⟩,
    distinctNames_eq_freshFrom names, ?_⟩
  · intro i name hname
    rw [distinctNames_eq_freshFrom]
    obtain ⟨result, hresult, hbecomes⟩ := @exists_becomes_freshFrom names [] i name hname
    exact ⟨result, hresult, by rwa [List.append_nil] at hbecomes⟩
  · rw [distinctNames_eq_freshFrom (distinctNames names)]
    exact freshFrom_of_nodup (nodup_distinctNames names) fun _ _ => List.not_mem_nil

/-- A number that a name of its own already uses is passed over. -/
example : distinctNames ["find", "find2", "find", "find"] =
  ["find", "find2", "find3", "find4"] := by
  decide +kernel

end ApiClient.Operation
