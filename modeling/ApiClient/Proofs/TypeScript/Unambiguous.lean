import ApiClient.Proofs.TypeScript.Grammar

/-!
# A text is read in one way

Two phrases with the same tokens are the same phrase. A phrase that stands before other tokens
ends where none of them can go on with it: products end before anything but brackets and `&`,
and alternatives also go on behind a `|`. With such tokens behind them two phrases are compared
from the front. The first token tells what kind of phrase it is, and whatever a bracket opens
ends with the bracket that closes it.
-/

namespace ApiClient.TypeScript

/-- The tokens do not begin with one of these marks. -/
def Ends (signs : List Char) (rest : List Token) : Prop :=
  ∀ c ∈ signs, rest.head? ≠ some (.mark c)

theorem ends_nil (signs : List Char) : Ends signs [] := fun _ _ h => by cases h

theorem ends_cons {signs : List Char} {c : Char} (h : c ∉ signs) (rest : List Token) :
    Ends signs (.mark c :: rest) := by
  rintro d hd he
  obtain rfl : c = d := Token.mark.inj (Option.some.inj he)
  exact h hd

theorem Ends.mono {signs signs' : List Char} {rest : List Token} (h : Ends signs rest)
    (hsub : ∀ c ∈ signs', c ∈ signs) : Ends signs' rest := fun c hc => h c (hsub c hc)

/-! ## Parts without phrases -/

theorem bracketTokens_unique {arrays arrays' : Nat} {rest rest' : List Token}
    (hrest : Ends ['['] rest) (hrest' : Ends ['['] rest')
    (h : bracketTokens arrays ++ rest = bracketTokens arrays' ++ rest') :
    arrays = arrays' ∧ rest = rest' := by
  induction arrays generalizing arrays' with
  | zero =>
    cases arrays' with
    | zero => exact ⟨rfl, h⟩
    | succ arrays' => exact absurd (congrArg List.head? h) (hrest _ List.mem_cons_self)
  | succ arrays ih =>
    cases arrays' with
    | zero => exact absurd (congrArg List.head? h).symm (hrest' _ List.mem_cons_self)
    | succ arrays' =>
      obtain ⟨rfl, hrest⟩ := ih (List.cons.inj (List.cons.inj h).2).2
      exact ⟨rfl, hrest⟩

theorem colonTokens_unique {optional optional' : Bool} {rest rest' : List Token}
    (h : colonTokens optional ++ rest = colonTokens optional' ++ rest') :
    optional = optional' ∧ rest = rest' := by
  cases optional <;> cases optional' <;> simp_all [colonTokens]

theorem Key.token_injective : Function.Injective Key.token := by
  intro key key' h
  cases key <;> cases key' <;> simp_all [Key.token]

theorem Key.token_ne_mark (key : Key) (c : Char) : key.token ≠ .mark c := by
  cases key <;> exact fun h => by cases h

/-! ## How phrases begin -/

/-- A token with which a phrase can begin. -/
def Token.opens : Token → Bool
  | .name _ | .text _ | .number _ => true
  | .mark c => ['(', '[', '\x7b'].contains c

theorem Primary.exists_tokens (primary : Primary) :
    ∃ token rest, primary.tokens = token :: rest ∧ token.opens = true := by
  cases primary <;> exact ⟨_, _, rfl, rfl⟩

theorem Factors.exists_tokens (factors : Factors) :
    ∃ token rest, factors.tokens = token :: rest ∧ token.opens = true := by
  cases factors with
  | last core | more core =>
    obtain ⟨token, rest, htokens, hopens⟩ := core.exists_tokens
    exact ⟨token, _, congrArg (· ++ _) htokens, hopens⟩

theorem Alternatives.exists_tokens (type : Alternatives) :
    ∃ token rest, type.tokens = token :: rest ∧ token.opens = true := by
  cases type with
  | last factors => exact factors.exists_tokens
  | more factors =>
    obtain ⟨token, rest, htokens, hopens⟩ := factors.exists_tokens
    exact ⟨token, _, congrArg (· ++ _) htokens, hopens⟩

/-- A phrase does not begin with a mark that closes. -/
theorem Alternatives.tokens_ne_mark (type : Alternatives) {c : Char}
    (hc : (Token.mark c).opens = false)
    (rest rest' : List Token) : type.tokens ++ rest ≠ .mark c :: rest' := by
  obtain ⟨token, others, htokens, hopens⟩ := type.exists_tokens
  intro h
  rw [htokens] at h
  obtain rfl := (List.cons.inj h).1
  rw [hc] at hopens
  cases hopens

/-- No member begins with a bracket. -/
theorem Fields.tokens_ne_bracket (fields : Fields) (rest rest' : List Token) :
    fields.tokens ++ rest ≠ .mark '[' :: rest' := by
  cases fields with
  | none => simp [Fields.tokens]
  | last key | more key => exact fun h => key.token_ne_mark _ (List.cons.inj h).1

/-! ## Phrases -/

/-- The marks that go on with a product, and those that go on with alternatives. -/
def productSigns : List Char := ['[', '&']
def sumSigns : List Char := ['[', '&', '|']

section

variable {rest rest' : List Token}

/-- An operand is settled by its first tokens if the phrase in front of its brackets is. -/
theorem operand_unique {core core' : Primary} {arrays arrays' : Nat}
    (hcore : ∀ {rest rest' : List Token}, core.tokens ++ rest = core'.tokens ++ rest' →
      core = core' ∧ rest = rest')
    (hrest : Ends ['['] rest) (hrest' : Ends ['['] rest')
    (h : core.tokens ++ (bracketTokens arrays ++ rest) =
      core'.tokens ++ (bracketTokens arrays' ++ rest')) :
    core = core' ∧ arrays = arrays' ∧ rest = rest' := by
  obtain ⟨rfl, hbrackets⟩ := hcore h
  obtain ⟨rfl, rfl⟩ := bracketTokens_unique hrest hrest' hbrackets
  exact ⟨rfl, rfl, rfl⟩

/-- A member is settled by its first tokens if its type is. -/
theorem member_unique {key key' : Key} {optional optional' : Bool} {type type' : Alternatives}
    (htype : ∀ {rest rest' : List Token}, Ends sumSigns rest → Ends sumSigns rest' →
      type.tokens ++ rest = type'.tokens ++ rest' → type = type' ∧ rest = rest')
    (hrest : Ends sumSigns rest) (hrest' : Ends sumSigns rest')
    (h : key.token :: (colonTokens optional ++ (type.tokens ++ rest)) =
      key'.token :: (colonTokens optional' ++ (type'.tokens ++ rest'))) :
    key = key' ∧ optional = optional' ∧ type = type' ∧ rest = rest' := by
  obtain ⟨hkey, hcolon⟩ := List.cons.inj h
  obtain rfl := Key.token_injective hkey
  obtain ⟨rfl, hinside⟩ := colonTokens_unique hcolon
  obtain ⟨rfl, rfl⟩ := htype hrest hrest' hinside
  exact ⟨rfl, rfl, rfl, rfl⟩

end

theorem Separator.token_injective : Function.Injective Separator.token := by
  intro separator separator' h
  cases separator <;> cases separator' <;> simp_all [Separator.token]

/-- A separator ends the type before it. -/
theorem Separator.ends (separator : Separator) {rest : List Token} :
    Ends sumSigns (separator.token :: rest) := by
  cases separator <;> exact ends_cons (by decide) _

mutual

theorem Primary.unique (a b : Primary) {rest rest' : List Token}
    (h : a.tokens ++ rest = b.tokens ++ rest') : a = b ∧ rest = rest' := by
  -- the first token tells the two apart, but for a map and a record
  cases a with
  | name path =>
    cases b <;> simp_all [Primary.tokens]
  | text value =>
    cases b <;> simp_all [Primary.tokens]
  | number value =>
    cases b <;> simp_all [Primary.tokens]
  | group type =>
    cases b with
    | group type' =>
      have hinside : type.tokens ++ (.mark ')' :: rest) =
          type'.tokens ++ (.mark ')' :: rest') := by
        simpa [Primary.tokens] using h
      obtain ⟨rfl, hrest⟩ := Alternatives.unique type type' (ends_cons (by decide) _)
        (ends_cons (by decide) _) hinside
      exact ⟨rfl, (List.cons.inj hrest).2⟩
    | name | text | number | tuple | map | record => simp [Primary.tokens] at h
  | tuple items =>
    cases b with
    | tuple items' =>
      obtain ⟨rfl, hrest⟩ := Items.unique items items' (List.cons.inj h).2
      exact ⟨rfl, hrest⟩
    | name | text | number | group | map | record => simp [Primary.tokens] at h
  | map key value =>
    cases b with
    | map key' value' =>
      have hinside : key = key' ∧ value.tokens ++ (.mark '\x7d' :: rest) =
          value'.tokens ++ (.mark '\x7d' :: rest') := by
        simpa [Primary.tokens] using h
      obtain ⟨rfl, hinside⟩ := hinside
      obtain ⟨rfl, hrest⟩ := Alternatives.unique value value' (ends_cons (by decide) _)
        (ends_cons (by decide) _) hinside
      exact ⟨rfl, (List.cons.inj hrest).2⟩
    | record fields => exact absurd (List.cons.inj h).2.symm (fields.tokens_ne_bracket _ _)
    | name | text | number | group | tuple => simp [Primary.tokens] at h
  | record fields =>
    cases b with
    | record fields' =>
      obtain ⟨rfl, hrest⟩ := Fields.unique fields fields' (List.cons.inj h).2
      exact ⟨rfl, hrest⟩
    | map key value => exact absurd (List.cons.inj h).2 (fields.tokens_ne_bracket _ _)
    | name | text | number | group | tuple => simp [Primary.tokens] at h
termination_by structural a

theorem Factors.unique (a b : Factors) {rest rest' : List Token} (hrest : Ends productSigns rest)
    (hrest' : Ends productSigns rest') (h : a.tokens ++ rest = b.tokens ++ rest') :
    a = b ∧ rest = rest' := by
  have hbracket : ∀ {rest}, Ends productSigns rest → Ends ['['] rest := fun h => h.mono (by decide)
  -- where one list ends and the other goes on, an `&` would stand behind the one that ends
  cases a with
  | last core arrays =>
    cases b with
    | last core' arrays' =>
      simp only [Factors.tokens, List.append_assoc] at h
      obtain ⟨rfl, rfl, hrest⟩ := operand_unique (Primary.unique core core') (hbracket hrest)
        (hbracket hrest') h
      exact ⟨rfl, hrest⟩
    | more core' arrays' others =>
      simp only [Factors.tokens, List.append_assoc, List.cons_append] at h
      obtain ⟨-, -, he⟩ := operand_unique (Primary.unique core core') (hbracket hrest)
        (ends_cons (by decide) _) h
      exact absurd (congrArg List.head? he) (hrest _ (by decide))
  | more core arrays others =>
    cases b with
    | last core' arrays' =>
      simp only [Factors.tokens, List.append_assoc, List.cons_append] at h
      obtain ⟨-, -, he⟩ := operand_unique (Primary.unique core core') (ends_cons (by decide) _)
        (hbracket hrest') h
      exact absurd (congrArg List.head? he).symm (hrest' _ (by decide))
    | more core' arrays' others' =>
      simp only [Factors.tokens, List.append_assoc, List.cons_append] at h
      obtain ⟨rfl, rfl, he⟩ := operand_unique (Primary.unique core core') (ends_cons (by decide) _)
        (ends_cons (by decide) _) h
      obtain ⟨rfl, hrest⟩ := Factors.unique others others' hrest hrest' (List.cons.inj he).2
      exact ⟨rfl, hrest⟩
termination_by structural a

theorem Alternatives.unique (a b : Alternatives) {rest rest' : List Token}
    (hrest : Ends sumSigns rest)
    (hrest' : Ends sumSigns rest') (h : a.tokens ++ rest = b.tokens ++ rest') :
    a = b ∧ rest = rest' := by
  have hproduct : ∀ {rest}, Ends sumSigns rest → Ends productSigns rest :=
    fun h => h.mono (by decide)
  -- where one list ends and the other goes on, a `|` would stand behind the one that ends
  cases a with
  | last factors =>
    cases b with
    | last factors' =>
      obtain ⟨rfl, hrest⟩ := Factors.unique factors factors' (hproduct hrest) (hproduct hrest') h
      exact ⟨rfl, hrest⟩
    | more factors' others =>
      simp only [Alternatives.tokens, List.append_assoc, List.cons_append] at h
      obtain ⟨-, he⟩ :=
        Factors.unique factors factors' (hproduct hrest) (ends_cons (by decide) _) h
      exact absurd (congrArg List.head? he) (hrest _ (by decide))
  | more factors others =>
    cases b with
    | last factors' =>
      simp only [Alternatives.tokens, List.append_assoc, List.cons_append] at h
      obtain ⟨-, he⟩ :=
        Factors.unique factors factors' (ends_cons (by decide) _) (hproduct hrest') h
      exact absurd (congrArg List.head? he).symm (hrest' _ (by decide))
    | more factors' others' =>
      simp only [Alternatives.tokens, List.append_assoc, List.cons_append] at h
      obtain ⟨rfl, he⟩ := Factors.unique factors factors' (ends_cons (by decide) _)
        (ends_cons (by decide) _) h
      obtain ⟨rfl, hrest⟩ := Alternatives.unique others others' hrest hrest' (List.cons.inj he).2
      exact ⟨rfl, hrest⟩
termination_by structural a

theorem Items.unique (a b : Items) {rest rest' : List Token}
    (h : a.tokens ++ rest = b.tokens ++ rest') : a = b ∧ rest = rest' := by
  -- a bracket closes the list where it ends, and a comma stands where it goes on
  cases a with
  | none =>
    cases b with
    | none => exact ⟨rfl, (List.cons.inj h).2⟩
    | last type | more type =>
      exact (type.tokens_ne_mark (c := ']') rfl _ _ (by simpa [Items.tokens] using h.symm)).elim
  | last type =>
    cases b with
    | none => exact (type.tokens_ne_mark (c := ']') rfl _ _ (by simpa [Items.tokens] using h)).elim
    | last type' =>
      simp only [Items.tokens, List.append_assoc, List.cons_append, List.nil_append] at h
      obtain ⟨rfl, he⟩ := Alternatives.unique type type' (ends_cons (by decide) _)
        (ends_cons (by decide) _) h
      exact ⟨rfl, (List.cons.inj he).2⟩
    | more type' others =>
      simp only [Items.tokens, List.append_assoc, List.cons_append, List.nil_append] at h
      obtain ⟨-, he⟩ := Alternatives.unique type type' (ends_cons (by decide) _)
        (ends_cons (by decide) _) h
      simp at he
  | more type others =>
    cases b with
    | none => exact (type.tokens_ne_mark (c := ']') rfl _ _ (by simpa [Items.tokens] using h)).elim
    | last type' =>
      simp only [Items.tokens, List.append_assoc, List.cons_append, List.nil_append] at h
      obtain ⟨-, he⟩ := Alternatives.unique type type' (ends_cons (by decide) _)
        (ends_cons (by decide) _) h
      simp at he
    | more type' others' =>
      simp only [Items.tokens, List.append_assoc, List.cons_append] at h
      obtain ⟨rfl, he⟩ := Alternatives.unique type type' (ends_cons (by decide) _)
        (ends_cons (by decide) _) h
      obtain ⟨rfl, hrest⟩ := Items.unique others others' (List.cons.inj he).2
      exact ⟨rfl, hrest⟩
termination_by structural a

theorem Fields.unique (a b : Fields) {rest rest' : List Token}
    (h : a.tokens ++ rest = b.tokens ++ rest') : a = b ∧ rest = rest' := by
  -- a brace closes the members where they end, and a separator stands where they go on
  cases a with
  | none =>
    cases b with
    | none => exact ⟨rfl, (List.cons.inj h).2⟩
    | last key | more key => exact absurd (List.cons.inj h).1.symm (key.token_ne_mark _)
  | last key optional type =>
    cases b with
    | none => exact absurd (List.cons.inj h).1 (key.token_ne_mark _)
    | last key' optional' type' =>
      simp only [Fields.tokens, List.append_assoc, List.cons_append, List.nil_append] at h
      obtain ⟨rfl, rfl, rfl, he⟩ := member_unique (Alternatives.unique type type')
        (ends_cons (by decide) _) (ends_cons (by decide) _) h
      exact ⟨rfl, (List.cons.inj he).2⟩
    | more key' optional' type' separator' others' =>
      simp only [Fields.tokens, List.append_assoc, List.cons_append, List.nil_append] at h
      obtain ⟨-, -, -, he⟩ := member_unique (Alternatives.unique type type')
        (ends_cons (by decide) _) separator'.ends h
      cases separator' <;> simp [Separator.token] at he
  | more key optional type separator others =>
    cases b with
    | none => exact absurd (List.cons.inj h).1 (key.token_ne_mark _)
    | last key' optional' type' =>
      simp only [Fields.tokens, List.append_assoc, List.cons_append, List.nil_append] at h
      obtain ⟨-, -, -, he⟩ := member_unique (Alternatives.unique type type')
        separator.ends (ends_cons (by decide) _) h
      cases separator <;> simp [Separator.token] at he
    | more key' optional' type' separator' others' =>
      simp only [Fields.tokens, List.append_assoc, List.cons_append] at h
      obtain ⟨rfl, rfl, rfl, he⟩ := member_unique (Alternatives.unique type type')
        separator.ends separator'.ends h
      obtain ⟨hsame, hothers⟩ := List.cons.inj he
      obtain rfl := Separator.token_injective hsame
      obtain ⟨rfl, hrest⟩ := Fields.unique others others' hothers
      exact ⟨rfl, hrest⟩
termination_by structural a

end

/-- **A phrase is known by its tokens.** -/
theorem Alternatives.tokens_injective : Function.Injective Alternatives.tokens := fun a b h =>
  (a.unique b (ends_nil _) (ends_nil _) (by rw [h])).1

/-- **What a text is read as is settled by the text.** -/
theorem ReadsAs.unique {text : String} {products products' : List (List Tree)}
    (h : ReadsAs text products) (h' : ReadsAs text products') : products = products' := by
  obtain ⟨phrase, htokens, rfl⟩ := h
  obtain ⟨phrase', htokens', rfl⟩ := h'
  rw [Alternatives.tokens_injective (Option.some.inj (htokens.symm.trans htokens'))]

theorem Reads.unique {text : String} {tree tree' : Tree} (h : Reads text tree)
    (h' : Reads text tree') : tree = tree' := by
  obtain ⟨products, hreads, rfl⟩ := h
  obtain ⟨products', hreads', rfl⟩ := h'
  rw [hreads.unique hreads']

end ApiClient.TypeScript
