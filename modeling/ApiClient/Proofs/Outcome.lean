import ApiClient.Client.Files
import Mathlib.Data.List.Forall2

/-!
# What came to an end

A client is made by computations that can fail: readings of the document, and writings that keep
their files. Both are chains of steps, and a chain that came to an end came to an end at every
step. The lemmas here take such a chain apart, so that no later proof opens a bind.
-/

namespace ApiClient

variable {ε α β : Type}

/-! ## Readings -/

/-- A reading in two steps succeeds when both do. -/
theorem bind_eq_ok {x : Except ε α} {f : α → Except ε β} {b : β} :
    x >>= f = .ok b ↔ ∃ a, x = .ok a ∧ f a = .ok b := by
  cases x with
  | error e =>
    constructor
    · intro h; exact Except.noConfusion rfl rfl (heq_of_eq h)
    · rintro ⟨a, h, _⟩; cases h
  | ok a =>
    constructor
    · intro h; exact ⟨a, rfl, h⟩
    · rintro ⟨a', h, h'⟩
      cases h
      exact h'

/-- A reading in two steps fails where the first of them does that fails. -/
theorem bind_eq_error {x : Except ε α} {f : α → Except ε β} {e : ε} :
    x >>= f = .error e ↔ x = .error e ∨ ∃ a, x = .ok a ∧ f a = .error e := by
  cases x with
  | error e' =>
    constructor
    · intro h; exact .inl (congrArg _ (Except.error.inj h))
    · rintro (h | ⟨a, h, -⟩)
      · exact congrArg _ (Except.error.inj h)
      · cases h
  | ok a =>
    constructor
    · intro h; exact .inr ⟨a, rfl, h⟩
    · rintro (h | ⟨a', h, h'⟩)
      · cases h
      · cases h
        exact h'

theorem pure_eq_ok {a b : α} : (pure a : Except ε α) = .ok b ↔ a = b :=
  ⟨fun h => Except.ok.inj h, fun h => h ▸ rfl⟩

theorem map_eq_ok {x : Except ε α} {f : α → β} {b : β} :
    x.map f = .ok b ↔ ∃ a, x = .ok a ∧ f a = b := by
  cases x with
  | error e => simp [Except.map]
  | ok a => simp [Except.map]

/-- A misuse is passed on as a fault, and a value as itself. -/
theorem lift_eq_ok {x : Except Misuse α} {a : α} :
    (liftM x : Except Fault α) = .ok a ↔ x = .ok a := by
  cases x with
  | error e =>
    constructor
    · intro h; change Except.error _ = _ at h; cases h
    · intro h; cases h
  | ok b =>
    constructor
    · intro h; exact congrArg _ (Except.ok.inj h)
    · intro h; cases h; rfl

/-- A value that can be compared shows that a computation came to an end. -/
theorem eq_ok_of_toOption {x : Except ε α} {a : α} (h : x.toOption = some a) : x = .ok a := by
  cases x with
  | error e => cases h
  | ok b => exact congrArg _ (Option.some.inj h)

/-- A list is read item by item. -/
theorem mapM_eq_ok {f : α → Except ε β} {xs : List α} {ys : List β} :
    xs.mapM f = .ok ys ↔ List.Forall₂ (fun x y => f x = .ok y) xs ys := by
  induction xs generalizing ys with
  | nil =>
    rw [List.mapM_nil, pure_eq_ok, List.forall₂_nil_left_iff]
    exact eq_comm
  | cons x xs ih =>
    rw [List.mapM_cons, bind_eq_ok]
    constructor
    · rintro ⟨y, hy, h⟩
      obtain ⟨rest, hrest, h⟩ := bind_eq_ok.mp h
      rw [← pure_eq_ok.mp h]
      exact .cons hy (ih.mp hrest)
    · intro h
      obtain ⟨y, rest, hy, hrest, rfl⟩ := List.forall₂_cons_left_iff.mp h
      exact ⟨y, hy, bind_eq_ok.mpr ⟨rest, ih.mpr hrest, rfl⟩⟩

/-- The first item that cannot be read is where the reading of a list fails. -/
theorem mapM_eq_error {f : α → Except ε β} {xs : List α} {e : ε} :
    xs.mapM f = .error e ↔ ∃ before x after, xs = before ++ x :: after ∧
      (∀ y ∈ before, ∃ z, f y = .ok z) ∧ f x = .error e := by
  induction xs with
  | nil => simp [pure, Except.pure]
  | cons first rest ih =>
    rw [List.mapM_cons, bind_eq_error]
    constructor
    · rintro (hfirst | ⟨z, hfirst, h⟩)
      · exact ⟨[], first, rest, rfl, by simp, hfirst⟩
      · rcases bind_eq_error.mp h with hrest | ⟨_, -, h⟩
        · obtain ⟨before, x, after, rfl, hbefore, hx⟩ := ih.mp hrest
          exact ⟨first :: before, x, after, rfl,
            List.forall_mem_cons.mpr ⟨⟨z, hfirst⟩, hbefore⟩, hx⟩
        · cases h
    · rintro ⟨before, x, after, heq, hbefore, hx⟩
      cases before with
      | nil =>
        obtain ⟨rfl, rfl⟩ := List.cons.inj heq
        exact .inl hx
      | cons y before =>
        obtain ⟨rfl, rfl⟩ := List.cons.inj heq
        obtain ⟨⟨z, hz⟩, hbefore⟩ := List.forall_mem_cons.mp hbefore
        exact .inr ⟨z, hz, bind_eq_error.mpr (.inl (ih.mpr ⟨before, x, after, rfl, hbefore, hx⟩))⟩

/-- What is read of each item, seen through two views that agree on it. -/
theorem map_eq_of_forall₂ {γ : Type} {R : α → β → Prop} {f : α → γ} {g : β → γ}
    (hstep : ∀ x y, R x y → g y = f x) :
    ∀ {xs : List α} {ys : List β}, List.Forall₂ R xs ys → ys.map g = xs.map f := by
  intro xs ys h
  induction h with
  | nil => rfl
  | cons hxy _ ih => rw [List.map_cons, List.map_cons, hstep _ _ hxy, ih]

/-- What is on the right stems from something on the left. -/
theorem exists_of_forall₂_right {R : α → β → Prop} {y : β} :
    ∀ {xs : List α} {ys : List β}, List.Forall₂ R xs ys → y ∈ ys → ∃ x ∈ xs, R x y := by
  intro xs ys h
  induction h with
  | nil => intro hy; exact absurd hy List.not_mem_nil
  | @cons x y' _ _ hxy _ ih =>
    intro hy
    rcases List.mem_cons.mp hy with rfl | hy
    · exact ⟨x, List.mem_cons_self, hxy⟩
    · obtain ⟨x', hx', hr⟩ := ih hy
      exact ⟨x', List.mem_cons_of_mem _ hx', hr⟩

/-- If each item has something that stems from it, so has the list. -/
theorem exists_forall₂ {R : α → β → Prop} :
    ∀ {xs : List α}, (∀ x ∈ xs, ∃ y, R x y) → ∃ ys, List.Forall₂ R xs ys := by
  intro xs
  induction xs with
  | nil => intro _; exact ⟨[], .nil⟩
  | cons x xs ih =>
    intro h
    obtain ⟨y, hy⟩ := h x List.mem_cons_self
    obtain ⟨ys, hys⟩ := ih fun x' hx' => h x' (List.mem_cons_of_mem _ hx')
    exact ⟨y :: ys, .cons hy hys⟩

/-! ## Members -/

namespace Json

variable {value found : Json} {key : String}

/-- An object stands for itself, even if it says nothing. -/
theorem orElse_object (members : List (String × Json)) :
    (object members).orElse (object []) = object members := by
  cases members <;> rfl

theorem member?_eq_ok {found : Option Json} :
    value.member? key = .ok found ↔ ∃ members, value = .object members ∧
    lookup? key members = found := by
  cases value <;> simp [Json.member?]

theorem member_eq_ok :
    value.member key = .ok found ↔ ∃ members, value = .object members ∧
    lookup? key members = some found := by
  cases value with
  | object members =>
    rw [Json.member]
    cases h : lookup? key members with
    | none => simp [h]
    | some other => simp [h]
  | null | bool _ | int _ | double _ | string _ | array _ => simp [Json.member]

end Json

/-! ## Writings -/

namespace Writing

/-- A writing in two steps comes to an end when both do, and leaves the files of both. -/
theorem bind_outcome_ok {first : Writing ε α} {next : α → Writing ε β} {b : β}
    (h : (first >>= next).outcome = .ok b) :
    ∃ a, first.outcome = .ok a ∧ (next a).outcome = .ok b ∧
      (first >>= next).files = first.files ++ (next a).files := by
  change (first.andThen next).outcome = .ok b at h
  change ∃ a, _ ∧ _ ∧ (first.andThen next).files = _
  unfold andThen at h ⊢
  split at h
  · rename_i a ha
    exact ⟨a, ha, h, rfl⟩
  · cases h

/-- Answering something leaves no more files. -/
theorem files_bind_pure (writing : Writing ε α) (answer : β) :
    (writing >>= fun _ => pure answer).files = writing.files := by
  change (writing.andThen fun _ => done answer).files = _
  unfold andThen
  split
  · exact List.append_nil _
  · rfl

/-- Going through a list comes to an end when every step does, and leaves the files of each. -/
theorem forEach_outcome_ok {step : α → Writing ε Unit} :
    ∀ {items : List α}, (forEach step items).outcome = .ok () →
      (∀ item ∈ items, (step item).outcome = .ok ()) ∧
        (forEach step items).files = items.flatMap fun item => (step item).files := by
  intro items
  induction items with
  | nil => intro _; exact ⟨by simp, rfl⟩
  | cons item rest ih =>
    intro h
    have h : (step item >>= fun _ => forEach step rest).outcome = .ok () := h
    obtain ⟨⟨⟩, hitem, hrest, hfiles⟩ := bind_outcome_ok h
    obtain ⟨hall, hrestFiles⟩ := ih hrest
    refine ⟨?_, ?_⟩
    · intro other hother
      rcases List.mem_cons.mp hother with rfl | hother
      · exact hitem
      · exact hall other hother
    · rw [List.flatMap_cons, ← hrestFiles]
      exact hfiles

/-- A step that leaves no file is followed by one that comes to an end
or leaves no file, or by none. -/
theorem ok_or_empty_bind {first : Writing ε α} {next : α → Writing ε Unit} (h : first.files = [])
    (hnext : ∀ a, (next a).outcome = .ok () ∨ (next a).files = []) :
    (first >>= next).outcome = .ok () ∨ (first >>= next).files = [] := by
  change (first.andThen next).outcome = _ ∨ (first.andThen next).files = _
  unfold andThen
  split
  · rename_i a _
    exact (hnext a).imp_right fun hempty => by rw [h, hempty, List.append_nil]
  · exact .inr h

/-- Going through a list leaves the files of the steps that came to an end, up to the first that
did not, if a step that fails leaves none. -/
theorem exists_prefix_forEach {step : α → Writing ε Unit} {items : List α}
    (h : ∀ item ∈ items, (step item).outcome = .ok () ∨ (step item).files = []) :
    ∃ finished, finished <+: items ∧ (∀ item ∈ finished, (step item).outcome = .ok ()) ∧
      (forEach step items).files = finished.flatMap fun item => (step item).files := by
  induction items with
  | nil => exact ⟨[], List.prefix_rfl, by simp, rfl⟩
  | cons item rest ih =>
    obtain ⟨finished, hprefix, hall, hfiles⟩ :=
      ih fun other hother => h other (List.mem_cons_of_mem _ hother)
    -- the run goes on behind an item that is done, and ends at one that fails
    cases houtcome : (step item).outcome with
    | ok =>
      have hstep : (forEach step (item :: rest)).files =
          (step item).files ++ (forEach step rest).files := by
        change ((step item).andThen _).files = _
        unfold andThen
        rw [houtcome]
      refine ⟨item :: finished, List.cons_prefix_cons.mpr ⟨rfl, hprefix⟩,
        List.forall_mem_cons.mpr ⟨houtcome, hall⟩, ?_⟩
      rw [hstep, hfiles, List.flatMap_cons]
    | error fault =>
      have hstep : (forEach step (item :: rest)).files = (step item).files := by
        change ((step item).andThen _).files = _
        unfold andThen
        rw [houtcome]
      have hnone : (step item).files = [] :=
        (h item List.mem_cons_self).resolve_left (by simp [houtcome])
      exact ⟨[], List.nil_prefix, by simp, hstep.trans hnone⟩

/-- What a writing in two steps leaves is left by one of them, though
it need not come to an end. -/
theorem mem_files_bind {first : Writing ε α} {next : α → Writing ε β} {file : ClientFile}
    (h : file ∈ (first >>= next).files) :
    file ∈ first.files ∨ ∃ a, first.outcome = .ok a ∧ file ∈ (next a).files := by
  change file ∈ (first.andThen next).files at h
  unfold andThen at h
  split at h
  · rename_i a ha
    exact (List.mem_append.mp h).imp_right fun h => ⟨a, ha, h⟩
  · exact .inl h

/-- What going through a list leaves is left by the step at some item. -/
theorem mem_files_forEach {step : α → Writing ε Unit} {file : ClientFile} :
    ∀ {items : List α}, file ∈ (forEach step items).files →
      ∃ item ∈ items, file ∈ (step item).files := by
  intro items
  induction items with
  | nil => intro h; exact absurd h List.not_mem_nil
  | cons item rest ih =>
    intro h
    have h : file ∈ (step item >>= fun _ => forEach step rest).files := h
    rcases mem_files_bind h with h | ⟨_, -, h⟩
    · exact ⟨item, List.mem_cons_self, h⟩
    · obtain ⟨other, hother, h⟩ := ih h
      exact ⟨other, List.mem_cons_of_mem _ hother, h⟩

end Writing

end ApiClient
