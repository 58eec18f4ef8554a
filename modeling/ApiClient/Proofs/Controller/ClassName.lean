import ApiClient.Proofs.Client.Paths
import ApiClient.Proofs.TypeScript.Bindable

/-!
# Names of service classes

The class of a controller has the name of the controller in front of a fixed word. That name is
made of letters and digits, and what stands in front is the first of them that a tag or a
segment has. No name begins with a digit, so where that is one the class cannot be declared.
-/

namespace ApiClient.Controller

open TypeScript (IsBindable)

/-- The tags of an operation as a document has them. -/
def tagsValue (tags : Option (List String)) : Json :=
  tags.elim .null fun tags => .array (tags.map .string)

/-- The texts that a controller can be named by, in order: the first tag, and the segments of
the path that are no placeholders. -/
def sources (tags : Option (List String)) (url : String) : List (List Char) :=
  ((tags.getD []).take 1).map String.toList ++ (Url.segments url).filter (·.head? != some '{')

/-- The letter or digit that comes to stand in front, unless there is none. -/
def leading? (tags : Option (List String)) (url : String) : Option Char :=
  (sources tags url).findSome? (·.find? Char.isAlphanum)

/-- The first of some texts that gives a name. -/
def nameOfSources (texts : List (List Char)) : String :=
  ((texts.map fun text => Text.pascalCase (String.ofList text)).find? (!·.isEmpty)).getD
    defaultName

theorem nameOfSources_cons (text : List Char) (texts : List (List Char)) :
    nameOfSources (text :: texts) =
    if (Text.pascalCase (String.ofList text)).isEmpty then nameOfSources texts
    else Text.pascalCase (String.ofList text) := by
  rw [nameOfSources, List.map_cons, List.find?_cons]
  cases (Text.pascalCase (String.ofList text)).isEmpty <;> rfl

theorem nameOf_eq (tags : Option (List String)) (url : String) :
    nameOf (tagsValue tags) url = .ok (nameOfSources (sources tags url)) := by
  cases tags with
  | none => rfl
  | some tags =>
    cases tags with
    | nil => rfl
    | cons tag rest =>
      have hsources : sources (some (tag :: rest)) url = tag.toList :: sources none url := rfl
      rw [hsources, nameOfSources_cons, String.ofList_toList]
      rfl

/-- The name begins with the first letter or digit of its texts, as a capital. -/
theorem head?_nameOfSources (texts : List (List Char)) : (nameOfSources texts).toList.head? =
    some ((texts.findSome? (·.find? Char.isAlphanum)).elim 'A' Char.toUpper) := by
  induction texts with
  | nil => rfl
  | cons text texts ih =>
    have hhead := Text.head?_pascalCase (String.ofList text)
    rw [String.toList_ofList] at hhead
    rw [nameOfSources_cons, List.findSome?_cons]
    -- a source without a letter or digit gives no name, and the next one is asked
    cases hfirst : text.find? Char.isAlphanum with
    | none =>
      rw [hfirst, Option.map_none, List.head?_eq_none_iff] at hhead
      rw [if_pos (by rw [String.toList_eq_nil_iff.mp hhead]; rfl), ih]
    | some c =>
      have hsome : (Text.pascalCase (String.ofList text)).isEmpty ≠ true := by
        intro hempty
        rw [String.isEmpty_iff.mp hempty, hfirst] at hhead
        cases hhead
      rw [if_neg hsome, hhead, hfirst]
      rfl

/-- With the word for services behind it a name can be declared just if it begins with a letter. -/
theorem isBindable_append_iff {name : String} {first : Char} (hword : IsWord name)
    (hfirst : name.toList.head? = some first) : IsBindable (name ++ "Service") ↔
      first.isAlpha = true := by
  obtain ⟨rest, hname⟩ := List.head?_eq_some_iff.mp hfirst
  have hletters : "Service".toList.all Char.isAlphanum = true := by decide
  have htext : (name ++ "Service").toList = first :: (rest ++ "Service".toList) := by
    rw [String.toList_append, hname, List.cons_append]
  have hwhole : TypeScript.isWholeName (name ++ "Service").toList = first.isAlpha := by
    have halphanum := hword.2
    rw [hname, List.forall_mem_cons] at halphanum
    have hparts : (rest ++ "Service".toList).all TypeScript.isNamePart = true := by
      refine List.all_eq_true.mpr fun c hc => TypeScript.isNamePart_of_isAlphanum ?_
      exact (List.mem_append.mp hc).elim (halphanum.2 c) (List.all_eq_true.mp hletters c)
    rw [htext, TypeScript.isWholeName, TypeScript.isNameStart_of_isAlphanum halphanum.1, hparts,
      Bool.and_true]
  -- no reserved word has a capital
  have hfree : name ++ "Service" ∉ TypeScript.keywords ++ TypeScript.strictWords := by
    have hnone : (TypeScript.keywords ++ TypeScript.strictWords).any (·.toList.contains 'S') =
        false := by decide
    refine fun hmem => List.any_eq_false.mp hnone _ hmem ?_
    rw [String.toList_append]
    simp
  exact ⟨fun h => hwhole ▸ h.whole, fun h => ⟨hwhole.trans h, hfree⟩⟩

/-- **How a service class can be named.** The name of a controller is made of letters and
digits, whatever its tags and its path are. It begins with a letter, and with the word for
services behind it can be declared, just if the letter or digit that comes to stand in front
is a letter, or there is none. -/
theorem isBindable_iff_of_nameOf (tags : Option (List String)) (url : String) :
    ∃ name, nameOf (tagsValue tags) url = .ok name ∧ IsWord name ∧
      ((∃ c, name.toList.head? = some c ∧ c.isAlpha = true) ↔
        ∀ c ∈ leading? tags url, c.isAlpha = true) ∧
      (IsBindable (name ++ "Service") ↔ ∀ c ∈ leading? tags url, c.isAlpha = true) := by
  have hword := isWord_of_nameOf (nameOf_eq tags url)
  have hfirst := head?_nameOfSources (sources tags url)
  have hletter : ((leading? tags url).elim 'A' Char.toUpper).isAlpha = true ↔
      ∀ c ∈ leading? tags url, c.isAlpha = true := by
    cases leading? tags url with
    | none => simp
    | some c =>
      rw [Option.elim_some, Text.isAlpha_toUpper]
      simp
  refine ⟨_, nameOf_eq tags url, hword, ?_, (isBindable_append_iff hword hfirst).trans hletter⟩
  rw [← hletter, hfirst]
  simp [leading?]

/-- A tag that begins with a digit names a class that cannot be declared. -/
theorem not_isBindable_twoFactor : nameOf (tagsValue (some ["2fa"])) "/login" = .ok "2fa" ∧
    ¬ IsBindable ("2fa" ++ "Service") := by
  have hname : nameOf (tagsValue (some ["2fa"])) "/login" = .ok "2fa" := by decide +kernel
  obtain ⟨name, hname', -, -, hbindable⟩ := isBindable_iff_of_nameOf (some ["2fa"]) "/login"
  obtain rfl := Except.ok.inj (hname.symm.trans hname')
  exact ⟨hname, fun h => absurd (hbindable.mp h '2' rfl) (by decide)⟩

end ApiClient.Controller
