/-!
# Occurrences of one text in another

Searching for a text and replacing it, from the left and without overlaps.
-/

namespace ApiClient.Text

/-- What follows `word` at the front of a text. -/
def after? : List Char → List Char → Option (List Char)
  | [], text => some text
  | _, [] => none
  | w :: word, c :: text => if w = c then after? word text else none

theorem length_of_after? {word text rest : List Char} (h : after? word text = some rest) :
    rest.length + word.length = text.length := by
  fun_induction after? word text with
  | case1 text => simp_all
  | case2 => simp at h
  | case3 w word text ih => simp [← ih h, Nat.add_assoc]
  | case4 => simp at h

/-- Whether `pattern` stands somewhere in the text. -/
def occursIn (pattern : List Char) : List Char → Bool
  | [] => pattern.isEmpty
  | c :: rest => pattern.isPrefixOf (c :: rest) || occursIn pattern rest

/--
Replaces the occurrences of `pattern` that start after the next `skip` characters; those still
belong to the occurrence replaced last and are dropped.
-/
def replaceAfter (pattern replacement : List Char) : Nat → List Char → List Char
  | _, [] => []
  | skip + 1, _ :: rest => replaceAfter pattern replacement skip rest
  | 0, c :: rest =>
    if pattern.isPrefixOf (c :: rest) then
      replacement ++ replaceAfter pattern replacement (pattern.length - 1) rest
    else c :: replaceAfter pattern replacement 0 rest

/-- Replaces every occurrence of `pattern`, leftmost first. The empty pattern occurs nowhere. -/
def replaceAll (pattern replacement text : List Char) : List Char :=
  if pattern.isEmpty then text else replaceAfter pattern replacement 0 text

theorem replaceAll_nil (pattern replacement : List Char) :
    replaceAll pattern replacement [] = [] := by
  cases pattern <;> rfl

/-- Whether `pattern` stands somewhere in `text`. -/
def contains (text pattern : String) : Bool :=
  occursIn pattern.toList text.toList

end ApiClient.Text
