import ApiClient.FileSystem.Path
import ApiClient.Proofs.Text.Occurrence
import Mathlib.Data.List.Basic
import Mathlib.Data.List.TakeWhile

/-!
# Going on from the text of a path

A name is put at the end of a path while the path is still text, and what comes about is read as
a path again. A slash that is missing is put in, and one that is there is not doubled, so the
name becomes the last name of the path in either case, and the root stays what it was.
-/

namespace ApiClient.FilePath

/-- The root of a text is told from the slashes in front of it. -/
theorem rootOf_append {text rest : List Char}
    (h : rest.head? ≠ some '/' ∨ ∃ c ∈ text, c ≠ '/') : rootOf (text ++ rest) = rootOf text := by
  have hfront : (text ++ rest).takeWhile (· == '/') = text.takeWhile (· == '/') := by
    rw [List.takeWhile_append]
    split
    · rename_i hall
      have htext : text.takeWhile (· == '/') = text :=
        (List.takeWhile_prefix _).eq_of_length hall
      -- the run of slashes is the whole text, so it must end with it
      rcases h with hrest | ⟨c, hc, hne⟩
      · cases rest with
        | nil => rw [htext, List.takeWhile_nil, List.append_nil]
        | cons c rest =>
          have hc : (c == '/') = false := beq_false_of_ne fun he => hrest (he ▸ rfl)
          rw [htext, List.takeWhile_cons, hc, if_neg Bool.false_ne_true, List.append_nil]
      · exact absurd (beq_iff_eq.mp (List.takeWhile_eq_self_iff.mp htext c hc)) hne
    · rfl
  unfold rootOf
  rw [hfront]

/-- **A name that is put at the end of a text is the last name of the path.** -/
theorem ofString_extend {name : String} (hne : name ≠ "") (hdot : name ≠ ".")
    (hslash : '/' ∉ name.toList) (text : String) :
    ofString (extend text name) = (ofString text).below [name] := by
  have hsplit := List.splitOn_eq_singleton hslash
  have hhead : name.toList.head? ≠ some '/' := fun h => hslash (List.mem_of_head? h)
  have hkept : (!name.isEmpty && name != ".") = true := by simp [hne, hdot]
  unfold extend
  split
  · rename_i hlast
    -- the text is empty or ends in a slash
    obtain hnil | ⟨front, hfront⟩ : text.toList = [] ∨ ∃ front, text.toList = front ++ ['/'] := by
      rcases List.eq_nil_or_concat' text.toList with h | ⟨front, c, h⟩
      · exact .inl h
      · rw [h, List.getLast?_concat] at hlast
        simp only [Option.all_some, beq_iff_eq] at hlast
        exact .inr ⟨front, hlast ▸ h⟩
    · unfold ofString below
      rw [String.toList_append, rootOf_append (.inl hhead), hnil, List.nil_append, hsplit]
      simp [hkept, List.splitOn]
    · unfold ofString below
      rw [String.toList_append, rootOf_append (.inl hhead), hfront, List.append_assoc,
        List.singleton_append, List.splitOn_append_cons_self,
        List.splitOn_append_cons_self, hsplit]
      simp [hkept, List.splitOn]
  · rename_i hlast
    obtain ⟨c, hc, hother⟩ : ∃ c ∈ text.toList, c ≠ '/' := by
      simp only [Option.all_eq_true, beq_iff_eq, not_forall] at hlast
      obtain ⟨c, hc, hother⟩ := hlast
      exact ⟨c, List.mem_of_getLast? hc, hother⟩
    unfold ofString below
    rw [String.toList_append, String.toList_append, List.append_assoc,
      rootOf_append (.inr ⟨c, hc, hother⟩), show "/".toList ++ name.toList =
      '/' :: name.toList from rfl, List.splitOn_append_cons_self, hsplit]
    simp [hkept]

/-- The parent of a path that goes on through names goes on through all but the last of them. -/
theorem parent_below {names : List String} (h : names ≠ []) (path : FilePath) :
    (path.below names).parent = path.below names.dropLast := by
  unfold below parent
  rw [List.dropLast_append_of_ne_nil h]

end ApiClient.FilePath
