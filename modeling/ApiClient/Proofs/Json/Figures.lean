import ApiClient.Proofs.Json.Doubles
import ApiClient.Proofs.Json.Plain

/-!
# Figures

Whatever its digits are, the text of a finite number keeps to the characters of numerals, and a
digit is among them. That holds of all doubles, also of those that no text is read as.
-/

namespace ApiClient.Json

open Binary64

variable {text rest chars : List Char}

/-- A text of figures: it has the characters of numerals, and a digit is among them. -/
def IsFigures (text : List Char) : Prop := text.all isPlain = true ∧ text.any Char.isDigit = true

theorem isFigures_of_digits (h : Digits text) : IsFigures text := by
  obtain ⟨c, hc⟩ := List.exists_mem_of_ne_nil text h.ne_nil
  exact ⟨List.all_eq_true.mpr fun d hd => isPlain_of_isDigit (h.digit d hd),
    List.any_eq_true.mpr ⟨c, hc, h.digit c hc⟩⟩

theorem IsFigures.append (h : IsFigures text) (hrest : rest.all isPlain = true) :
    IsFigures (text ++ rest) :=
  ⟨by rw [List.all_append, h.1, hrest]; rfl, by rw [List.any_append, h.2, Bool.true_or]⟩

theorem IsFigures.prepend (h : IsFigures rest) (htext : text.all isPlain = true) :
    IsFigures (text ++ rest) :=
  ⟨by rw [List.all_append, h.1, htext]; rfl, by rw [List.any_append, h.2, Bool.or_true]⟩

theorem isPlain_zeros (count : Nat) : (List.replicate count '0').all isPlain = true :=
  List.all_eq_true.mpr fun c hc => isPlain_of_isDigit (digit_of_mem_zeros c hc)

theorem isFigures_plainText (h : Digits chars) (magnitude : Int) :
    IsFigures (plainText chars magnitude).toList := by
  have hchars := isFigures_of_digits h
  unfold plainText
  dsimp only
  split
  · simp only [String.toList_append, toList_zeros, String.toList_ofList]
    exact hchars.prepend (by rw [List.all_append, isPlain_zeros]; decide)
  split
  · simp only [String.toList_append, toList_zeros, String.toList_ofList]
    exact (hchars.append (isPlain_zeros _)).append (by decide)
  · have hfront : Digits (chars.take (magnitude.toNat + 1)) :=
      ⟨fun hnil => h.ne_nil ((List.take_eq_nil_iff.mp hnil).resolve_left (by omega)),
        fun c hc => h.digit c (List.mem_of_mem_take hc)⟩
    simp only [String.toList_append, String.toList_ofList]
    refine ((isFigures_of_digits hfront).append (by decide)).append ?_
    exact List.all_eq_true.mpr fun c hc => isPlain_of_isDigit (h.digit c (List.mem_of_mem_drop hc))

theorem isFigures_exponentText (power : Int) : IsFigures (exponentText power).toList := by
  have hdigits := isFigures_of_digits (digits_toDigits power.natAbs)
  rw [DecimalParts.toList_exponentText, powered]
  have hmark : ['e', if decide (power < 0) = true then '-' else '+'].all isPlain = true := by
    cases decide (power < 0) <;> decide
  exact (hdigits.prepend (isPlain_zeros _)).prepend hmark

theorem isFigures_scientificText (h : Digits chars) (magnitude : Int) :
    IsFigures (scientificText chars magnitude).toList := by
  have hplain : ∀ c ∈ chars, isPlain c = true := fun c hc => isPlain_of_isDigit (h.digit c hc)
  unfold scientificText
  dsimp only
  rw [String.toList_append, String.toList_append, List.append_assoc]
  refine ((isFigures_exponentText magnitude).prepend ?_).prepend ?_
  · split
    · rfl
    · simp only [String.toList_append, String.toList_ofList, List.all_append, Bool.and_eq_true]
      exact ⟨by decide, List.all_eq_true.mpr fun c hc => hplain c (List.mem_of_mem_drop hc)⟩
  · rw [String.toList_ofList]
    exact List.all_eq_true.mpr fun c hc => hplain c (List.mem_of_mem_take hc)

theorem isFigures_finite (words : SpecialWords) (negative : Bool) (mantissa : Nat)
    (exponent : Int) : IsFigures ((finite negative mantissa exponent).text words).toList := by
  rw [Binary64.text, toList_sign]
  refine IsFigures.prepend ?_ (by cases negative <;> decide)
  split
  · exact ⟨by decide, by decide⟩
  · unfold positiveText
    dsimp only
    split
    · exact isFigures_plainText (digits_toDigits _) _
    · exact isFigures_scientificText (digits_toDigits _) _

theorem isFigures_int (value : Int) : IsFigures (toString value).toList := by
  rw [toList_toString_int]
  refine ((isFigures_of_digits (digits_toDigits _)).append rfl).prepend ?_
  cases decide (value < 0) <;> decide

end ApiClient.Json
