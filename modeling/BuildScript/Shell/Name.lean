import BuildScript.Text.Basic

/-!
# Variable names

A name begins with an ASCII letter or an underscore and goes on with letters, digits and underscores. The
shell and the build file have the same names.
-/

namespace BuildScript

/-- Whether a character may begin a variable name. -/
def isNameStart (c : Char) : Bool := c.isAlpha || c == '_'

/-- Whether a character may stand in a variable name. -/
def isNameChar (c : Char) : Bool := c.isAlphanum || c == '_'

/-- Whether a text is a variable name. -/
def isName : Text → Bool
  | [] => false
  | c :: rest => isNameStart c && rest.all isNameChar

theorem isNameChar_of_isNameStart {c : Char} (h : isNameStart c = true) : isNameChar c = true := by
  simp only [isNameStart, isNameChar, Char.isAlphanum, Bool.or_eq_true] at h ⊢
  exact h.imp_left .inl

theorem isNameChar_of_mem_isName {t : Text} (h : isName t = true) {c : Char} (hc : c ∈ t) :
    isNameChar c = true := by
  cases t with
  | nil => cases h
  | cons d rest =>
    simp only [isName, Bool.and_eq_true, List.all_eq_true] at h
    rcases List.mem_cons.1 hc with rfl | hc
    · exact isNameChar_of_isNameStart h.1
    · exact h.2 c hc

end BuildScript
