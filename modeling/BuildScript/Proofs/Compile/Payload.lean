import BuildScript.Proofs.Bytes.Base64
import BuildScript.Proofs.Bytes.Gzip
import BuildScript.Proofs.Compile.Sources

/-!
# Files in a script

The contents of an embedded file stand between two lines. The one that ends them is not among the lines of the
contents, whatever the file holds and however it was packed (`isPayload`), so a shell that takes the lines up to
the first one that ends a file takes those of this file (`cutAtEnd_append`), and these stand for its bytes
(`embeddedBytes?_embedBody`). All that follows is read as it was written (`framed_embedded`).

Of packing, two things are relied on: the packed bytes are never none, and unpacking them gives the bytes of the
file.
-/

namespace BuildScript

/-- Packed bytes as lines of base 64. -/
def payload (packed : Bytes) : List Text := chunks 75 (Base64.encode packed)

/-- Whether lines can be the contents of an embedded file. -/
structure IsPayload (body : List Text) : Prop where
  ne_nil : body ≠ []
  noEnd : embedEnd ∉ body
  full : ∀ line ∈ body.dropLast, line.length = 76
  last : ∀ line ∈ body.getLast?, 1 ≤ line.length ∧ line.length ≤ 76

/-- Cuts lines at the first one that ends an embedded file. -/
def cutAtEnd : List Text → Option (List Text × List Text)
  | [] => none
  | line :: rest =>
    if line = embedEnd then some ([], rest)
    else (cutAtEnd rest).map fun cut => (line :: cut.1, cut.2)

theorem cutAtEnd_append {body : List Text} (h : embedEnd ∉ body) (after : List Text) :
    cutAtEnd (body ++ embedEnd :: after) = some (body, after) := by
  induction body with
  | nil => rfl
  | cons line rest ih =>
    rw [List.mem_cons, not_or] at h
    rw [List.cons_append, cutAtEnd, if_neg (Ne.symm h.1), ih h.2]
    rfl

/-! ## Contents -/

/-- The underscore of the line that ends an embedded file does not stand in base 64. -/
theorem not_isDigit_underscore : ¬Base64.IsDigit '_' := by
  rintro (h | ⟨n, h⟩)
  · cases h
  · cases h

theorem isPayload {packed : Bytes} (h : packed ≠ []) : IsPayload (payload packed) where
  ne_nil := chunks_ne_nil (Base64.encode_ne_nil h)
  noEnd := by
    intro hend
    have hmem : '_' ∈ (payload packed).flatten := List.mem_flatten.2 ⟨embedEnd, hend, by decide⟩
    rw [payload, flatten_chunks] at hmem
    exact not_isDigit_underscore (Base64.mem_encode hmem)
  full _ := length_of_mem_dropLast_chunks
  last line hline := by
    obtain ⟨hne, hlength⟩ := length_le_of_mem_chunks (List.mem_of_getLast? hline)
    exact ⟨List.length_pos_of_ne_nil hne, hlength⟩

theorem decode?_payload (packed : Bytes) : Base64.decode? (payload packed).flatten = some packed := by
  rw [payload, flatten_chunks, Base64.decode?_encode]

section

variable {pack : Bytes → Bytes} {unpack? : Bytes → Option Bytes}

theorem embedBody_eq (pack : Bytes → Bytes) (bytes : Bytes) : embedBody pack bytes = payload (pack bytes) := rfl

/-- The lines of an embedded file hold its bytes. -/
theorem embeddedBytes?_embedBody (hunpack : ∀ bytes, unpack? (pack bytes) = some bytes) (bytes : Bytes) :
    embeddedBytes? (embedBody pack bytes) unpack? = some bytes := by
  rw [embeddedBytes?, embedBody_eq, decode?_payload]
  exact hunpack bytes

theorem isPayload_embedBody (hpack : ∀ bytes, pack bytes ≠ []) (bytes : Bytes) :
    IsPayload (embedBody pack bytes) := by
  rw [embedBody_eq]
  exact isPayload (hpack bytes)

end

/-! ## Files among other lines -/

/-- The lines of a delivery behind its files. -/
def Delivery.ending (d : Delivery) : List Text := if d.changes = [] then [] else [d.changes.text]

variable {o : Options} {files : FileView} {input : Text} {before after : List Step} {step : Step}

theorem lines_compile_of_trace_eq (h : trace o files input = before ++ step :: after) :
    (compile o files input).lines = (compile o files input).prologue ++
      (before.flatMap Step.statements ++ (step.statements ++ after.flatMap Step.statements)) := by
  rw [Script.lines, compile_eq_scriptOf, statements_scriptOf, h, List.flatMap_append, List.flatMap_cons]

theorem Delivery.Layout.lines_eq {d : Delivery} {i : Instruction} (l : d.Layout o files i)
    {earlier later : List (List Text)} {file : List Text} (h : l.written = earlier ++ file :: later) :
    l.lines = l.work.text :: earlier.flatten ++ (file ++ (later.flatten ++ d.ending)) := by
  rw [Layout.lines, if_neg (by simp [h]), h, ending]
  simp

end BuildScript
