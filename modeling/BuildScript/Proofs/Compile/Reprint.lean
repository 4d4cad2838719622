import BuildScript.Proofs.Compile.Trace
import BuildScript.Proofs.Dockerfile.Directive
import BuildScript.Proofs.Dockerfile.LogicalText

/-!
# Build files in canonical form

A build file can be written again with one line for each instruction, behind the directive that chooses its
escape character. That is another text for the same instructions, and the script is the same one
(`compile_reprint`).
-/

namespace BuildScript

open LogicalLine (IsLogical texts)

/-! ## The script depends on logical texts only -/

theorem map_unnumbered_instructions (input : Text) :
    (instructions input).map Instruction.unnumbered =
      (texts (escapeOf input) input).map fun t => Instruction.ofLine ⟨0, t⟩ := by
  rw [instructions, texts, List.map_map, List.map_map]
  rfl

theorem compile_eq_of_texts {input other : Text} (hescape : escapeOf other = escapeOf input)
    (htexts : texts (escapeOf other) other = texts (escapeOf input) input) (o : Options)
    (files : FileView) : compile o files other = compile o files input := by
  have hinstructions : (instructions other).map Instruction.unnumbered =
      (instructions input).map Instruction.unnumbered := by
    rw [map_unnumbered_instructions, map_unnumbered_instructions, htexts]
  rw [compile_eq_scriptOf, compile_eq_scriptOf, ← scriptOf_unnumbered, ← scriptOf_unnumbered o (trace _ _ _),
    trace, trace, ← traceFrom_unnumbered, ← traceFrom_unnumbered, hinstructions, hescape]

/-! ## The canonical form -/

/-- The lines of the canonical form: the directive, and the text of each logical line. -/
def reprintLines (input : Text) : List Text :=
  escapeLine (escapeOf input) :: texts (escapeOf input) input

theorem escapeLine_spec {escape : Char} (h : escape = '\\' ∨ escape = '\x60') :
    LogicalLine.isKept (escapeLine escape) = false ∧ escapeLine escape ≠ [] ∧
      Text.IsTrimmed (escapeLine escape) ∧ '\n' ∉ escapeLine escape := by
  rcases h with rfl | rfl
  · exact ⟨by decide, by decide, Text.isTrimmed_iff.2 (by decide), by decide⟩
  · exact ⟨by decide, by decide, Text.isTrimmed_iff.2 (by decide), by decide⟩

/-- The texts that lines are written as: each ended by a line feed, or with line feeds between them. -/
def WrittenAs (ls : List Text) (t : Text) : Prop := t = Text.ofLines ls ∨ t = Text.join ['\n'] ls

theorem lines_of_writtenAs {input other : Text} (h : WrittenAs (reprintLines input) other) :
    Text.lines other = reprintLines input := by
  obtain ⟨-, hne, htrimmed, hfeed⟩ := escapeLine_spec (escapeOf_cases input)
  have hlogical : ∀ t ∈ texts (escapeOf input) input, IsLogical t := fun t ht =>
    LogicalLine.isLogical_of_mem_texts ht
  have hfeeds : ∀ line ∈ reprintLines input, '\n' ∉ line :=
    List.forall_mem_cons.2 ⟨hfeed, fun t ht => (hlogical t ht).noFeed⟩
  have htrims : ∀ line ∈ reprintLines input, Text.IsTrimmed line :=
    List.forall_mem_cons.2 ⟨htrimmed, fun t ht => (hlogical t ht).trimmed⟩
  rcases h with rfl | rfl
  · exact Text.lines_ofLines hfeeds htrims
  · apply Text.lines_join hfeeds htrims
    exact List.forall_mem_cons.2 ⟨hne, fun t ht => (hlogical t ht).ne_nil⟩

theorem escapeOf_of_writtenAs {input other : Text} (h : WrittenAs (reprintLines input) other) :
    escapeOf other = escapeOf input := by
  rw [escapeOf, lines_of_writtenAs h]
  exact escapeOfLines_escapeLine (escapeOf_cases input) _

theorem forall_getLast?_ne {input : Text}
    (hlast : ∀ t, (texts (escapeOf input) input).getLast? = some t → t.getLast? ≠ some (escapeOf input)) :
    ∀ t ∈ texts (escapeOf input) input, t.getLast? ≠ some (escapeOf input) := by
  intro t ht
  have hne := List.ne_nil_of_mem ht
  rw [← List.dropLast_append_getLast hne, List.mem_append, List.mem_singleton] at ht
  rcases ht with ht | rfl
  · exact LogicalLine.getLast?_ne_of_mem_dropLast_texts ht
  · exact hlast _ (List.getLast?_eq_some_getLast hne)

theorem texts_of_writtenAs {input other : Text}
    (hlast : ∀ t, (texts (escapeOf input) input).getLast? = some t → t.getLast? ≠ some (escapeOf input))
    (h : WrittenAs (reprintLines input) other) :
    texts (escapeOf input) other = texts (escapeOf input) input := by
  have hlogical : ∀ t ∈ texts (escapeOf input) input, IsLogical t := fun t ht =>
    LogicalLine.isLogical_of_mem_texts ht
  have hkept : (reprintLines input).filter LogicalLine.isKept = texts (escapeOf input) input := by
    obtain ⟨hdropped, -⟩ := escapeLine_spec (escapeOf_cases input)
    rw [reprintLines, List.filter_cons_of_neg (by simp [hdropped]), List.filter_eq_self]
    exact fun t ht => (hlogical t ht).isKept
  rw [LogicalLine.texts_eq_joinGroups, LogicalLine.map_fst_keptLines, lines_of_writtenAs h, hkept]
  exact LogicalLine.joinGroups_eq_self hlogical (forall_getLast?_ne hlast)

/-- The canonical form has the same escape character, the same logical texts and the same script, unless the
last text would go on. All texts stand on lines of their own as instructions do, and only the last one may
end in the escape character. -/
theorem compile_reprint (input : Text) :
    (∀ t ∈ texts (escapeOf input) input,
      t ≠ [] ∧ Text.trim t = t ∧ '\n' ∉ t ∧ t.head? ≠ some '#') ∧
    (∀ t ∈ (texts (escapeOf input) input).dropLast, t.getLast? ≠ some (escapeOf input)) ∧
    ((∀ t, (texts (escapeOf input) input).getLast? = some t →
        t.getLast? ≠ some (escapeOf input)) →
      ∀ other, WrittenAs (reprintLines input) other →
        escapeOf other = escapeOf input ∧
        texts (escapeOf other) other = texts (escapeOf input) input ∧
        ∀ o files, compile o files other = compile o files input) := by
  refine ⟨?_, ?_, ?_⟩
  · intro t ht
    have hlogical := LogicalLine.isLogical_of_mem_texts ht
    exact ⟨hlogical.ne_nil, hlogical.trimmed.trim_eq, hlogical.noFeed, hlogical.noComment⟩
  · intro t ht
    exact LogicalLine.getLast?_ne_of_mem_dropLast_texts ht
  · intro hlast other hother
    have hescape := escapeOf_of_writtenAs hother
    have htexts : texts (escapeOf other) other = texts (escapeOf input) input := by
      rw [hescape]
      exact texts_of_writtenAs hlast hother
    exact ⟨hescape, htexts, compile_eq_of_texts hescape htexts⟩

/-- Lines that go on after a comment. -/
theorem compile_reprint_joined :
    reprintLines "RUN a \\\n# note\n  b\nUSER c".toList =
      ["# escape=\\".toList, "RUN a b".toList, "USER c".toList] ∧
    ∀ o files, compile o files "# escape=\\\nRUN a b\nUSER c".toList =
      compile o files "RUN a \\\n# note\n  b\nUSER c".toList := by
  have hlines : reprintLines "RUN a \\\n# note\n  b\nUSER c".toList =
      ["# escape=\\".toList, "RUN a b".toList, "USER c".toList] := by decide
  have hlast : ∀ t, (texts (escapeOf "RUN a \\\n# note\n  b\nUSER c".toList)
      "RUN a \\\n# note\n  b\nUSER c".toList).getLast? = some t →
        t.getLast? ≠ some (escapeOf "RUN a \\\n# note\n  b\nUSER c".toList) := by decide
  have hwritten : WrittenAs (reprintLines "RUN a \\\n# note\n  b\nUSER c".toList)
      "# escape=\\\nRUN a b\nUSER c".toList := .inr (by decide)
  obtain ⟨-, -, hscript⟩ := (compile_reprint "RUN a \\\n# note\n  b\nUSER c".toList).2.2 hlast _ hwritten
  exact ⟨hlines, hscript⟩

end BuildScript
