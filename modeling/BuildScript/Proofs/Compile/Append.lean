import BuildScript.Proofs.Compile.Blocks
import BuildScript.Proofs.Dockerfile.Directive
import BuildScript.Proofs.Dockerfile.Groups

/-!
# Build files that go on

What is written after the lines of a build file does not change what those lines are compiled to, unless
the last of them goes on (`compile_append`): there is the same escape character, the logical lines come one
after the other, and so do the statements. Of the prologue only the line that names the build context is
decided by all instructions.
-/

namespace BuildScript

/-! ## Logical lines one after the other -/

namespace LogicalLine

/-- A logical line `count` physical lines further down. -/
def shift (count : Nat) (l : LogicalLine) : LogicalLine := { l with line := l.line + count }

/-- A numbered physical line `count` lines further down. -/
def shiftRow (count : Nat) : Text × Nat → Text × Nat := Prod.map id (· + count)

variable {escape : Char}

theorem keptLines_append {a : Text} (h : a.getLast? = some '\n') (b : Text) :
    keptLines (a ++ b) = keptLines a ++ (keptLines b).map (shiftRow (Text.lines a).length) := by
  have hrows : (Text.lines b).zipIdx (1 + (Text.lines a).length) =
      ((Text.lines b).zipIdx 1).map (shiftRow (Text.lines a).length) := by
    rw [Nat.add_comm, ← List.map_snd_add_zipIdx_eq_zipIdx]
    rfl
  have hkept : ((fun row : Text × Nat => isKept row.1) ∘ shiftRow (Text.lines a).length) =
      fun row => isKept row.1 := rfl
  rw [keptLines, Text.lines_append h, List.zipIdx_append, List.filter_append, hrows, List.filter_map, hkept]
  rfl

theorem draft?_map_shiftRow (escape : Char) (count : Nat) (group : List (Text × Nat)) :
    draft? escape (group.map (shiftRow count)) = (draft? escape group).map (shift count) := by
  have htexts : (group.map (shiftRow count)).map Prod.fst = group.map Prod.fst := by
    rw [List.map_map]
    rfl
  rw [draft?, htexts, List.head?_map, draft?, Option.map_map, Option.map_map]
  rfl

theorem ofGroup?_map_shiftRow (escape : Char) (count : Nat) (group : List (Text × Nat)) :
    ofGroup? escape (group.map (shiftRow count)) = (ofGroup? escape group).map (shift count) := by
  rw [ofGroup?, draft?_map_shiftRow, ofGroup?, Option.filter_map]
  rfl

/-- What no line goes on from is followed by logical lines of its own. -/
theorem ofText_append {a : Text} (hfeed : a.getLast? = some '\n')
    (hlast : ∀ line ∈ ((Text.lines a).filter isKept).getLast?, isMarked escape line = false) (b : Text) :
    ofText escape (a ++ b) =
      ofText escape a ++ (ofText escape b).map (shift (Text.lines a).length) := by
  have hclosed : ∀ row ∈ (keptLines a).getLast?, isMarked escape row.1 = false := by
    intro row hrow
    apply hlast
    rw [← map_fst_keptLines, List.getLast?_map]
    exact Option.mem_map_of_mem Prod.fst hrow
  have hmarked : (fun row => isMarked escape (shiftRow (Text.lines a).length row).1) =
      fun row => isMarked escape row.1 := rfl
  have hgroup : (ofGroup? escape ∘ List.map (shiftRow (Text.lines a).length)) =
      fun group => (ofGroup? escape group).map (shift (Text.lines a).length) :=
    funext (ofGroup?_map_shiftRow escape _)
  rw [ofText_eq_filterMap, keptLines_append hfeed, groups_append hclosed, groups_map, hmarked,
    List.filterMap_append, List.filterMap_map, hgroup, ← List.map_filterMap, ← ofText_eq_filterMap,
    ← ofText_eq_filterMap]

end LogicalLine

/-! ## Scripts of more steps -/

theorem prologue_eq_append (o : Options) (usesContext : Bool) :
    (prologue o usesContext).prologue =
      (prologue o false).prologue ++ if usesContext then [contextLine] else [] := by
  cases usesContext with
  | false => exact (List.append_nil _).symm
  | true => rfl

/-- Whether the build context is referred to is told by the state after the steps. -/
theorem prologue_scriptOf_eq (o : Options) (steps : List Step) (escape : Char) :
    (scriptOf o steps).prologue =
      (prologue o (stateAfter (.initial escape) steps).usesContext).prologue := by
  rw [prologue_scriptOf, stateAfter]
  cases steps.getLast? with
  | none => rfl
  | some last => rfl

theorem stateAfter_append (s : State) (steps more : List Step) :
    stateAfter s (steps ++ more) = stateAfter (stateAfter s steps) more := by
  induction steps generalizing s with
  | nil => rfl
  | cons step rest ih => rw [List.cons_append, stateAfter_cons, stateAfter_cons, ih]

/-- What more instructions do to a script: statements are added at its end, and of the prologue only the line
of the build context. -/
structure Script.Continues (before after : Script) : Prop where
  statements : before.statements <+: after.statements
  skipped : before.skipped ≤ after.skipped
  prologue : after.prologue = before.prologue ∨ after.prologue = before.prologue ++ [contextLine]

theorem continues_scriptOf (o : Options) (files : FileView) (escape : Char)
    (is js : List Instruction) :
    (scriptOf o (traceFrom o files (.initial escape) is)).Continues
      (scriptOf o (traceFrom o files (.initial escape) (is ++ js))) := by
  rw [traceFrom_append]
  generalize traceFrom o files (.initial escape) is = steps
  refine ⟨?_, ?_, ?_⟩
  · rw [statements_scriptOf, statements_scriptOf, List.flatMap_append]
    exact List.prefix_append _ _
  · rw [skipped_scriptOf, skipped_scriptOf, List.filter_append, List.length_append]
    exact Nat.le_add_right _ _
  · have hextends : (stateAfter (.initial escape) steps).Extends
        (stateAfter (stateAfter (.initial escape) steps)
          (traceFrom o files (stateAfter (.initial escape) steps) js)) := by
      apply extends_stateAfter
      exact (List.append_nil _).symm
    rw [prologue_scriptOf_eq o _ escape, prologue_scriptOf_eq o _ escape, stateAfter_append,
      prologue_eq_append o (State.usesContext _), prologue_eq_append o (stateAfter _ steps).usesContext]
    cases hbefore : (stateAfter (.initial escape) steps).usesContext with
    | true =>
      rw [hextends.usesContext hbefore]
      exact .inl rfl
    | false =>
      cases (stateAfter (stateAfter (.initial escape) steps) _).usesContext with
      | true => exact .inr (by simp)
      | false => exact .inl rfl

/-! ## Texts one after the other -/

/-- What follows whole lines that choose the escape character and leave no instruction open does not change
what comes before. -/
theorem compile_append {a : Text} (hfeed : a.getLast? = some '\n')
    (hline : ∃ line ∈ Text.lines a, ¬IsDirective line)
    (hlast : ∀ line ∈ ((Text.lines a).filter LogicalLine.isKept).getLast?,
      LogicalLine.isMarked (escapeOf a) line = false) (b : Text) :
    escapeOf (a ++ b) = escapeOf a ∧
    LogicalLine.ofText (escapeOf (a ++ b)) (a ++ b) =
      LogicalLine.ofText (escapeOf a) a ++
        (LogicalLine.ofText (escapeOf a) b).map (LogicalLine.shift (Text.lines a).length) ∧
    ∀ o files, (compile o files a).Continues (compile o files (a ++ b)) := by
  have hescape : escapeOf (a ++ b) = escapeOf a := by
    rw [escapeOf, Text.lines_append hfeed, escapeOfLines_append hline, escapeOf]
  have hlines := LogicalLine.ofText_append hfeed hlast b
  refine ⟨hescape, ?_, ?_⟩
  · rw [hescape, hlines]
  · intro o files
    rw [compile_eq_scriptOf, compile_eq_scriptOf, trace, trace, instructions, instructions, hescape, hlines,
      List.map_append]
    exact continues_scriptOf o files _ _ _

/-- The first instruction that refers to the build context. -/
theorem compile_append_context :
    (compile {} (fun _ => none) "# note\nRUN a\n".toList).Continues
      (compile {} (fun _ => none) ("# note\nRUN a\n".toList ++ "COPY b /c\n".toList)) ∧
    (compile {} (fun _ => none) ("# note\nRUN a\n".toList ++ "COPY b /c\n".toList)).prologue =
      (compile {} (fun _ => none) "# note\nRUN a\n".toList).prologue ++ [contextLine] := by
  have hline : ∃ line ∈ Text.lines "# note\nRUN a\n".toList, ¬IsDirective line := by
    refine ⟨"RUN a".toList, by decide, ?_⟩
    exact directive?_eq_none_iff.1 (by decide)
  have hlast : ∀ line ∈ ((Text.lines "# note\nRUN a\n".toList).filter LogicalLine.isKept).getLast?,
      LogicalLine.isMarked (escapeOf "# note\nRUN a\n".toList) line = false := by decide
  obtain ⟨-, -, hcontinues⟩ := compile_append rfl hline hlast "COPY b /c\n".toList
  exact ⟨hcontinues {} fun _ => none, by decide +kernel⟩

end BuildScript
