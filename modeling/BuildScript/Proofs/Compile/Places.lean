import BuildScript.Proofs.Compile.Reachable

/-!
# Places that a script names

`WORKDIR`, `VOLUME`, `COPY` and `ADD` make directories, enter them and write to them. In the words of their
lines each of these places starts at the root (`State.Reachable.wellFormed_and_arePlaced`), so it is never
taken for an option, and it is the same place wherever the script is by then. The directory of a destination
with references is not known before the script runs; it is told by a command, whose own operand starts at the
root.
-/

namespace BuildScript

open Posix (Operand Statement)
open Posix.Command (fixed makeDirectory copy copies fetch unpack change)

/-- Whether a word of a script starts with a slash, which may be quoted. -/
def Shell.IsRooted (t : Text) : Prop := ∃ rest, t = '/' :: rest ∨ t = '\'' :: '/' :: rest

/-- Whether an operand is a path from the root, or the directory of one, which a command tells. -/
def Posix.Operand.IsRooted : Operand → Prop
  | .parent path => Shell.IsRooted path.toShell
  | operand => Shell.IsRooted operand.text

/-- The commands that make, enter or write to places, if these are told from the root. -/
inductive Posix.Command.IsPlaced : Posix.Command → Prop
  | make {dirs : List Operand} (h : ∀ dir ∈ dirs, dir.IsRooted) :
    IsPlaced (fixed ["mkdir", "-p"] ++ dirs)
  | enter {dir : Word} (h : Shell.IsRooted dir.toShell) : IsPlaced (fixed ["cd"] ++ [.word dir])
  | copy {dest : Word} (sources : List Word) (h : Shell.IsRooted dest.toShell) :
    IsPlaced (copy sources dest)
  | fetch {target : Word} (url : Text) (h : Shell.IsRooted target.toShell) : IsPlaced (fetch target url)
  | unpack {dest : Word} (archive : Word) (h : Shell.IsRooted dest.toShell) :
    IsPlaced (unpack archive dest)
  | change {dest : Word} (name : String) (arg : Word) (h : Shell.IsRooted dest.toShell) :
    IsPlaced (change name arg dest)

/-- Whether lines are commands at places that are told from the root, packed files that are written to such
places, and more such commands, if any are left to be run behind the files. -/
def ArePlaced (pack : Bytes → Bytes) (lines : List Text) : Prop :=
  ∃ (first last : Statement) (files : List (List Text)),
    lines = first.text :: files.flatten ++ (if last = [] then [] else [last.text]) ∧
    (∀ c ∈ first ++ last, c.IsPlaced) ∧
    ∀ file ∈ files, ∃ target bytes, file = embedLines pack target bytes ∧ Shell.IsRooted target

/-! ## Words -/

theorem Shell.isRooted_quote (t : Text) : IsRooted (quote ('/' :: t)) := by
  rw [quote, if_neg (List.cons_ne_nil _ _)]
  split
  · exact ⟨t, .inl rfl⟩
  · exact ⟨_, .inr rfl⟩

theorem Shell.IsRooted.append {s : Text} (h : IsRooted s) (t : Text) : IsRooted (s ++ t) := by
  obtain ⟨rest, rfl | rfl⟩ := h
  · exact ⟨rest ++ t, .inl rfl⟩
  · exact ⟨rest ++ t, .inr rfl⟩

theorem Word.exists_segments_char (c : Char) (rest : Word) :
    ∃ t others, (Word.char c rest).segments = .literal (c :: t) :: others := by
  rw [segments]
  split
  · exact ⟨_, _, rfl⟩
  · exact ⟨_, _, rfl⟩

theorem Word.isRooted_toShell {w : Word} (h : w.startsWith ['/'] = true) : Shell.IsRooted w.toShell := by
  obtain ⟨rest, rfl⟩ := startsWith_slash_iff.1 h
  obtain ⟨t, others, hsegments⟩ := exists_segments_char '/' rest
  have htext : (Word.char '/' rest).toShell =
      Shell.quote ('/' :: t) ++ others.flatMap (Segment.render Shell.quote) := by
    rw [toShell, render, hsegments]
    rfl
  rw [htext]
  exact (Shell.isRooted_quote t).append _

/-! ## Commands of `COPY` and `ADD` -/

namespace Delivery

variable {d : Delivery} {o : Options} {files : FileView} {sources : List Source}

theorem isRooted_directoryOperand (h : d.dest.startsWith ['/'] = true) (unpacks : Bool) :
    (d.directoryOperand unpacks).IsRooted := by
  unfold directoryOperand
  split
  · exact Word.isRooted_toShell h
  · split
    · next path hpath =>
      have hroot : Path.IsRooted path := by
        rwa [Word.eq_literal_of_text? hpath, Word.startsWith_literal] at h
      exact Word.isRooted_toShell (Word.startsWith_literal.2 (Path.isRooted_parent hroot))
    · exact Word.isRooted_toShell h

theorem startsWith_inside (h : d.dest.startsWith ['/'] = true) (name : Text) :
    (d.inside name).startsWith ['/'] = true :=
  Word.startsWith_append (Word.startsWith_withSlash h) _

theorem startsWith_target (h : d.dest.startsWith ['/'] = true) (name : Text) :
    (d.target name).startsWith ['/'] = true := by
  unfold target
  split
  · exact startsWith_inside h name
  · exact h

theorem isPlaced_work (h : d.dest.startsWith ['/'] = true) :
    ∀ c ∈ (d.shapeWith o files sources).work, c.IsPlaced := by
  have hdest := Word.isRooted_toShell h
  intro c hc
  simp only [DeliveryShape.work, shapeWith, shape, List.mem_append, List.mem_cons, List.mem_map] at hc
  rcases hc with ((rfl | hc) | ⟨_, ⟨url, -, rfl⟩, rfl⟩) | ⟨_, ⟨archive, -, rfl⟩, rfl⟩
  · exact .make (List.forall_mem_singleton.2 (isRooted_directoryOperand h _))
  · unfold copies at hc
    split at hc
    · cases hc
    · rw [List.mem_singleton.1 hc]
      exact .copy _ hdest
  · refine .fetch _ (Word.isRooted_toShell ?_)
    split
    · exact startsWith_inside h _
    · exact startsWith_target h _
  · exact .unpack _ hdest

/-- What sets owner and mode. -/
def changes (d : Delivery) : Statement :=
  (d.flags.owner.map (change "chown" · d.dest)).toList ++ (d.flags.mode.map (change "chmod" · d.dest)).toList

theorem map_text_changes (d : Delivery) : d.changes.map Posix.Command.text = d.ownership :=
  map_text_ownership d

theorem isPlaced_changes (h : d.dest.startsWith ['/'] = true) : ∀ c ∈ d.changes, c.IsPlaced := by
  intro c hc
  simp only [changes, List.mem_append, Option.mem_toList, Option.map_eq_some_iff] at hc
  rcases hc with ⟨w, -, rfl⟩ | ⟨w, -, rfl⟩
  · exact .change _ _ (Word.isRooted_toShell h)
  · exact .change _ _ (Word.isRooted_toShell h)

theorem exists_embedLines (h : d.dest.startsWith ['/'] = true) {file : List Text}
    (hfile : file ∈ d.embeddedFiles o files sources) :
    ∃ target bytes, file = embedLines o.pack target bytes ∧ Shell.IsRooted target := by
  obtain ⟨source, -, hsource⟩ := List.mem_filterMap.1 hfile
  simp only [embedded?, Option.bind_eq_bind, Option.bind_eq_some_iff] at hsource
  obtain ⟨path, -, name, -, bytes, -, hlines⟩ := hsource
  exact ⟨_, bytes, (Option.some.inj hlines).symm, Word.isRooted_toShell (startsWith_target h name)⟩

theorem arePlaced_compile (h : d.dest.startsWith ['/'] = true) (s : State) :
    ArePlaced o.pack (d.compile o files s sources).lines := by
  have hwork : ∀ c ∈ (d.shapeWith o files sources).work, c.IsPlaced := isPlaced_work h
  have hchanges := isPlaced_changes h
  have hownership := d.map_text_changes
  rw [lines_compile_shapeWith, assemble]
  split
  · refine ⟨(d.shapeWith o files sources).work ++ d.changes, [], [], ?_, ?_, by simp⟩
    · rw [← hownership, ← List.map_append]
      rfl
    · rw [List.append_nil]
      exact List.forall_mem_append.2 ⟨hwork, hchanges⟩
  · refine ⟨_, d.changes, d.embeddedFiles o files sources, ?_, List.forall_mem_append.2 ⟨hwork, hchanges⟩,
      fun _ => exists_embedLines h⟩
    rw [← hownership]
    by_cases hnone : d.changes = []
    · simp [hnone, Statement.text]
    · simp [hnone, Statement.text]

end Delivery

/-! ## Lines of instructions -/

namespace State.WellFormed

variable {escape : Char} {s : State} {o : Options} {files : FileView} {raw : Text} {outcome : Outcome}

/-- The destination of a delivery is a path from the root. -/
theorem startsWith_dest (h : s.WellFormed escape) {d : Delivery} (hd : s.delivery? raw = some d) :
    d.dest.startsWith ['/'] = true := by
  obtain ⟨sources, dest, -, -, rfl⟩ := delivery?_eq_some_iff_readFlags.1 hd
  refine destination_induction (P := fun w => w.startsWith ['/'] = true) (h.isPlace_resolve (s.expand dest)).root ?_
  exact fun w hw => Word.startsWith_withSlash hw

theorem arePlaced_delivery (h : s.WellFormed escape) {kind : Word → Source}
    (hc : s.compileDelivery o files kind raw = some outcome) : ArePlaced o.pack outcome.lines := by
  obtain ⟨d, hd, -, rfl⟩ := compileDelivery_eq_some_iff.1 hc
  exact Delivery.arePlaced_compile (h.startsWith_dest hd) s

theorem arePlaced_workdir (h : s.WellFormed escape) (hc : s.compileWorkdir raw = some outcome) :
    ArePlaced o.pack outcome.lines := by
  obtain ⟨-, rfl⟩ := compileWorkdir_eq_some_iff.1 hc
  have hdir := Word.isRooted_toShell
    (h.isPlace_resolve (s.expand (Word.join [' '] (Word.lexAll s.escape raw)))).root
  generalize s.resolve (s.expand (Word.join [' '] (Word.lexAll s.escape raw))) = dir at hdir ⊢
  refine ⟨[makeDirectory (.word dir), fixed ["cd"] ++ [.word dir]], [], [], rfl, ?_, by simp⟩
  exact List.forall_mem_cons.2 ⟨.make (List.forall_mem_singleton.2 hdir),
    List.forall_mem_singleton.2 (.enter hdir)⟩

theorem arePlaced_volume (h : s.WellFormed escape) (hc : s.compileVolume raw = some outcome) :
    ArePlaced o.pack outcome.lines := by
  obtain ⟨hne, rfl⟩ := compileVolume_eq_some_iff.1 hc
  generalize (s.argumentWords raw).filter (!·.isEmpty) = words at hne ⊢
  have hdirs : words.map (fun w => s.resolve (s.expand w)) ≠ [] := by simpa using hne
  refine ⟨[fixed ["mkdir", "-p"] ++ (words.map fun w => s.resolve (s.expand w)).map .word], [], [], ?_, ?_,
    by simp⟩
  · show [_] = [Posix.Command.text _]
    rw [text_makeDirectories hdirs, List.map_map]
    rfl
  · refine List.forall_mem_singleton.2 (.make ?_)
    intro operand hoperand
    obtain ⟨dir, hdir, rfl⟩ := List.mem_map.1 hoperand
    obtain ⟨w, -, rfl⟩ := List.mem_map.1 hdir
    exact Word.isRooted_toShell (h.isPlace_resolve (s.expand w)).root

/-- The lines of instructions that make places or write to them. -/
theorem arePlaced_compile (h : s.WellFormed escape) {i : Instruction}
    (hkeyword : i.keyword ∈ [.workdir, .volume, .copy, .add])
    (hc : s.compile o files i = some outcome) : ArePlaced o.pack outcome.lines := by
  unfold State.compile at hc
  generalize i.keyword = keyword at hkeyword hc
  cases keyword with
  | workdir => exact h.arePlaced_workdir hc
  | volume => exact h.arePlaced_volume hc
  | copy | add => exact h.arePlaced_delivery hc
  | _ => simp at hkeyword

end State.WellFormed

/-- Every state that instructions lead to is well formed, and its working directory is entered by a path from
the root. Whatever `WORKDIR`, `VOLUME`, `COPY` and `ADD` make, enter or write to in such a state is told from
the root; where a command tells it, that command is given a path from the root. -/
theorem State.Reachable.wellFormed_and_arePlaced {escape : Char} {s : State} (h : s.Reachable escape) :
    s.WellFormed escape ∧ (∀ dir ∈ s.workdir, Shell.IsRooted dir.toShell) ∧
    ∀ (o : Options) (files : FileView) (i : Instruction) (lines : List Text),
      i.keyword ∈ [.workdir, .volume, .copy, .add] →
      (Step.ofInstruction o files s i).lines = some lines → ArePlaced o.pack lines := by
  have hs := h.wellFormed
  refine ⟨hs, fun dir hdir => Word.isRooted_toShell (hs.workdir dir hdir).1.root, ?_⟩
  intro o files i lines hkeyword hlines
  unfold Step.ofInstruction at hlines
  split at hlines
  · next outcome hc =>
    cases hlines
    exact hs.arePlaced_compile hkeyword hc
  · cases hlines

/-- A destination below a directory with a reference, which a command tells. -/
theorem State.arePlaced_below_reference :
    let s := (Step.ofInstruction {} (fun _ => none) (.initial '\\')
      ⟨.workdir, [], "/srv/$NAME".toList, 1, []⟩).state
    let line := "mkdir -p \"$(dirname -- /srv/\"$\x7bNAME\x7d\"/b)\" && " ++
      "cp -R \"$\x7bDOCKER2SH_CONTEXT\x7d\"/a* /srv/\"$\x7bNAME\x7d\"/b"
    s.Reachable '\\' ∧ s.WellFormed '\\' ∧
      (Step.ofInstruction {} (fun _ => none) s ⟨.copy, [], "a* b".toList, 2, []⟩).lines =
        some [line.toList] ∧
      ArePlaced Gzip.pack [line.toList] := by
  intro s line
  have hs : s.Reachable '\\' := .step .initial {} (fun _ => none) ⟨.workdir, [], "/srv/$NAME".toList, 1, []⟩
  have hlines : (Step.ofInstruction {} (fun _ => none) s ⟨.copy, [], "a* b".toList, 2, []⟩).lines =
      some [line.toList] := by
    decide +kernel
  obtain ⟨hwell, -, hplaced⟩ := State.Reachable.wellFormed_and_arePlaced hs
  exact ⟨hs, hwell, hlines, hplaced _ _ _ _ (by decide) hlines⟩

end BuildScript
