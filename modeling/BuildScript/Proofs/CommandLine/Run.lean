import Mathlib.Data.List.Basic
import BuildScript.CommandLine.World
import BuildScript.Proofs.Compile.Embedded
import BuildScript.Proofs.FileTree
import BuildScript.Proofs.Json.Records

/-!
# What a run of the command leaves behind

What a run is to give is told by the system it starts on (`World.product`): the script, or the list of
instructions. If there is none, because the Dockerfile cannot be read or the script has no text, the run leaves
one diagnostic and nothing else. If there is one, it is written in one place, after it is complete; should that
place refuse it (`World.refusal?`), one diagnostic says so (`run_gives_product`).
-/

namespace BuildScript

/-! ## Files that are read before compiling -/

theorem State.embedPaths_eq {s : State} {o : Options} {i : Instruction} {d : Delivery} (h : s.Delivers i d) :
    s.embedPaths o i = ((d.sources.map i.sourceOf).filterMap Source.copied?).filterMap (embedPath? o) := by
  have hkeyword := h.keyword
  unfold embedPaths Instruction.sourceOf
  rw [h.read]
  generalize i.keyword = keyword at hkeyword
  cases keyword with
  | copy | add => rfl
  | _ => simp at hkeyword

theorem ComesTo.mem_embedPathsFrom {o : Options} {s t : State} {i : Instruction} {is : List Instruction}
    {path : Text} (h : ComesTo o (fun _ => none) s is t i) (hpath : path ∈ t.embedPaths o i) :
    path ∈ embedPathsFrom o s is := by
  induction h with
  | head => exact List.mem_append_left _ hpath
  | tail _ ih => exact List.mem_append_right _ (ih hpath)

/-- What embedding may ask for is among the files that are read. -/
theorem MayEmbed.mem_embedPaths {o : Options} {input path : Text} (h : MayEmbed o input path)
    (ho : o.embed = true) : path ∈ embedPaths o input := by
  obtain ⟨s, i, d, source, text, hcomes, hd, hsource, hcopied, htext, hglob, rfl⟩ := h
  obtain ⟨v, hv, hreads⟩ := hcomes.exists_alike o (fun _ => none) (.refl _)
  apply hreads.mem_embedPathsFrom
  rw [State.embedPaths_eq (hv.delivers hd)]
  refine List.mem_filterMap.2 ⟨source, ?_, embedPath?_eq_some_iff.2 ⟨ho, text, htext, hglob, rfl⟩⟩
  exact List.mem_filterMap.2 ⟨_, List.mem_map_of_mem hsource, Instruction.copied?_sourceOf.2 ⟨hcopied, rfl⟩⟩

namespace CommandLine

/-! ## What a run is to give -/

namespace World

variable (w : World) (a : Arguments)

/-- The regular files that can be read, by path. -/
def files : FileView := fun path => (w.tree.read w.cwd path).toOption

/-- The text of the Dockerfile at a path; a hyphen is standard input. -/
def dockerfile (path : Text) : Except Failure Text :=
  readText path (if path = ['-'] then .ok w.input else w.tree.read w.cwd path)

/-- What is chosen for the script by the arguments, the variables and the directory of the Dockerfile. -/
def options : Options where
  shell := a.shell.getD
    ((((w.env.lookup "DOCKER2SH_SHELL".toList).map Text.trim).filter (· ≠ [])).getD "/bin/sh".toList)
  contextDir := a.context.or
    (if a.dockerfile = ['-'] then none else w.tree.canonical? w.cwd (Path.directory a.dockerfile))
  sourceName := some (if a.dockerfile = ['-'] then "<stdin>".toList else a.dockerfile)
  embed := a.embed
  pack := w.pack

/-- What a run is to give: the list of instructions as JSON in lines, or the text of the script. -/
def product : Except Failure Text :=
  match w.dockerfile a.dockerfile with
  | .error e => .error e
  | .ok input =>
    if a.json then .ok (Text.ofLines (Json.lines ((instructions input).map Instruction.record)))
    else (compile (w.options a) w.files input).text

/-- Whether diagnostics are coloured, on a terminal or not. -/
def isColoured (terminal : Bool) : Bool :=
  match colorMode (w.env.lookup "NO_COLOR".toList).isSome a.color (w.env.lookup "DOCKER2SH_COLOR".toList) with
  | .always => true
  | .never => false
  | .auto => terminal

/-- Whether a text is where the arguments say, after a run from `w` to `v`: it is printed, or it is in a file
that all can execute, and nothing is printed. -/
def Holds (v : World) (text : Text) : Prop :=
  match a.output with
  | none => v.output = w.output ++ text ∧ v.tree = w.tree
  | some path => v.output = w.output ∧
      ∃ place, w.tree.Wrote w.cwd path (Bytes.ofText text) 0o755 v.tree place

/-- Why a text cannot be written where the arguments say, if it cannot. -/
def refusal? (text : Text) : Option RunError :=
  match a.output with
  | none => w.outputError.map .print
  | some path =>
    match w.tree.write w.cwd path (Bytes.ofText text) 0o755 with
    | .error reason => some (.failure (.write path reason))
    | .ok _ => none

/-- A system with more diagnostics. -/
def logging (log : Text) : World := { w with errors := w.errors ++ log }

theorem logging_nil : w.logging [] = w := by
  rw [logging, List.append_nil]

/-- The system as the command uses it, with files and standard output written in another way and diagnostics to a
terminal or not. -/
def hostWith (terminal : Bool) (write : Text → Text → StateM World (Except FileError Unit))
    (print : Text → StateM World (Except FileError Unit)) : Host (StateM World) :=
  { host with isTerminal := pure terminal, writeFile := write, printOutput := print }

/-- The system as the command uses it, with diagnostics to a terminal or not. -/
def hostOn (terminal : Bool) : Host (StateM World) := hostWith terminal host.writeFile host.printOutput

theorem run_eq_hostOn (args : List Text) : w.run args = (CommandLine.run (hostOn false) args).run w := rfl

end World

/-! ## Parts of a run -/

section Parts

variable {terminal : Bool} {write : Text → Text → StateM World (Except FileError Unit)}
  {print : Text → StateM World (Except FileError Unit)} {w v : World} {a : Arguments}

open World (hostWith hostOn)

theorem run_bind_of_eq {α β : Type} {x : StateM World α} {f : α → StateM World β} {r : α}
    (h : x.run w = (r, v)) : (x >>= f).run w = (f r).run v := by
  rw [StateT.run_bind, h]
  rfl

theorem run_readInput (path : Text) :
    (readInput (hostWith terminal write print) path).run w = (w.dockerfile path, w) := by
  unfold readInput World.dockerfile standardInput
  split <;> rfl

theorem run_contextDir : (contextDir (hostWith terminal write print) a).run w = ((w.options a).contextDir, w) := by
  unfold contextDir World.options standardInput
  cases a.context with
  | some dir => rfl
  | none => by_cases hinput : a.dockerfile = ['-'] <;> simp only [hinput, if_true, if_false] <;> rfl

theorem run_options : (options (hostWith terminal write print) a).run w = (w.options a, w) := by
  have hfromEnv : ((hostWith terminal write print).lookupVariable "DOCKER2SH_SHELL".toList).run w =
      (w.env.lookup "DOCKER2SH_SHELL".toList, w) := rfl
  have hpacking : (hostWith terminal write print).packing.run w = (w.pack, w) := rfl
  rw [options, run_bind_of_eq run_contextDir, run_bind_of_eq hfromEnv, run_bind_of_eq hpacking]
  rfl

theorem run_mapM {α β : Type} {f : α → StateM World β} {g : α → β} (h : ∀ x, (f x).run w = (g x, w))
    (xs : List α) : (xs.mapM f).run w = (xs.map g, w) := by
  induction xs with
  | nil => rfl
  | cons x xs ih =>
    rw [List.mapM_cons, run_bind_of_eq (h x), run_bind_of_eq ih]
    rfl

theorem run_readFiles (paths : List Text) :
    (readFiles (hostWith terminal write print) paths).run w =
      (fun path => ((paths.map fun p => (p, w.tree.read w.cwd p)).lookup path).bind Except.toOption, w) := by
  have hread : ∀ path, (do
      let read ← (hostWith terminal write print).readFile path
      pure (path, read) : StateM World (Text × Except FileError Bytes)).run w =
        ((path, w.tree.read w.cwd path), w) := fun _ => rfl
  rw [readFiles, run_bind_of_eq (run_mapM hread paths)]
  rfl

/-- The files that were read are enough to compile the Dockerfile. -/
theorem compile_files (o : Options) (input : Text) :
    compile o (fun path => (((embedPaths o input).map fun p => (p, w.tree.read w.cwd p)).lookup path).bind
      Except.toOption) input = compile o w.files input := by
  cases ho : o.embed with
  | false => exact compile_eq_of_embed_eq_false ho
  | true =>
    apply compile_eq_of_agree
    intro path hpath
    rw [List.lookup_graph _ (hpath.mem_embedPaths ho)]
    rfl

theorem run_report (tone : Tone) (message : Text) :
    (report (hostWith terminal write print) a tone message).run w =
      ((), w.logging (diagnostic tone (w.isColoured a terminal) message ++ ['\n'])) := by
  have hnoColor : ((hostWith terminal write print).lookupVariable "NO_COLOR".toList).run w =
      (w.env.lookup "NO_COLOR".toList, w) := rfl
  have hfromEnv : ((hostWith terminal write print).lookupVariable "DOCKER2SH_COLOR".toList).run w =
      (w.env.lookup "DOCKER2SH_COLOR".toList, w) := rfl
  rw [report, run_bind_of_eq hnoColor, run_bind_of_eq hfromEnv, World.isColoured]
  cases colorMode (w.env.lookup "NO_COLOR".toList).isSome a.color
      (w.env.lookup "DOCKER2SH_COLOR".toList) <;> rfl

/-! ## Runs -/

/-- What the command does after it has written a script: it reports what was skipped, if it is to. -/
def World.summarize (w : World) (a : Arguments) (terminal : Bool) : StateM World Unit :=
  match w.dockerfile a.dockerfile with
  | .error _ => pure ()
  | .ok input =>
    if !a.json && a.verbose then
      let script := compile (w.options a) w.files input
      report (hostOn terminal) a (if 0 < script.skipped then .warning else .info) (summary script)
    else pure ()

/-- What the command does after it has written. -/
def World.finish (w : World) (a : Arguments) (terminal : Bool) :
    Except RunError Unit → StateM World (Except RunError Unit)
  | .error e => pure (.error e)
  | .ok () => do
    w.summarize a terminal
    pure (.ok ())

theorem run_summarize (w v : World) (a : Arguments) (terminal : Bool) :
    ∃ log, (w.summarize a terminal).run v = ((), v.logging log) := by
  have hnothing : ∃ log, ((), v) = ((), v.logging log) :=
    ⟨[], by rw [World.logging_nil]⟩
  unfold World.summarize
  split
  · exact hnothing
  · split
    · exact ⟨_, run_report _ _⟩
    · exact hnothing

theorem run_finish (w v : World) (a : Arguments) (terminal : Bool) (written : Except RunError Unit) :
    ∃ log, (w.finish a terminal written).run v = (written, v.logging log) := by
  cases written with
  | error e => exact ⟨[], by rw [World.logging_nil]; rfl⟩
  | ok u =>
    obtain ⟨log, hlog⟩ := run_summarize w v a terminal
    exact ⟨log, by rw [World.finish, run_bind_of_eq hlog]; rfl⟩

theorem finish_of_json (hjson : a.json = true) : w.finish a terminal = pure := by
  have hsummarize : w.summarize a terminal = pure () := by
    unfold World.summarize
    rw [hjson]
    split <;> rfl
  funext written
  cases written with
  | error e => rfl
  | ok u =>
    rw [World.finish, hsummarize, pure_bind]

theorem finish_of_script (write : Text → Text → StateM World (Except FileError Unit))
    (print : Text → StateM World (Except FileError Unit)) {input : Text}
    (hinput : w.dockerfile a.dockerfile = .ok input) (hjson : ¬a.json = true) :
    w.finish a terminal = (fun (written : Except RunError Unit) => match written with
      | .error e => pure (.error e)
      | .ok () => do
        if a.verbose then
          report (hostWith terminal write print) a
            (if 0 < (compile (w.options a) w.files input).skipped then .warning else .info)
            (summary (compile (w.options a) w.files input))
        pure (.ok ())) := by
  funext written
  cases written with
  | error e => rfl
  | ok u =>
    simp only [World.finish, World.summarize, hinput, hjson]
    cases a.verbose <;> rfl

/-- If there is nothing to give, the command ends before it writes. If there is something, that is written, in
the system as it was at first. -/
theorem run_execute :
    (execute (hostWith terminal write print) a).run w =
      match w.product a with
      | .error e => (.error (.failure e), w)
      | .ok text => (writeOutput (hostWith terminal write print) a text >>= w.finish a terminal).run w := by
  rw [execute, run_bind_of_eq (run_readInput a.dockerfile), World.product]
  cases hinput : w.dockerfile a.dockerfile with
  | error e => rfl
  | ok input =>
    by_cases hjson : a.json = true
    · simp only [if_pos hjson, Instruction.ofLines_lines_record]
      rw [finish_of_json hjson, bind_pure]
    · simp only [if_neg hjson]
      rw [run_bind_of_eq run_options, run_bind_of_eq (run_readFiles _), compile_files,
        finish_of_script write print hinput hjson]
      cases (compile (w.options a) w.files input).text <;> rfl

theorem run_execute_of_error {e : Failure} (h : w.product a = .error e) :
    (execute (hostWith terminal write print) a).run w = (.error (.failure e), w) := by
  rw [run_execute, h]

/-- A text for a file is written to it once, and what is done then depends on whether it was written. -/
theorem run_execute_file {text path : Text} (h : w.product a = .ok text) (houtput : a.output = some path) :
    (execute (hostWith terminal write print) a).run w = (write path text >>= fun written =>
      w.finish a terminal (written.mapError fun reason => .failure (.write path reason))).run w := by
  have hwriteOutput : writeOutput (hostWith terminal write print) a text = (do
      let written ← write path text
      pure (written.mapError fun reason => .failure (.write path reason))) := by
    rw [writeOutput, houtput]
    rfl
  simp only [run_execute, h, hwriteOutput, bind_assoc, pure_bind]

/-- A text for standard output is printed once, and what is done then depends on whether it was printed. -/
theorem run_execute_print {text : Text} (h : w.product a = .ok text) (houtput : a.output = none) :
    (execute (hostWith terminal write print) a).run w =
      (print text >>= fun printed => w.finish a terminal (printed.mapError .print)).run w := by
  have hwriteOutput : writeOutput (hostWith terminal write print) a text = (do
      let printed ← print text
      pure (printed.mapError .print)) := by
    rw [writeOutput, houtput]
    rfl
  simp only [run_execute, h, hwriteOutput, bind_assoc, pure_bind]

theorem run_printOutput (w : World) (text : Text) :
    (World.host.printOutput text).run w =
      match w.outputError with
      | some reason => (.error reason, w)
      | none => (.ok (), { w with output := w.output ++ text }) := by
  have hget : (get : StateM World World).run w = (w, w) := rfl
  refine (run_bind_of_eq hget).trans ?_
  cases w.outputError <;> rfl

theorem run_writeFile (w : World) (path text : Text) :
    (World.host.writeFile path text).run w =
      match w.tree.write w.cwd path (Bytes.ofText text) 0o755 with
      | .error reason => (.error reason, w)
      | .ok tree => (.ok (), { w with tree := tree }) := by
  have hget : (get : StateM World World).run w = (w, w) := rfl
  refine (run_bind_of_eq hget).trans ?_
  simp only [World.scriptMode]
  cases w.tree.write w.cwd path (Bytes.ofText text) 0o755 <;> rfl

/-- A text that is not refused is where the arguments say after a run. -/
theorem exists_run_execute (terminal : Bool) {text : Text} (h : w.product a = .ok text)
    (hwrites : w.refusal? a text = none) :
    ∃ v, (execute (hostOn terminal) a).run w = (.ok (), v) ∧ w.Holds a v text := by
  unfold World.refusal? at hwrites
  unfold World.Holds
  cases houtput : a.output with
  | none =>
    have hprinted := run_printOutput w text
    rw [houtput, Option.map_eq_none_iff] at hwrites
    rw [hwrites] at hprinted
    obtain ⟨log, hlog⟩ := run_finish w _ a terminal (Except.ok ())
    refine ⟨_, (run_execute_print h houtput).trans ((run_bind_of_eq hprinted).trans hlog), ?_⟩
    exact ⟨rfl, rfl⟩
  | some path =>
    have hwritten := run_writeFile w path text
    rw [houtput] at hwrites
    cases htree : w.tree.write w.cwd path (Bytes.ofText text) 0o755 with
    | error reason => simp [htree] at hwrites
    | ok tree =>
      rw [htree] at hwritten
      obtain ⟨log, hlog⟩ := run_finish w { w with tree := tree } a terminal (.ok ())
      exact ⟨_, (run_execute_file h houtput).trans ((run_bind_of_eq hwritten).trans hlog), rfl,
        FileTree.exists_wrote htree⟩

theorem refusal?_cases {text : Text} {e : RunError} (h : w.refusal? a text = some e) :
    (∃ reason, a.output = none ∧ w.outputError = some reason ∧ e = .print reason) ∨
    ∃ path reason, a.output = some path ∧ w.tree.write w.cwd path (Bytes.ofText text) 0o755 = .error reason ∧
      e = .failure (.write path reason) := by
  unfold World.refusal? at h
  cases houtput : a.output with
  | none =>
    rw [houtput] at h
    obtain ⟨reason, hreason, rfl⟩ := Option.map_eq_some_iff.1 h
    exact .inl ⟨reason, rfl, hreason, rfl⟩
  | some path =>
    rw [houtput] at h
    cases hwritten : w.tree.write w.cwd path (Bytes.ofText text) 0o755 with
    | error reason =>
      simp only [hwritten, Option.some.injEq] at h
      exact .inr ⟨path, reason, rfl, hwritten, h.symm⟩
    | ok tree => simp [hwritten] at h

/-- What is refused changes nothing, and that is all that there is to say. -/
theorem run_execute_of_refusal (terminal : Bool) {text : Text} (h : w.product a = .ok text) {e : RunError}
    (hrefused : w.refusal? a text = some e) : (execute (hostOn terminal) a).run w = (.error e, w) := by
  rcases refusal?_cases hrefused with ⟨reason, houtput, hreason, rfl⟩ | ⟨path, reason, houtput, hreason, rfl⟩
  · have hprinted := run_printOutput w text
    rw [hreason] at hprinted
    exact (run_execute_print h houtput).trans (run_bind_of_eq hprinted)
  · have hwritten := run_writeFile w path text
    rw [hreason] at hwritten
    exact (run_execute_file h houtput).trans (run_bind_of_eq hwritten)

theorem exists_of_mapError_eq {ε δ α : Type} {f : ε → δ} {x : Except ε α} {e : δ}
    (h : x.mapError f = .error e) : ∃ reason, e = f reason := by
  cases x with
  | error reason => exact ⟨reason, (Except.error.inj h).symm⟩
  | ok value => cases h

/-- There is nothing to give if the Dockerfile cannot be read or the script cannot be rendered. -/
theorem product_error_cases {e : Failure} (h : w.product a = .error e) :
    (∃ reason, e = .read a.dockerfile reason) ∨ ∃ reason, e = .render reason := by
  unfold World.product at h
  cases hinput : w.dockerfile a.dockerfile with
  | error e' =>
    rw [hinput] at h
    cases h
    exact .inl (exists_of_mapError_eq hinput)
  | ok input =>
    rw [hinput] at h
    simp only at h
    split at h
    · cases h
    · exact .inr (exists_of_mapError_eq h)

/-- A run has nothing to give exactly if it fails to read the Dockerfile or to render the script: it fails to write
with an error of another kind. -/
theorem product_eq_error_iff (terminal : Bool) {e : Failure} :
    w.product a = .error e ↔ ((execute (hostOn terminal) a).run w).1 = .error (.failure e) ∧
      ((∃ reason, e = .read a.dockerfile reason) ∨ ∃ reason, e = .render reason) := by
  constructor
  · intro h
    exact ⟨congrArg Prod.fst (run_execute_of_error h), product_error_cases h⟩
  · rintro ⟨hexecute, hcause⟩
    cases h : w.product a with
    | error e' =>
      have herror := (congrArg Prod.fst (run_execute_of_error h)).symm.trans hexecute
      exact congrArg _ (RunError.failure.inj (Except.error.inj herror))
    | ok text =>
      cases hrefused : w.refusal? a text with
      | none =>
        obtain ⟨v, hok, -⟩ := exists_run_execute terminal h hrefused
        cases (congrArg Prod.fst hok).symm.trans hexecute
      | some e' =>
        have herror := hexecute.symm.trans (congrArg Prod.fst (run_execute_of_refusal terminal h hrefused))
        obtain rfl := Except.error.inj herror
        rcases refusal?_cases hrefused with ⟨reason, -, -, hkind⟩ | ⟨path, reason, -, -, hkind⟩
        · cases hkind
        · obtain rfl := RunError.failure.inj hkind
          simp at hcause

/-- The build context that a run chooses itself is the directory of the Dockerfile that it reads. -/
theorem exists_contextDir_eq {input : Text} (hinput : w.dockerfile a.dockerfile = .ok input)
    (hcontext : a.context = none) (hpath : a.dockerfile ≠ ['-']) :
    ∃ directory, w.tree.resolve w.cwd (Path.directory a.dockerfile) = .ok directory ∧
      w.tree.node? directory = some .directory ∧
      (w.options a).contextDir = some (FileTree.render directory) := by
  obtain ⟨bytes, hbytes⟩ : ∃ bytes, w.tree.read w.cwd a.dockerfile = .ok bytes := by
    rw [World.dockerfile, if_neg hpath] at hinput
    cases hread : w.tree.read w.cwd a.dockerfile with
    | error reason =>
      rw [hread] at hinput
      cases hinput
    | ok bytes => exact ⟨bytes, rfl⟩
  obtain ⟨directory, hresolve, hnode, hcanonical⟩ := FileTree.canonical?_directory_of_read hbytes
  refine ⟨directory, hresolve, hnode, ?_⟩
  rw [World.options, hcontext, if_neg hpath]
  exact hcanonical

/-- The list of instructions is JSON that can be read again. -/
theorem product_of_json (hjson : a.json = true) {input : Text} (hinput : w.dockerfile a.dockerfile = .ok input) :
    ∃ text, w.product a = .ok text ∧
      Json.records? text = some ((instructions input).map Instruction.record) := by
  refine ⟨_, ?_, Json.records?_ofLines_lines _⟩
  rw [World.product, hinput]
  exact if_pos hjson

/-! ## The answer of a run -/

variable {args : List Text}

theorem run_of_execute_ok (hargs : readArguments args = .ok (.run a))
    (h : (execute (hostWith terminal write print) a).run w = (.ok (), v)) :
    (CommandLine.run (hostWith terminal write print) args).run w = (0, v) := by
  rw [CommandLine.run, hargs]
  exact run_bind_of_eq h

theorem exitCode_eq_one (e : RunError) : e.exitCode = 1 := by cases e <;> rfl

theorem run_of_execute_error (hargs : readArguments args = .ok (.run a)) {e : RunError}
    (h : (execute (hostWith terminal write print) a).run w = (.error e, v)) :
    (CommandLine.run (hostWith terminal write print) args).run w =
      (1, v.logging (diagnostic .error (v.isColoured a terminal) e.message ++ ['\n'])) := by
  rw [CommandLine.run, hargs, ← exitCode_eq_one e]
  refine (run_bind_of_eq h).trans ?_
  exact run_bind_of_eq (run_report .error e.message)

/-- A run that has nothing to give leaves one diagnostic and nothing else. -/
theorem run_of_product_error (hargs : readArguments args = .ok (.run a)) {e : Failure}
    (h : w.product a = .error e) :
    (CommandLine.run (hostOn terminal) args).run w =
      (1, w.logging (diagnostic .error (w.isColoured a terminal) e.message ++ ['\n'])) := by
  have hexecute : (execute (hostOn terminal) a).run w = (.error (.failure e), w) := run_execute_of_error h
  have hrun := run_of_execute_error hargs hexecute
  rwa [RunError.message_failure] at hrun

/-- A run that has something to give gives it. -/
theorem exists_run_of_product_ok (terminal : Bool) (hargs : readArguments args = .ok (.run a)) {text : Text}
    (h : w.product a = .ok text) (hwrites : w.refusal? a text = none) :
    ∃ v, (CommandLine.run (hostOn terminal) args).run w = (0, v) ∧ w.Holds a v text := by
  obtain ⟨v, hexecute, hholds⟩ := exists_run_execute terminal h hwrites
  exact ⟨v, run_of_execute_ok hargs hexecute, hholds⟩

/-- A run whose product is refused leaves one diagnostic and nothing else. -/
theorem run_of_refusal (hargs : readArguments args = .ok (.run a)) {text : Text} (h : w.product a = .ok text)
    {e : RunError} (hrefused : w.refusal? a text = some e) :
    (CommandLine.run (hostOn terminal) args).run w =
      (1, w.logging (diagnostic .error (w.isColoured a terminal) e.message ++ ['\n'])) :=
  run_of_execute_error hargs (run_execute_of_refusal terminal h hrefused)

/-- A run whose exit code is 0 had something to give, and gave it. -/
theorem exists_product_of_run_eq (hargs : readArguments args = .ok (.run a))
    (hv : (CommandLine.run (hostOn terminal) args).run w = (0, v)) :
    ∃ text, w.product a = .ok text ∧ w.Holds a v text := by
  cases h : w.product a with
  | error e => cases (run_of_product_error hargs h).symm.trans hv
  | ok text =>
    cases hrefused : w.refusal? a text with
    | none =>
      obtain ⟨v', hrun, hholds⟩ := exists_run_of_product_ok terminal hargs h hrefused
      cases hrun.symm.trans hv
      exact ⟨text, rfl, hholds⟩
    | some e => cases (run_of_refusal hargs h hrefused).symm.trans hv

end Parts

end CommandLine

end BuildScript
