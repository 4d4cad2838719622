import BuildScript.Proofs.Compile.Places
import BuildScript.Proofs.Word.Ends

/-!
# The slash at the end of a destination

The same sources are brought to a destination with a slash at its end and to the one without it by different
lines (`lines_compile_slashDest_ne`). The lines of the first have more slashes: quoting leaves the slashes of a
word (`Word.count_toShell`), and wherever a destination is written, so is its slash.
-/

namespace BuildScript

/-! ## Texts -/

theorem Text.count_join {sep : Text} {c : Char} (hsep : c ∉ sep) (ts : List Text) :
    (join sep ts).count c = ts.flatten.count c := by
  induction ts with
  | nil => rfl
  | cons t rest ih =>
    by_cases hrest : rest = []
    · simp [hrest, join]
    · rw [join_cons hrest, List.flatten_cons, List.count_append, List.count_append, List.count_append, ih,
        List.count_eq_zero_of_not_mem hsep, Nat.add_zero]

theorem count_append_lt {c : Char} (before : Text) {t u : Text} (h : t.count c < u.count c) :
    (before ++ t).count c < (before ++ u).count c := by
  rw [List.count_append, List.count_append]
  exact Nat.add_lt_add_left h _

theorem count_append_le {c : Char} {s s' t t' : Text} (hs : s.count c ≤ s'.count c)
    (ht : t.count c ≤ t'.count c) : (s ++ t).count c ≤ (s' ++ t').count c := by
  rw [List.count_append, List.count_append]
  exact Nat.add_le_add hs ht

theorem count_flatten_map_le {α : Type} {c : Char} {f g : α → Text}
    (h : ∀ a, (f a).count c ≤ (g a).count c) (as : List α) :
    (as.map f).flatten.count c ≤ (as.map g).flatten.count c := by
  induction as with
  | nil => exact Nat.le_refl _
  | cons a rest ih =>
    rw [List.map_cons, List.map_cons, List.flatten_cons, List.flatten_cons]
    exact count_append_le (h a) ih

theorem Shell.count_quote (t : Text) : (quote t).count '/' = t.count '/' := by
  have hescape : (t.flatMap escapeSingle).count '/' = t.count '/' := by
    induction t with
    | nil => rfl
    | cons c rest ih =>
      have hc : (escapeSingle c).count '/' = [c].count '/' := by
        unfold escapeSingle
        split
        · next h => rw [h]; rfl
        · rfl
      rw [List.flatMap_cons, List.count_append, ih, hc, ← List.count_append, List.singleton_append]
  unfold quote
  split
  · next h => rw [h]; rfl
  · split
    · rfl
    · rw [singleQuoted, List.count_append, List.count_cons_of_ne (by decide), hescape]
      rfl

/-! ## Words -/

namespace Word

/-- The slashes of a word that is written for a shell. -/
def slashes : Word → Nat
  | .nil => 0
  | .char c rest => [c].count '/' + slashes rest
  | .var name rest => ((Segment.var name).render Shell.quote).count '/' + slashes rest
  | .cond name choice arg rest =>
    ((Segment.cond name choice arg).render Shell.quote).count '/' + slashes rest

theorem slashes_append (v w : Word) : (v ++ w).slashes = v.slashes + w.slashes := by
  induction v with
  | nil => rw [nil_append, slashes, Nat.zero_add]
  | char c rest ih => rw [char_append, slashes, slashes, ih, Nat.add_assoc]
  | var name rest ih => rw [var_append, slashes, slashes, ih, Nat.add_assoc]
  | cond name choice arg rest _ ih => rw [cond_append, slashes, slashes, ih, Nat.add_assoc]

theorem slashes_literal (t : Text) : (literal t).slashes = t.count '/' := by
  induction t with
  | nil => rfl
  | cons c rest ih => rw [literal, slashes, ih, ← List.count_append, List.singleton_append]

/-- Quoting leaves the slashes of a word. -/
theorem count_toShell (w : Word) : w.toShell.count '/' = w.slashes := by
  have hsegments : (w.segments.flatMap (Segment.render Shell.quote)).count '/' = w.slashes := by
    induction w with
    | nil => rfl
    | char c rest ih =>
      rw [slashes, ← ih, segments]
      split
      · next t others heq =>
        have hcons : (c :: t).count '/' = [c].count '/' + t.count '/' := by
          rw [← List.count_append]
          rfl
        rw [heq, List.flatMap_cons, List.flatMap_cons, List.count_append, List.count_append, Segment.render,
          Segment.render, Shell.count_quote, Shell.count_quote, hcons, Nat.add_assoc]
      · rw [List.flatMap_cons, List.count_append, Segment.render, Shell.count_quote]
    | var name rest ih => rw [slashes, ← ih, segments, List.flatMap_cons, List.count_append]
    | cond name choice arg rest _ ih => rw [slashes, ← ih, segments, List.flatMap_cons, List.count_append]
  rw [toShell, render]
  split
  · next h =>
    cases w with
    | nil => rfl
    | _ => cases h
  · exact hsegments

end Word

/-! ## Deliveries -/

theorem Path.count_parent_le {path : Text} (h : '/' ∈ path) : (parent path).count '/' ≤ path.count '/' := by
  rcases parent_eq_or_prefix path with hroot | ⟨-, hprefix⟩
  · rw [hroot]
    exact List.one_le_count_iff.2 h
  · exact hprefix.sublist.count_le '/'

namespace Delivery

variable {d : Delivery} {o : Options} {files : FileView}

/-- A delivery to the destination with a slash at its end. -/
def intoSlash (d : Delivery) : Delivery := { d with dest := d.dest ++ .literal ['/'] }

theorem endsWith_intoSlash (d : Delivery) : d.intoSlash.dest.endsWith ['/'] = true := by
  rw [Word.endsWith_slash_eq, intoSlash, Word.trailing_append_literal, Path.endsInSlash_append_slash]

theorem intoDirectory_intoSlash (d : Delivery) : d.intoSlash.intoDirectory = true := by
  rw [intoDirectory, endsWith_intoSlash, Bool.true_or]

theorem count_dest_intoSlash (d : Delivery) :
    d.intoSlash.dest.toShell.count '/' = d.dest.toShell.count '/' + 1 := by
  rw [Word.count_toShell, Word.count_toShell, intoSlash, Word.slashes_append]
  rfl

theorem count_dest_le (d : Delivery) : d.dest.toShell.count '/' ≤ d.intoSlash.dest.toShell.count '/' := by
  rw [count_dest_intoSlash]
  exact Nat.le_succ _

theorem inside_intoSlash (h : d.dest.endsWith ['/'] = false) (name : Text) :
    d.intoSlash.inside name = d.inside name := by
  rw [inside, inside, Word.withSlash, Word.withSlash, if_pos (endsWith_intoSlash d), if_neg (by simp [h])]
  rfl

theorem count_target_le (h : d.dest.endsWith ['/'] = false) (name : Text) :
    (d.target name).toShell.count '/' ≤ (d.intoSlash.target name).toShell.count '/' := by
  rw [target, target, if_pos (intoDirectory_intoSlash d), inside_intoSlash h]
  split
  · exact Nat.le_refl _
  · rw [Word.count_toShell, Word.count_toShell, inside, Word.withSlash, if_neg (by simp [h]),
      Word.slashes_append, Word.slashes_append, Nat.add_assoc]
    exact Nat.le_add_right _ _

theorem count_directory_le (hpath : ∀ path, d.dest.text? = some path → '/' ∈ path) (unpacks : Bool) :
    (d.directory unpacks).count '/' ≤ d.dest.toShell.count '/' := by
  unfold directory
  split
  · exact Nat.le_refl _
  · split
    · next path htext =>
      rw [Word.eq_literal_of_text? htext, Word.count_toShell, Word.count_toShell, Word.slashes_literal,
        Word.slashes_literal]
      exact Path.count_parent_le (hpath path htext)
    · rw [List.count_append, List.count_append]
      exact Nat.le_of_eq (Nat.zero_add _)

/-! ## Commands and files -/

theorem count_makeCommand_lt (hpath : ∀ path, d.dest.text? = some path → '/' ∈ path) (unpacks : Bool) :
    (d.makeCommand unpacks).count '/' < (d.intoSlash.makeCommand unpacks).count '/' := by
  have hlt : (d.directory unpacks).count '/' < (d.intoSlash.directory unpacks).count '/' := by
    have hdirectory : d.intoSlash.directory unpacks = d.intoSlash.dest.toShell := by
      rw [directory, if_pos (by simp [intoDirectory_intoSlash])]
    rw [hdirectory, count_dest_intoSlash]
    exact Nat.lt_succ_of_le (count_directory_le hpath unpacks)
  exact count_append_lt _ hlt

theorem count_copyCommand_le (d : Delivery) (o : Options) (sources : List Word) :
    (d.copyCommand o sources).flatten.count '/' ≤ (d.intoSlash.copyCommand o sources).flatten.count '/' := by
  have hdest : (' ' :: d.dest.toShell).count '/' ≤ (' ' :: d.intoSlash.dest.toShell).count '/' := by
    rw [List.count_cons_of_ne (by decide), List.count_cons_of_ne (by decide)]
    exact count_dest_le d
  unfold copyCommand
  split
  · exact Nat.le_refl _
  · rw [List.flatten_singleton, List.flatten_singleton]
    exact count_append_le (Nat.le_refl _) hdest

theorem count_fetchCommand_le (h : d.dest.endsWith ['/'] = false) (unpacks : Bool) (url : Url) :
    (d.fetchCommand unpacks url).count '/' ≤ (d.intoSlash.fetchCommand unpacks url).count '/' := by
  refine count_append_le (count_append_le (Nat.le_refl _) ?_) (Nat.le_refl _)
  rw [inside_intoSlash h]
  split
  · exact Nat.le_refl _
  · exact count_target_le h url.fileName

theorem count_unpackCommand_le (d : Delivery) (o : Options) (archive : Word) :
    (d.unpackCommand o archive).count '/' ≤ (d.intoSlash.unpackCommand o archive).count '/' :=
  count_append_le (Nat.le_refl _) (count_dest_le d)

theorem count_ownership_le : d.ownership.flatten.count '/' ≤ d.intoSlash.ownership.flatten.count '/' := by
  have hdest := count_dest_intoSlash d
  have hflags : d.intoSlash.flags = d.flags := rfl
  unfold ownership
  rw [hflags]
  cases d.flags.owner <;> cases d.flags.mode <;>
    simp only [Option.map_none, Option.map_some, Option.toList, List.nil_append, List.append_nil,
      List.cons_append, List.flatten_cons, List.flatten_nil, List.count_append, List.count_cons,
      List.count_nil] <;>
    omega

/-- The name and the contents of a source that is embedded. -/
def embedSource? (o : Options) (files : FileView) (source : Word) : Option (Text × Bytes) := do
  let path ← embedPath? o source
  let name ← Path.fileName? path
  let bytes ← files path
  pure (name, bytes)

theorem embedded?_eq_map (d : Delivery) (source : Word) :
    d.embedded? o files source =
      (embedSource? o files source).map fun file => embedLines o.pack (d.target file.1).toShell file.2 := by
  unfold embedded? embedSource?
  cases embedPath? o source with
  | none => rfl
  | some path =>
    show (Path.fileName? path).bind _ = Option.map _ ((Path.fileName? path).bind _)
    cases Path.fileName? path with
    | none => rfl
    | some name => cases files path <;> rfl

theorem ownSources_intoSlash (sources : List Source) :
    d.intoSlash.ownSources o files sources = d.ownSources o files sources := by
  simp only [ownSources, embedded?_eq_map, Option.isNone_map]

theorem count_embeddedFiles_le (h : d.dest.endsWith ['/'] = false) (o : Options) (files : FileView)
    (sources : List Source) :
    (d.embeddedFiles o files sources).flatten.flatten.count '/' ≤
      (d.intoSlash.embeddedFiles o files sources).flatten.flatten.count '/' := by
  have hfiles : ∀ e : Delivery, (e.embeddedFiles o files sources).flatten.flatten =
      (((sources.filterMap Source.copied?).filterMap (embedSource? o files)).map fun file =>
        (embedLines o.pack (e.target file.1).toShell file.2).flatten).flatten := by
    intro e
    have hembedded : e.embedded? o files = fun source => (embedSource? o files source).map
        fun file => embedLines o.pack (e.target file.1).toShell file.2 :=
      funext fun source => embedded?_eq_map e source
    rw [embeddedFiles, hembedded, ← List.map_filterMap, List.flatten_flatten, List.map_map]
    rfl
  rw [hfiles, hfiles]
  refine count_flatten_map_le (fun file => ?_) _
  have htarget := count_target_le h file.1
  simp only [embedLines, List.cons_append, List.flatten_cons, List.count_append]
  omega

theorem count_assemble (d : Delivery) (commands : List Text) (embedded : List (List Text)) :
    (d.assemble commands embedded).flatten.count '/' =
      commands.flatten.count '/' + embedded.flatten.flatten.count '/' + d.ownership.flatten.count '/' := by
  have hchain : ∀ commands, (chain commands).count '/' = commands.flatten.count '/' := fun commands =>
    Text.count_join (by decide) commands
  unfold assemble
  split
  · next h =>
    rw [List.flatten_singleton, hchain, List.flatten_append, List.count_append, h]
    rfl
  · rw [List.cons_append, List.flatten_cons, List.flatten_append, List.count_append, List.count_append, hchain,
      Nat.add_assoc]
    split
    · next h => rw [h]
    · rw [List.flatten_singleton, hchain]

theorem count_lines_compile (d : Delivery) (s : State) (sources : List Source) :
    (d.compile o files s sources).lines.flatten.count '/' =
      (d.makeCommand !(sources.filterMap Source.archive?).isEmpty).count '/' +
        ((d.copyCommand o (d.ownSources o files sources)).flatten.count '/' +
          ((sources.filterMap Source.url?).map
            (d.fetchCommand !(sources.filterMap Source.archive?).isEmpty)).flatten.count '/' +
          ((sources.filterMap Source.archive?).map (d.unpackCommand o)).flatten.count '/') +
        (d.embeddedFiles o files sources).flatten.flatten.count '/' + d.ownership.flatten.count '/' := by
  simp only [compile, filterMap_ownFiles, map_filter_ownFiles]
  rw [count_assemble, List.cons_append, List.cons_append, List.flatten_cons, List.flatten_append,
    List.flatten_append, List.count_append, List.count_append, List.count_append]

/-- A destination with a slash at its end and the one without it give different lines. -/
theorem lines_compile_intoSlash_ne (h : d.dest.endsWith ['/'] = false)
    (hpath : ∀ path, d.dest.text? = some path → '/' ∈ path) (s : State) (sources : List Source) :
    (d.intoSlash.compile o files s sources).lines ≠ (d.compile o files s sources).lines := by
  intro heq
  -- No part of the lines loses a slash, and the command that makes the directory gets one.
  have hcount := congrArg (fun lines => lines.flatten.count '/') heq
  simp only [count_lines_compile, ownSources_intoSlash] at hcount
  have hmake := count_makeCommand_lt hpath !(sources.filterMap Source.archive?).isEmpty
  have hcopy := count_copyCommand_le d o (d.ownSources o files sources)
  have hfetch := count_flatten_map_le (count_fetchCommand_le h !(sources.filterMap Source.archive?).isEmpty)
    (sources.filterMap Source.url?)
  have hunpack := count_flatten_map_le (count_unpackCommand_le d o) (sources.filterMap Source.archive?)
  have hembed := count_embeddedFiles_le h o files sources
  have howner := count_ownership_le (d := d)
  omega

end Delivery

end BuildScript
