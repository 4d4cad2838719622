import BuildScript.Proofs.Posix.Inert

/-!
# Words as a shell reads them

What a shell reads from literal text that was quoted and from words that were written as shell words. All
of it is inert; a word refers to the same variables as the word of the build file that it was written for
(`Reads`), and it has the same value if no modifier has a character that closes a brace.

The pieces of a word are written next to each other without regard to what stands before or after them.
That they are read one by one is `run_append`, as each piece leaves the reader where it was.
-/

namespace BuildScript

namespace Posix

/-- Marks that are what a word of a build file means: the shell puts a text in their place, they refer to
the variables that the word refers to, and the text is the value of the word. -/
structure Reads (live : Char → Bool) (w : Word) (ms : List Mark) : Prop where
  inert : ∀ m ∈ ms, m.Inert live
  references : references ms = w.names
  value : w.closed = true → ∀ (m : Machine) (ρ : Vars), textOf? m ρ ms = some (w.value ρ)

namespace Reads

variable {live : Char → Bool} {v w : Word} {ms ns : List Mark} {t : Text}

theorem append (hv : Reads live v ms) (hw : Reads live w ns) : Reads live (v ++ w) (ms ++ ns) where
  inert m hm := (List.mem_append.1 hm).elim (hv.inert m) (hw.inert m)
  references := by rw [references_append, hv.references, hw.references, Word.names_append]
  value h m ρ := by
    rw [Word.closed_append, Bool.and_eq_true] at h
    rw [Word.value_append]
    exact textOf?_append m ρ (hv.value h.1 m ρ) (hw.value h.2 m ρ)

/-- Literal text is read as marks that have no parameters. -/
theorem ofLiteral (hinert : ∀ m ∈ ms, m.Inert live) (hreferences : Posix.references ms = [])
    (hvalue : ∀ (m : Machine) (ρ : Vars), textOf? m ρ ms = some t) :
    Reads live (.literal t) ms where
  inert := hinert
  references := by rw [hreferences, Word.names_literal]
  value _ m ρ := by rw [hvalue m ρ, Word.value_literal]

theorem ofPlain (h : ∀ c ∈ t, Shell.isPlain c = true) :
    Reads live (.literal t) (t.map (.char false)) := by
  refine .ofLiteral ?_ (references_map_char false t) fun m ρ => textOf?_map_char m ρ false t
  intro m hm
  obtain ⟨c, hc, rfl⟩ := List.mem_map.1 hm
  exact .bare c (Or.inl (h c hc))

end Reads

/-! ## Literal text -/

namespace Reader

/-- Whether a reader stands outside all quotes and braces with nothing pending. -/
structure IsBare (r : Reader) : Prop where
  double : r.double = false
  pending : r.pending = .nothing
  closer : ∀ quoted, r.closer ≠ .brace quoted

theorem IsBare.addAll {r : Reader} (h : r.IsBare) (ms : List Mark) : (r.addAll ms).IsBare :=
  ⟨h.double, h.pending, h.closer⟩

theorem IsBare.add {r : Reader} (h : r.IsBare) (m : Mark) : (r.add m).IsBare :=
  ⟨h.double, h.pending, h.closer⟩

theorem isBare_start : start.IsBare := ⟨rfl, rfl, fun _ h => by cases h⟩

/-- The characters that mean something to a shell outside quotes. -/
def isMeaningful (c : Char) : Bool :=
  "\\\"$\x60'# \t".toList.contains c || isOperator c

/-- Outside quotes and braces, what does not open a double quote or an expansion is read as `bare` says. -/
theorem IsBare.step_eq_bare {r : Reader} (h : r.IsBare) {c : Char}
    (hc : "\\\"$\x60".toList.contains c = false) : r.step c = r.bare c := by
  have hne : ∀ d ∈ "\\\"$\x60".toList, c ≠ d := by
    rintro d hd rfl
    rw [List.contains_iff_mem.2 hd] at hc
    cases hc
  rw [step_nothing h.pending, plain, if_neg (hne '\\' (by decide)), if_neg (hne '"' (by decide)),
    if_neg (hne '$' (by decide)), if_neg (hne '\x60' (by decide)), h.double]
  cases hcloser : r.closer with
  | brace quoted => exact absurd hcloser (h.closer quoted)
  | _ => rfl

theorem IsBare.step {r : Reader} (h : r.IsBare) {c : Char} (hc : isMeaningful c = false) :
    r.step c = r.add (.char false c) := by
  simp only [isMeaningful, Bool.or_eq_false_iff] at hc
  obtain ⟨hchars, hoperator⟩ := hc
  have hne : ∀ d ∈ "\\\"$\x60'# \t".toList, c ≠ d := by
    rintro d hd rfl
    rw [List.contains_iff_mem.2 hd] at hchars
    cases hchars
  have hbare : "\\\"$\x60".toList.contains c = false := by
    rw [Bool.eq_false_iff]
    intro hmem
    exact hne c (List.mem_append_left "'# \t".toList (List.contains_iff_mem.1 hmem)) rfl
  rw [h.step_eq_bare hbare, bare, if_neg (hne '\'' (by decide)),
    if_neg (fun hcomment => hne '#' (by decide) hcomment.1), if_neg, if_neg]
  · simp [hoperator]
  · rintro (rfl | rfl)
    · exact hne ' ' (by decide) rfl
    · exact hne '\t' (by decide) rfl

theorem IsBare.run {r : Reader} (h : r.IsBare) {t : Text} (ht : ∀ c ∈ t, isMeaningful c = false) :
    r.run t = r.addAll (t.map (.char false)) := by
  induction t generalizing r with
  | nil => simp
  | cons c rest ih =>
    rw [run_cons, h.step (ht c List.mem_cons_self),
      ih (h.add _) fun d hd => ht d (List.mem_cons_of_mem _ hd), add_eq_addAll, addAll_addAll]
    rfl

/-- A single quote opens quotes that only a single quote closes. -/
theorem IsBare.step_quote {r : Reader} (h : r.IsBare) :
    r.step '\'' = (r.add .quotes).await .single :=
  h.step_eq_bare rfl

/-- A double quote opens quotes that a double quote closes. -/
theorem IsBare.step_doubleQuote {r : Reader} (h : r.IsBare) :
    r.step '"' = { r.add .quotes with double := true } := by
  rw [step_nothing h.pending]
  simp [plain, h.double]

end Reader

theorem isMeaningful_of_isPlain {c : Char} (h : Shell.isPlain c = true) :
    Reader.isMeaningful c = false := by
  rw [Bool.eq_false_iff]
  intro hmeaning
  have hnone : ("\\\"$\x60'# \t;&|()<>\n".toList.any Shell.isPlain) = false := by decide
  have hmem : c ∈ "\\\"$\x60'# \t;&|()<>\n".toList := by
    simpa [Reader.isMeaningful, isOperator, or_assoc] using hmeaning
  exact List.any_eq_false.1 hnone c hmem h

theorem isMeaningful_of_isGlob {c : Char} (h : Shell.isGlob c = true) :
    Reader.isMeaningful c = false := by
  simp only [Shell.isGlob, Bool.or_eq_true, beq_iff_eq] at h
  rcases h with ((rfl | rfl) | rfl) | rfl <;> decide

/-- The marks of a text between single quotes. A single quote is written outside them, between double
quotes. -/
def quotedMarks (t : Text) : List Mark :=
  t.flatMap fun c => if c = '\'' then [.quotes, .char true c, .quotes] else [.char true c]

theorem inert_quotedMarks (live : Char → Bool) (t : Text) : ∀ m ∈ quotedMarks t, m.Inert live := by
  intro m hm
  obtain ⟨c, -, hc⟩ := List.mem_flatMap.1 hm
  split at hc
  · simp only [List.mem_cons, List.not_mem_nil, or_false] at hc
    rcases hc with rfl | rfl | rfl
    · exact .quotes
    · exact .quoted c
    · exact .quotes
  · rw [List.mem_singleton.1 hc]
    exact .quoted c

theorem references_quotedMarks (t : Text) : references (quotedMarks t) = [] := by
  induction t with
  | nil => rfl
  | cons c rest ih =>
    rw [quotedMarks, List.flatMap_cons, ← quotedMarks, references_append, ih, List.append_nil]
    split <;> rfl

theorem textOf?_quotedMarks (m : Machine) (ρ : Vars) (t : Text) :
    textOf? m ρ (quotedMarks t) = some t := by
  induction t with
  | nil => rfl
  | cons c rest ih =>
    rw [quotedMarks, List.flatMap_cons, ← quotedMarks]
    refine textOf?_append m ρ (s := [c]) ?_ ih
    split <;> rfl

namespace Reader

theorem step_single (r : Reader) {c : Char} (hc : c ≠ '\'') :
    (r.await .single).step c = (r.add (.char true c)).await .single := by
  show (if c = '\'' then _ else _) = _
  rw [if_neg hc]
  rfl

theorem run_escapeSingle {r : Reader} (h : r.IsBare) (t : Text) :
    (r.await .single).run (t.flatMap Shell.escapeSingle) =
      (r.addAll (quotedMarks t)).await .single := by
  induction t generalizing r with
  | nil => simp [quotedMarks]
  | cons c rest ih =>
    have hcons : quotedMarks (c :: rest) =
        (if c = '\'' then [.quotes, .char true c, .quotes] else [.char true c]) ++ quotedMarks rest := by
      rw [quotedMarks, List.flatMap_cons]
      rfl
    rw [List.flatMap_cons, run_append, hcons]
    by_cases hc : c = '\''
    · -- The quotes are closed, and opened again after one quoted quote.
      have hread : (r.await .single).run (Shell.escapeSingle c) =
          (r.addAll [.quotes, .char true c, .quotes]).await .single := by
        obtain ⟨⟨closer, double, marks⟩, pending, outer⟩ := r
        obtain ⟨rfl, rfl, hcloser⟩ := h
        subst hc
        cases closer with
        | brace quoted => exact absurd rfl (hcloser quoted)
        | _ => simp [Shell.escapeSingle, step, await, settle, plain, bare, add, addAll]
      rw [hread, ih (h.addAll _), addAll_addAll, if_pos hc]
    · have htext : Shell.escapeSingle c = [c] := by simp [Shell.escapeSingle, hc]
      rw [htext, run_cons, run_nil, step_single r hc, ih (h.add _), add_eq_addAll, addAll_addAll,
        if_neg hc]

theorem run_singleQuoted {r : Reader} (h : r.IsBare) (t : Text) :
    r.run (Shell.singleQuoted t) = r.addAll (.quotes :: quotedMarks t) := by
  have htext : Shell.singleQuoted t = '\'' :: (t.flatMap Shell.escapeSingle ++ ['\'']) := rfl
  rw [htext, run_cons, h.step_quote, run_append, run_escapeSingle (h.add _), run_cons, run_nil]
  show ((r.add .quotes).addAll (quotedMarks t)).settle = _
  obtain ⟨⟨closer, double, marks⟩, pending, outer⟩ := r
  obtain ⟨-, rfl, -⟩ := h
  simp [settle, add, addAll]

theorem IsBare.run_plain {r : Reader} (h : r.IsBare) {t : Text} (ht : ∀ c ∈ t, Shell.isPlain c = true) :
    r.run t = r.addAll (t.map (.char false)) :=
  h.run fun c hc => isMeaningful_of_isPlain (ht c hc)

end Reader

/-- The marks of quoted text. -/
def quoteMarks (t : Text) : List Mark :=
  if t ≠ [] ∧ t.all Shell.isPlain = true then t.map (.char false) else .quotes :: quotedMarks t

theorem isSolid_quoteMarks (t : Text) : (quoteMarks t).any Mark.isSolid = true := by
  unfold quoteMarks
  split
  · next h =>
    cases t with
    | nil => exact absurd rfl h.1
    | cons c rest => rfl
  · rfl

/-- Quoted text means itself. -/
theorem reads_quoteMarks (live : Char → Bool) (t : Text) :
    Reads live (.literal t) (quoteMarks t) := by
  unfold quoteMarks
  split
  · next h => exact .ofPlain (List.all_eq_true.1 h.2)
  · refine .ofLiteral ?_ (references_quotedMarks t) ?_
    · intro m hm
      rcases List.mem_cons.1 hm with rfl | hm
      · exact .quotes
      · exact inert_quotedMarks live t m hm
    · intro m ρ
      have hquotes : textOf? m ρ [.quotes] = some [] := rfl
      exact textOf?_append m ρ hquotes (textOf?_quotedMarks m ρ t)

namespace Reader

theorem IsBare.run_quote {r : Reader} (h : r.IsBare) (t : Text) :
    r.run (Shell.quote t) = r.addAll (quoteMarks t) := by
  unfold quoteMarks Shell.quote
  by_cases hnil : t = []
  · subst hnil
    exact run_singleQuoted h []
  · by_cases hplain : t.all Shell.isPlain = true
    · rw [if_neg hnil, if_pos hplain, if_pos ⟨hnil, hplain⟩]
      exact h.run_plain (List.all_eq_true.1 hplain)
    · rw [if_neg hnil, if_neg hplain, if_neg fun h => hplain h.2]
      exact run_singleQuoted h t

/-- Quoted text is read as itself. -/
theorem run_quote (live : Char → Bool) {r : Reader} (h : r.IsBare) (t : Text) :
    ∃ ms, r.run (Shell.quote t) = r.addAll ms ∧ ms.any Mark.isSolid = true ∧
      Reads live (.literal t) ms :=
  ⟨quoteMarks t, h.run_quote t, isSolid_quoteMarks t, reads_quoteMarks live t⟩

end Reader

/-! ## Words between double quotes -/

namespace Nest

/-- Whether all marks of a nest are inert. -/
def Inert (live : Char → Bool) : Nest → Prop
  | .quotes marks => ∀ m ∈ marks, m.Inert live
  | .inside outer name _ marks =>
    outer.Inert live ∧ isName name = true ∧ ∀ m ∈ marks, m.Inert live

/-- The names of the parameters in a nest, from left to right. -/
def references : Nest → List Text
  | .quotes marks => Posix.references marks
  | .inside outer name _ marks => outer.references ++ name :: Posix.references marks

variable {live : Char → Bool}

theorem Inert.add {n : Nest} (h : n.Inert live) {m : Mark} (hm : m.Inert live) :
    (n.add m).Inert live := by
  have hmarks : ∀ {marks : List Mark}, (∀ k ∈ marks, k.Inert live) →
      ∀ k ∈ marks ++ [m], k.Inert live := by
    intro marks hall k hk
    rcases List.mem_append.1 hk with hk | hk
    · exact hall k hk
    · rw [List.mem_singleton.1 hk]
      exact hm
  cases n with
  | quotes marks => exact hmarks h
  | inside outer name choice marks => exact ⟨h.1, h.2.1, hmarks h.2.2⟩

theorem Inert.close {n : Nest} (h : n.Inert live) : n.close.Inert live := by
  cases n with
  | quotes marks => exact Inert.add (n := .quotes marks) h (.quoted '}')
  | inside outer name choice marks => exact h.1.add (.choice name h.2.1 choice marks h.2.2)

theorem Inert.put {w : Word} (hw : w.named = true) {n : Nest} (h : n.Inert live) :
    (n.put w).Inert live := by
  induction w generalizing n with
  | nil => exact h
  | char c rest ih =>
    rw [Nest.put]
    split
    · exact ih hw h.close
    · exact ih hw (h.add (.quoted c))
  | var name rest ih =>
    simp only [Word.named, Word.names, List.all_cons, Bool.and_eq_true] at hw
    exact ih hw.2 (h.add (.param name hw.1))
  | cond name choice arg rest iharg ihrest =>
    simp only [Word.named, Word.names, List.all_append, List.all_cons, Bool.and_eq_true] at hw
    obtain ⟨⟨hname, harg⟩, hrest⟩ := hw
    have hinside : (Nest.inside n name choice []).Inert live := ⟨h, hname, by simp⟩
    exact ihrest hrest (iharg harg hinside).close

theorem references_add (n : Nest) (m : Mark) :
    (n.add m).references = n.references ++ m.references := by
  cases n <;> simp [add, references, references_append, Posix.references]

theorem references_close (n : Nest) : n.close.references = n.references := by
  cases n with
  | quotes marks => simp [close, references, references_append, Posix.references, Mark.references]
  | inside outer name choice marks => simp [close, references_add, references, Mark.references]

/-- A word refers to the same variables however its braces are read. -/
theorem references_put (w : Word) (n : Nest) :
    (n.put w).references = n.references ++ w.names := by
  induction w generalizing n with
  | nil => simp [put, Word.names]
  | char c rest ih =>
    rw [put, ih, Word.names]
    split
    · rw [references_close]
    · simp [references_add, Mark.references]
  | var name rest ih => simp [put, ih, references_add, Mark.references, Posix.references, Word.names]
  | cond name choice arg rest iharg ihrest =>
    rw [put, ihrest, references_close, iharg]
    simp [references, Posix.references, Word.names]

end Nest

theorem textOf?_param (m : Machine) (ρ : Vars) (name : Text) :
    textOf? m ρ [.param true name [] []] = some (ρ.text name) := by
  have hvalue : (Atom.ofValue true (ρ.text name)).flatMap Atom.text = ρ.text name := by
    simp [Atom.ofValue, List.flatMap_map, Atom.text]
  simp [textOf?, atoms?, Mark.atoms?, hvalue]

theorem textOf?_choice (m : Machine) (ρ : Vars) (name : Text) (choice : Choice) {arg : List Mark}
    {t : Text} (h : textOf? m ρ arg = some t) :
    textOf? m ρ [.param true name choice.operator arg] = some (choice.pick (ρ.text name) t) := by
  have hvalue : (Atom.ofValue true (ρ.text name)).flatMap Atom.text = ρ.text name := by
    simp [Atom.ofValue, List.flatMap_map, Atom.text]
  obtain ⟨as, has, rfl⟩ := Option.map_eq_some_iff.1 h
  cases choice with
  | default =>
    by_cases hown : ρ.text name = []
    · simp [textOf?, atoms?, Mark.atoms?, Choice.operator, Choice.pick, hown, has]
    · simp [textOf?, atoms?, Mark.atoms?, Choice.operator, Choice.pick, hown, hvalue]
  | alternate =>
    by_cases hown : ρ.text name = []
    · simp [textOf?, atoms?, Mark.atoms?, Choice.operator, Choice.pick, hown]
    · simp [textOf?, atoms?, Mark.atoms?, Choice.operator, Choice.pick, hown, has]

/-- The marks of a word between double quotes have its value. -/
theorem textOf?_marks (m : Machine) (ρ : Vars) (w : Word) :
    textOf? m ρ w.marks = some (w.value ρ) := by
  induction w with
  | nil => rfl
  | char c rest ih =>
    have hchar : textOf? m ρ [.char true c] = some [c] := rfl
    exact textOf?_append m ρ hchar ih
  | var name rest ih => exact textOf?_append m ρ (textOf?_param m ρ name) ih
  | cond name choice arg rest iharg ihrest =>
    exact textOf?_append m ρ (textOf?_choice m ρ name choice iharg) ihrest

/-- A word between double quotes is read as marks between them. -/
theorem Reader.run_doubleQuoted {r : Reader} (h : r.IsBare) {w : Word} (hw : w.named = true) :
    ∃ ms, (Nest.quotes []).put w = .quotes ms ∧
      r.run ('"' :: w.toDoubleQuoted ++ ['"']) = r.addAll (.quotes :: ms) := by
  obtain ⟨ms, hms⟩ := Nest.exists_put_quotes w []
  refine ⟨ms, hms, ?_⟩
  have hinside := (Nest.run_toDoubleQuoted (r := { r.add .quotes with double := true }) rfl h.pending
    hw (n := .quotes []) rfl).1
  rw [hms] at hinside
  simp only [Nest.reader, addAll_nil] at hinside
  rw [List.cons_append, run_cons, h.step_doubleQuote, run_append, hinside, run_cons, run_nil]
  obtain ⟨⟨closer, double, marks⟩, pending, outer⟩ := r
  obtain ⟨rfl, rfl, -⟩ := h
  simp [step, plain, add, addAll]

theorem reads_put (live : Char → Bool) {w : Word} (hw : w.named = true) {ms : List Mark}
    (h : (Nest.quotes []).put w = .quotes ms) : Reads live w (.quotes :: ms) where
  inert m hm := by
    have hinert : (Nest.quotes ms).Inert live :=
      h ▸ Nest.Inert.put hw (n := .quotes []) (by simp [Nest.Inert])
    rcases List.mem_cons.1 hm with rfl | hm
    · exact .quotes
    · exact hinert m hm
  references := by
    have href := Nest.references_put w (.quotes [])
    rw [h] at href
    simpa [Nest.references, references, Mark.references] using href
  value hclosed m ρ := by
    rw [Nest.put_of_closed hclosed, List.nil_append] at h
    cases h
    have hquotes : textOf? m ρ [.quotes] = some [] := rfl
    exact textOf?_append m ρ hquotes (textOf?_marks m ρ w)

/-! ## Words as shell words -/

/-- A way to write literal text that a shell reads as that text, except that it may leave the characters
of `live` unquoted. -/
def IsQuoting (live : Char → Bool) (quote : Text → Text) : Prop :=
  ∀ (r : Reader), r.IsBare → ∀ t, t ≠ [] →
    ∃ ms, r.run (quote t) = r.addAll ms ∧ ms.any Mark.isSolid = true ∧ Reads live (.literal t) ms

theorem isQuoting_quote (live : Char → Bool) : IsQuoting live Shell.quote :=
  fun _ h t _ => Reader.run_quote live h t

/-- The text of a stretch of a pattern. -/
def globText : Shell.GlobPart → Text
  | .live c => [c]
  | .literal t => t

/-- The stretches of a pattern make it up; a literal one is not empty, and a live one is a pattern
character. -/
theorem globParts_spec (t : Text) :
    (Shell.globParts t).flatMap globText = t ∧
      ∀ p ∈ Shell.globParts t, p ≠ .literal [] ∧ ∀ c, p = .live c → Shell.isGlob c = true := by
  induction t with
  | nil => simp [Shell.globParts]
  | cons c rest ih =>
    obtain ⟨htext, hparts⟩ := ih
    by_cases hglob : Shell.isGlob c = true
    · rw [Shell.globParts, if_pos hglob]
      refine ⟨by simp [globText, htext], ?_⟩
      intro p hp
      rcases List.mem_cons.1 hp with rfl | hp
      · exact ⟨by simp, fun d hd => by cases hd; exact hglob⟩
      · exact hparts p hp
    · rw [Shell.globParts, if_neg hglob]
      split
      · next u parts heq =>
        rw [heq] at htext hparts
        refine ⟨by simpa [globText] using htext, ?_⟩
        intro p hp
        rcases List.mem_cons.1 hp with rfl | hp
        · exact ⟨by simp, fun d hd => by cases hd⟩
        · exact hparts p (List.mem_cons_of_mem _ hp)
      · refine ⟨by simp [globText, htext], ?_⟩
        intro p hp
        rcases List.mem_cons.1 hp with rfl | hp
        · exact ⟨by simp, fun d hd => by cases hd⟩
        · exact hparts p hp

/-- The marks of a stretch of a pattern. -/
def partMarks : Shell.GlobPart → List Mark
  | .live c => [.char false c]
  | .literal t => quoteMarks t

/-- The marks of a quoted pattern. -/
def globMarks (t : Text) : List Mark :=
  if Shell.hasGlob t then (Shell.globParts t).flatMap partMarks else quoteMarks t

theorem isSolid_partMarks (p : Shell.GlobPart) : (partMarks p).any Mark.isSolid = true := by
  cases p with
  | live c => rfl
  | literal t => exact isSolid_quoteMarks t

section Parts

variable {parts : List Shell.GlobPart} (h : ∀ p ∈ parts, ∀ c, p = .live c → Shell.isGlob c = true)

include h

theorem Reader.IsBare.run_globParts {r : Reader} (hr : r.IsBare) :
    r.run (parts.flatMap Shell.GlobPart.render) = r.addAll (parts.flatMap partMarks) := by
  induction parts generalizing r with
  | nil => simp
  | cons p parts ih =>
    obtain ⟨hp, hothers⟩ := List.forall_mem_cons.1 h
    have hfirst : r.run p.render = r.addAll (partMarks p) := by
      cases p with
      | live c => exact hr.step (isMeaningful_of_isGlob (hp c rfl))
      | literal t => exact hr.run_quote t
    rw [List.flatMap_cons, List.flatMap_cons, run_append, hfirst, ih hothers (hr.addAll _), addAll_addAll]

theorem reads_flatMap_partMarks :
    Reads Shell.isGlob (.literal (parts.flatMap globText)) (parts.flatMap partMarks) := by
  induction parts with
  | nil => exact ⟨by simp, rfl, fun _ _ _ => rfl⟩
  | cons p parts ih =>
    obtain ⟨hp, hothers⟩ := List.forall_mem_cons.1 h
    have hfirst : Reads Shell.isGlob (.literal (globText p)) (partMarks p) := by
      cases p with
      | live c =>
        refine .ofLiteral ?_ rfl fun m ρ => rfl
        intro m hm
        rw [List.mem_singleton.1 hm]
        exact .bare c (Or.inr (hp c rfl))
      | literal t => exact reads_quoteMarks Shell.isGlob t
    rw [List.flatMap_cons, List.flatMap_cons, Word.literal_append]
    exact hfirst.append (ih hothers)

end Parts

theorem Reader.IsBare.run_quoteGlob {r : Reader} (h : r.IsBare) (t : Text) :
    r.run (Shell.quoteGlob t) = r.addAll (globMarks t) := by
  unfold Shell.quoteGlob globMarks
  split
  · exact run_globParts (fun p hp => ((globParts_spec t).2 p hp).2) h
  · exact h.run_quote t

/-- A quoted pattern is read as itself, with its pattern characters live. -/
theorem reads_globMarks (t : Text) :
    (globMarks t).any Mark.isSolid = true ∧ Reads Shell.isGlob (.literal t) (globMarks t) := by
  obtain ⟨htext, hparts⟩ := globParts_spec t
  unfold globMarks
  split
  · next hglob =>
    have hreads := reads_flatMap_partMarks fun p hp => (hparts p hp).2
    rw [htext] at hreads
    refine ⟨?_, hreads⟩
    cases hsplit : Shell.globParts t with
    | nil =>
      rw [hsplit] at htext
      subst htext
      cases hglob
    | cons p parts => rw [List.flatMap_cons, List.any_append, isSolid_partMarks, Bool.true_or]
  · exact ⟨isSolid_quoteMarks t, reads_quoteMarks Shell.isGlob t⟩

theorem isQuoting_quoteGlob : IsQuoting Shell.isGlob Shell.quoteGlob :=
  fun _ h t _ => ⟨globMarks t, h.run_quoteGlob t, reads_globMarks t⟩

end Posix

/-- A stretch of a word as a word of its own. -/
def Word.Segment.word : Word.Segment → Word
  | .literal t => .literal t
  | .var name => .var name .nil
  | .cond name choice arg => .cond name choice arg .nil

/-- Words put together. -/
def Word.concat (ws : List Word) : Word := ws.foldr (· ++ ·) .nil

/-- The stretches of a word make it up, and none of them is empty. -/
theorem Word.segments_spec (w : Word) :
    concat (w.segments.map Segment.word) = w ∧ ∀ s ∈ w.segments, s ≠ .literal [] := by
  induction w with
  | nil => exact ⟨rfl, by simp [segments]⟩
  | char c rest ih =>
    obtain ⟨hword, hne⟩ := ih
    rw [segments]
    split
    · next t others heq =>
      rw [heq] at hword hne
      refine ⟨?_, ?_⟩
      · rw [← hword]
        rfl
      · intro s hs
        rcases List.mem_cons.1 hs with rfl | hs
        · simp
        · exact hne s (List.mem_cons_of_mem _ hs)
    · refine ⟨?_, ?_⟩
      · show Word.char c (concat (rest.segments.map Segment.word)) = _
        rw [hword]
      · intro s hs
        rcases List.mem_cons.1 hs with rfl | hs
        · simp
        · exact hne s hs
  | var name rest ih =>
    obtain ⟨hword, hne⟩ := ih
    refine ⟨?_, ?_⟩
    · show Word.var name (concat (rest.segments.map Segment.word)) = _
      rw [hword]
    · intro s hs
      rcases List.mem_cons.1 hs with rfl | hs
      · simp
      · exact hne s hs
  | cond name choice arg rest _ ih =>
    obtain ⟨hword, hne⟩ := ih
    refine ⟨?_, ?_⟩
    · show Word.cond name choice arg (concat (rest.segments.map Segment.word)) = _
      rw [hword]
    · intro s hs
      rcases List.mem_cons.1 hs with rfl | hs
      · simp
      · exact hne s hs

namespace Posix

namespace Reader

theorem run_segment {live : Char → Bool} {quote : Text → Text} (hquote : IsQuoting live quote)
    {r : Reader} (h : r.IsBare) {s : Word.Segment} (hs : s.word.named = true)
    (hne : s ≠ .literal []) :
    ∃ ms, r.run (s.render quote) = r.addAll ms ∧ ms.any Mark.isSolid = true ∧
      Reads live s.word ms := by
  -- A reference is written as a word between double quotes that has nothing else.
  have hdouble : s.render quote = '"' :: s.word.toDoubleQuoted ++ ['"'] →
      ∃ ms, r.run (s.render quote) = r.addAll ms ∧ ms.any Mark.isSolid = true ∧
        Reads live s.word ms := by
    intro htext
    obtain ⟨ms, hput, hrun⟩ := run_doubleQuoted h hs
    exact ⟨.quotes :: ms, by rw [htext, hrun], rfl, reads_put live hs hput⟩
  cases s with
  | literal t =>
    apply hquote r h t
    rintro rfl
    exact hne rfl
  | var name => exact hdouble (by simp [Word.Segment.render, Word.Segment.word, Word.toDoubleQuoted])
  | cond name choice arg =>
    exact hdouble (by simp [Word.Segment.render, Word.Segment.word, Word.toDoubleQuoted])

theorem run_segments {live : Char → Bool} {quote : Text → Text} (hquote : IsQuoting live quote)
    {r : Reader} (h : r.IsBare) {ss : List Word.Segment}
    (hss : (Word.concat (ss.map Word.Segment.word)).named = true) (hne : ∀ s ∈ ss, s ≠ .literal []) :
    ∃ ms, r.run (ss.flatMap (Word.Segment.render quote)) = r.addAll ms ∧
      (ss ≠ [] → ms.any Mark.isSolid = true) ∧
      Reads live (Word.concat (ss.map Word.Segment.word)) ms := by
  induction ss generalizing r with
  | nil => exact ⟨[], by simp, fun hnil => absurd rfl hnil, ⟨by simp, rfl, fun _ _ _ => rfl⟩⟩
  | cons s ss ih =>
    have happend : Word.concat ((s :: ss).map Word.Segment.word) =
        s.word ++ Word.concat (ss.map Word.Segment.word) := rfl
    rw [happend, Word.named_append, Bool.and_eq_true] at hss
    obtain ⟨ms, hms, hsolid, hreads⟩ := run_segment hquote h hss.1 (hne s List.mem_cons_self)
    obtain ⟨ns, hns, -, hreads'⟩ :=
      ih (h.addAll ms) hss.2 fun q hq => hne q (List.mem_cons_of_mem _ hq)
    refine ⟨ms ++ ns, ?_, fun _ => by simp [hsolid], ?_⟩
    · rw [List.flatMap_cons, run_append, hms, hns, addAll_addAll]
    · rw [happend]
      exact hreads.append hreads'

/-- A word that is written as a shell word is read as what it means. -/
theorem run_render {live : Char → Bool} {quote : Text → Text} (hquote : IsQuoting live quote)
    {r : Reader} (h : r.IsBare) {w : Word} (hw : w.named = true) :
    ∃ ms, r.run (w.render quote) = r.addAll ms ∧ ms.any Mark.isSolid = true ∧ Reads live w ms := by
  obtain ⟨hword, hne⟩ := w.segments_spec
  cases w with
  | nil =>
    obtain ⟨ms, hms, hsolid, hreads⟩ := run_quote live h []
    exact ⟨ms, hms, hsolid, hreads⟩
  | char c rest | var name rest | cond name choice arg rest =>
    obtain ⟨ms, hms, hsolid, hreads⟩ := run_segments hquote h (hword.symm ▸ hw) hne
    rw [hword] at hreads
    refine ⟨ms, hms, hsolid ?_, hreads⟩
    intro hnil
    rw [hnil] at hword
    cases hword

theorem run_toShell (live : Char → Bool) {r : Reader} (h : r.IsBare) {w : Word}
    (hw : w.named = true) :
    ∃ ms, r.run w.toShell = r.addAll ms ∧ ms.any Mark.isSolid = true ∧ Reads live w ms :=
  run_render (isQuoting_quote live) h hw

theorem run_toShellGlob {r : Reader} (h : r.IsBare) {w : Word} (hw : w.named = true) :
    ∃ ms, r.run w.toShellGlob = r.addAll ms ∧ ms.any Mark.isSolid = true ∧
      Reads Shell.isGlob w ms :=
  run_render isQuoting_quoteGlob h hw

end Reader

end Posix

end BuildScript
