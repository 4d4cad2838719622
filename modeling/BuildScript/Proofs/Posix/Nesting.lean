import BuildScript.Proofs.Word.Value
import BuildScript.Word.Render

/-!
# Words between double quotes

What a shell reads from a word that is written between double quotes. Each reference opens braces; they
are closed by the next brace that is not escaped, which need not be the one that the reference was written
with, as the characters of a word are written without regard to braces. `Nest` holds the references that
are open, `Nest.put` what a word does to them, and `run_toDoubleQuoted` says that a shell does just this.

Inside braces a word is read as it was meant exactly if none of its characters closes a brace
(`put_of_braceFree`), directly between the quotes if no modifier has such a character (`put_of_closed`). In
any case no more references are open after a word than before it (`depth_put_le`), so the quotes are never
left; and each brace that closes a reference too early leaves another one over, which then is a character
between the quotes (`depth_put`).
-/

namespace BuildScript

/-- The marks of a word between double quotes, if it is read as it was meant. -/
def Word.marks : Word → List Posix.Mark
  | .nil => []
  | .char c rest => .char true c :: marks rest
  | .var name rest => .param true name [] [] :: marks rest
  | .cond name choice arg rest => .param true name choice.operator (marks arg) :: marks rest

/-- How many characters of a word close a brace, in modifiers too. -/
def Word.braces : Word → Nat
  | .nil => 0
  | .char c rest => (if c = '}' then 1 else 0) + braces rest
  | .var _ rest => braces rest
  | .cond _ _ arg rest => braces arg + braces rest

theorem Word.braces_eq_zero {w : Word} : w.braces = 0 ↔ w.braceFree = true := by
  induction w with
  | nil => simp [braces, braceFree]
  | char c rest ih => by_cases hc : c = '}' <;> simp [braces, braceFree, hc, ih]
  | var name rest ih => simpa [braces, braceFree] using ih
  | cond name choice arg rest iharg ihrest => simp [braces, braceFree, iharg, ihrest]

namespace Posix

/-- References that are open between double quotes, each with the marks of its word so far; outermost, the
marks that stand between the quotes. -/
inductive Nest where
  | quotes (marks : List Mark)
  | inside (outer : Nest) (name : Text) (choice : Choice) (marks : List Mark)

namespace Nest

/-- Adds a mark to the innermost reference. -/
def add (m : Mark) : Nest → Nest
  | .quotes marks => .quotes (marks ++ [m])
  | .inside outer name choice marks => .inside outer name choice (marks ++ [m])

/-- Adds marks to the innermost reference. -/
def addAll (ms : List Mark) : Nest → Nest
  | .quotes marks => .quotes (marks ++ ms)
  | .inside outer name choice marks => .inside outer name choice (marks ++ ms)

/-- What a closing brace does: it closes the innermost reference, and stands for itself if none is
open. -/
def close : Nest → Nest
  | .quotes marks => .quotes (marks ++ [.char true '}'])
  | .inside outer name choice marks => outer.add (.param true name choice.operator marks)

/-- What a word does that is written between the quotes. -/
def put : Word → Nest → Nest
  | .nil, n => n
  | .char c rest, n => put rest (if c = '}' then n.close else n.add (.char true c))
  | .var name rest, n => put rest (n.add (.param true name [] []))
  | .cond name choice arg rest, n => put rest (put arg (.inside n name choice [])).close

/-- Whether the names of all open references are ones. -/
def named : Nest → Bool
  | .quotes _ => true
  | .inside outer name _ _ => isName name && outer.named

/-- How many references are open. -/
def depth : Nest → Nat
  | .quotes _ => 0
  | .inside outer _ _ _ => outer.depth + 1

/-- The marks that stand between the quotes themselves. -/
def ground : Nest → List Mark
  | .quotes marks => marks
  | .inside outer _ _ _ => outer.ground

/-- A reader that is between the quotes, with references open. -/
def reader (r : Reader) : Nest → Reader
  | .quotes marks => r.addAll marks
  | .inside outer name choice marks =>
    ((outer.reader r).enter (.brace true)).addAll
      ((name ++ choice.operator).map (.char true) ++ marks)

@[simp] theorem addAll_nil (n : Nest) : n.addAll [] = n := by
  cases n <;> simp [addAll]

theorem addAll_cons (n : Nest) (m : Mark) (ms : List Mark) :
    n.addAll (m :: ms) = (n.add m).addAll ms := by
  cases n <;> simp [addAll, add]

@[simp] theorem depth_add (n : Nest) (m : Mark) : (n.add m).depth = n.depth := by
  cases n <;> rfl

@[simp] theorem named_add (n : Nest) (m : Mark) : (n.add m).named = n.named := by
  cases n <;> rfl

theorem named_close {n : Nest} (h : n.named = true) : n.close.named = true := by
  cases n with
  | quotes marks => rfl
  | inside outer name choice marks =>
    simp only [named, Bool.and_eq_true] at h
    simpa [close] using h.2

end Nest

end Posix

/-! ## What is read from a word that is read as it was meant -/

namespace Posix.Nest

theorem put_of_braceFree {w : Word} {n : Nest} (h : w.braceFree = true) :
    n.put w = n.addAll w.marks := by
  induction w generalizing n with
  | nil => simp [put, Word.marks]
  | char c rest ih =>
    simp only [Word.braceFree, Bool.and_eq_true, bne_iff_ne] at h
    rw [put, if_neg h.1, ih h.2, Word.marks, addAll_cons]
  | var name rest ih => rw [put, ih h, Word.marks, addAll_cons]
  | cond name choice arg rest iharg ihrest =>
    simp only [Word.braceFree, Bool.and_eq_true] at h
    rw [put, iharg h.1, ihrest h.2, Word.marks, addAll_cons]
    rfl

theorem put_of_closed {w : Word} {marks : List Mark} (h : w.closed = true) :
    (Nest.quotes marks).put w = .quotes (marks ++ w.marks) := by
  induction w generalizing marks with
  | nil => simp [put, Word.marks]
  | char c rest ih =>
    -- Between the quotes themselves a closing brace is a character like others.
    have hc : (if c = '}' then (Nest.quotes marks).close else (Nest.quotes marks).add (.char true c)) =
        .quotes (marks ++ [.char true c]) := by
      split
      · next hc => rw [hc]; rfl
      · rfl
    rw [put, hc, ih h, Word.marks, List.append_assoc, List.singleton_append]
  | var name rest ih =>
    rw [put, add, ih h, Word.marks, List.append_assoc, List.singleton_append]
  | cond name choice arg rest _ ih =>
    simp only [Word.closed, Bool.and_eq_true] at h
    rw [put, put_of_braceFree h.1]
    simp only [addAll, close, add, List.nil_append]
    rw [ih h.2, Word.marks, List.append_assoc, List.singleton_append]

/-! ## What is read from any word -/

theorem depth_close_le (n : Nest) : n.close.depth ≤ n.depth - 1 := by
  cases n <;> simp [close, depth]

theorem depth_put_le (w : Word) (n : Nest) : (n.put w).depth ≤ n.depth := by
  induction w generalizing n with
  | nil => simp [put]
  | char c rest ih =>
    rw [put]
    split
    · have h1 := ih n.close
      have h2 := depth_close_le n
      omega
    · simpa using ih (n.add (.char true c))
  | var name rest ih => simpa [put] using ih (n.add (.param true name [] []))
  | cond name choice arg rest iharg ihrest =>
    rw [put]
    have harg := iharg (.inside n name choice [])
    have hclose := depth_close_le (put arg (.inside n name choice []))
    have hrest := ihrest (put arg (.inside n name choice [])).close
    simp only [depth] at harg
    omega

theorem exists_put_quotes (w : Word) (marks : List Mark) :
    ∃ ms, (Nest.quotes marks).put w = .quotes ms := by
  have h := depth_put_le w (.quotes marks)
  cases hput : (Nest.quotes marks).put w with
  | quotes ms => exact ⟨ms, rfl⟩
  | inside outer name choice ms => simp [hput, depth] at h

/-- Whether a mark is a closing brace that stands for itself. -/
def isBrace : Mark → Bool
  | .char _ c => c == '}'
  | _ => false

/-- How many braces stand for themselves between the quotes. -/
def groundBraces (n : Nest) : Nat := n.ground.countP isBrace

theorem groundBraces_add {n : Nest} {m : Mark} (h : isBrace m = false) :
    (n.add m).groundBraces = n.groundBraces := by
  cases n <;> simp [groundBraces, add, ground, h]

theorem depth_close (n : Nest) :
    n.close.depth + 1 + n.groundBraces = n.depth + n.close.groundBraces := by
  cases n with
  | quotes marks => simp [close, depth, groundBraces, ground, isBrace]; omega
  | inside outer name choice marks =>
    rw [close, depth_add, groundBraces_add rfl, depth]
    rfl

/-- Each character that closes a brace closes a reference or is left over between the quotes. -/
theorem depth_put (w : Word) (n : Nest) :
    (n.put w).depth + w.braces + n.groundBraces = n.depth + (n.put w).groundBraces := by
  induction w generalizing n with
  | nil => simp [put, Word.braces]
  | char c rest ih =>
    by_cases hc : c = '}'
    · have h1 := ih n.close
      have h2 := depth_close n
      simp only [put, hc, if_true, Word.braces]
      omega
    · have h1 := ih (n.add (.char true c))
      rw [depth_add, groundBraces_add (by simpa [isBrace] using hc)] at h1
      simp only [put, hc, if_false, Word.braces]
      omega
  | var name rest ih =>
    have h1 := ih (n.add (.param true name [] []))
    rw [depth_add, groundBraces_add rfl] at h1
    simpa only [put, Word.braces] using h1
  | cond name choice arg rest iharg ihrest =>
    have h1 := iharg (.inside n name choice [])
    have h2 := depth_close (put arg (.inside n name choice []))
    have h3 := ihrest (put arg (.inside n name choice [])).close
    have h4 : (Nest.inside n name choice []).groundBraces = n.groundBraces := rfl
    simp only [depth, put, Word.braces] at h1 h3 ⊢
    omega

end Posix.Nest

/-! ## Reading -/

namespace Posix

namespace Reader

/-- Whether a reader stands between double quotes, directly or in braces that are open there, with nothing
pending. -/
def IsQuoted (r : Reader) : Prop := r.quoted = true ∧ r.pending = .nothing

@[simp] theorem settle_await {r : Reader} (h : r.pending = .nothing) (p : Pending) :
    (r.await p).settle = r := by
  cases r
  cases h
  rfl

theorem step_nothing {r : Reader} (h : r.pending = .nothing) (c : Char) : r.step c = r.plain c := by
  simp only [step, h]

theorem await_backslash (r : Reader) (h : r.pending = .nothing) : r.step '\\' = r.await .escape := by
  rw [step_nothing h]
  rfl

theorem await_dollar (r : Reader) (h : r.pending = .nothing) : r.step '$' = r.await .dollar := by
  rw [step_nothing h]
  rfl

/-- A character of a word is read as itself, but for a brace that closes a reference. -/
theorem run_escapeDouble {r : Reader} (h : r.IsQuoted) {c : Char} (hc : r.double = true ∨ c ≠ '}') :
    r.run (Shell.escapeDouble [c]) = r.add (.char true c) := by
  obtain ⟨hquoted, hpending⟩ := h
  by_cases hspecial : Shell.isDoubleSpecial c = true
  · have hescapable : isEscapable (!r.double) c = true := by
      simp only [Shell.isDoubleSpecial, Bool.or_eq_true, beq_iff_eq] at hspecial
      rcases hspecial with ((rfl | rfl) | rfl) | rfl <;> simp [isEscapable]
    have hline : c ≠ '\n' := by
      rintro rfl
      exact absurd hspecial (by decide)
    have htext : Shell.escapeDouble [c] = ['\\', c] := by simp [Shell.escapeDouble, hspecial]
    rw [htext, run_cons, run_cons, run_nil, await_backslash r hpending]
    show ((r.await .escape).settle).escaped c = _
    rw [settle_await hpending, escaped, if_neg hline, hquoted, hescapable]
    rfl
  · have htext : Shell.escapeDouble [c] = [c] := by simp [Shell.escapeDouble, hspecial]
    simp only [Shell.isDoubleSpecial, Bool.or_eq_true, beq_iff_eq, not_or] at hspecial
    obtain ⟨⟨⟨hquote, hbackslash⟩, hdollar⟩, hback⟩ := hspecial
    rw [htext, run_cons, run_nil, step_nothing hpending, plain, if_neg hbackslash, if_neg hquote,
      if_neg hdollar, if_neg hback]
    cases hdouble : r.double with
    | true => rfl
    | false =>
      have hbrace : r.closer = .brace true := by
        simpa [Level.quoted, hdouble] using hquoted
      have hne : c ≠ '}' := hc.resolve_left (by simp [hdouble])
      simp [hbrace, hne]

@[simp] theorem addAll_add (r : Reader) (ms : List Mark) (m : Mark) :
    (r.addAll ms).add m = r.addAll (ms ++ [m]) := by
  simp [add, addAll]

theorem IsQuoted.add {r : Reader} (h : r.IsQuoted) (m : Mark) : (r.add m).IsQuoted := h

/-- In braces between double quotes, characters without a meaning there are read as themselves. -/
theorem run_inBraces {r : Reader} (h : r.IsQuoted) {t : Text}
    (ht : ∀ c ∈ t, Shell.isDoubleSpecial c = false ∧ c ≠ '}') :
    r.run t = r.addAll (t.map (.char true)) := by
  induction t generalizing r with
  | nil => simp
  | cons c rest ih =>
    obtain ⟨hspecial, hbrace⟩ := ht c List.mem_cons_self
    have hstep : r.step c = r.add (.char true c) := by
      have := run_escapeDouble h (Or.inr hbrace)
      simpa [Shell.escapeDouble, hspecial] using this
    rw [run_cons, hstep, ih (h.add _) fun d hd => ht d (List.mem_cons_of_mem _ hd), add_eq_addAll,
      addAll_addAll]
    rfl

/-- A dollar sign and a brace open a place of their own. -/
theorem run_dollarBrace {r : Reader} (h : r.IsQuoted) (t : Text) :
    r.run ('$' :: '{' :: t) = (r.enter (.brace true)).run t := by
  rw [run_cons, run_cons, await_dollar r h.2]
  show ((r.await .dollar).settle.expansion '{').run t = _
  rw [settle_await h.2, expansion, if_pos rfl, h.1]

/-- The brace that closes such a place leaves the parameter as one mark. -/
theorem step_closeBrace {r : Reader} (h : r.pending = .nothing) (ms : List Mark) :
    ((r.enter (.brace true)).addAll ms).step '}' = r.add (.ofBraces true ms) := by
  obtain ⟨level, pending, outer⟩ := r
  cases h
  rfl

end Reader

theorem isDoubleSpecial_of_isNameChar {c : Char} (h : isNameChar c = true) :
    Shell.isDoubleSpecial c = false ∧ c ≠ '}' := by
  refine ⟨?_, ?_⟩
  · rw [Bool.eq_false_iff]
    intro hspecial
    simp only [Shell.isDoubleSpecial, Bool.or_eq_true, beq_iff_eq] at hspecial
    rcases hspecial with ((rfl | rfl) | rfl) | rfl <;> exact absurd h (by decide)
  · rintro rfl
    exact absurd h (by decide)

theorem isDoubleSpecial_of_mem_operator {choice : Choice} {c : Char} (h : c ∈ choice.operator) :
    Shell.isDoubleSpecial c = false ∧ c ≠ '}' := by
  cases choice with
  | default =>
    simp only [Choice.operator, List.mem_cons, List.not_mem_nil, or_false] at h
    rcases h with rfl | rfl <;> decide
  | alternate =>
    simp only [Choice.operator, List.mem_cons, List.not_mem_nil, or_false] at h
    rcases h with rfl | rfl <;> decide

namespace Mark

theorem splitName_map {name : Text} (h : ∀ c ∈ name, isNameChar c = true) (rest : List Mark)
    (hrest : splitName true rest = ([], rest)) :
    splitName true (name.map (.char true) ++ rest) = (name, rest) := by
  induction name with
  | nil => simpa using hrest
  | cons c name ih =>
    have hc := h c List.mem_cons_self
    have hname := ih fun d hd => h d (List.mem_cons_of_mem _ hd)
    simp only [List.map_cons, List.cons_append, splitName, hc, and_self, if_true, hname]

theorem ofBraces_name {name : Text} (h : isName name = true) :
    ofBraces true (name.map (.char true)) = .param true name [] [] := by
  have hsplit := splitName_map (fun c hc => isNameChar_of_mem_isName h hc) [] rfl
  rw [List.append_nil] at hsplit
  rw [ofBraces, hsplit]
  rfl

theorem ofBraces_choice {name : Text} (h : isName name = true) (choice : Choice) (ms : List Mark) :
    ofBraces true ((name ++ choice.operator).map (.char true) ++ ms) =
      .param true name choice.operator ms := by
  rw [List.map_append, List.append_assoc, ofBraces]
  cases choice with
  | default =>
    rw [splitName_map (fun c hc => isNameChar_of_mem_isName h hc) _ rfl]
    rfl
  | alternate =>
    rw [splitName_map (fun c hc => isNameChar_of_mem_isName h hc) _ rfl]
    rfl

end Mark

namespace Nest

theorem reader_add (r : Reader) (n : Nest) (m : Mark) : (n.add m).reader r = (n.reader r).add m := by
  cases n with
  | quotes marks => simp [add, reader]
  | inside outer name choice marks =>
    rw [add, reader, reader, Reader.addAll_add, List.append_assoc]

theorem isQuoted_reader {r : Reader} (hdouble : r.double = true) (hpending : r.pending = .nothing)
    (n : Nest) : (n.reader r).IsQuoted := by
  cases n with
  | quotes marks => exact ⟨by simp [reader, Reader.addAll, Level.quoted, hdouble], hpending⟩
  | inside outer name choice marks => exact ⟨rfl, rfl⟩

/-- A closing brace closes the innermost reference. -/
theorem step_brace {r : Reader} (hdouble : r.double = true) (hpending : r.pending = .nothing)
    {n : Nest} (hn : n.named = true) : (n.reader r).step '}' = n.close.reader r := by
  cases n with
  | quotes marks =>
    have hread := Reader.run_escapeDouble (r := r.addAll marks) (c := '}')
      ⟨by simp [Reader.addAll, Level.quoted, hdouble], hpending⟩ (Or.inl hdouble)
    simpa [Shell.escapeDouble, Shell.isDoubleSpecial, close, reader] using hread
  | inside outer name choice marks =>
    simp only [named, Bool.and_eq_true] at hn
    have houter := isQuoted_reader hdouble hpending outer
    rw [reader, Reader.step_closeBrace houter.2, Mark.ofBraces_choice hn.1, close, reader_add]

/-- A reference with a modifier opens with its name and operator. -/
theorem run_open {r : Reader} (h : r.IsQuoted) {name : Text} (hname : isName name = true)
    (choice : Choice) :
    r.run ('$' :: '{' :: name ++ choice.operator) =
      (r.enter (.brace true)).addAll ((name ++ choice.operator).map (.char true)) := by
  rw [List.cons_append, List.cons_append, Reader.run_dollarBrace h,
    Reader.run_inBraces (r := r.enter (.brace true)) ⟨rfl, rfl⟩]
  intro c hc
  rcases List.mem_append.1 hc with hc | hc
  · exact isDoubleSpecial_of_isNameChar (isNameChar_of_mem_isName hname hc)
  · exact isDoubleSpecial_of_mem_operator hc

/-- A reference without a modifier is one mark. -/
theorem run_reference {r : Reader} (h : r.IsQuoted) {name : Text} (hname : isName name = true) :
    r.run (Shell.reference name []) = r.add (.param true name [] []) := by
  have hchars : ∀ c ∈ name, Shell.isDoubleSpecial c = false ∧ c ≠ '}' := fun c hc =>
    isDoubleSpecial_of_isNameChar (isNameChar_of_mem_isName hname hc)
  have htext : Shell.reference name [] = '$' :: '{' :: (name ++ ['}']) := by
    simp [Shell.reference]
  rw [htext, Reader.run_dollarBrace h, Reader.run_append,
    Reader.run_inBraces (r := r.enter (.brace true)) ⟨rfl, rfl⟩ hchars, Reader.run_cons,
    Reader.step_closeBrace h.2, Mark.ofBraces_name hname, Reader.run_nil]

/-- A word between double quotes is read as `put` says. -/
theorem run_toDoubleQuoted {r : Reader} (hdouble : r.double = true) (hpending : r.pending = .nothing)
    {w : Word} (hw : w.named = true) {n : Nest} (hn : n.named = true) :
    (n.reader r).run w.toDoubleQuoted = (n.put w).reader r ∧ (n.put w).named = true := by
  induction w generalizing n with
  | nil => exact ⟨rfl, hn⟩
  | char c rest ih =>
    have hquoted := isQuoted_reader hdouble hpending n
    rw [Word.toDoubleQuoted, Reader.run_append, put]
    by_cases hc : c = '}'
    · have hread : (n.reader r).run (Shell.escapeDouble [c]) = n.close.reader r := by
        rw [hc, ← step_brace hdouble hpending hn]
        rfl
      rw [hread, if_pos hc]
      exact ih hw (named_close hn)
    · rw [Reader.run_escapeDouble hquoted (Or.inr hc), ← reader_add, if_neg hc]
      exact ih hw (by rwa [named_add])
  | var name rest ih =>
    simp only [Word.named, Word.names, List.all_cons, Bool.and_eq_true] at hw
    have hquoted := isQuoted_reader hdouble hpending n
    rw [Word.toDoubleQuoted, Reader.run_append, run_reference hquoted hw.1, ← reader_add, put]
    exact ih hw.2 (by rwa [named_add])
  | cond name choice arg rest iharg ihrest =>
    simp only [Word.named, Word.names, List.all_append, List.all_cons, Bool.and_eq_true] at hw
    obtain ⟨⟨hname, harg⟩, hrest⟩ := hw
    have hquoted := isQuoted_reader hdouble hpending n
    have hinside : (Nest.inside n name choice []).named = true := by simp [named, hname, hn]
    obtain ⟨hread, hnamed⟩ := iharg harg hinside
    have htext : (Word.cond name choice arg rest).toDoubleQuoted =
        ('$' :: '{' :: name ++ choice.operator) ++
          (arg.toDoubleQuoted ++ ('}' :: rest.toDoubleQuoted)) := by
      simp [Word.toDoubleQuoted, Shell.reference]
    have hopen : (n.reader r).run ('$' :: '{' :: name ++ choice.operator) =
        (Nest.inside n name choice []).reader r := by
      rw [run_open hquoted hname choice, reader, List.append_nil]
    rw [htext, Reader.run_append, hopen, Reader.run_append, hread, Reader.run_cons,
      step_brace hdouble hpending hnamed, put]
    exact ihrest hrest (named_close hnamed)

end Nest

end Posix

end BuildScript
