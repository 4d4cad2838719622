import Mathlib.Data.List.Forall2
import BuildScript.Dockerfile.Instruction
import BuildScript.Proofs.Json.Printed

/-!
# Records in JSON

A record is a JSON object whose members are strings and numbers. A list of them is laid out in lines
(`lines`): a bracket stands on a line of its own, unless nothing is between it and the one that closes it, and what
is between them is two blanks further in, with a comma behind each piece but the last. The list of instructions is
the layout of their records (`Instruction.ofLines_lines_record`).

A reader takes white space where JSON has it, and no comma behind the last item. It finds the records in their
layout (`records?_ofLines_lines`), and an instruction in its object, whatever white space stands there
(`Instruction.reads_json`).
-/

namespace BuildScript

namespace Json

/-- A JSON value that is a number or a string. -/
inductive Scalar where
  | number (n : Nat)
  | string (t : Text)
  deriving DecidableEq, Repr

/-- The members of a JSON object, in their order. -/
abbrev Record := List (Text × Scalar)

/-! ## The layout -/

/-- A value as it is written. -/
def Scalar.text : Scalar → Text
  | .number n => Text.ofNat n
  | .string t => quoted t

/-- Lines with a comma behind the last one. -/
def withComma : List Text → List Text
  | [] => []
  | [line] => [line ++ [',']]
  | line :: rest => line :: withComma rest

/-- The lines of some pieces, with a comma behind each piece but the last. -/
def separated : List (List Text) → List Text
  | [] => []
  | [piece] => piece
  | piece :: rest => withComma piece ++ separated rest

/-- The lines of some pieces between brackets. -/
def bracketed (opening closing : Char) (pieces : List (List Text)) : List Text :=
  if pieces = [] then [[opening, closing]]
  else [opening] :: (separated pieces).map ("  ".toList ++ ·) ++ [[closing]]

/-- A member on a line. -/
def memberLine (m : Text × Scalar) : Text := quoted m.1 ++ ": ".toList ++ m.2.text

/-- A record in lines. -/
def recordLines (r : Record) : List Text :=
  bracketed '{' '}' (r.map fun m => [memberLine m])

/-- A list of records in lines. -/
def lines (rs : List Record) : List Text := bracketed '[' ']' (rs.map recordLines)

/-! ## Reading -/

/-- Reads a number. Only the number zero begins with the digit zero. -/
def number? (t : Text) : Option (Nat × Text) :=
  let digits := t.takeWhile Char.isDigit
  if digits = [] ∨ digits.head? = some '0' ∧ digits ≠ ['0'] then none
  else some (Nat.ofDigitChars 10 digits 0, t.dropWhile Char.isDigit)

/-- Reads a number or a string. -/
def scalar? (t : Text) : Option (Scalar × Text) :=
  match t with
  | '"' :: rest => (body? rest).map fun (value, after) => (.string value, after)
  | _ => (number? t).map fun (n, after) => (.number n, after)

/-- Reads a name, a colon, and the value of a member. -/
def member? (t : Text) : Option ((Text × Scalar) × Text) :=
  match skipSpace t with
  | '"' :: rest =>
    match body? rest with
    | none => none
    | some (name, after) =>
      match skipSpace after with
      | ':' :: more => (scalar? (skipSpace more)).map fun (value, after) => ((name, value), after)
      | _ => none
  | _ => none

section

variable {α : Type} (item? : Text → Option (α × Text)) (opening closing : Char)

/-- Reads items with commas between them, up to a bracket that closes. The answer holds what follows the
bracket. An item takes some of the text, so what is left is shorter. -/
def separated? (t : Text) : Option (List α × Text) :=
  match item? t with
  | none => none
  | some (item, after) =>
    match skipSpace after with
    | [] => none
    | c :: rest =>
      if c = closing then some ([item], rest)
      else if c = ',' ∧ rest.length < t.length then
        (separated? rest).map fun (others, after) => (item :: others, after)
      else none
termination_by t.length

/-- Reads what is between brackets: nothing, or items with commas between them. -/
def bracketed? (t : Text) : Option (List α × Text) :=
  match skipSpace t with
  | [] => none
  | c :: rest =>
    if c = opening then
      let inner := skipSpace rest
      if inner.head? = some closing then some ([], inner.tail) else separated? item? closing rest
    else none

end

/-- Reads a record. -/
def record? (t : Text) : Option (Record × Text) := bracketed? member? '{' '}' t

/-- Reads a text that is a list of records and nothing else. -/
def records? (t : Text) : Option (List Record) :=
  match bracketed? record? '[' ']' t with
  | some (rs, after) => if skipSpace after = [] then some rs else none
  | none => none

/-! ## Numbers -/

/-- Whether a number ends before a text. -/
def EndsNumber (after : Text) : Prop := ∀ c ∈ after.head?, c.isDigit = false

theorem endsNumber_nil : EndsNumber [] := by
  intro c hc
  cases hc

theorem endsNumber_cons {c : Char} (h : c.isDigit = false) (after : Text) : EndsNumber (c :: after) := by
  rintro d hd
  cases hd
  exact h

/-- Only the number zero is written with the digit zero first. -/
theorem toDigits_eq_of_head? {n : Nat} (h : (Nat.toDigits 10 n).head? = some '0') : Nat.toDigits 10 n = ['0'] := by
  have hdigit : ∀ k < 10, Nat.digitChar k = '0' → k = 0 := by decide
  have hzero : ∀ n, (Nat.toDigits 10 n).head? = some '0' → n = 0 := by
    intro n
    induction n using Nat.strongRecOn with
    | ind n ih =>
      intro hhead
      by_cases hn : n < 10
      · rw [Nat.toDigits_of_lt_base hn] at hhead
        exact hdigit n hn (Option.some.inj hhead)
      · rw [Nat.toDigits_of_base_le (by decide) (by omega), List.head?_append_of_ne_nil _ Nat.toDigits_ne_nil]
          at hhead
        have := ih (n / 10) (by omega) hhead
        omega
  rw [hzero n h]
  rfl

theorem exists_ofNat_eq_cons (n : Nat) : ∃ c rest, Text.ofNat n = c :: rest ∧ c.isDigit = true := by
  obtain ⟨c, rest, hc⟩ := List.exists_cons_of_ne_nil (Nat.toDigits_ne_nil (n := n) (b := 10))
  exact ⟨c, rest, hc, Nat.isDigit_of_mem_toDigits (by decide) (by decide) (hc ▸ List.mem_cons_self)⟩

theorem number?_ofNat (n : Nat) {after : Text} (h : EndsNumber after) :
    number? (Text.ofNat n ++ after) = some (n, after) := by
  have hdigits : ∀ c ∈ Text.ofNat n, c.isDigit = true := fun c hc =>
    Nat.isDigit_of_mem_toDigits (by decide) (by decide) hc
  have hnone : after.takeWhile Char.isDigit = [] ∧ after.dropWhile Char.isDigit = after := by
    cases after with
    | nil => exact ⟨rfl, rfl⟩
    | cons c rest =>
      have hc : ¬c.isDigit = true := by simp [h c rfl]
      exact ⟨List.takeWhile_cons_of_neg hc, List.dropWhile_cons_of_neg hc⟩
  have htake : (Text.ofNat n ++ after).takeWhile Char.isDigit = Text.ofNat n := by
    rw [List.takeWhile_append_of_pos hdigits, hnone.1, List.append_nil]
  have hdrop : (Text.ofNat n ++ after).dropWhile Char.isDigit = after := by
    rw [List.dropWhile_append_of_pos hdigits, hnone.2]
  have hvalue : Nat.ofDigitChars 10 (Text.ofNat n) 0 = n := Nat.ofDigitChars_toDigits (by decide) (by decide)
  have hleading : ¬(Text.ofNat n = [] ∨ (Text.ofNat n).head? = some '0' ∧ Text.ofNat n ≠ ['0']) := by
    rintro (hnil | ⟨hhead, hne⟩)
    · exact Nat.toDigits_ne_nil hnil
    · exact hne (toDigits_eq_of_head? hhead)
  rw [number?, htake, hdrop, if_neg hleading, hvalue]

/-! ## White space -/

/-- Whether a text is white space of JSON. -/
def Spaces (t : Text) : Prop := t.all isSpace = true

instance (t : Text) : Decidable (Spaces t) := inferInstanceAs (Decidable (t.all isSpace = true))

theorem spaces_cons {c : Char} {t : Text} : Spaces (c :: t) ↔ isSpace c = true ∧ Spaces t := by
  rw [Spaces, List.all_cons, Bool.and_eq_true, Spaces]

theorem Spaces.append {s t : Text} (hs : Spaces s) (ht : Spaces t) : Spaces (s ++ t) := by
  rw [Spaces, List.all_append, hs, ht, Bool.and_self]

theorem skipSpace_append {gap : Text} (h : Spaces gap) (t : Text) : skipSpace (gap ++ t) = skipSpace t :=
  List.dropWhile_append_of_pos (List.all_eq_true.1 h)

theorem isDigit_of_isSpace {c : Char} (h : isSpace c = true) : c.isDigit = false := by
  simp only [isSpace, Bool.or_eq_true, beq_iff_eq] at h
  rcases h with ((rfl | rfl) | rfl) | rfl <;> rfl

theorem endsNumber_append {gap : Text} (h : Spaces gap) {t : Text} (ht : EndsNumber t) : EndsNumber (gap ++ t) := by
  cases gap with
  | nil => exact ht
  | cons c rest => exact endsNumber_cons (isDigit_of_isSpace (spaces_cons.1 h).1) _

/-! ## Members -/

theorem scalar?_text (value : Scalar) {after : Text} (h : EndsNumber after) :
    scalar? (value.text ++ after) = some (value, after) := by
  cases value with
  | string t =>
    have hread : scalar? ('"' :: (t.flatMap escape ++ '"' :: after)) = some (.string t, after) := by
      rw [scalar?, body?_escape]
      rfl
    rw [Scalar.text, quoted_append, hread]
  | number n =>
    -- A digit is no quote.
    obtain ⟨c, rest, hc, hdigit⟩ := exists_ofNat_eq_cons n
    have hread := number?_ofNat n h
    rw [Scalar.text, scalar?.eq_2, hread]
    · rfl
    · intro after' heq
      rw [hc] at heq
      cases heq
      cases hdigit

/-- No white space stands before a value. -/
theorem skipSpace_text (value : Scalar) (after : Text) : skipSpace (value.text ++ after) = value.text ++ after := by
  cases value with
  | string t => exact skipSpace_cons rfl _
  | number n =>
    obtain ⟨c, rest, hc, hdigit⟩ := exists_ofNat_eq_cons n
    have hspace : isSpace c = false := by
      by_contra hspace
      rw [isDigit_of_isSpace (Bool.not_eq_false _ ▸ hspace)] at hdigit
      cases hdigit
    rw [Scalar.text, hc]
    exact skipSpace_cons hspace _

/-- Whether an item is read from a text behind white space, up to what does not go on with a digit. -/
def Reads {α : Type} (item? : Text → Option (α × Text)) (t : Text) (x : α) : Prop :=
  ∀ gap after, Spaces gap → EndsNumber after → item? (gap ++ (t ++ after)) = some (x, after)

theorem Reads.indented {α : Type} {item? : Text → Option (α × Text)} {t : Text} {x : α} (h : Reads item? t x)
    {gap : Text} (hgap : Spaces gap) : Reads item? (gap ++ t) x := by
  intro before after hbefore hafter
  have hread := h (before ++ gap) after (hbefore.append hgap) hafter
  rwa [List.append_assoc before, ← List.append_assoc gap] at hread

theorem reads_member (name : Text) (value : Scalar) {gap : Text} (hgap : Spaces gap) :
    Reads member? (quoted name ++ ':' :: (gap ++ value.text)) (name, value) := by
  intro before after hbefore hafter
  have hvalue : skipSpace (gap ++ (value.text ++ after)) = value.text ++ after := by
    rw [skipSpace_append hgap, skipSpace_text]
  have hname : skipSpace (before ++ (quoted name ++ ':' :: (gap ++ value.text) ++ after)) =
      '"' :: (name.flatMap escape ++ '"' :: ':' :: (gap ++ (value.text ++ after))) := by
    rw [skipSpace_append hbefore, List.append_assoc, quoted_append, skipSpace_cons rfl]
    simp
  rw [member?, hname]
  simp only [body?_escape, skipSpace_cons (show isSpace ':' = false from rfl), hvalue, scalar?_text value hafter]
  rfl

/-! ## Brackets -/

section

variable {α : Type} {item? : Text → Option (α × Text)} {opening closing : Char}

/-- Items with commas between them are read up to the bracket that closes. -/
theorem separated?_join (hclosing : closing ≠ ',' ∧ isSpace closing = false ∧ closing.isDigit = false)
    {ts : List Text} {xs : List α} (h : List.Forall₂ (Reads item?) ts xs) (hne : ts ≠ []) {first gap last : Text}
    (hfirst : Spaces first) (hgap : Spaces gap) (hlast : Spaces last) (after : Text) :
    separated? item? closing (first ++ (Text.join (',' :: gap) ts ++ (last ++ closing :: after))) =
      some (xs, after) := by
  have hends : EndsNumber (last ++ closing :: after) := endsNumber_append hlast (endsNumber_cons hclosing.2.2 _)
  have hskip : skipSpace (last ++ closing :: after) = closing :: after := by
    rw [skipSpace_append hlast, skipSpace_cons hclosing.2.1]
  induction h generalizing first with
  | nil => exact absurd rfl hne
  | @cons t x ts xs hread hrest ih =>
    by_cases hts : ts = []
    · subst hts
      cases hrest
      rw [Text.join, separated?, hread first _ hfirst hends]
      simp only [hskip, if_true]
    · have hcomma : EndsNumber (',' :: (gap ++ (Text.join (',' :: gap) ts ++ (last ++ closing :: after)))) :=
        endsNumber_cons rfl _
      have hlength : (gap ++ (Text.join (',' :: gap) ts ++ (last ++ closing :: after))).length <
          (first ++ (t ++ ',' :: (gap ++ (Text.join (',' :: gap) ts ++ (last ++ closing :: after))))).length := by
        simp only [List.length_append, List.length_cons]
        omega
      have htext : Text.join (',' :: gap) (t :: ts) ++ (last ++ closing :: after) =
          t ++ ',' :: (gap ++ (Text.join (',' :: gap) ts ++ (last ++ closing :: after))) := by
        rw [Text.join_cons hts]
        simp
      rw [htext, separated?, hread first _ hfirst hcomma]
      simp only [skipSpace_cons (show isSpace ',' = false from rfl)]
      rw [if_neg (Ne.symm hclosing.1), if_pos ⟨trivial, hlength⟩, ih hts hgap]
      rfl

/-- What stands between brackets is read: nothing, or items with commas between them. -/
theorem bracketed?_join (hopening : isSpace opening = false)
    (hclosing : closing ≠ ',' ∧ isSpace closing = false ∧ closing.isDigit = false)
    (hrefuses : ∀ t after, skipSpace t = closing :: after → item? t = none)
    {ts : List Text} {xs : List α} (h : List.Forall₂ (Reads item?) ts xs) (hne : ts ≠ []) {first gap last : Text}
    (hfirst : Spaces first) (hgap : Spaces gap) (hlast : Spaces last) :
    Reads (bracketed? item? opening closing)
      (opening :: (first ++ (Text.join (',' :: gap) ts ++ (last ++ [closing])))) xs := by
  intro before after hbefore hafter
  have hread := separated?_join hclosing h hne hfirst hgap hlast after
  have htext : opening :: (first ++ (Text.join (',' :: gap) ts ++ (last ++ [closing]))) ++ after =
      opening :: (first ++ (Text.join (',' :: gap) ts ++ (last ++ closing :: after))) := by
    simp
  have hinner : ¬(skipSpace (first ++ (Text.join (',' :: gap) ts ++ (last ++ closing :: after)))).head? =
      some closing := by
    intro hhead
    obtain ⟨more, hmore⟩ := List.head?_eq_some_iff.1 hhead
    rw [separated?, hrefuses _ _ hmore] at hread
    cases hread
  rw [htext, bracketed?, skipSpace_append hbefore, skipSpace_cons hopening]
  simp only [if_true]
  rw [if_neg hinner, hread]

theorem bracketed?_nil (hopening : isSpace opening = false) (hclosing : isSpace closing = false) :
    Reads (bracketed? item? opening closing) [opening, closing] [] := by
  intro before after hbefore hafter
  rw [bracketed?, skipSpace_append hbefore]
  simp only [List.cons_append, List.nil_append, skipSpace_cons hopening, skipSpace_cons hclosing, if_true,
    List.head?_cons, List.tail_cons]

end

theorem member?_of_skipSpace {t after : Text} (h : skipSpace t = '}' :: after) : member? t = none := by
  rw [member?, h]
  rfl

theorem record?_of_skipSpace {t after : Text} (h : skipSpace t = ']' :: after) : record? t = none := by
  rw [record?, bracketed?, h]
  rfl

/-! ## Lines put together -/

/-- Lines further in, put together. -/
def indented (gap : Text) (ls : List Text) : Text := Text.join ['\n'] (ls.map (gap ++ ·))

theorem indented_append {ls ms : List Text} (hl : ls ≠ []) (hm : ms ≠ []) (gap : Text) :
    indented gap (ls ++ ms) = indented gap ls ++ '\n' :: indented gap ms := by
  rw [indented, List.map_append, Text.join_append (by simpa using hl) (by simpa using hm), List.append_assoc]
  rfl

theorem indented_map (gap more : Text) (ls : List Text) :
    indented gap (ls.map (more ++ ·)) = indented (gap ++ more) ls := by
  have hcomp : (gap ++ ·) ∘ (more ++ ·) = ((gap ++ more) ++ · : Text → Text) := by
    funext line
    exact (List.append_assoc gap more line).symm
  rw [indented, List.map_map, hcomp, indented]

theorem withComma_ne_nil {ls : List Text} (h : ls ≠ []) : withComma ls ≠ [] := by
  cases ls using withComma.induct with
  | case1 => exact absurd rfl h
  | case2 | case3 => simp [withComma]

theorem indented_withComma {ls : List Text} (h : ls ≠ []) (gap : Text) :
    indented gap (withComma ls) = indented gap ls ++ [','] := by
  fun_induction withComma ls with
  | case1 => exact absurd rfl h
  | case2 line => simp [indented, Text.join]
  | case3 line rest hrest ih =>
    have hne : rest ≠ [] := hrest
    rw [← List.singleton_append, indented_append (by simp) (withComma_ne_nil hne), ih hne,
      ← List.singleton_append (l := rest), indented_append (by simp) hne, List.append_assoc]
    rfl

theorem separated_ne_nil {pieces : List (List Text)} (h : ∀ piece ∈ pieces, piece ≠ []) (hne : pieces ≠ []) :
    separated pieces ≠ [] := by
  cases pieces using separated.induct with
  | case1 => exact absurd rfl hne
  | case2 piece => exact h piece (List.mem_singleton_self piece)
  | case3 piece rest hrest =>
    rw [separated.eq_3 _ _ hrest]
    exact List.append_ne_nil_of_left_ne_nil (withComma_ne_nil (h piece List.mem_cons_self)) _

theorem indented_separated {pieces : List (List Text)} (h : ∀ piece ∈ pieces, piece ≠ []) (gap : Text) :
    indented gap (separated pieces) = Text.join [',', '\n'] (pieces.map (indented gap)) := by
  fun_induction separated pieces with
  | case1 => rfl
  | case2 piece => rfl
  | case3 piece rest hrest ih =>
    obtain ⟨hpiece, hpieces⟩ := List.forall_mem_cons.1 h
    have hne : rest ≠ [] := hrest
    rw [indented_append (withComma_ne_nil hpiece) (separated_ne_nil hpieces hne), indented_withComma hpiece,
      ih hpieces, List.map_cons, Text.join_cons (by simpa using hne)]
    simp

/-- Pieces between brackets are texts further in, with a comma and a line feed between them. -/
theorem indented_bracketed {pieces : List (List Text)} (h : ∀ piece ∈ pieces, piece ≠ []) (hne : pieces ≠ [])
    (opening closing : Char) (gap : Text) :
    indented gap (bracketed opening closing pieces) =
      gap ++ opening :: '\n' :: (Text.join [',', '\n'] (pieces.map (indented (gap ++ "  ".toList))) ++
        ('\n' :: gap ++ [closing])) := by
  have hinner : (separated pieces).map ("  ".toList ++ ·) ≠ [] := by simpa using separated_ne_nil h hne
  rw [bracketed, if_neg hne, List.cons_append, ← List.singleton_append, indented_append (by simp) (by simp),
    indented_append hinner (by simp), indented_map, indented_separated h]
  simp [indented, Text.join]

/-! ## Records -/

theorem bracketed_ne_nil (opening closing : Char) (pieces : List (List Text)) :
    bracketed opening closing pieces ≠ [] := by
  unfold bracketed
  split <;> exact List.cons_ne_nil _ _

theorem recordLines_ne_nil (r : Record) : recordLines r ≠ [] := bracketed_ne_nil _ _ _

theorem lines_ne_nil (rs : List Record) : lines rs ≠ [] := bracketed_ne_nil _ _ _

/-- A record is read from its lines, as far in as they may be. -/
theorem reads_recordLines (r : Record) {gap : Text} (hgap : Spaces gap) :
    Reads record? (indented gap (recordLines r)) r := by
  by_cases hr : r = []
  · subst hr
    exact (bracketed?_nil rfl rfl).indented hgap
  · have hinner : Spaces (gap ++ "  ".toList) := hgap.append (by decide)
    have hmembers : List.Forall₂ (Reads member?)
        ((r.map fun m => [memberLine m]).map (indented (gap ++ "  ".toList))) r := by
      rw [List.map_map, List.forall₂_map_left_iff, List.forall₂_same]
      intro m _
      have hread := reads_member m.1 m.2 (show Spaces [' '] by decide)
      have hline : quoted m.1 ++ ':' :: ([' '] ++ m.2.text) = memberLine m := by simp [memberLine]
      rw [hline] at hread
      exact hread.indented hinner
    rw [recordLines, indented_bracketed (List.forall_mem_map.2 fun _ _ => List.cons_ne_nil _ _)
      (by simpa using hr)]
    refine Reads.indented ?_ hgap
    exact bracketed?_join rfl (by decide) (fun _ _ => member?_of_skipSpace) hmembers (by simpa using hr)
      (show Spaces ['\n'] by decide) (show Spaces ['\n'] by decide) (spaces_cons.2 ⟨rfl, hgap⟩)

/-- A list of records is read from its lines. -/
theorem reads_lines (rs : List Record) : Reads (bracketed? record? '[' ']') (indented [] (lines rs)) rs := by
  by_cases hrs : rs = []
  · subst hrs
    exact bracketed?_nil rfl rfl
  · have hrecords : List.Forall₂ (Reads record?) ((rs.map recordLines).map (indented ([] ++ "  ".toList))) rs := by
      rw [List.map_map, List.forall₂_map_left_iff, List.forall₂_same]
      exact fun r _ => reads_recordLines r (by decide)
    rw [lines, indented_bracketed (List.forall_mem_map.2 fun r _ => recordLines_ne_nil r) (by simpa using hrs)]
    exact bracketed?_join rfl (by decide) (fun _ _ => record?_of_skipSpace) hrecords (by simpa using hrs)
      (show Spaces ['\n'] by decide) (show Spaces ['\n'] by decide) (show Spaces ['\n'] by decide)

theorem ofLines_eq {ls : List Text} (h : ls ≠ []) : Text.ofLines ls = indented [] ls ++ ['\n'] := by
  induction ls with
  | nil => exact absurd rfl h
  | cons line rest ih =>
    by_cases hrest : rest = []
    · simp [hrest, Text.ofLines, indented, Text.join]
    · have hcons : Text.ofLines (line :: rest) = line ++ ['\n'] ++ Text.ofLines rest := by
        rw [Text.ofLines, List.flatMap_cons, Text.ofLines]
      rw [hcons, ih hrest, ← List.singleton_append (l := rest), indented_append (by simp) hrest]
      simp [indented, Text.join]

/-- A list of records is read from its layout. -/
theorem records?_ofLines_lines (rs : List Record) : records? (Text.ofLines (lines rs)) = some rs := by
  have hread := reads_lines rs [] ['\n'] (by decide) (endsNumber_cons rfl [])
  rw [List.nil_append] at hread
  rw [records?, ofLines_eq (lines_ne_nil rs), hread]
  rfl

example : Text.ofLines (lines [[("a".toList, .number 1), ("b".toList, .string "x".toList)], []]) =
    "[\n  \x7b\n    \"a\": 1,\n    \"b\": \"x\"\n  \x7d,\n  \x7b\x7d\n]\n".toList := by
  decide

end Json

/-! ## Instructions -/

namespace Instruction

open Json

/-- What is shown of an instruction. -/
def record (i : Instruction) : Record :=
  [("instruction".toList, .string i.name), ("value".toList, .string i.arguments), ("line".toList, .number i.line)]

theorem members_eq (i : Instruction) : i.members = i.record.map fun m => (quoted m.1, m.2.text) := rfl

/-- An instruction is read from its object, whatever white space stands there. -/
theorem reads_json (i : Instruction) {before between behind : Text} (hbefore : Spaces before)
    (hbetween : Spaces between) (hbehind : Spaces behind) :
    Reads record? (i.json before between behind) i.record := by
  have hmembers : List.Forall₂ (Reads member?)
      (i.record.map fun m => quoted m.1 ++ ':' :: (between ++ m.2.text)) i.record := by
    rw [List.forall₂_map_left_iff, List.forall₂_same]
    exact fun m _ => reads_member m.1 m.2 hbetween
  have hread := bracketed?_join (show isSpace '{' = false from rfl) (by decide) (fun _ _ => member?_of_skipSpace)
    hmembers (by simp [record]) hbefore hbefore hbehind
  have hjson : i.json before between behind = '{' :: (before ++ (Text.join (',' :: before)
      (i.record.map fun m => quoted m.1 ++ ':' :: (between ++ m.2.text)) ++ (behind ++ ['}']))) := by
    rw [json, members_eq, List.map_map]
    simp [Function.comp_def]
  rwa [← hjson] at hread

/-- An instruction on one line is read as its record. -/
theorem record?_compactJson (i : Instruction) : record? i.compactJson = some (i.record, []) := by
  have hempty : Spaces [] := by decide
  have hread := i.reads_json hempty hempty hempty [] [] hempty endsNumber_nil
  rwa [List.nil_append, List.append_nil] at hread

theorem indented_recordLines_record (i : Instruction) :
    indented "  ".toList (recordLines i.record) = i.indentedJson := by
  rw [recordLines, indented_bracketed (List.forall_mem_map.2 fun _ _ => List.cons_ne_nil _ _) (by simp [record]),
    indentedJson, json, members_eq]
  simp [record, indented, Text.join, memberLine]

/-- The list of instructions is the layout of their records. -/
theorem ofLines_lines_record (is : List Instruction) :
    Text.ofLines (lines (is.map record)) = listJson is ++ ['\n'] := by
  rw [ofLines_eq (lines_ne_nil _)]
  by_cases his : is = []
  · subst his
    rfl
  · have hitems : ((is.map record).map recordLines).map (indented ([] ++ "  ".toList)) = is.map indentedJson := by
      rw [List.map_map, List.map_map]
      exact List.map_congr_left fun i _ => indented_recordLines_record i
    rw [lines, indented_bracketed (List.forall_mem_map.2 fun r _ => recordLines_ne_nil r) (by simpa using his),
      hitems, listJson, if_neg his]
    simp

end Instruction

end BuildScript
