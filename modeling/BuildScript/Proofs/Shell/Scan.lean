import BuildScript.Shell.Token

/-!
# Scanning a command line

The scan of a line, told character by character: what each one contributes in the mode in which it is met
(`Mode.emit`), and the mode behind it (`scan_eq`). Marks make tokens that can be cut at operators and blanks
(`tokensOf_append`), and behind an operator the search for lasting commands starts anew
(`changesStateFrom_append_op`), so a command that is found on its own is found in every line.
-/

namespace BuildScript

theorem isBlank_of_isNameChar {c : Char} (h : isNameChar c = true) : isBlank c = false := by
  have hrange : 48 ≤ c.toNat ∧ c.toNat ≤ 122 := by
    unfold isNameChar Char.isAlphanum Char.isAlpha Char.isUpper Char.isLower Char.isDigit at h
    simp only [Bool.or_eq_true, Bool.and_eq_true, decide_eq_true_eq, beq_iff_eq, ge_iff_le,
      UInt32.le_iff_toNat_le] at h
    rcases h with ((⟨hlow, hhigh⟩ | ⟨hlow, hhigh⟩) | ⟨hlow, hhigh⟩) | rfl
    · exact ⟨Nat.le_trans (by decide) hlow, Nat.le_trans hhigh (by decide)⟩
    · exact ⟨Nat.le_trans (by decide) hlow, Nat.le_trans hhigh (by decide)⟩
    · exact ⟨Nat.le_trans (by decide) hlow, Nat.le_trans hhigh (by decide)⟩
    · decide
  simp only [isBlank, Bool.or_eq_false_iff, Bool.and_eq_false_iff, decide_eq_false_iff_not,
    beq_eq_false_iff_ne]
  omega

namespace Shell

/-- A mode of the scan: the quotes that are open, and whether a backslash protects the next character. -/
structure Mode where
  quotes : Quotes
  escaped : Bool
  deriving DecidableEq, Repr

namespace Mode

/-- The mode in which a line begins. -/
@[reducible] def start : Mode := ⟨.none, false⟩

/-- What a character contributes. -/
def emit : Mode → Char → List Mark
  | ⟨_, true⟩, c => [.part [c]]
  | ⟨.none, false⟩, c =>
    if c = '\\' then [] else if c = '\'' ∨ c = '"' then [.part []] else [.ofBare c]
  | ⟨.single, false⟩, c => if c = '\'' then [.part []] else [.part [c]]
  | ⟨.double, false⟩, c =>
    if c = '\\' then [] else if c = '"' then [.part []] else [.part [c]]

/-- The mode behind a character. -/
def next : Mode → Char → Mode
  | ⟨q, true⟩, _ => ⟨q, false⟩
  | ⟨.none, false⟩, c =>
    if c = '\\' then ⟨.none, true⟩
    else if c = '\'' then ⟨.single, false⟩
    else if c = '"' then ⟨.double, false⟩
    else start
  | ⟨.single, false⟩, c => if c = '\'' then start else ⟨.single, false⟩
  | ⟨.double, false⟩, c =>
    if c = '\\' then ⟨.double, true⟩ else if c = '"' then start else ⟨.double, false⟩

/-- What a text contributes. -/
def emits (p : Mode) : Text → List Mark
  | [] => []
  | c :: rest => p.emit c ++ (p.next c).emits rest

/-- The mode behind a text. -/
def run (p : Mode) (t : Text) : Mode := t.foldl next p

/-- What the end of a line contributes: a backslash that protects nothing makes a word outside quotes. -/
def finish : Mode → List Mark
  | ⟨.none, true⟩ => [.part []]
  | _ => []

theorem emits_cons (p : Mode) (c : Char) (t : Text) : p.emits (c :: t) = p.emit c ++ (p.next c).emits t :=
  rfl

theorem run_cons (p : Mode) (c : Char) (t : Text) : p.run (c :: t) = (p.next c).run t := rfl

theorem run_append (p : Mode) (s t : Text) : p.run (s ++ t) = (p.run s).run t := List.foldl_append

theorem emits_append (p : Mode) (s t : Text) : p.emits (s ++ t) = p.emits s ++ (p.run s).emits t := by
  induction s generalizing p with
  | nil => rfl
  | cons c s ih => rw [List.cons_append, emits_cons, emits_cons, ih, run_cons, List.append_assoc]

theorem emits_singleton (p : Mode) (c : Char) : p.emits [c] = p.emit c := List.append_nil _

end Mode

theorem ne_backslash {c : Char} {rest : Text} (hcons : ∀ d more, c = '\\' → rest = d :: more → False)
    (hnil : c = '\\' → rest = [] → False) : c ≠ '\\' := by
  intro hc
  cases rest with
  | nil => exact hnil hc rfl
  | cons d more => exact hcons d more hc rfl

/-- A scan is what the characters contribute one by one, and the end. -/
theorem scan_eq (q : Quotes) (t : Text) :
    scan q t = Mode.emits ⟨q, false⟩ t ++ (Mode.run ⟨q, false⟩ t).finish := by
  fun_induction scan q t with
  | case1 q => cases q <;> rfl
  | case2 c rest ih => simpa [Mode.emits_cons, Mode.run_cons, Mode.emit, Mode.next] using ih
  | case3 => rfl
  | case4 rest ih => simpa [Mode.emits_cons, Mode.run_cons, Mode.emit, Mode.next] using ih
  | case5 rest ih => simpa [Mode.emits_cons, Mode.run_cons, Mode.emit, Mode.next] using ih
  | case6 c rest hcons hnil hsingle hdouble ih =>
    have hc : c ≠ '\\' := ne_backslash hcons hnil
    have hs : c ≠ '\'' := hsingle
    have hd : c ≠ '"' := hdouble
    simpa [Mode.emits_cons, Mode.run_cons, Mode.emit, Mode.next, hc, hs, hd] using ih
  | case7 rest ih => simpa [Mode.emits_cons, Mode.run_cons, Mode.emit, Mode.next] using ih
  | case8 c rest hsingle ih =>
    have hs : c ≠ '\'' := hsingle
    simpa [Mode.emits_cons, Mode.run_cons, Mode.emit, Mode.next, hs] using ih
  | case9 c rest ih => simpa [Mode.emits_cons, Mode.run_cons, Mode.emit, Mode.next] using ih
  | case10 => rfl
  | case11 rest ih => simpa [Mode.emits_cons, Mode.run_cons, Mode.emit, Mode.next] using ih
  | case12 c rest hcons hnil hdouble ih =>
    have hc : c ≠ '\\' := ne_backslash hcons hnil
    have hd : c ≠ '"' := hdouble
    simpa [Mode.emits_cons, Mode.run_cons, Mode.emit, Mode.next, hc, hd] using ih

/-! ## Tokens of marks -/

/-- The tokens that marks make. -/
def tokensOf (ms : List Mark) : List Token := (collect ms).1.toList.map .word ++ (collect ms).2

theorem tokens_eq (line : Text) : tokens line = tokensOf (scan .none line) := rfl

theorem tokensOf_blank (ms : List Mark) : tokensOf (.blank :: ms) = tokensOf ms := rfl

theorem tokensOf_op (ms : List Mark) : tokensOf (.op :: ms) = .op :: tokensOf ms := rfl

/-- Whether a mark is part of a word. -/
def Mark.isPart : Mark → Bool
  | .part _ => true
  | _ => false

theorem collect_append {m : Mark} (hm : m.isPart = false) (ms ns : List Mark) :
    collect (ms ++ m :: ns) = ((collect ms).1, (collect ms).2 ++ tokensOf (m :: ns)) := by
  induction ms with
  | nil =>
    cases m with
    | part t => cases hm
    | blank => rfl
    | op => rfl
  | cons k ms ih =>
    rw [List.cons_append]
    cases k with
    | part t => rw [collect, collect, ih]
    | blank =>
      rw [collect, collect, ih]
      simp
    | op =>
      rw [collect, collect, ih]
      simp

/-- A mark that is no part of a word cuts the tokens. -/
theorem tokensOf_append {m : Mark} (hm : m.isPart = false) (ms ns : List Mark) :
    tokensOf (ms ++ m :: ns) = tokensOf ms ++ tokensOf (m :: ns) := by
  rw [tokensOf, collect_append hm, ← List.append_assoc]
  rfl

/-- The text of the parts among marks. -/
def textOf (ms : List Mark) : Text :=
  ms.flatMap fun
    | .part t => t
    | _ => []

theorem textOf_append (ms ns : List Mark) : textOf (ms ++ ns) = textOf ms ++ textOf ns :=
  List.flatMap_append

theorem collect_parts {ms : List Mark} (hparts : ∀ m ∈ ms, m.isPart = true) (hne : ms ≠ [])
    {rest : List Mark} (hrest : (collect rest).1 = none) :
    collect (ms ++ rest) = (some (textOf ms), (collect rest).2) := by
  induction ms with
  | nil => exact absurd rfl hne
  | cons m ms ih =>
    have hm := hparts m List.mem_cons_self
    cases m with
    | blank => cases hm
    | op => cases hm
    | part t =>
      rw [List.cons_append, collect]
      by_cases hms : ms = []
      · simp [hms, hrest, textOf]
      · rw [ih (fun k hk => hparts k (List.mem_cons_of_mem _ hk)) hms]
        rfl

/-- Parts in a row are one word. -/
theorem tokensOf_parts {ms : List Mark} (hparts : ∀ m ∈ ms, m.isPart = true) (hne : ms ≠ [])
    {rest : List Mark} (hrest : (collect rest).1 = none) :
    tokensOf (ms ++ rest) = .word (textOf ms) :: tokensOf rest := by
  simp [tokensOf, collect_parts hparts hne hrest, hrest]

/-! ## The search for lasting commands -/

/-- Behind an operator the search starts anew, whatever stands before it. -/
theorem changesStateFrom_append_op (ts ns : List Token) (atStart assigned : Bool) :
    changesStateFrom atStart assigned (ts ++ .op :: ns) =
      (changesStateFrom atStart assigned ts || changesStateFrom true false ns) := by
  induction ts generalizing atStart assigned with
  | nil => cases assigned <;> rfl
  | cons t ts ih =>
    cases t with
    | op => rw [List.cons_append, changesStateFrom, changesStateFrom, ih, Bool.or_assoc]
    | word w =>
      rw [List.cons_append, changesStateFrom, changesStateFrom]
      cases atStart with
      | false => exact ih false assigned
      | true =>
        simp only [if_true]
        split
        · exact ih true assigned
        split
        · exact ih true true
        split
        · rfl
        · exact ih false false

end Shell

end BuildScript
