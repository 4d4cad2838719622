import BuildScript.Proofs.Compile.Bindings
import BuildScript.Proofs.Word.Advance
import BuildScript.Proofs.Word.Canonical

/-!
# Words do not see one another

A reader of words carries a state from character to character, the quotes that are open and the word that it has
begun, and it looks ahead for the other quote and for the brace of a reference. Behind a text that leaves nothing open
(`Word.unclosed`) a blank puts it back to where it began: the words on both sides are those of two texts
(`Word.lexAll_append_blank`). So how many blanks there are does not matter, and each word is read from a stretch of
the text that is its own (`Word.exists_readApart`).

The condition is exact. What is open at the end takes the blank and some text behind it into its own word
(`Word.swallows_advance`), so that there are no more words than before (`Word.NoMoreWords.exists_of_unclosed`). All
this is put together in `Word.lexAll_separate`.
-/

namespace BuildScript.Word

variable {depth : Nat} {escape c s : Char} {quoted : Bool} {a b rest x : Text}

/-! ## What a text leaves open -/

/-- What reading a text leaves open, from a place inside double quotes (`quoted`) or outside: each reference that is
met without its brace, and a quote or an escape character at the end. -/
def unclosed (escape : Char) (quoted : Bool) : Text → List Unclosed
  | [] => if quoted then [.doubleQuote] else []
  | c :: rest =>
    have := length_advance_le escape quoted c rest
    (advance escape quoted c rest).opened.toList ++
      unclosed escape (advance escape quoted c rest).quoted (advance escape quoted c rest).rest
termination_by t => t.length
decreasing_by
  rw [List.length_cons]
  omega

theorem unclosed_nil_eq_nil_iff : unclosed escape quoted [] = [] ↔ quoted = false := by
  rw [unclosed]
  cases quoted <;> decide

theorem unclosed_cons (escape : Char) (quoted : Bool) (c : Char) (rest : Text) :
    unclosed escape quoted (c :: rest) = (advance escape quoted c rest).opened.toList ++
      unclosed escape (advance escape quoted c rest).quoted (advance escape quoted c rest).rest := by
  rw [unclosed]

theorem unclosed_cons_eq_nil_iff : unclosed escape quoted (c :: rest) = [] ↔
    (advance escape quoted c rest).opened = none ∧
      unclosed escape (advance escape quoted c rest).quoted (advance escape quoted c rest).rest = [] := by
  rw [unclosed_cons, List.append_eq_nil_iff, Option.toList_eq_nil_iff]

/-! ## Blanks behind it -/

/-- A text that leaves nothing open is scanned as if it stood alone, and what stands behind it as if it came first. -/
theorem scan_append (hx : StartsBlank x) (ha : unclosed escape quoted a = []) :
    scan isBlank escape quoted (a ++ x) = scan isBlank escape quoted a ++ scan isBlank escape false x := by
  fun_induction unclosed escape quoted a with
  | case1 => cases ha
  | case2 quoted hquoted =>
    rw [Bool.eq_false_iff.2 hquoted, scan]
    rfl
  | case3 quoted c rest _ ih =>
    obtain ⟨hopened, hrest⟩ := List.append_eq_nil_iff.1 ha
    rw [Option.toList_eq_nil_iff] at hopened
    rw [List.cons_append, scan_cons, scan_cons, advance_append hx hopened, ih hrest, List.cons_append]

/-- The reader is at the blank where it was at the start: what is open at the end is what the text behind leaves
open. -/
theorem unclosed_append (hx : StartsBlank x) (ha : unclosed escape quoted a = []) :
    unclosed escape quoted (a ++ x) = unclosed escape false x := by
  fun_induction unclosed escape quoted a with
  | case1 => cases ha
  | case2 quoted hquoted => rw [Bool.eq_false_iff.2 hquoted, List.nil_append]
  | case3 quoted c rest _ ih =>
    obtain ⟨hopened, hrest⟩ := List.append_eq_nil_iff.1 ha
    rw [Option.toList_eq_nil_iff] at hopened
    rw [List.cons_append, unclosed_cons, advance_append hx hopened, ih hrest, hopened]
    rfl

theorem unclosed_append_blank (hs : isBlank s = true) (ha : unclosed escape false a = []) (b : Text) :
    unclosed escape false (a ++ s :: b) = unclosed escape false b := by
  rw [unclosed_append (startsBlank_cons hs b) ha, unclosed_cons, advance_of_isBlank hs]
  rfl

theorem Mark.collect_append_blank (ms ns : List Mark) :
    collect (ms ++ .blank :: ns) =
      ((collect ms).1, (collect ms).2 ++ ((collect ns).1.toList ++ (collect ns).2)) := by
  induction ms with
  | nil => rfl
  | cons m ms ih =>
    rw [List.cons_append]
    cases m with
    | part w => rw [collect, collect, ih]
    | blank =>
      rw [collect, collect, ih]
      simp

theorem lexAll_append_blank (hs : isBlank s = true) (ha : unclosed escape false a = []) (b : Text) :
    lexAll escape (a ++ s :: b) = lexAll escape a ++ lexAll escape b := by
  rw [lexAll_eq, wordsFrom, scan_append (startsBlank_cons hs b) ha, scan_cons_of_isBlank hs,
    Mark.collect_append_blank]
  exact (List.append_assoc _ _ _).symm

theorem lexAll_append_gap {gap : Text} (ha : unclosed escape false a = []) (hgap : Text.Blanks gap) (hne : gap ≠ [])
    (b : Text) : lexAll escape (a ++ gap ++ b) = lexAll escape a ++ lexAll escape b := by
  obtain ⟨s, gap, rfl⟩ := List.exists_cons_of_ne_nil hne
  obtain ⟨hs, hgap⟩ := List.forall_mem_cons.1 hgap
  rw [List.append_assoc, List.cons_append, lexAll_append_blank hs ha, ← lexAll_trimStart escape (gap ++ b),
    Text.trimStart_append hgap, lexAll_trimStart]

/-! ## Each word by itself -/

/-- What is scanned as a blank is one, and the text can be cut there. -/
theorem exists_cut (ha : unclosed escape quoted a = []) {ms ns : List Mark}
    (hscan : scan isBlank escape quoted a = ms ++ .blank :: ns) :
    ∃ u s v, a = u ++ s :: v ∧ isBlank s = true ∧ unclosed escape quoted u = [] ∧
      scan isBlank escape quoted u = ms ∧ unclosed escape false v = [] := by
  fun_induction unclosed escape quoted a generalizing ms with
  | case1 => cases ha
  | case2 quoted hquoted =>
    rw [scan] at hscan
    cases ms <;> cases hscan
  | case3 quoted c rest _ ih =>
    obtain ⟨hopened, hrest⟩ := List.append_eq_nil_iff.1 ha
    rw [Option.toList_eq_nil_iff] at hopened
    rw [scan_cons] at hscan
    cases ms with
    | nil =>
      obtain ⟨rfl, hblank, hadvance⟩ := advance_eq_blank (List.cons.inj hscan).1
      rw [hadvance] at hrest
      exact ⟨[], c, rest, rfl, hblank, unclosed_nil_eq_nil_iff.2 rfl, by rw [scan], hrest⟩
    | cons m ms =>
      obtain ⟨hmark, hscan⟩ := List.cons.inj hscan
      obtain ⟨u, s, v, heq, hs, hu, hms, hv⟩ := ih hrest hscan
      obtain ⟨before, rfl, hbefore⟩ := advance_of_append hopened heq fun hnil =>
        unclosed_nil_eq_nil_iff.1 (hnil ▸ hu)
      refine ⟨c :: before, s, v, rfl, hs, ?_, ?_, hv⟩
      · rw [unclosed_cons_eq_nil_iff, hbefore]
        exact ⟨hopened, hu⟩
      · rw [scan_cons, hbefore, hmark, hms]

theorem Mark.collect_of_blank_notMem {ms : List Mark} (h : .blank ∉ ms) : (collect ms).2 = [] := by
  induction ms with
  | nil => rfl
  | cons m ms ih =>
    obtain ⟨hm, hms⟩ := not_or.1 (mt List.mem_cons.2 h)
    cases m with
    | part w => exact ih hms
    | blank => exact absurd rfl hm

theorem length_lexAll_le_one (h : (wordsFrom escape false a).2 = []) : (lexAll escape a).length ≤ 1 := by
  rw [lexAll_eq, h, List.append_nil]
  exact Option.length_toList_le

theorem eq_nil_of_blank_notMem {ws ws' : List Word} {w : Word} (h : .blank ∉ scan isBlank escape false a)
    (hwords : lexAll escape a = ws ++ w :: ws') : ws = [] ∧ ws' = [] := by
  have hlength := length_lexAll_le_one (Mark.collect_of_blank_notMem h)
  rw [hwords, List.length_append, List.length_cons] at hlength
  exact ⟨List.length_eq_zero_iff.1 (by omega), List.length_eq_zero_iff.1 (by omega)⟩

/-- Whether a word between others is read from `stretch`, and from that alone: whatever else stands there, as long as
it leaves nothing open, the words on both sides are the same. -/
structure ReadApart (escape : Char) (ws : List Word) (w : Word) (ws' : List Word) (before stretch after : Text) :
    Prop where
  word : lexAll escape stretch = [w]
  closed : unclosed escape false stretch = []
  others : ∀ t, unclosed escape false t = [] →
    lexAll escape (before ++ t ++ after) = ws ++ lexAll escape t ++ ws'

theorem ReadApart.behind {ws ws' : List Word} {w : Word} {before stretch after u : Text}
    (h : ReadApart escape ws w ws' before stretch after) (hs : isBlank s = true) (hu : unclosed escape false u = []) :
    ReadApart escape (lexAll escape u ++ ws) w ws' (u ++ s :: before) stretch after where
  word := h.word
  closed := h.closed
  others t ht := by
    have htext : u ++ s :: before ++ t ++ after = u ++ s :: (before ++ t ++ after) := by simp
    rw [htext, lexAll_append_blank hs hu, h.others t ht]
    simp

/-- Each word is read from a stretch of its own. The induction goes from blank to blank. -/
theorem exists_readApart {ws ws' : List Word} {w : Word} (ha : unclosed escape false a = [])
    (hwords : lexAll escape a = ws ++ w :: ws') :
    ∃ before stretch after, a = before ++ stretch ++ after ∧ ReadApart escape ws w ws' before stretch after := by
  obtain ⟨n, hn⟩ : ∃ n, a.length = n := ⟨_, rfl⟩
  induction n using Nat.strong_induction_on generalizing a ws with
  | _ n ih =>
    by_cases hblank : .blank ∈ scan isBlank escape false a
    · obtain ⟨ms, ns, hscan, hms⟩ := List.eq_append_cons_of_mem hblank
      obtain ⟨u, s, v, rfl, hs, hu, rfl, hv⟩ := exists_cut ha hscan
      have hbehind : ∀ vs, ws = lexAll escape u ++ vs → lexAll escape v = vs ++ w :: ws' →
          ∃ before stretch after, u ++ s :: v = before ++ stretch ++ after ∧
            ReadApart escape ws w ws' before stretch after := by
        rintro vs rfl hvs
        have hshorter : v.length < n := by
          rw [← hn, List.length_append, List.length_cons]
          omega
        obtain ⟨before, stretch, after, rfl, happart⟩ := ih v.length hshorter hv hvs rfl
        exact ⟨u ++ s :: before, stretch, after, by simp, happart.behind hs hu⟩
      rw [lexAll_append_blank hs hu, List.append_eq_append_iff] at hwords
      rcases hwords with ⟨vs, hws, hvs⟩ | ⟨vs, hws, hvs⟩
      · exact hbehind vs hws hvs
      · cases vs with
        | nil => exact hbehind [] (by simpa using hws.symm) hvs.symm
        | cons first vs =>
          obtain ⟨rfl, rfl⟩ := List.cons.inj hvs
          obtain ⟨rfl, rfl⟩ := eq_nil_of_blank_notMem hms hws
          exact ⟨[], u, s :: v, rfl, hws, hu, fun t ht => lexAll_append_blank hs ht v⟩
    · obtain ⟨rfl, rfl⟩ := eq_nil_of_blank_notMem hblank hwords
      exact ⟨[], a, [], by simp, hwords, ha, fun t _ => by simp⟩

/-! ## What stays open takes the text behind the blank -/

theorem ne_of_isBlank (hs : isBlank s = true) {d : Char} (hd : isBlank d = false) : s ≠ d := by
  rintro rfl
  rw [hs] at hd
  cases hd

theorem closeBrace_replicate (depth : Nat) :
    closeBrace depth (List.replicate (depth + 1) '}') = some (List.replicate depth '}', []) := by
  induction depth with
  | zero => rfl
  | succ depth ih =>
    rw [List.replicate_succ, closeBrace.eq_def]
    exact congrArg (Option.map _) ih

/-- A brace that is not closed in a text is closed by braces behind it. -/
theorem exists_closeBrace (hs : isBlank s = true) {t : Text} (h : closeBrace depth t = none) :
    ∃ n inner, closeBrace depth (t ++ s :: List.replicate (n + 1) '}') = some (inner, []) := by
  induction t generalizing depth with
  | nil =>
    refine ⟨depth, s :: List.replicate depth '}', ?_⟩
    rw [List.nil_append, closeBrace.eq_def]
    dsimp only
    rw [if_neg (ne_of_isBlank hs (by decide)), if_neg (ne_of_isBlank hs (by decide)), closeBrace_replicate]
    rfl
  | cons c t ih =>
    rcases closeBrace_cons depth c with ⟨-, hclose⟩ | ⟨depth', hcons⟩
    · rw [hclose] at h
      cases h
    · rw [hcons, Option.map_eq_none_iff] at h
      obtain ⟨n, inner, hinner⟩ := ih h
      refine ⟨n, c :: inner, ?_⟩
      rw [List.cons_append, hcons, hinner]
      rfl

theorem part_ne_blank (w : Word) : Mark.part w ≠ .blank := by
  intro h
  cases h

theorem exists_part_of_ne {m : Mark} (h : m ≠ .blank) : ∃ w, m = .part w := by
  cases m with
  | part w => exact ⟨w, rfl⟩
  | blank => exact absurd rfl h

theorem wordsFrom_of_part {w : Word} (h : (advance escape quoted c rest).mark = .part w) :
    wordsFrom escape quoted (c :: rest) =
      Mark.adjoin w (wordsFrom escape (advance escape quoted c rest).quoted (advance escape quoted c rest).rest) := by
  rw [wordsFrom, scan_cons, h]
  rfl

theorem length_lexAll_of_part {w : Word} (h : (advance escape false c rest).mark = .part w) :
    (lexAll escape (c :: rest)).length =
      (wordsFrom escape (advance escape false c rest).quoted (advance escape false c rest).rest).2.length + 1 := by
  rw [lexAll_eq, wordsFrom_of_part h, Mark.adjoin]
  exact List.length_cons

theorem snd_wordsFrom_replicate (hescape : escape ≠ '}') (quoted : Bool) (n : Nat) :
    (wordsFrom escape quoted (List.replicate n '}')).2 = [] := by
  induction n with
  | zero => rw [List.replicate_zero, wordsFrom_nil]
  | succ n ih =>
    rw [List.replicate_succ, wordsFrom_char (fun _ => ⟨by decide, by decide⟩) (by decide) hescape.symm (by decide)]
    exact ih

/-- Inside double quotes a blank does not separate. -/
theorem snd_wordsFrom_quoted (hescape : escape = '\\' ∨ escape = '\x60') (hs : isBlank s = true) (n : Nat) :
    (wordsFrom escape true (s :: List.replicate n '}')).2 = [] := by
  have hne : s ≠ escape ∧ escape ≠ '}' := by
    rcases hescape with rfl | rfl
    · exact ⟨ne_of_isBlank hs (by decide), by decide⟩
    · exact ⟨ne_of_isBlank hs (by decide), by decide⟩
  rw [wordsFrom_char (by simp) (ne_of_isBlank hs (by decide)) hne.1 (ne_of_isBlank hs (by decide))]
  exact snd_wordsFrom_replicate hne.2 true n

/-- Whether the word of a step goes on up to the end. -/
structure Advance.IsLast (escape : Char) (p : Advance) : Prop where
  mark : p.mark ≠ .blank
  behind : (wordsFrom escape p.quoted p.rest).2 = []

/-- Whether a blank and some braces behind the text come into the word of the step before them. -/
def Swallows (escape s : Char) (f : Text → Advance) (rest : Text) : Prop :=
  ∃ n, (f (rest ++ s :: List.replicate (n + 1) '}')).IsLast escape

theorem swallows_behindQuote (hs : isBlank s = true) (h : (Advance.behindQuote rest).opened ≠ none) :
    Swallows escape s Advance.behindQuote rest := by
  have hrest : '\'' ∉ rest := by
    rw [Advance.behindQuote] at h
    simpa using h
  have hquote : '\'' ∉ rest ++ s :: List.replicate 1 '}' := by
    simp [hrest, (ne_of_isBlank hs (by decide : isBlank '\'' = false)).symm]
  have hnone : (rest ++ s :: List.replicate 1 '}').dropWhile (· ≠ '\'') = [] :=
    List.dropWhile_eq_nil_iff.2 fun d hd => decide_eq_true fun heq => hquote (heq ▸ hd)
  refine ⟨0, part_ne_blank _, ?_⟩
  simp only [Advance.behindQuote, hnone, List.tail_nil, wordsFrom_nil]

theorem swallows_behindEscape (hescape : escape = '\\' ∨ escape = '\x60') (hs : isBlank s = true)
    (h : (Advance.behindEscape escape quoted rest).opened ≠ none) :
    Swallows escape s (Advance.behindEscape escape quoted) rest := by
  obtain rfl : rest = [] := by
    cases rest with
    | nil => rfl
    | cons d after =>
      rw [Advance.behindEscape] at h
      split at h <;> exact absurd rfl h
  refine ⟨0, ?_⟩
  rw [List.nil_append]
  by_cases hprotected : isProtected escape quoted s = true
  · have hnext : Advance.behindEscape escape quoted (s :: List.replicate 1 '}') =
        .plain (.part (.char s .nil)) quoted (List.replicate 1 '}') := if_pos hprotected
    have hbrace : escape ≠ '}' := by rcases hescape with rfl | rfl <;> decide
    rw [hnext]
    exact ⟨part_ne_blank _, snd_wordsFrom_replicate hbrace quoted 1⟩
  · have hnext : Advance.behindEscape escape quoted (s :: List.replicate 1 '}') =
        .plain (.part (.char escape .nil)) quoted (s :: List.replicate 1 '}') := if_neg hprotected
    obtain rfl : quoted = true := by
      by_contra hquoted
      simp [isProtected, hquoted] at hprotected
    rw [hnext]
    exact ⟨part_ne_blank _, snd_wordsFrom_quoted hescape hs 1⟩

theorem swallows_behindDollar (hs : isBlank s = true) (h : (Advance.behindDollar escape quoted rest).opened ≠ none) :
    Swallows escape s (Advance.behindDollar escape quoted) rest := by
  have hrest : Reference.isUnclosed rest = true := by
    rw [Advance.behindDollar] at h
    simpa using h
  obtain ⟨t, rfl, hclose⟩ := Reference.isUnclosed_iff.1 hrest
  obtain ⟨n, inner, hinner⟩ := exists_closeBrace hs hclose
  refine ⟨n, part_ne_blank _, ?_⟩
  simp only [Advance.behindDollar]
  rw [List.cons_append, Reference.read, if_pos rfl, hinner, wordsFrom_nil]

/-- A step that leaves something open takes the blank and some text behind it into its word. -/
theorem swallows_advance (hescape : escape = '\\' ∨ escape = '\x60') (hs : isBlank s = true)
    (h : (advance escape quoted c rest).opened ≠ none) : Swallows escape s (advance escape quoted c) rest := by
  rcases advance_cases escape quoted c with ⟨mark, after, hadvance⟩ | hadvance | hadvance | hadvance
  · rw [hadvance] at h
    exact absurd rfl h
  · rw [hadvance] at h ⊢
    exact swallows_behindQuote hs h
  · rw [hadvance] at h ⊢
    exact swallows_behindEscape hescape hs h
  · rw [hadvance] at h ⊢
    exact swallows_behindDollar hs h

/-- Whether there are no more words in `t` than in `a`. Inside double quotes a word has been begun, and those that come
behind it are counted. -/
structure NoMoreWords (escape : Char) (quoted : Bool) (a t : Text) : Prop where
  behind : (wordsFrom escape quoted t).2.length ≤ (wordsFrom escape quoted a).2.length
  all : quoted = false → (lexAll escape t).length ≤ (lexAll escape a).length

namespace NoMoreWords

theorem cons (hx : StartsBlank x) (hopened : (advance escape quoted c rest).opened = none)
    (h : NoMoreWords escape (advance escape quoted c rest).quoted (advance escape quoted c rest).rest
      ((advance escape quoted c rest).rest ++ x)) :
    NoMoreWords escape quoted (c :: rest) (c :: (rest ++ x)) := by
  have hnext := advance_append hx hopened
  cases hmark : (advance escape quoted c rest).mark with
  | part w =>
    have hmark' : (advance escape quoted c (rest ++ x)).mark = .part w := by rw [hnext, hmark]
    refine ⟨?_, ?_⟩
    · rw [wordsFrom_of_part hmark', wordsFrom_of_part hmark, hnext]
      exact h.behind
    · rintro rfl
      rw [length_lexAll_of_part hmark', length_lexAll_of_part hmark, hnext]
      exact Nat.succ_le_succ h.behind
  | blank =>
    obtain ⟨rfl, hblank, hadvance⟩ := advance_eq_blank hmark
    rw [hadvance] at h
    have hall : (lexAll escape (rest ++ x)).length ≤ (lexAll escape rest).length := h.all rfl
    refine ⟨?_, fun _ => ?_⟩
    · rw [wordsFrom_blank hblank, wordsFrom_blank hblank]
      exact hall
    · rw [lexAll_eq, wordsFrom_blank hblank, lexAll_eq escape (c :: rest), wordsFrom_blank hblank]
      exact hall

theorem of_isLast (hmark : (advance escape quoted c rest).mark ≠ .blank)
    (h : (advance escape quoted c (rest ++ x)).IsLast escape) :
    NoMoreWords escape quoted (c :: rest) (c :: (rest ++ x)) := by
  obtain ⟨w, hw⟩ := exists_part_of_ne hmark
  obtain ⟨v, hv⟩ := exists_part_of_ne h.mark
  refine ⟨?_, ?_⟩
  · rw [wordsFrom_of_part hv, Mark.adjoin, h.behind]
    exact Nat.zero_le _
  · rintro rfl
    rw [length_lexAll_of_part hv, length_lexAll_of_part hw, h.behind]
    exact Nat.succ_le_succ (Nat.zero_le _)

/-- If a text leaves something open, there is a text that adds no word behind it and a blank. Up to the step that
leaves something open, both texts are read alike. -/
theorem exists_of_unclosed (hescape : escape = '\\' ∨ escape = '\x60') (hs : isBlank s = true)
    (ha : unclosed escape quoted a ≠ []) :
    ∃ n, NoMoreWords escape quoted a (a ++ s :: List.replicate (n + 1) '}') := by
  fun_induction unclosed escape quoted a with
  | case1 =>
    refine ⟨0, ?_, fun h => by cases h⟩
    rw [List.nil_append, snd_wordsFrom_quoted hescape hs]
    exact Nat.zero_le _
  | case2 => exact absurd rfl ha
  | case3 quoted c rest _ ih =>
    by_cases hopened : (advance escape quoted c rest).opened = none
    · rw [hopened] at ha
      obtain ⟨n, hmore⟩ := ih ha
      exact ⟨n, cons (startsBlank_cons hs _) hopened hmore⟩
    · obtain ⟨n, hlast⟩ := swallows_advance hescape hs hopened
      refine ⟨n, of_isLast (fun hmark => hopened ?_) hlast⟩
      rw [(advance_eq_blank hmark).2.2]
      rfl

end NoMoreWords

/-- Words do not see one another. The words of a text, a blank and any other text are the words of the two texts if
and only if the first one leaves nothing open: no quote, no escape character with nothing behind it, and no reference
without its brace. Behind such a text it makes no difference which blanks there are and how many. Each word of such a
text is read from a stretch of its own: with any other text that leaves nothing open in its place, all other words are
the same. At the blank the reader is where it was at the start, so what is open at the end is what the second text
leaves open, and words are cut apart in this way also as they are stored. -/
theorem lexAll_separate (hescape : escape = '\\' ∨ escape = '\x60') :
    (∀ a s, isBlank s = true →
      ((∀ b, lexAll escape (a ++ s :: b) = lexAll escape a ++ lexAll escape b) ↔ unclosed escape false a = [])) ∧
    (∀ a gap gap' b, unclosed escape false a = [] → Text.Blanks gap → gap ≠ [] → Text.Blanks gap' → gap' ≠ [] →
      lexAll escape (a ++ gap ++ b) = lexAll escape (a ++ gap' ++ b)) ∧
    (∀ a ws w ws', unclosed escape false a = [] → lexAll escape a = ws ++ w :: ws' →
      ∃ before stretch after, a = before ++ stretch ++ after ∧ ReadApart escape ws w ws' before stretch after) ∧
    ∀ a s b, isBlank s = true → unclosed escape false a = [] →
      unclosed escape false (a ++ s :: b) = unclosed escape false b ∧
      Segmented.lexAll escape (a ++ s :: b) = Segmented.lexAll escape a ++ Segmented.lexAll escape b := by
  refine ⟨fun a s hs => ⟨fun h => ?_, lexAll_append_blank hs⟩, ?_, ?_, ?_⟩
  · by_contra hopen
    obtain ⟨n, hmore⟩ := NoMoreWords.exists_of_unclosed hescape hs hopen
    have hlength := hmore.all rfl
    have hbraces : 0 < (lexAll escape (List.replicate (n + 1) '}')).length :=
      List.length_pos_iff.2 (lexAll_ne_nil (List.mem_replicate.2 ⟨Nat.succ_ne_zero n, rfl⟩) (by decide) escape)
    rw [h, List.length_append] at hlength
    omega
  · intro a gap gap' b ha hgap hne hgap' hne'
    rw [lexAll_append_gap ha hgap hne, lexAll_append_gap ha hgap' hne']
  · intro a ws w ws'
    exact exists_readApart
  · intro a s b hs ha
    refine ⟨unclosed_append_blank hs ha b, ?_⟩
    rw [Segmented.lexAll_segmented, Segmented.lexAll_segmented, Segmented.lexAll_segmented,
      lexAll_append_blank hs ha, List.map_append]

/-- Quotes of one kind inside the other, an escape character, and a modifier that leaves a quote open, in front of a
text that leaves one open. That text is cut from what stands before it, and what stands behind it is not cut off. -/
theorem lexAll_separate_modifier :
    let a := "\"a 'b\"$X$\x7bY:-\"c d\x7d\\ e f".toList
    let b := "it's".toList
    let w := Word.literal "a 'b".toList ++
      .var "X".toList (.cond "Y".toList .default (.literal "c d".toList) (.literal " e".toList))
    unclosed '\\' false a = [] ∧ unclosed '\\' false b = [.singleQuote] ∧
      lexAll '\\' a = [] ++ w :: [.literal "f".toList] ∧
      lexAll '\\' (a ++ '\t' :: b) = lexAll '\\' a ++ lexAll '\\' b ∧
      (¬∀ t, lexAll '\\' (b ++ '\t' :: t) = lexAll '\\' b ++ lexAll '\\' t) ∧
      lexAll '\\' (a ++ " \n".toList ++ b) = lexAll '\\' (a ++ "\t".toList ++ b) ∧
      (∃ before stretch after, a = before ++ stretch ++ after ∧
        ReadApart '\\' [] w [.literal "f".toList] before stretch after) ∧
      unclosed '\\' false (a ++ '\t' :: b) = unclosed '\\' false b ∧
      Segmented.lexAll '\\' (a ++ '\t' :: b) = Segmented.lexAll '\\' a ++ Segmented.lexAll '\\' b := by
  intro a b w
  obtain ⟨hcut, hgap, hapart, hstored⟩ := @lexAll_separate '\\' (.inl rfl)
  have ha : unclosed '\\' false a = [] := by decide +kernel
  have hb : unclosed '\\' false b = [.singleQuote] := by decide +kernel
  have hwords : lexAll '\\' a = [] ++ w :: [.literal "f".toList] := by decide +kernel
  have hblanks : Text.Blanks " \n".toList ∧ Text.Blanks "\t".toList :=
    ⟨List.all_eq_true.1 (by decide), List.all_eq_true.1 (by decide)⟩
  refine ⟨ha, hb, hwords, (hcut a '\t' (by decide)).2 ha b, fun hall => ?_,
    hgap a _ _ b ha hblanks.1 (by decide) hblanks.2 (by decide), hapart a _ w _ ha hwords,
    hstored a '\t' b (by decide) ha⟩
  have hclosed := (hcut b '\t' (by decide)).1 hall
  rw [hb] at hclosed
  cases hclosed

end BuildScript.Word
