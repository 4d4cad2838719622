import BuildScript.Proofs.Word.Ends
import BuildScript.Proofs.Word.Cuts

/-!
# Words that are stored in segments

A word can be stored as segments: pieces of literal text, and references with the words of their modifiers stored
in the same way (`Segmented`). Not every list of segments is a good one. Text may be cut into more pieces than
needed, and pieces may be empty; then what is decided by the first or by the last segment is wrong.

All that is done to words can be done to their segments, one segment after the other: text is added to the last
segment if that is literal. This gives the segments of the word that comes out (`Word.segmented`), so the segments
are never cut up (`isCanonical_segmented`), and what is decided by the first or the last one of them is decided
for the word.
-/

namespace BuildScript

/-! ## Words with and without references -/

namespace Word

theorem startsWith_literal_iff {start : Text} (h : start ≠ []) (t : Text) :
    (literal t).startsWith start = true ↔ start <+: t := by
  rw [startsWith, leading_literal, Bool.and_eq_true, List.isPrefixOf_iff_prefix, and_iff_right_iff_imp]
  intro hprefix
  cases t with
  | nil => exact absurd (List.prefix_nil.1 hprefix) h
  | cons => rfl

theorem endsWith_literal_iff {ending : Text} (h : ending ≠ []) (t : Text) :
    (literal t).endsWith ending = true ↔ ending <:+ t := by
  rw [endsWith, trailing_literal, Bool.and_eq_true, List.isSuffixOf_iff_suffix, and_iff_right_iff_imp]
  intro hsuffix
  cases t with
  | nil => exact absurd (List.suffix_nil.1 hsuffix) h
  | cons => rfl

/-- What stands before a reference makes no difference to the characters behind it. -/
theorem trailingFrom_of_text?_eq_none {w : Word} (h : w.text? = none) (seen : Text) :
    trailingFrom seen w = w.trailing := by
  induction w generalizing seen with
  | nil => cases h
  | char c rest ih =>
    have hrest : rest.text? = none := Option.map_eq_none_iff.1 h
    rw [trailing, trailingFrom, trailingFrom, ih hrest, ih hrest]
  | _ => rfl

end Word

/-! ## Segments -/

/-- A word in segments. -/
inductive Segmented where
  | nil
  | literal (t : Text) (rest : Segmented)
  | var (name : Text) (rest : Segmented)
  | cond (name : Text) (choice : Choice) (arg : Segmented) (rest : Segmented)
  deriving DecidableEq, Repr

namespace Segmented

/-- Whether the first segment is literal. -/
def startsLiteral : Segmented → Bool
  | .literal _ _ => true
  | _ => false

/-- Whether no literal segment is empty and no two of them stand side by side, in modifiers too. -/
def IsCanonical : Segmented → Prop
  | .nil => True
  | .literal t rest => t ≠ [] ∧ rest.startsLiteral = false ∧ rest.IsCanonical
  | .var _ rest => rest.IsCanonical
  | .cond _ _ arg rest => arg.IsCanonical ∧ rest.IsCanonical

/-- Puts a character in front: into the first segment if that is literal. -/
def adjoin (c : Char) : Segmented → Segmented
  | .literal t rest => .literal (c :: t) rest
  | w => .literal [c] w

/-! ## Building -/

/-- Text as one segment, if there is any. -/
def ofText (t : Text) : Segmented := if t = [] then .nil else .literal t .nil

/-- Adds text to the last segment, or as a segment of its own if that one is a reference. -/
def extend (s : Text) : Segmented → Segmented
  | .nil => .literal s .nil
  | .literal t .nil => .literal (t ++ s) .nil
  | .literal t rest => .literal t (extend s rest)
  | .var name rest => .var name (extend s rest)
  | .cond name choice arg rest => .cond name choice arg (extend s rest)

/-- Adds a segment as it is. -/
def push : Segmented → Segmented → Segmented
  | .nil, segment => segment
  | .literal t rest, segment => .literal t (push rest segment)
  | .var name rest, segment => .var name (push rest segment)
  | .cond name choice arg rest, segment => .cond name choice arg (push rest segment)

def pushText (w : Segmented) (s : Text) : Segmented := if s = [] then w else w.extend s

def pushChar (w : Segmented) (c : Char) : Segmented := w.extend [c]

def pushVar (w : Segmented) (name : Text) : Segmented := w.push (.var name .nil)

def pushCond (w : Segmented) (name : Text) (choice : Choice) (arg : Segmented) : Segmented :=
  w.push (.cond name choice arg .nil)

/-- Adds the segments of another word one by one. -/
def append (w : Segmented) : Segmented → Segmented
  | .nil => w
  | .literal t rest => append (w.pushText t) rest
  | .var name rest => append (w.pushVar name) rest
  | .cond name choice arg rest => append (w.pushCond name choice arg) rest

/-- Words joined with a separator text between neighbours. -/
def join (sep : Text) : List Segmented → Segmented
  | [] => .nil
  | w :: ws => ws.foldl (fun joined v => (joined.pushText sep).append v) (append .nil w)

/-! ## Deciding -/

def isEmpty : Segmented → Bool
  | .nil => true
  | .literal t rest => t.isEmpty && isEmpty rest
  | .var _ _ | .cond _ _ _ _ => false

/-- The text of a word without references. -/
def text? : Segmented → Option Text
  | .nil => some []
  | .literal t rest => (text? rest).map (t ++ ·)
  | .var _ _ | .cond _ _ _ _ => none

/-- Whether the first segment is literal and begins with `start`. -/
def startsWith (start : Text) : Segmented → Bool
  | .literal t _ => start.isPrefixOf t
  | _ => false

/-- Whether the last segment is literal and ends in `ending`. -/
def endsWith (ending : Text) : Segmented → Bool
  | .nil => false
  | .literal t .nil => ending.isSuffixOf t
  | .literal _ rest | .var _ rest | .cond _ _ _ rest => endsWith ending rest

/-- Cuts a word at the first `sep` in its first segment, if that is literal. -/
def cutAt (sep : Char) : Segmented → Option (Text × Segmented)
  | .literal t rest => (Text.cutAt sep t).map fun cut => (cut.1, (ofText cut.2).append rest)
  | _ => none

end Segmented

/-- The segments of a word: each stretch of characters, and each reference. -/
def Word.segmented : Word → Segmented
  | .nil => .nil
  | .char c rest => rest.segmented.adjoin c
  | .var name rest => .var name rest.segmented
  | .cond name choice arg rest => .cond name choice arg.segmented rest.segmented

namespace Segmented

variable {c : Char} {s t : Text} {v w : Segmented}

/-! ## Segments are whole -/

theorem isCanonical_adjoin (h : w.IsCanonical) (c : Char) : (w.adjoin c).IsCanonical := by
  cases w with
  | literal t rest => exact ⟨List.cons_ne_nil c t, h.2⟩
  | _ => exact ⟨List.cons_ne_nil c [], rfl, h⟩

theorem isCanonical_segmented (w : Word) : w.segmented.IsCanonical := by
  induction w with
  | nil => trivial
  | char c rest ih => exact isCanonical_adjoin ih c
  | var name rest ih => exact ih
  | cond name choice arg rest iharg ih => exact ⟨iharg, ih⟩

theorem segmented_literal_append (hw : w.startsLiteral = false) (hne : t ≠ []) {u : Word} (hu : u.segmented = w) :
    (Word.literal t ++ u).segmented = .literal t w := by
  induction t with
  | nil => exact absurd rfl hne
  | cons c rest ih =>
    rw [Word.literal, Word.char_append, Word.segmented]
    by_cases hrest : rest = []
    · rw [hrest, Word.literal, Word.nil_append, hu]
      cases w with
      | literal => cases hw
      | _ => rfl
    · rw [ih hrest]
      rfl

/-- Whole segments are those of a word. -/
theorem exists_segmented_eq (h : w.IsCanonical) : ∃ u : Word, u.segmented = w := by
  induction w with
  | nil => exact ⟨.nil, rfl⟩
  | literal t rest ih =>
    obtain ⟨hne, hstarts, hrest⟩ := h
    obtain ⟨u, hu⟩ := ih hrest
    exact ⟨_, segmented_literal_append hstarts hne hu⟩
  | var name rest ih =>
    obtain ⟨u, hu⟩ := ih h
    exact ⟨.var name u, congrArg _ hu⟩
  | cond name choice arg rest iharg ih =>
    obtain ⟨u, hu⟩ := ih h.2
    obtain ⟨a, ha⟩ := iharg h.1
    exact ⟨.cond name choice a u, by rw [Word.segmented, ha, hu]⟩

theorem segmented_literal (t : Text) : (Word.literal t).segmented = ofText t := by
  unfold ofText
  split
  · next h => rw [h]; rfl
  · next h =>
    have happend := segmented_literal_append (w := .nil) rfl h (u := .nil) rfl
    rwa [Word.append_nil] at happend

/-! ## The segments are those that a word shows -/

/-- The word that is stored. -/
def word : Segmented → Word
  | .nil => .nil
  | .literal t rest => .literal t ++ word rest
  | .var name rest => .var name (word rest)
  | .cond name choice arg rest => .cond name choice (word arg) (word rest)

/-- The segments in a row. -/
def toList : Segmented → List Word.Segment
  | .nil => []
  | .literal t rest => .literal t :: toList rest
  | .var name rest => .var name :: toList rest
  | .cond name choice arg rest => .cond name choice arg.word :: toList rest

theorem word_adjoin (c : Char) (w : Segmented) : (w.adjoin c).word = .char c w.word := by
  cases w <;> rfl

theorem word_segmented (w : Word) : w.segmented.word = w := by
  induction w with
  | nil => rfl
  | char c rest ih => rw [Word.segmented, word_adjoin, ih]
  | var name rest ih => exact congrArg _ ih
  | cond name choice arg rest iharg ih => rw [Word.segmented, word, iharg, ih]

theorem toList_segmented (w : Word) : w.segmented.toList = w.segments := by
  induction w with
  | nil => rfl
  | char c rest ih =>
    rw [Word.segmented, Word.segments, ← ih]
    cases rest.segmented <;> rfl
  | var name rest ih => exact congrArg _ ih
  | cond name choice arg rest _ ih => rw [Word.segmented, toList, word_segmented, ih, Word.segments]

/-! ## Building adds to the segments of a word what is added to the word -/

theorem extend_adjoin (c : Char) (w : Segmented) : (w.adjoin c).extend s = (w.extend s).adjoin c := by
  cases w with
  | literal t rest => cases rest <;> rfl
  | _ => rfl

theorem extend_segmented (hne : s ≠ []) (w : Word) : w.segmented.extend s = (w ++ .literal s).segmented := by
  induction w with
  | nil => rw [Word.nil_append, segmented_literal, ofText, if_neg hne]; rfl
  | char c rest ih => rw [Word.segmented, extend_adjoin, ih]; rfl
  | var name rest ih => exact congrArg _ ih
  | cond name choice arg rest _ ih => exact congrArg _ ih

theorem pushText_segmented (s : Text) (w : Word) : w.segmented.pushText s = (w ++ .literal s).segmented := by
  unfold pushText
  split
  · next h => rw [h, Word.literal, Word.append_nil]
  · next h => exact extend_segmented h w

theorem pushChar_segmented (c : Char) (w : Word) : w.segmented.pushChar c = (w ++ .char c .nil).segmented :=
  extend_segmented (List.cons_ne_nil c []) w

theorem push_adjoin (hw : w.startsLiteral = false) (c : Char) (v : Segmented) :
    (v.adjoin c).push w = (v.push w).adjoin c := by
  cases v with
  | nil =>
    cases w with
    | literal => cases hw
    | _ => rfl
  | _ => rfl

theorem push_segmented {u : Word} (hu : u.segmented.startsLiteral = false) (v : Word) :
    v.segmented.push u.segmented = (v ++ u).segmented := by
  induction v with
  | nil => rfl
  | char c rest ih => rw [Word.segmented, push_adjoin hu, ih]; rfl
  | var name rest ih => exact congrArg _ ih
  | cond name choice arg rest _ ih => exact congrArg _ ih

theorem pushVar_segmented (name : Text) (w : Word) :
    w.segmented.pushVar name = (w ++ .var name .nil).segmented :=
  push_segmented (u := .var name .nil) rfl w

theorem pushCond_segmented (name : Text) (choice : Choice) (arg w : Word) :
    w.segmented.pushCond name choice arg.segmented = (w ++ .cond name choice arg .nil).segmented :=
  push_segmented (u := .cond name choice arg .nil) rfl w

theorem pushText_cons (c : Char) (t : Text) (w : Word) :
    w.segmented.pushText (c :: t) = (w ++ .char c .nil).segmented.pushText t := by
  rw [pushText_segmented, pushText_segmented, Word.append_assoc]
  rfl

theorem append_adjoin (v : Word) (c : Char) (w : Segmented) :
    v.segmented.append (w.adjoin c) = (v ++ .char c .nil).segmented.append w := by
  cases w with
  | literal t rest => rw [adjoin, append, append, pushText_cons]
  | _ => exact congrArg (append · _) (pushChar_segmented c v)

/-- The segments of two words one behind the other are those of the word that they make. -/
theorem append_segmented (v w : Word) : v.segmented.append w.segmented = (v ++ w).segmented := by
  induction w generalizing v with
  | nil => rw [Word.append_nil]; rfl
  | char c rest ih =>
    rw [Word.segmented, append_adjoin, ih, Word.append_assoc]
    rfl
  | var name rest ih =>
    rw [Word.segmented, append, pushVar_segmented, ih, Word.append_assoc]
    rfl
  | cond name choice arg rest _ ih =>
    rw [Word.segmented, append, pushCond_segmented, ih, Word.append_assoc]
    rfl

theorem join_segmented (sep : Text) (ws : List Word) :
    join sep (ws.map Word.segmented) = (Word.join sep ws).segmented := by
  have hfold : ∀ (ws : List Word) (v : Word),
      (ws.map Word.segmented).foldl (fun joined u => (joined.pushText sep).append u) v.segmented =
        (Word.join sep (v :: ws)).segmented := by
    intro ws
    induction ws with
    | nil => exact fun _ => rfl
    | cons w rest ih =>
      intro v
      rw [List.map_cons, List.foldl_cons, pushText_segmented, append_segmented, ih]
      cases rest with
      | nil => rfl
      | cons u rest => simp only [Word.join, Word.append_assoc]
  cases ws with
  | nil => rfl
  | cons w rest =>
    have hfirst := append_segmented .nil w
    rw [List.map_cons, join, ← hfold]
    exact congrArg (fun v => List.foldl _ v _) hfirst

/-! ## The first and the last segment decide for the word -/

theorem isEmpty_segmented (w : Word) : w.segmented.isEmpty = w.isEmpty := by
  cases w with
  | char c rest =>
    rw [Word.segmented]
    cases rest.segmented <;> rfl
  | _ => rfl

theorem text?_adjoin (c : Char) (w : Segmented) : (w.adjoin c).text? = w.text?.map (c :: ·) := by
  cases w with
  | literal t rest =>
    rw [adjoin, text?, text?, Option.map_map]
    rfl
  | _ => rfl

theorem text?_segmented (w : Word) : w.segmented.text? = w.text? := by
  induction w with
  | char c rest ih => rw [Word.segmented, text?_adjoin, ih]; rfl
  | _ => rfl

/-- The first segment of a word that begins with a character holds all characters before the first reference. -/
theorem exists_segmented_char (c : Char) (rest : Word) :
    ∃ u : Word, (Word.char c rest).segmented = .literal (c :: rest.leading) u.segmented ∧
      Word.char c rest = .literal (c :: rest.leading) ++ u := by
  induction rest generalizing c with
  | char d rest ih =>
    obtain ⟨u, hsegmented, hword⟩ := ih d
    refine ⟨u, ?_, ?_⟩
    · rw [Word.segmented, hsegmented]
      rfl
    · conv_lhs => rw [hword]
      rfl
  | nil => exact ⟨.nil, rfl, rfl⟩
  | var name rest => exact ⟨.var name rest, rfl, rfl⟩
  | cond name choice arg rest => exact ⟨.cond name choice arg rest, rfl, rfl⟩

theorem startsWith_segmented (start : Text) (w : Word) : w.segmented.startsWith start = w.startsWith start := by
  cases w with
  | char c rest =>
    obtain ⟨u, hsegmented, -⟩ := exists_segmented_char c rest
    rw [hsegmented]
    rfl
  | _ => rfl

theorem cutAt_segmented (sep : Char) (w : Word) :
    w.segmented.cutAt sep = (w.cutAt sep).map fun cut => (cut.1, cut.2.segmented) := by
  cases w with
  | char c rest =>
    obtain ⟨u, hsegmented, hword⟩ := exists_segmented_char c rest
    rw [hsegmented, cutAt]
    cases hcut : Text.cutAt sep (c :: rest.leading) with
    | none =>
      have hnone : (Word.char c rest).cutAt sep = none :=
        Word.cutAt_eq_none_iff.2 (Text.cutAt_eq_none.1 hcut)
      rw [hnone]
      rfl
    | some cut =>
      obtain ⟨before, after⟩ := cut
      obtain ⟨heq, hsep⟩ := Text.cutAt_eq_some hcut
      have hsome : (Word.char c rest).cutAt sep = some (before, .literal after ++ u) := by
        refine Word.cutAt_eq_some_iff.2 ⟨hsep, ?_⟩
        rw [hword, heq, Word.literal_append, Word.append_assoc]
        rfl
      rw [hsome, Option.map_some, Option.map_some, ← segmented_literal, append_segmented]
  | _ => rfl

/-- A character in front makes no difference to the last segment if there is a reference. -/
theorem endsWith_adjoin (h : w.text? = none) (ending : Text) (c : Char) :
    (w.adjoin c).endsWith ending = w.endsWith ending := by
  cases w with
  | nil => cases h
  | literal t rest =>
    cases rest with
    | nil => cases h
    | _ => rfl
  | _ => rfl

theorem endsWith_segmented (ending : Text) (w : Word) : w.segmented.endsWith ending = w.endsWith ending := by
  induction w with
  | nil => rfl
  | char c rest ih =>
    cases htext : rest.text? with
    | some t =>
      have hword : Word.char c rest = .literal (c :: t) := by rw [Word.eq_literal_of_text? htext]; rfl
      rw [hword, segmented_literal, Word.endsWith, Word.trailing_literal]
      rfl
    | none =>
      rw [Word.segmented, endsWith_adjoin (by rw [text?_segmented, htext]), ih, Word.endsWith, Word.endsWith,
        Word.trailing.eq_def (.char c rest), Word.trailingFrom, Word.trailingFrom_of_text?_eq_none htext]
  | var name rest ih => exact ih
  | cond name choice arg rest _ ih => exact ih

end Segmented

end BuildScript
