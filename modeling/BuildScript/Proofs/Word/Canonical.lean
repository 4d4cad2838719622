import Mathlib.Data.Set.List
import BuildScript.Compile.State
import BuildScript.Proofs.Word.Segmented

/-!
# Words are stored in whole segments

Words are read, expanded and resolved segment by segment: a reader adds to the word that it has begun
(`readFrom`), and a variable is replaced by the segments of its value (`expandInto`). What comes out is stored in
the segments of the word that reading, expanding and resolving give (`lexAll_segmented`, `expand_segmented`,
`resolve_segmented`). So no finite number of operations on words leaves an empty segment or cuts a stretch of
text in two (`canonical_of_made`).
-/

namespace BuildScript.Segmented

variable {separates : Char → Bool} {escape : Char} {quoted : Bool}

/-! ## Reading -/

/-- Reads words from a text. `cur` are the segments of the word that is being read, and `started` tells whether
there is one. -/
def readFrom (separates : Char → Bool) (escape : Char) (quoted started : Bool) (cur : Segmented) (t : Text) :
    List Segmented :=
  match t with
  | [] => if started || !cur.isEmpty then [cur] else []
  | c :: rest =>
    if !quoted && separates c then
      if started then cur :: readFrom separates escape quoted false .nil rest
      else readFrom separates escape quoted false cur rest
    else if c = '\'' ∧ quoted = false then
      readFrom separates escape quoted true ((rest.takeWhile (· ≠ '\'')).foldl pushChar cur)
        (rest.dropWhile (· ≠ '\'')).tail
    else if c = '"' then readFrom separates escape (!quoted) true cur rest
    else if c = escape then
      match rest with
      | [] => readFrom separates escape quoted true (cur.pushChar c) []
      | d :: after =>
        if Word.isProtected escape quoted d then
          readFrom separates escape quoted true (cur.pushChar d) after
        else readFrom separates escape quoted true (cur.pushChar c) (d :: after)
    else if c = '$' then
      match h : Reference.read rest with
      | (.var name, after) =>
        have := Reference.read_length h
        readFrom separates escape quoted true (cur.pushVar name) after
      | (.cond name choice arg, after) =>
        have := Reference.read_length h
        have := Reference.arg_length h
        readFrom separates escape quoted true
          (cur.pushCond name choice ((readFrom (fun _ => false) escape false false .nil arg).headD .nil)) after
      | (.literal u, after) =>
        have := Reference.read_length h
        readFrom separates escape quoted true (cur.pushText u) after
    else readFrom separates escape quoted true (cur.pushChar c) rest
termination_by t.length
decreasing_by
  all_goals simp only [List.length_cons, List.length_tail]
  all_goals try omega
  have := (List.dropWhile_suffix (fun c => decide (c ≠ '\'')) (l := rest)).length_le
  omega

/-- The words of a text. -/
def lexAll (escape : Char) (t : Text) : List Segmented := readFrom isBlank escape false false .nil t

/-- A text as one word. -/
def lex (escape : Char) (t : Text) : Segmented :=
  (readFrom (fun _ => false) escape false false .nil t).headD .nil

/-- Whether a reader comes to the words of scanned text: if it has begun a word, the first of them belongs to
that word. -/
structure Reads (read : Bool → Segmented → List Segmented) (marks : List Word.Mark) : Prop where
  started : ∀ w : Word, read true w.segmented =
    ((w ++ (Word.Mark.collect marks).1.getD .nil) :: (Word.Mark.collect marks).2).map Word.segmented
  bare : read false .nil =
    ((Word.Mark.collect marks).1.toList ++ (Word.Mark.collect marks).2).map Word.segmented

namespace Reads

variable {read next : Bool → Segmented → List Segmented} {marks : List Word.Mark}

theorem part {u : Word} (h : Reads next marks)
    (hread : ∀ started (w : Word), read started w.segmented = next true (w ++ u).segmented) :
    Reads read (.part u :: marks) where
  started w := by
    rw [hread, h.started, Word.append_assoc]
    rfl
  bare := (hread false .nil).trans (h.started u)

theorem blank (h : Reads next marks) (hstarted : ∀ w : Word, read true w.segmented = w.segmented :: next false .nil)
    (hbare : read false .nil = next false .nil) : Reads read (.blank :: marks) where
  started w := by
    have hcollect : Word.Mark.collect (.blank :: marks) =
        (none, (Word.Mark.collect marks).1.toList ++ (Word.Mark.collect marks).2) := rfl
    rw [hstarted, h.bare, hcollect, Option.getD_none, Word.append_nil]
    rfl
  bare := hbare.trans h.bare

theorem getD_collect (marks : List Word.Mark) (h : .blank ∉ marks) :
    (Word.Mark.collect marks).1.getD .nil = Word.Mark.concat marks := by
  induction marks with
  | nil => rfl
  | cons m rest ih =>
    obtain ⟨hm, hrest⟩ := not_or.1 (mt List.mem_cons.2 h)
    cases m with
    | blank => exact absurd rfl hm
    | part u => rw [Word.Mark.concat, ← ih hrest]; rfl

/-- A reader of text in which nothing separates comes to one word. -/
theorem headD_eq (h : Reads read marks) (hblank : .blank ∉ marks) :
    (read false .nil).headD .nil = (Word.Mark.concat marks).segmented := by
  rw [h.bare, ← getD_collect marks hblank]
  cases marks with
  | nil => rfl
  | cons m rest =>
    cases m with
    | blank => exact absurd List.mem_cons_self hblank
    | part u => rfl

end Reads

/-- Nothing separates if no character does. -/
theorem blank_notMem_scan (separates : Char → Bool) (escape : Char) (quoted : Bool) (t : Text) :
    (∀ c, separates c = false) → .blank ∉ Word.scan separates escape quoted t := by
  fun_induction Word.scan separates escape quoted t with
  | case1 | case5 => simp
  | case2 separates quoted c rest hblank ih =>
    intro h
    simp [h] at hblank
  | case3 _ _ _ _ _ _ ih | case4 _ _ _ _ _ ih | case6 _ _ _ _ _ _ _ _ ih | case7 _ _ _ _ _ _ _ _ ih
  | case8 _ _ _ _ _ _ _ _ _ _ _ ih | case9 _ _ _ _ _ _ _ _ _ _ _ _ _ _ _ ih
  | case10 _ _ _ _ _ _ _ _ _ _ _ ih | case11 _ _ _ _ _ _ _ _ _ ih =>
    intro h
    exact List.not_mem_cons_of_ne_of_not_mem (by simp) (ih h)

theorem foldl_pushChar_segmented (t : Text) (w : Word) :
    t.foldl pushChar w.segmented = (w ++ .literal t).segmented := by
  induction t generalizing w with
  | nil => rw [Word.literal, Word.append_nil]; rfl
  | cons c rest ih => rw [List.foldl_cons, pushChar_segmented, ih, Word.append_assoc]; rfl

theorem reads_nil (separates : Char → Bool) (escape : Char) (quoted : Bool) :
    Reads (fun started cur => readFrom separates escape quoted started cur []) [] := by
  refine ⟨fun w => ?_, ?_⟩
  · rw [readFrom.eq_def]
    simp [Word.Mark.collect]
  · rw [readFrom.eq_def]
    rfl

/-- The reader adds to its word what the scan tells, in one case for each kind of character. -/
theorem reads_scan (separates : Char → Bool) (escape : Char) (quoted : Bool) (t : Text) :
    Reads (fun started cur => readFrom separates escape quoted started cur t)
      (Word.scan separates escape quoted t) := by
  fun_induction Word.scan separates escape quoted t with
  | case1 separates quoted => exact reads_nil separates escape quoted
  | case2 separates quoted c rest hblank ih =>
    obtain rfl : quoted = false := by
      rw [Bool.and_eq_true, Bool.not_eq_true'] at hblank
      exact hblank.1
    refine ih.blank (fun w => ?_) ?_
    · rw [readFrom.eq_def]
      dsimp only
      rw [if_pos hblank, if_pos rfl]
    · rw [readFrom.eq_def]
      dsimp only
      rw [if_pos hblank, if_neg Bool.false_ne_true]
  | case3 separates quoted c rest hblank hquote ih =>
    refine ih.part fun started w => ?_
    rw [readFrom.eq_def]
    dsimp only
    rw [if_neg hblank, if_pos hquote, foldl_pushChar_segmented]
  | case4 separates quoted rest hblank hquote ih =>
    refine ih.part fun started w => ?_
    rw [readFrom.eq_def]
    dsimp only
    rw [if_neg hblank, if_neg hquote, if_pos rfl, Word.append_nil]
  | case5 separates quoted hblank hquote hdouble =>
    refine (reads_nil separates escape quoted).part fun started w => ?_
    rw [readFrom.eq_def]
    dsimp only
    rw [if_neg hblank, if_neg hquote, if_neg hdouble, if_pos rfl, pushChar_segmented]
  | case6 separates quoted d after hprotected hblank hquote hdouble ih =>
    refine ih.part fun started w => ?_
    rw [readFrom.eq_def]
    dsimp only
    rw [if_neg hblank, if_neg hquote, if_neg hdouble, if_pos rfl, if_pos hprotected, pushChar_segmented]
  | case7 separates quoted d after hprotected hblank hquote hdouble ih =>
    refine ih.part fun started w => ?_
    rw [readFrom.eq_def]
    dsimp only
    rw [if_neg hblank, if_neg hquote, if_neg hdouble, if_pos rfl, if_neg hprotected, pushChar_segmented]
  | case8 separates quoted rest name after hread _ hblank hquote hdouble hescape ih =>
    refine ih.part fun started w => ?_
    rw [readFrom.eq_def]
    dsimp only
    rw [if_neg hblank, if_neg hquote, if_neg hdouble, if_neg hescape, if_pos rfl]
    split <;> rename_i hother <;> cases hread.symm.trans hother
    rw [pushVar_segmented]
  | case9 separates quoted rest name choice arg after hread _ _ hblank hquote hdouble hescape iharg ih =>
    refine ih.part fun started w => ?_
    rw [readFrom.eq_def]
    dsimp only
    rw [if_neg hblank, if_neg hquote, if_neg hdouble, if_neg hescape, if_pos rfl]
    split <;> rename_i hother <;> cases hread.symm.trans hother
    rw [iharg.headD_eq (blank_notMem_scan _ escape false arg fun _ => rfl), pushCond_segmented]
  | case10 separates quoted rest u after hread _ hblank hquote hdouble hescape ih =>
    refine ih.part fun started w => ?_
    rw [readFrom.eq_def]
    dsimp only
    rw [if_neg hblank, if_neg hquote, if_neg hdouble, if_neg hescape, if_pos rfl]
    split <;> rename_i hother <;> cases hread.symm.trans hother
    rw [pushText_segmented]
  | case11 separates quoted c rest hblank hquote hdouble hescape hdollar ih =>
    refine ih.part fun started w => ?_
    rw [readFrom.eq_def]
    dsimp only
    rw [if_neg hblank, if_neg hquote, if_neg hdouble, if_neg hescape, if_neg hdollar, pushChar_segmented]

theorem lexAll_segmented (escape : Char) (t : Text) :
    lexAll escape t = (Word.lexAll escape t).map Word.segmented :=
  (reads_scan isBlank escape false t).bare

theorem lex_segmented (escape : Char) (t : Text) : lex escape t = (Word.lex escape t).segmented :=
  (reads_scan _ escape false t).headD_eq (blank_notMem_scan _ escape false t fun _ => rfl)

/-! ## Expanding and resolving -/

/-- Adds a word to another one, with the variables substituted that have a value. -/
def expandInto (env : List (Text × Segmented)) (out : Segmented) : Segmented → Segmented
  | .nil => out
  | .literal t rest => expandInto env (out.pushText t) rest
  | .var name rest =>
    match env.lookup name with
    | some value => expandInto env (out.append value) rest
    | none => expandInto env (out.pushVar name) rest
  | .cond name choice arg rest =>
    match env.lookup name, choice with
    | some value, .default =>
      expandInto env (out.append (if value.isEmpty then expandInto env .nil arg else value)) rest
    | some value, .alternate =>
      expandInto env (if value.isEmpty then out else out.append (expandInto env .nil arg)) rest
    | none, choice => expandInto env (out.pushCond name choice (expandInto env .nil arg)) rest

def expand (env : List (Text × Segmented)) (w : Segmented) : Segmented := expandInto env .nil w

/-- A path below a directory, unless its first segment begins with a slash. -/
def resolve (dir path : Segmented) : Segmented :=
  let joined :=
    if path.startsWith ['/'] then path
    else (if dir.endsWith ['/'] then dir else dir.pushText ['/']).append path
  match joined.text? with
  | some text => ofText (Path.normalize text)
  | none => joined

theorem expandInto_adjoin (env : List (Text × Segmented)) (out : Word) (c : Char) (w : Segmented) :
    expandInto env out.segmented (w.adjoin c) = expandInto env (out ++ .char c .nil).segmented w := by
  cases w with
  | literal t rest => rw [adjoin, expandInto, expandInto, pushText_cons]
  | _ => exact congrArg (expandInto env · _) (pushChar_segmented c out)

/-- The segments of the values that are recorded. -/
def recorded (env : Environment) : List (Text × Segmented) := env.map fun b => (b.1, b.2.segmented)

theorem lookup_recorded (env : Environment) (name : Text) :
    (recorded env).lookup name = (env.get? name).map Word.segmented := by
  induction env with
  | nil => rfl
  | cons b rest ih =>
    rw [recorded, List.map_cons, List.lookup_cons, Environment.get?, List.lookup_cons]
    cases name == b.1 with
    | true => rfl
    | false => exact ih

theorem expandInto_segmented (env : Environment) (out w : Word) :
    expandInto (recorded env) out.segmented w.segmented = (out ++ env.expand w).segmented := by
  induction w generalizing out with
  | nil => rw [Environment.expand, Word.append_nil]; rfl
  | char c rest ih =>
    rw [Word.segmented, expandInto_adjoin, ih, Environment.expand, Word.append_assoc]
    rfl
  | var name rest ih =>
    rw [Word.segmented, expandInto, Environment.expand]
    cases hget : env.get? name with
    | none =>
      have hfind : (recorded env).lookup name = none := by rw [lookup_recorded, hget]; rfl
      rw [hfind]
      dsimp only
      rw [pushVar_segmented, ih, Word.append_assoc]
      rfl
    | some value =>
      have hfind : (recorded env).lookup name = some value.segmented := by rw [lookup_recorded, hget]; rfl
      rw [hfind]
      dsimp only
      rw [append_segmented, ih, Word.append_assoc]
  | cond name choice arg rest iharg ih =>
    have harg : expandInto (recorded env) .nil arg.segmented = (env.expand arg).segmented := iharg .nil
    rw [Word.segmented, expandInto.eq_def, Environment.expand.eq_def]
    dsimp only
    rw [harg]
    cases hget : env.get? name with
    | none =>
      have hfind : (recorded env).lookup name = none := by rw [lookup_recorded, hget]; rfl
      rw [hfind]
      dsimp only
      rw [pushCond_segmented, ih, Word.append_assoc]
      rfl
    | some value =>
      have hfind : (recorded env).lookup name = some value.segmented := by rw [lookup_recorded, hget]; rfl
      rw [hfind]
      cases choice with
      | default =>
        have hvalue : (if value.segmented.isEmpty then (env.expand arg).segmented else value.segmented) =
            (if value.isEmpty then env.expand arg else value).segmented := by
          rw [isEmpty_segmented]
          split <;> rfl
        dsimp only
        rw [hvalue, append_segmented, ih, Word.append_assoc]
      | alternate =>
        have hvalue : (if value.segmented.isEmpty then out.segmented
            else out.segmented.append (env.expand arg).segmented) =
            (out ++ if value.isEmpty then .nil else env.expand arg).segmented := by
          rw [isEmpty_segmented]
          split
          · rw [Word.append_nil]
          · exact append_segmented _ _
        dsimp only
        rw [hvalue, ih, Word.append_assoc]

theorem expand_segmented (env : Environment) (w : Word) :
    expand (recorded env) w.segmented = (env.expand w).segmented :=
  expandInto_segmented env .nil w

theorem resolve_segmented (s : State) (path : Word) :
    resolve s.workingDir.segmented path.segmented = (s.resolve path).segmented := by
  have hjoined : (if path.segmented.startsWith ['/'] then path.segmented
      else (if s.workingDir.segmented.endsWith ['/'] then s.workingDir.segmented
        else s.workingDir.segmented.pushText ['/']).append path.segmented) =
      (if path.startsWith ['/'] then path
        else (if s.workingDir.endsWith ['/'] then s.workingDir
          else s.workingDir ++ .literal ['/']) ++ path).segmented := by
    rw [startsWith_segmented, endsWith_segmented, pushText_segmented]
    split
    · rfl
    · split
      · exact append_segmented _ _
      · exact append_segmented _ _
  have hnormal : ∀ joined : Word,
      (match joined.segmented.text? with
        | some text => ofText (Path.normalize text)
        | none => joined.segmented) =
      (match joined.text? with
        | some text => Word.literal (Path.normalize text)
        | none => joined).segmented := by
    intro joined
    rw [text?_segmented]
    cases joined.text? with
    | some text => exact (segmented_literal _).symm
    | none => rfl
  unfold resolve State.resolve
  dsimp only
  rw [hjoined]
  exact hnormal _

/-! ## All words that can be made -/

/-- The words that can be made, one operation after the other. -/
inductive Made : Segmented → Prop
  | literal (t : Text) : Made (ofText t)
  | pushText {w : Segmented} (h : Made w) (t : Text) : Made (w.pushText t)
  | pushChar {w : Segmented} (h : Made w) (c : Char) : Made (w.pushChar c)
  | pushVar {w : Segmented} (h : Made w) (name : Text) : Made (w.pushVar name)
  | pushCond {arg w : Segmented} (h : Made w) (name : Text) (choice : Choice) (harg : Made arg) :
    Made (w.pushCond name choice arg)
  | append {v w : Segmented} (hv : Made v) (hw : Made w) : Made (v.append w)
  | join (sep : Text) {ws : List Segmented} (h : ∀ w ∈ ws, Made w) : Made (join sep ws)
  | cut {w value : Segmented} {sep : Char} {key : Text} (h : Made w) (hcut : w.cutAt sep = some (key, value)) :
    Made value
  | lexAll (escape : Char) (t : Text) {w : Segmented} (h : w ∈ lexAll escape t) : Made w
  | lex (escape : Char) (t : Text) : Made (lex escape t)
  | expand {env : List (Text × Segmented)} {w : Segmented} (henv : ∀ b ∈ env, Made b.2) (h : Made w) :
    Made (expand env w)
  | resolve {dir path : Segmented} (hdir : Made dir) (hpath : Made path) : Made (resolve dir path)

/-- Words that are made are stored in the segments of a word. -/
theorem Made.exists_segmented_eq {w : Segmented} (h : Made w) : ∃ u : Word, u.segmented = w := by
  induction h with
  | literal t => exact ⟨_, segmented_literal t⟩
  | pushText _ t ih =>
    obtain ⟨u, rfl⟩ := ih
    exact ⟨_, (pushText_segmented t u).symm⟩
  | pushChar _ c ih =>
    obtain ⟨u, rfl⟩ := ih
    exact ⟨_, (pushChar_segmented c u).symm⟩
  | pushVar _ name ih =>
    obtain ⟨u, rfl⟩ := ih
    exact ⟨_, (pushVar_segmented name u).symm⟩
  | pushCond _ name choice _ ih iharg =>
    obtain ⟨u, rfl⟩ := ih
    obtain ⟨a, rfl⟩ := iharg
    exact ⟨_, (pushCond_segmented name choice a u).symm⟩
  | append _ _ ihv ihw =>
    obtain ⟨u, rfl⟩ := ihv
    obtain ⟨v, rfl⟩ := ihw
    exact ⟨_, (append_segmented u v).symm⟩
  | @join sep ws _ ih =>
    obtain ⟨us, rfl⟩ : ws ∈ Set.range (List.map Word.segmented) := by
      rw [Set.range_list_map]
      exact ih
    exact ⟨_, (join_segmented sep us).symm⟩
  | @cut w value sep key _ hcut ih =>
    obtain ⟨u, rfl⟩ := ih
    rw [cutAt_segmented, Option.map_eq_some_iff] at hcut
    obtain ⟨cut, -, heq⟩ := hcut
    exact ⟨cut.2, (Prod.mk.inj heq).2⟩
  | lexAll escape t hmem =>
    rw [lexAll_segmented] at hmem
    obtain ⟨u, -, hu⟩ := List.mem_map.1 hmem
    exact ⟨u, hu⟩
  | lex escape t => exact ⟨_, (lex_segmented escape t).symm⟩
  | @expand env w _ _ ihenv ih =>
    obtain ⟨u, rfl⟩ := ih
    obtain ⟨values, rfl⟩ : env ∈ Set.range (List.map fun b : Text × Word => (b.1, b.2.segmented)) := by
      rw [Set.range_list_map]
      intro b hb
      obtain ⟨v, hv⟩ := ihenv b hb
      exact ⟨(b.1, v), Prod.ext rfl hv⟩
    exact ⟨_, (expand_segmented values u).symm⟩
  | resolve _ _ ihdir ihpath =>
    obtain ⟨d, rfl⟩ := ihdir
    obtain ⟨p, rfl⟩ := ihpath
    exact ⟨_, (resolve_segmented { State.initial '\\' with workdir := some d } p).symm⟩

/-- Words that are made have whole segments only: no literal segment is empty and no two of them stand side by
side, in modifiers too. So adding segments one by one is associative, with the word without segments on either
side of a word, and this is the only word that is empty; a word without references is told by its text, and its
first and last segment tell what the text begins and ends with. Such segments are those of a word, and what is
done to them is what is done to the word: all that is built, cut, read, expanded and resolved has the segments of
the word that comes out, and what is decided by the segments is decided for the word. -/
theorem canonical_of_made :
    (∀ w, Made w → w.IsCanonical ∧
      (∀ u v, Made u → Made v → (w.append u).append v = w.append (u.append v)) ∧
      append .nil w = w ∧ w.append .nil = w ∧
      (w.isEmpty = true ↔ w = .nil) ∧
      ∀ t, w.text? = some t →
        (∀ v, Made v → v.text? = some t → v = w) ∧
        ∀ p, p ≠ [] → (w.startsWith p = true ↔ p <+: t) ∧ (w.endsWith p = true ↔ p <:+ t)) ∧
    (∀ w : Segmented, w.IsCanonical ↔ ∃ u : Word, u.segmented = w) ∧
    (∀ (w : Word) (t : Text), ofText t = (Word.literal t).segmented ∧
      w.segmented.pushText t = (w ++ .literal t).segmented ∧
      (∀ c, w.segmented.pushChar c = (w ++ .literal [c]).segmented) ∧
      (∀ name, w.segmented.pushVar name = (w ++ .var name .nil).segmented) ∧
      ∀ name choice (arg : Word),
        w.segmented.pushCond name choice arg.segmented = (w ++ .cond name choice arg .nil).segmented) ∧
    (∀ v w : Word, v.segmented.append w.segmented = (v ++ w).segmented) ∧
    (∀ sep ws, join sep (ws.map Word.segmented) = (Word.join sep ws).segmented) ∧
    (∀ escape t, lexAll escape t = (Word.lexAll escape t).map Word.segmented ∧
      lex escape t = (Word.lex escape t).segmented) ∧
    (∀ (s : State) (w : Word), expand (recorded s.env) w.segmented = (s.expand w).segmented ∧
      resolve s.workingDir.segmented w.segmented = (s.resolve w).segmented) ∧
    ∀ w : Word, w.segmented.toList = w.segments ∧
      (∀ sep, w.segmented.cutAt sep = (w.cutAt sep).map fun cut => (cut.1, cut.2.segmented)) ∧
      w.segmented.isEmpty = w.isEmpty ∧ w.segmented.text? = w.text? ∧
      ∀ t, w.segmented.startsWith t = w.startsWith t ∧ w.segmented.endsWith t = w.endsWith t := by
  refine ⟨fun w hw => ?_, fun w => ⟨exists_segmented_eq, ?_⟩,
    fun w t => ⟨(segmented_literal t).symm, pushText_segmented t w,
    fun c => pushChar_segmented c w, fun name => pushVar_segmented name w,
    fun name choice arg => pushCond_segmented name choice arg w⟩, append_segmented, join_segmented,
    fun escape t => ⟨lexAll_segmented escape t, lex_segmented escape t⟩,
    fun s w => ⟨expand_segmented s.env w, resolve_segmented s w⟩,
    fun w => ⟨toList_segmented w, fun sep => cutAt_segmented sep w, isEmpty_segmented w, text?_segmented w,
      fun t => ⟨startsWith_segmented t w, endsWith_segmented t w⟩⟩⟩
  case refine_2 =>
    rintro ⟨u, rfl⟩
    exact isCanonical_segmented u
  obtain ⟨u, rfl⟩ := hw.exists_segmented_eq
  refine ⟨isCanonical_segmented u, ?_, ?_, rfl, ?_, ?_⟩
  · intro x y hx hy
    obtain ⟨v, rfl⟩ := hx.exists_segmented_eq
    obtain ⟨w, rfl⟩ := hy.exists_segmented_eq
    rw [append_segmented, append_segmented, append_segmented, append_segmented, Word.append_assoc]
  · exact append_segmented .nil u
  · have hempty : u.isEmpty = true ↔ u = .nil := by cases u <;> simp [Word.isEmpty]
    rw [isEmpty_segmented, hempty]
    refine ⟨congrArg Word.segmented, fun heq => ?_⟩
    rw [← word_segmented u, heq]
    rfl
  · intro t ht
    rw [text?_segmented] at ht
    obtain rfl := Word.eq_literal_of_text? ht
    refine ⟨fun v hv htext => ?_, fun p hp => ⟨?_, ?_⟩⟩
    · obtain ⟨w, rfl⟩ := hv.exists_segmented_eq
      rw [text?_segmented] at htext
      rw [Word.eq_literal_of_text? htext]
    · rw [startsWith_segmented]
      exact Word.startsWith_literal_iff hp t
    · rw [endsWith_segmented]
      exact Word.endsWith_literal_iff hp t

/-- Quoted text in a modifier and beside it, read and expanded: it is in one segment. -/
theorem canonical_of_made_quoted :
    let text := "/a'b'\"c d\"$\x7bX:-'e'\"f\"\x7d".toList
    let w := (lexAll '\\' text).headD .nil
    let v := expand [("X".toList, ofText "/g".toList)] w
    w ∈ lexAll '\\' text ∧
    w = .literal "/abc d".toList (.cond "X".toList .default (.literal "ef".toList .nil) .nil) ∧ w.IsCanonical ∧
    Made v ∧ v.text? = some "/abc d/g".toList ∧ v.IsCanonical ∧ v.endsWith "d/g".toList = true ∧
    (w.append v).append w = w.append (v.append w) := by
  intro text w v
  have hmem : w ∈ lexAll '\\' text := by decide +kernel
  have hw : Made w := .lexAll '\\' text hmem
  have henv : ∀ b ∈ [("X".toList, ofText "/g".toList)], Made b.2 := by
    intro b hb
    rw [List.mem_singleton.1 hb]
    exact .literal "/g".toList
  have hv : Made v := .expand henv hw
  have htext : v.text? = some "/abc d/g".toList := by decide +kernel
  obtain ⟨hcanonical, hassoc, -, -, -, -⟩ := canonical_of_made.1 w hw
  obtain ⟨hcanonical', -, -, -, -, hliteral⟩ := canonical_of_made.1 v hv
  have hends := ((hliteral _ htext).2 "d/g".toList (by decide)).2
  exact ⟨hmem, by decide +kernel, hcanonical, hv, htext, hcanonical', hends.2 (by decide), hassoc v w hv hw⟩

end BuildScript.Segmented
