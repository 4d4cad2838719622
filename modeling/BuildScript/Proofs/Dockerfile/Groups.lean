import Mathlib.Data.List.SplitBy
import BuildScript.Dockerfile.LogicalLine
import BuildScript.Proofs.Text.Lines

/-!
# Logical lines as groups of physical lines

Logical lines are gathered in one pass with a pending line. Told without a pass: the physical lines that
are neither blank nor comments are cut into groups, each of which goes on while its lines are marked by
the escape character; a group gives one logical line, with the contents of its lines joined by single
spaces (`ofText_eq_filterMap`).

So the texts are decided by what the kept lines are trimmed to, and another layout of the same lines
(`Relaid`) has the same ones.
-/

namespace BuildScript.LogicalLine

open Text (Blanks)

/-! ## Kept lines and their groups -/

/-- Whether a physical line is neither blank nor a comment. -/
def isKept (line : Text) : Bool :=
  Text.trim line ≠ [] ∧ (Text.trim line).head? ≠ some '#'

/-- Whether a physical line ends, but for blanks, in the escape character. -/
def isMarked (escape : Char) (line : Text) : Bool :=
  (Text.trimEnd line).getLast? = some escape

/-- What a physical line says: all but its mark and the blanks outside. -/
def content (escape : Char) (line : Text) : Text :=
  Text.trim (if isMarked escape line then (Text.trimEnd line).dropLast else line)

/-- The kept lines of a text with their numbers. -/
def keptLines (input : Text) : List (Text × Nat) :=
  ((Text.lines input).zipIdx 1).filter (isKept ·.1)

/-- The longest stretches of a list in which each element but the last is marked. -/
def groups {α : Type} (marked : α → Bool) (l : List α) : List (List α) :=
  l.splitBy fun x _ => marked x

/-- The contents of the lines that say something. -/
def pieces (escape : Char) (ls : List Text) : List Text :=
  (ls.map (content escape)).filter (· ≠ [])

/-- The pieces of lines with a space between neighbours. -/
def joined (escape : Char) (ls : List Text) : Text := Text.join [' '] (pieces escape ls)

/-- What a group of lines is while more may follow. -/
def draft? (escape : Char) (group : List (Text × Nat)) : Option LogicalLine :=
  group.head?.map fun first => ⟨first.2, joined escape (group.map Prod.fst)⟩

/-- The logical line of a group, if it has a text. -/
def ofGroup? (escape : Char) (group : List (Text × Nat)) : Option LogicalLine :=
  (draft? escape group).filter (·.text ≠ [])

/-- The texts of the logical lines. -/
def texts (escape : Char) (input : Text) : List Text := (ofText escape input).map LogicalLine.text

section Groups

variable {α β : Type} {marked : α → Bool} {l m : List α}

theorem isChain_append_singleton (h : ∀ x ∈ l, marked x = true) (x : α) :
    (l ++ [x]).IsChain fun y _ => marked y = true := by
  induction l with
  | nil => exact List.isChain_singleton x
  | cons y rest ih =>
    obtain ⟨hy, hrest⟩ := List.forall_mem_cons.1 h
    exact List.isChain_cons.2 ⟨fun _ _ => hy, ih hrest⟩

/-- A group is closed by its first element that is not marked. -/
theorem groups_append_cons (h : ∀ x ∈ l, marked x = true) {x : α} (hx : marked x = false) :
    groups marked (l ++ x :: m) = (l ++ [x]) :: groups marked m := by
  have happend : l ++ x :: m = (l ++ [x]) ++ m := by simp
  have hlast : ∀ y ∈ (l ++ [x]).getLast?, ∀ z ∈ m.head?, marked y = false := by
    intro y hy z hz
    rw [List.getLast?_concat] at hy
    cases hy
    exact hx
  have hgroup := List.splitBy_of_isChain (by simp) (isChain_append_singleton h x)
  rw [groups, happend, List.splitBy_append hlast, hgroup]
  rfl

theorem groups_append (h : ∀ x ∈ l.getLast?, marked x = false) (m : List α) :
    groups marked (l ++ m) = groups marked l ++ groups marked m :=
  List.splitBy_append fun x hx _ _ => h x hx

/-- At the end a group may be open. -/
theorem groups_of_marked (hne : l ≠ []) (h : ∀ x ∈ l, marked x = true) : groups marked l = [l] := by
  apply List.splitBy_of_isChain hne
  rw [← List.dropLast_append_getLast hne]
  exact isChain_append_singleton (fun x hx => h x (List.dropLast_subset l hx)) _

theorem groups_of_not_marked (h : ∀ x ∈ l.dropLast, marked x = false) :
    groups marked l = l.map ([·]) := by
  induction l with
  | nil => rfl
  | cons x rest ih =>
    by_cases hrest : rest = []
    · rw [hrest]
      rfl
    · rw [List.dropLast_cons_of_ne_nil hrest] at h
      obtain ⟨hx, hothers⟩ := List.forall_mem_cons.1 h
      have hgroups := groups_append_cons (l := []) (m := rest) (by simp) hx
      rw [List.nil_append] at hgroups
      rw [hgroups, ih hothers]
      rfl

theorem groups_map (f : β → α) (l : List β) :
    groups marked (l.map f) = (groups (fun x => marked (f x)) l).map (List.map f) := by
  rw [groups, List.splitBy_eq_iff]
  refine ⟨?_, ?_, ?_, ?_⟩
  · rw [← List.map_flatten, groups, List.flatten_splitBy]
  · intro hnil
    obtain ⟨group, hgroup, heq⟩ := List.mem_map.1 hnil
    rw [List.map_eq_nil_iff.1 heq] at hgroup
    exact List.nil_notMem_splitBy _ _ hgroup
  · intro mapped hmapped
    obtain ⟨group, hgroup, rfl⟩ := List.mem_map.1 hmapped
    exact (List.isChain_map f).2 (List.isChain_of_mem_splitBy hgroup)
  · apply (List.isChain_map _).2
    apply (List.isChain_getLast_head_splitBy _ l).imp
    rintro group next ⟨hgroup, hnext, hlast⟩
    refine ⟨by simpa using hgroup, by simpa using hnext, ?_⟩
    rwa [List.getLast_map]

/-- A group that is not the last one ends in an element that is not marked. -/
theorem exists_of_mem_dropLast_groups {group : List α} (h : group ∈ (groups marked l).dropLast) :
    ∃ front last, group = front ++ [last] ∧ marked last = false := by
  have hchain := List.isChain_getLast_head_splitBy (fun x _ => marked x) l
  rw [← groups] at hchain
  obtain ⟨before, after, hsplit⟩ := List.append_of_mem h
  have hne : groups marked l ≠ [] := by
    intro hnil
    rw [hnil] at h
    cases h
  have hwhole := List.dropLast_append_getLast hne
  rw [hsplit, List.append_assoc, List.cons_append] at hwhole
  rw [← hwhole] at hchain
  have htail := (List.isChain_append.1 hchain).2.1
  obtain ⟨next, more, hnext⟩ :=
    List.exists_cons_of_ne_nil (List.append_ne_nil_of_right_ne_nil after (List.cons_ne_nil _ []))
  rw [hnext] at htail
  obtain ⟨hgroup, -, hlast⟩ := (List.isChain_cons_cons.1 htail).1
  exact ⟨group.dropLast, group.getLast hgroup, (List.dropLast_append_getLast hgroup).symm, hlast⟩

end Groups

/-! ## One pass gives the groups -/

variable {escape : Char}

theorem isSkipped_eq (line : Text) : isSkipped line = !isKept line := by
  unfold isSkipped isKept
  cases Text.trim line with
  | nil => rfl
  | cons c rest =>
    by_cases hc : c = '#'
    · simp [hc]
    · simp [hc]

theorem piece_eq (escape : Char) (line : Text) :
    piece escape line = (content escape line, isMarked escape line) := by
  unfold piece content isMarked
  split
  · next hnil =>
    have hend : Text.trimEnd line = [] := List.reverse_eq_nil_iff.1 hnil
    have htrim : Text.trim line = [] := Text.trim_eq_nil_iff.2 (Text.trimEnd_eq_nil_iff.1 hend)
    simp [hend, htrim]
  · next c rest hreverse =>
    have hend : Text.trimEnd line = rest.reverse ++ [c] := by
      rw [← List.reverse_reverse (Text.trimEnd line), hreverse, List.reverse_cons]
    rw [hend, List.getLast?_concat, List.dropLast_concat]
    by_cases hc : c = escape
    · simp [hc]
    · simp [hc]

theorem pieces_append (escape : Char) (ls ms : List Text) :
    pieces escape (ls ++ ms) = pieces escape ls ++ pieces escape ms := by
  rw [pieces, List.map_append, List.filter_append]
  rfl

theorem ne_nil_of_mem_pieces {ls : List Text} {t : Text} (h : t ∈ pieces escape ls) : t ≠ [] := by
  simpa using (List.mem_filter.1 h).2

theorem joined_append_singleton (escape : Char) (ls : List Text) (line : Text) :
    joined escape (ls ++ [line]) = extend (joined escape ls) (content escape line) := by
  unfold joined extend
  rw [pieces_append]
  have hpieces : ∀ t ∈ pieces escape ls, t ≠ [] := fun t ht => ne_nil_of_mem_pieces ht
  generalize pieces escape ls = ts at hpieces
  by_cases hcontent : content escape line = []
  · have hnone : pieces escape [line] = [] := by simp [pieces, hcontent]
    rw [hnone, if_pos hcontent, List.append_nil]
  · have hone : pieces escape [line] = [content escape line] := by simp [pieces, hcontent]
    rw [hone, if_neg hcontent]
    by_cases hnil : ts = []
    · rw [hnil]
      rfl
    · rw [if_neg (Text.join_ne_nil hpieces hnil), Text.join_append_singleton hnil, List.append_assoc]
      rfl

/-- The pending line with the content of one more physical line. -/
def grow (pending : Option LogicalLine) (number : Nat) (content : Text) : LogicalLine :=
  match pending with
  | some l => { l with text := extend l.text content }
  | none => ⟨number, content⟩

theorem gather_cons_of_dropped {line : Text} (h : isKept line = false) (pending : Option LogicalLine)
    (number : Nat) (rest : List (Text × Nat)) :
    gather escape pending ((line, number) :: rest) = gather escape pending rest := by
  rw [gather, isSkipped_eq, h, Bool.not_false, if_pos rfl]

theorem gather_cons_of_kept {line : Text} (h : isKept line = true) (pending : Option LogicalLine)
    (number : Nat) (rest : List (Text × Nat)) :
    gather escape pending ((line, number) :: rest) =
      if isMarked escape line then gather escape (some (grow pending number (content escape line))) rest
      else kept (grow pending number (content escape line)) ++ gather escape none rest := by
  rw [gather, isSkipped_eq, h, Bool.not_true, if_neg Bool.false_ne_true, piece_eq]
  cases pending with
  | none => rfl
  | some l => rfl

/-- A draft with one more line, as the pass makes it. -/
theorem draft?_append_singleton (escape : Char) (group : List (Text × Nat)) (line : Text)
    (number : Nat) :
    draft? escape (group ++ [(line, number)]) =
      some (grow (draft? escape group) number (content escape line)) := by
  have hjoined := joined_append_singleton escape (group.map Prod.fst) line
  cases group with
  | nil =>
    have hextend : extend (joined escape []) (content escape line) = content escape line := by
      by_cases hcontent : content escape line = []
      · rw [hcontent]
        rfl
      · rw [extend, if_neg hcontent]
        rfl
    rw [List.map_nil, List.nil_append, hextend] at hjoined
    simp [draft?, grow, hjoined]
  | cons first rest =>
    rw [List.map_cons, List.cons_append] at hjoined
    simp [draft?, grow, hjoined]

theorem kept_eq_toList (l : LogicalLine) : kept l = ((some l).filter (·.text ≠ [])).toList := by
  by_cases htext : l.text = []
  · simp [kept, Option.filter, htext]
  · simp [kept, Option.filter, htext]

theorem filterMap_groups_of_marked {group : List (Text × Nat)}
    (h : ∀ row ∈ group, isMarked escape row.1 = true) :
    (groups (isMarked escape ·.1) group).filterMap (ofGroup? escape) =
      (draft? escape group).toList.flatMap kept := by
  by_cases hne : group = []
  · rw [hne]
    rfl
  · rw [groups_of_marked hne h, List.filterMap_eq_flatMap_toList, List.flatMap_singleton, ofGroup?]
    cases draft? escape group with
    | none => rfl
    | some l => rw [Option.toList_some, List.flatMap_singleton, kept_eq_toList]

/-- Reading on with the lines of an open group gives the groups of all of them. -/
theorem gather_draft? (group rows : List (Text × Nat))
    (h : ∀ row ∈ group, isMarked escape row.1 = true) :
    gather escape (draft? escape group) rows =
      (groups (isMarked escape ·.1) (group ++ rows.filter (isKept ·.1))).filterMap
        (ofGroup? escape) := by
  induction rows generalizing group with
  | nil =>
    rw [List.filter_nil, List.append_nil, filterMap_groups_of_marked h]
    rfl
  | cons row rest ih =>
    obtain ⟨line, number⟩ := row
    by_cases hkept : isKept line = true
    · have hdraft := draft?_append_singleton escape group line number
      have hfilter : ((line, number) :: rest).filter (isKept ·.1) =
          (line, number) :: rest.filter (isKept ·.1) := List.filter_cons_of_pos hkept
      rw [gather_cons_of_kept hkept, ← hdraft, hfilter]
      -- the line either keeps the group open or closes it
      by_cases hmarked : isMarked escape line = true
      · have hgroup : ∀ row ∈ group ++ [(line, number)], isMarked escape row.1 = true := by
          intro row hrow
          rcases List.mem_append.1 hrow with hrow | hrow
          · exact h row hrow
          · rw [List.mem_singleton.1 hrow]
            exact hmarked
        rw [if_pos hmarked, ih _ hgroup, List.append_assoc, List.singleton_append]
      · have hclosed : isMarked escape line = false := Bool.eq_false_iff.2 hmarked
        have hrest := ih [] (by simp)
        rw [if_neg hmarked, groups_append_cons h hclosed, List.filterMap_eq_flatMap_toList,
          List.flatMap_cons, ← List.filterMap_eq_flatMap_toList, ofGroup?, hdraft, ← kept_eq_toList]
        exact congrArg (kept _ ++ ·) hrest
    · have hdropped : isKept line = false := Bool.eq_false_iff.2 hkept
      have hfilter : ((line, number) :: rest).filter (isKept ·.1) = rest.filter (isKept ·.1) :=
        List.filter_cons_of_neg hkept
      rw [gather_cons_of_dropped hdropped, hfilter, ih group h]

theorem ofText_eq_filterMap (escape : Char) (input : Text) :
    ofText escape input =
      (groups (isMarked escape ·.1) (keptLines input)).filterMap (ofGroup? escape) :=
  gather_draft? [] _ (by simp)

/-! ## Texts -/

theorem joined_eq_nil_iff {ls : List Text} : joined escape ls = [] ↔ pieces escape ls = [] := by
  refine ⟨fun h => ?_, fun h => ?_⟩
  · by_contra hne
    exact Text.join_ne_nil (fun t ht => ne_nil_of_mem_pieces ht) hne h
  · rw [joined, h]
    rfl

/-- What the texts of kept lines come to. -/
def joinGroups (escape : Char) (ls : List Text) : List Text :=
  ((groups (isMarked escape) ls).map (joined escape)).filter (· ≠ [])

theorem map_text_filterMap {gs : List (List (Text × Nat))} (h : [] ∉ gs) :
    (gs.filterMap (ofGroup? escape)).map LogicalLine.text =
      ((gs.map (List.map Prod.fst)).map (joined escape)).filter (· ≠ []) := by
  induction gs with
  | nil => rfl
  | cons group rest ih =>
    rw [List.mem_cons, not_or] at h
    obtain ⟨first, others, hgroup⟩ := List.exists_cons_of_ne_nil (Ne.symm h.1)
    have hdraft : draft? escape group = some ⟨first.2, joined escape (group.map Prod.fst)⟩ := by
      rw [hgroup]
      rfl
    rw [List.filterMap_cons, ofGroup?, hdraft, List.map_cons, List.map_cons, List.filter_cons, ← ih h.2]
    by_cases htext : joined escape (group.map Prod.fst) = []
    · simp [Option.filter, htext]
    · simp [Option.filter, htext]

theorem texts_eq_joinGroups (escape : Char) (input : Text) :
    texts escape input = joinGroups escape ((keptLines input).map Prod.fst) := by
  rw [texts, ofText_eq_filterMap, joinGroups, groups_map]
  exact map_text_filterMap (List.nil_notMem_splitBy _ _)

theorem map_fst_filter_zipIdx (p : Text → Bool) (ls : List Text) (n : Nat) :
    ((ls.zipIdx n).filter (p ·.1)).map Prod.fst = ls.filter p := by
  induction ls generalizing n with
  | nil => rfl
  | cons line rest ih =>
    rw [List.zipIdx_cons, List.filter_cons, List.filter_cons, ← ih (n + 1)]
    by_cases hline : p line = true
    · simp [hline]
    · simp [hline]

theorem map_fst_keptLines (input : Text) :
    (keptLines input).map Prod.fst = (Text.lines input).filter isKept :=
  map_fst_filter_zipIdx isKept _ 1

/-! ## Blanks outside -/

@[simp] theorem isKept_trim (line : Text) : isKept (Text.trim line) = isKept line := by
  rw [isKept, Text.trim_trim, ← isKept]

@[simp] theorem isMarked_trim (escape : Char) (line : Text) :
    isMarked escape (Text.trim line) = isMarked escape line := by
  rw [isMarked, isMarked, Text.trimEnd_trim, Text.getLast?_trimEnd]

theorem trim_dropLast_append {before t : Text} (hbefore : Blanks before) (ht : t ≠ []) :
    Text.trim (before ++ t).dropLast = Text.trim t.dropLast := by
  have htrim := Text.trim_surround hbefore t.dropLast Text.blanks_nil
  rwa [List.append_nil, ← List.dropLast_append_of_ne_nil ht] at htrim

@[simp] theorem content_trim (escape : Char) (line : Text) :
    content escape (Text.trim line) = content escape line := by
  rw [content, content, isMarked_trim, Text.trimEnd_trim]
  by_cases hmarked : isMarked escape line = true
  · rw [if_pos hmarked, if_pos hmarked]
    obtain ⟨before, hbefore, heq⟩ := Text.exists_trimEnd_eq line
    have hne : Text.trim line ≠ [] := by
      intro hnil
      rw [isMarked, Text.getLast?_trimEnd, hnil] at hmarked
      simp at hmarked
    rw [heq, trim_dropLast_append hbefore hne]
  · rw [if_neg hmarked, if_neg hmarked, Text.trim_trim]

theorem joinGroups_map_trim (escape : Char) (ls : List Text) :
    joinGroups escape (ls.map Text.trim) = joinGroups escape ls := by
  have hjoined : ∀ group : List Text, joined escape (group.map Text.trim) = joined escape group := by
    intro group
    rw [joined, joined, pieces, pieces, List.map_map]
    congr 3
    funext line
    exact content_trim escape line
  have hmarked : (fun line => isMarked escape (Text.trim line)) = isMarked escape :=
    funext (isMarked_trim escape)
  rw [joinGroups, groups_map, hmarked, List.map_map, joinGroups]
  congr 2
  funext group
  exact hjoined group

/-- The texts are decided by what the rows are trimmed to. -/
theorem texts_eq_of_rows (escape : Char) (input : Text) :
    texts escape input =
      joinGroups escape (((Text.splitAt '\n' input).map Text.trim).filter isKept) := by
  have hfilter : ((Text.lines input).filter isKept).map Text.trim =
      ((Text.lines input).map Text.trim).filter isKept := by
    rw [List.filter_map]
    congr 2
    funext line
    exact (isKept_trim line).symm
  rw [texts_eq_joinGroups, map_fst_keptLines, ← joinGroups_map_trim, hfilter,
    Text.filter_map_trim_lines rfl]

/-- Whether a row is a text with blanks around it. A carriage return before the line feed is a blank. -/
def Spaced (t row : Text) : Prop :=
  ∃ before after, Blanks before ∧ Blanks after ∧ row = before ++ t ++ after

theorem Spaced.trim_eq {t row : Text} (h : Spaced t row) : Text.trim row = Text.trim t := by
  obtain ⟨before, after, hbefore, hafter, rfl⟩ := h
  exact Text.trim_surround hbefore t hafter

/-- Another layout of the same rows: other blanks around them, and other rows between them that are blank
or comments. -/
inductive Relaid : List Text → List Text → Prop
  | nil : Relaid [] []
  | row {row row' : Text} {rows rows' : List Text} (t : Text) (hrow : Spaced t row)
    (hrow' : Spaced t row') (h : Relaid rows rows') : Relaid (row :: rows) (row' :: rows')
  | added {rows rows' : List Text} (row : Text) (hrow : isKept row = false) (h : Relaid rows rows') :
    Relaid rows (row :: rows')
  | removed {rows rows' : List Text} (row : Text) (hrow : isKept row = false)
    (h : Relaid rows rows') : Relaid (row :: rows) rows'

theorem Relaid.filter_eq {rows rows' : List Text} (h : Relaid rows rows') :
    (rows.map Text.trim).filter isKept = (rows'.map Text.trim).filter isKept := by
  induction h with
  | nil => rfl
  | row t hrow hrow' _ ih =>
    rw [List.map_cons, List.map_cons, hrow.trim_eq, hrow'.trim_eq, List.filter_cons, List.filter_cons, ih]
  | added row hrow _ ih =>
    rw [List.map_cons, List.filter_cons_of_neg (by simp [hrow]), ih]
  | removed row hrow _ ih =>
    rw [List.map_cons, List.filter_cons_of_neg (by simp [hrow]), ih]

theorem texts_eq_of_relaid {input other : Text}
    (h : Relaid (Text.splitAt '\n' input) (Text.splitAt '\n' other)) :
    texts escape other = texts escape input := by
  rw [texts_eq_of_rows, texts_eq_of_rows, h.filter_eq]

/-! ## Nothing is lost -/

theorem flatten_map_pieces (escape : Char) (gs : List (List Text)) :
    (gs.map (pieces escape)).flatten = pieces escape gs.flatten := by
  induction gs with
  | nil => rfl
  | cons group rest ih => rw [List.map_cons, List.flatten_cons, List.flatten_cons, pieces_append, ih]

theorem flatten_filter_ne_nil (l : List (List Text)) : (l.filter (· ≠ [])).flatten = l.flatten := by
  induction l with
  | nil => rfl
  | cons x rest ih =>
    by_cases hx : x = []
    · simpa [hx] using ih
    · simpa [hx] using ih

/-- The texts are all pieces of the kept lines in order, put together. -/
theorem exists_pieces (escape : Char) (ls : List Text) :
    ∃ pss : List (List Text),
      joinGroups escape ls = pss.map (Text.join [' ']) ∧ pss.flatten = pieces escape ls := by
  refine ⟨((groups (isMarked escape) ls).map (pieces escape)).filter (· ≠ []), ?_, ?_⟩
  · rw [joinGroups, List.filter_map, List.filter_map, List.map_map]
    have hfilter : ((fun t : Text => decide (t ≠ [])) ∘ joined escape) =
        (fun ps : List Text => decide (ps ≠ [])) ∘ pieces escape := by
      funext group
      exact decide_eq_decide.2 (not_congr joined_eq_nil_iff)
    rw [hfilter]
    rfl
  · rw [flatten_filter_ne_nil, flatten_map_pieces, groups, List.flatten_splitBy]

/-- A physical line is its content, its mark and blanks. -/
theorem exists_content (escape : Char) (line : Text) :
    ∃ before between after, Blanks before ∧ Blanks between ∧ Blanks after ∧
      line = before ++ content escape line ++ between ++
        (if isMarked escape line then [escape] else []) ++ after := by
  by_cases hmarked : isMarked escape line = true
  · obtain ⟨after, hafter, hline⟩ := Text.exists_trimEnd line
    obtain ⟨before, between, hbefore, hbetween, hfront⟩ :=
      Text.exists_trim (Text.trimEnd line).dropLast
    have hlast : (Text.trimEnd line).getLast? = some escape := by simpa [isMarked] using hmarked
    obtain ⟨front, hend⟩ := List.getLast?_eq_some_iff.1 hlast
    refine ⟨before, between, after, hbefore, hbetween, hafter, ?_⟩
    rw [content, if_pos hmarked, if_pos hmarked, ← hfront]
    conv => lhs; rw [hline]
    rw [hend, List.dropLast_concat]
  · obtain ⟨before, after, hbefore, hafter, hline⟩ := Text.exists_trim line
    refine ⟨before, after, [], hbefore, hafter, Text.blanks_nil, ?_⟩
    rw [content, if_neg hmarked, if_neg hmarked, List.append_nil, List.append_nil]
    exact hline

/-- The logical lines are the groups of the kept lines, with the contents of each joined. So their texts
are the same in every layout of the same rows, and they hold all that the kept lines say, in order. -/
theorem ofText_eq_groups (escape : Char) (input : Text) :
    ofText escape input =
      (groups (isMarked escape ·.1) (keptLines input)).filterMap (ofGroup? escape) ∧
    (∀ other, Relaid (Text.splitAt '\n' input) (Text.splitAt '\n' other) →
      texts escape other = texts escape input) ∧
    (∃ pss : List (List Text), texts escape input = pss.map (Text.join [' ']) ∧
      pss.flatten = pieces escape ((keptLines input).map Prod.fst)) ∧
    ∀ line, ∃ before between after, Blanks before ∧ Blanks between ∧ Blanks after ∧
      line = before ++ content escape line ++ between ++
        (if isMarked escape line then [escape] else []) ++ after := by
  refine ⟨ofText_eq_filterMap escape input, ?_, ?_, exists_content escape⟩
  · intro other h
    exact texts_eq_of_relaid h
  · rw [texts_eq_joinGroups]
    exact exists_pieces escape _

/-- Indented lines, ends with a carriage return and a comment inside an instruction. -/
theorem ofText_eq_groups_relaid :
    Relaid (Text.splitAt '\n' "RUN a \\\nb".toList)
      (Text.splitAt '\n' "\tRUN a \\ \r\n# note\n  b\r\n".toList) ∧
    texts '\\' "\tRUN a \\ \r\n# note\n  b\r\n".toList = ["RUN a b".toList] := by
  have hblanks : ∀ t : Text, t.all isBlank = true → Blanks t := fun t ht => List.all_eq_true.1 ht
  have hfirst : Spaced "RUN a \\".toList "\tRUN a \\ \r".toList :=
    ⟨['\t'], [' ', '\r'], hblanks _ rfl, hblanks _ rfl, rfl⟩
  have hlast : Spaced ['b'] "  b\r".toList :=
    ⟨[' ', ' '], ['\r'], hblanks _ rfl, hblanks _ rfl, rfl⟩
  have hrelaid : Relaid (Text.splitAt '\n' "RUN a \\\nb".toList)
      (Text.splitAt '\n' "\tRUN a \\ \r\n# note\n  b\r\n".toList) := by
    apply Relaid.row _ ⟨[], [], Text.blanks_nil, Text.blanks_nil, rfl⟩ hfirst
    apply Relaid.added _ rfl
    apply Relaid.row _ ⟨[], [], Text.blanks_nil, Text.blanks_nil, rfl⟩ hlast
    exact .added [] rfl .nil
  have htexts := (ofText_eq_groups '\\' "RUN a \\\nb".toList).2.1 _ hrelaid
  exact ⟨hrelaid, htexts.trans (by decide)⟩

end BuildScript.LogicalLine
