import BuildScript.Dockerfile.Command
import BuildScript.Proofs.Shell.Words
import BuildScript.Proofs.Text.Trim

/-!
# Blanks of a command line

The blanks of a command line that stand outside quotes, and behind no backslash, are its gaps. Normalizing a
line brings each stretch of gaps down to one space and keeps all else (`sites_collapse`). It looks at quotes
and backslashes on its own, but it is at every character in the mode of the scan that makes tokens; so the
tokens stay, as long as no gap is a line feed (`tokens_normalizeBlanks`).
-/

namespace BuildScript

namespace Shell

/-- A character of a line, with the mode in which the scan meets it. -/
structure Site where
  mode : Mode
  char : Char
  deriving DecidableEq, Repr

namespace Site

/-- Whether a character is a blank that stands outside quotes and behind no backslash. -/
def isGap (x : Site) : Bool := x.mode == .start && isBlank x.char

/-- A space between words. -/
def space : Site := ⟨.start, ' '⟩

/-- What a character contributes to the scan. -/
def emit (x : Site) : List Mark := x.mode.emit x.char

theorem isGap_iff {x : Site} : x.isGap = true ↔ x.mode = .start ∧ isBlank x.char = true := by
  rw [isGap, Bool.and_eq_true, beq_iff_eq]

/-- Behind a backslash nothing is a gap. -/
theorem isGap_protected (q : Quotes) (c : Char) : isGap ⟨⟨q, true⟩, c⟩ = false := by
  cases q <;> rfl

theorem isGap_space : space.isGap = true := by decide

end Site

/-- The characters of a text, from the mode `p` on. -/
def Mode.sites (p : Mode) : Text → List Site
  | [] => []
  | c :: rest => ⟨p, c⟩ :: (p.next c).sites rest

theorem Mode.map_char_sites (p : Mode) (t : Text) : (p.sites t).map Site.char = t := by
  induction t generalizing p with
  | nil => rfl
  | cons c rest ih => rw [sites, List.map_cons, ih]

theorem Mode.sites_injective (p : Mode) {s t : Text} (h : p.sites s = p.sites t) : s = t := by
  rw [← p.map_char_sites s, h, p.map_char_sites]

theorem Mode.emits_eq_flatMap (p : Mode) (t : Text) : p.emits t = (p.sites t).flatMap Site.emit := by
  induction t generalizing p with
  | nil => rfl
  | cons c rest ih => rw [sites, List.flatMap_cons, ← ih, emits_cons, Site.emit]

theorem Mode.head?_sites (p : Mode) (t : Text) : (p.sites t).head? = t.head?.map (⟨p, ·⟩) := by
  cases t <;> rfl

theorem Mode.getLast?_sites (p : Mode) (t : Text) :
    (p.sites t).getLast?.map Site.char = t.getLast? := by
  rw [← List.getLast?_map, p.map_char_sites]

/-! ## Stretches of gaps -/

/-- Brings each stretch of gaps between other characters down to one space; `pending` tells that one was met
and its space is still to come. -/
def squeeze (pending : Bool) : List Site → List Site
  | [] => []
  | x :: rest =>
    if x.isGap then squeeze true rest
    else (if pending then [.space] else []) ++ x :: squeeze false rest

/-- Whether all gaps are single spaces between other characters. -/
def HasSingleSpaces (xs : List Site) : Prop :=
  ∀ before x after, xs = before ++ x :: after → x.isGap = true →
    x = .space ∧ (∃ y, before.getLast? = some y ∧ y.isGap = false) ∧
      ∃ y, after.head? = some y ∧ y.isGap = false

section Squeeze

variable {xs : List Site} {x : Site}

theorem squeeze_cons_of_gap (hx : x.isGap = true) (pending : Bool) (xs : List Site) :
    squeeze pending (x :: xs) = squeeze true xs := by
  rw [squeeze, if_pos hx]

theorem squeeze_cons_of_not_gap (hx : x.isGap = false) (pending : Bool) (xs : List Site) :
    squeeze pending (x :: xs) = (if pending then [.space] else []) ++ x :: squeeze false xs := by
  rw [squeeze, hx]
  rfl

theorem filter_squeeze (pending : Bool) (xs : List Site) :
    (squeeze pending xs).filter (!·.isGap) = xs.filter (!·.isGap) := by
  induction xs generalizing pending with
  | nil => rfl
  | cons x rest ih =>
    cases hx : x.isGap with
    | true =>
      rw [squeeze_cons_of_gap hx, ih, List.filter_cons_of_neg (by simp [hx])]
    | false =>
      rw [squeeze_cons_of_not_gap hx, List.filter_append, List.filter_cons_of_pos (by simp [hx]),
        List.filter_cons_of_pos (by simp [hx]), ih]
      cases pending with
      | false => rfl
      | true => simp [Site.isGap_space]

theorem squeeze_squeeze (pending : Bool) (xs : List Site) :
    squeeze false (squeeze pending xs) = squeeze pending xs := by
  induction xs generalizing pending with
  | nil => rfl
  | cons x rest ih =>
    cases hx : x.isGap with
    | true => rw [squeeze_cons_of_gap hx, ih]
    | false =>
      rw [squeeze_cons_of_not_gap hx]
      cases pending with
      | false =>
        show squeeze false (x :: squeeze false rest) = x :: squeeze false rest
        rw [squeeze_cons_of_not_gap hx, ih]
        rfl
      | true =>
        show squeeze false (.space :: x :: squeeze false rest) = .space :: x :: squeeze false rest
        rw [squeeze_cons_of_gap Site.isGap_space, squeeze_cons_of_not_gap hx, ih]
        rfl

theorem getLast?_squeeze (pending : Bool) (hlast : xs.getLast? = some x) (hx : x.isGap = false) :
    (squeeze pending xs).getLast? = some x := by
  induction xs generalizing pending with
  | nil => cases hlast
  | cons y rest ih =>
    by_cases hrest : rest = []
    · subst hrest
      obtain rfl : y = x := Option.some.inj hlast
      rw [squeeze_cons_of_not_gap hx, squeeze, List.getLast?_append_cons]
      rfl
    · rw [List.getLast?_cons_of_ne_nil hrest] at hlast
      cases hy : y.isGap with
      | true =>
        rw [squeeze_cons_of_gap hy]
        exact ih true hlast
      | false =>
        have hne : squeeze false rest ≠ [] := by
          intro hnil
          have hnone := ih false hlast
          rw [hnil] at hnone
          cases hnone
        rw [squeeze_cons_of_not_gap hy, List.getLast?_append_of_ne_nil _ (List.cons_ne_nil _ _),
          List.getLast?_cons_of_ne_nil hne]
        exact ih false hlast

/-- What stands around a gap. In front of it there may be nothing, if a space was pending. -/
theorem gap_of_squeeze (pending : Bool) {before after : List Site}
    (h : squeeze pending xs = before ++ x :: after) (hx : x.isGap = true) :
    x = .space ∧ (∀ y, before.getLast? = some y → y.isGap = false) ∧
      ∃ y, after.head? = some y ∧ y.isGap = false := by
  induction xs generalizing pending before with
  | nil => simp [squeeze] at h
  | cons z rest ih =>
    cases hz : z.isGap with
    | true =>
      rw [squeeze_cons_of_gap hz] at h
      exact ih true h
    | false =>
      have hbehind : ∀ front, z :: squeeze false rest = front ++ x :: after →
          front ≠ [] ∧ x = .space ∧ (∀ y, front.getLast? = some y → y.isGap = false) ∧
            ∃ y, after.head? = some y ∧ y.isGap = false := by
        intro front hfront
        cases front with
        | nil =>
          obtain ⟨rfl, -⟩ := List.cons.inj hfront
          rw [hz] at hx
          cases hx
        | cons first others =>
          obtain ⟨rfl, hrest⟩ := List.cons.inj hfront
          obtain ⟨hspace, hlast, hhead⟩ := ih false hrest
          refine ⟨List.cons_ne_nil _ _, hspace, ?_, hhead⟩
          intro y hy
          by_cases hothers : others = []
          · subst hothers
            obtain rfl : z = y := Option.some.inj hy
            exact hz
          · rw [List.getLast?_cons_of_ne_nil hothers] at hy
            exact hlast y hy
      rw [squeeze_cons_of_not_gap hz] at h
      cases pending with
      | false => exact (hbehind before h).2
      | true =>
        cases before with
        | nil =>
          obtain ⟨rfl, rfl⟩ := List.cons.inj h
          exact ⟨rfl, by simp, z, rfl, hz⟩
        | cons first others =>
          obtain ⟨-, hrest⟩ := List.cons.inj h
          obtain ⟨hne, hspace, hlast, hhead⟩ := hbehind others hrest
          refine ⟨hspace, ?_, hhead⟩
          intro y hy
          rw [List.getLast?_cons_of_ne_nil hne] at hy
          exact hlast y hy

/-- A line that does not begin with a gap has single spaces only. -/
theorem hasSingleSpaces_squeeze (hhead : ∀ y, xs.head? = some y → y.isGap = false) :
    HasSingleSpaces (squeeze false xs) := by
  intro before x after h hx
  obtain ⟨hspace, hlast, hbehind⟩ := gap_of_squeeze false h hx
  refine ⟨hspace, ?_, hbehind⟩
  cases hbefore : before.getLast? with
  | some y => exact ⟨y, rfl, hlast y hbefore⟩
  | none =>
    -- The gap would be the first character.
    rw [List.getLast?_eq_none_iff.1 hbefore] at h
    cases xs with
    | nil => cases h
    | cons z rest =>
      rw [squeeze_cons_of_not_gap (hhead z rfl)] at h
      obtain ⟨rfl, -⟩ := List.cons.inj h
      rw [hhead z rfl] at hx
      cases hx

end Squeeze

end Shell

open Shell (Mode Site)

/-! ## Normalizing a line -/

/-- The quotes that are open where a character stands. -/
def Quoting.quotes : Quoting → Shell.Quotes
  | .none => .none
  | .single => .single
  | .double => .double

/-- The mode in which a character is met that no backslash protects. -/
def Quoting.mode (q : Quoting) : Mode := ⟨q.quotes, false⟩

theorem Quoting.mode_eq_start_iff {q : Quoting} : q.mode = .start ↔ q = .none := by
  cases q <;> decide

theorem Quoting.next_mode {q : Quoting} {c : Char} (h : ¬(c = '\\' ∧ q ≠ .single)) :
    q.mode.next c = (q.after c).mode := by
  cases q with
  | none =>
    have hc : c ≠ '\\' := fun hc => h ⟨hc, by decide⟩
    simp only [mode, quotes, Mode.next, after, if_neg hc]
    split
    · rfl
    · split <;> rfl
  | single =>
    simp only [mode, quotes, Mode.next, after]
    split <;> rfl
  | double =>
    have hc : c ≠ '\\' := fun hc => h ⟨hc, by decide⟩
    simp only [mode, quotes, Mode.next, after, if_neg hc]
    split <;> rfl

theorem Quoting.next_mode_backslash {q : Quoting} (h : q ≠ .single) :
    q.mode.next '\\' = ⟨q.quotes, true⟩ := by
  cases q with
  | single => exact absurd rfl h
  | none | double => rfl

/-- Normalizing a line squeezes its gaps, and ends in the mode in which the line ends. -/
theorem sites_collapse (q : Quoting) (pending : Bool) (t : Text) (h : pending = true → q = .none) :
    q.mode.sites (collapse q pending t) = Shell.squeeze pending (q.mode.sites t) ∧
      q.mode.run (collapse q pending t) = q.mode.run t := by
  induction q, pending, t using collapse.induct with
  | case1 q pending => exact ⟨rfl, rfl⟩
  | case2 q pending c rest hblank ih =>
    obtain ⟨rfl, hc⟩ := hblank
    obtain ⟨hsites, hrun⟩ := ih fun _ => rfl
    have hgap : Site.isGap ⟨.start, c⟩ = true := Site.isGap_iff.2 ⟨rfl, hc⟩
    have hnext : Quoting.none.mode.next c = Quoting.none.mode :=
      (Mode.start_break (Shell.isBreak_of_isBlank hc)).2
    unfold collapse
    rw [if_pos ⟨rfl, hc⟩, Mode.sites, hnext, Mode.run_cons, hnext]
    exact ⟨hsites.trans (Shell.squeeze_cons_of_gap hgap pending _).symm, hrun⟩
  | case3 q pending c rest hblank ihescaped ih =>
    have hgap : Site.isGap ⟨q.mode, c⟩ = false := by
      rw [Bool.eq_false_iff, ne_eq, Site.isGap_iff, Quoting.mode_eq_start_iff]
      exact hblank
    -- What is written behind the space that may be pending.
    obtain ⟨written, hwritten, hsites, hrun⟩ : ∃ written,
        collapse q pending (c :: rest) = (if pending then [' '] else []) ++ c :: written ∧
        (q.mode.next c).sites written = Shell.squeeze false ((q.mode.next c).sites rest) ∧
        (q.mode.next c).run written = (q.mode.next c).run rest := by
      unfold collapse
      rw [if_neg hblank]
      by_cases hbackslash : c = '\\' ∧ q ≠ .single
      · rw [if_pos hbackslash]
        obtain ⟨rfl, hq⟩ := hbackslash
        cases rest with
        | nil => exact ⟨[], rfl, rfl, rfl⟩
        | cons d after =>
          obtain ⟨hsites, hrun⟩ := ihescaped (by simp)
          have hnext : (⟨q.quotes, true⟩ : Mode).next d = q.mode := rfl
          refine ⟨d :: collapse q false after, rfl, ?_, ?_⟩
          · rw [Quoting.next_mode_backslash hq, Mode.sites, Mode.sites, hnext,
              Shell.squeeze_cons_of_not_gap (Site.isGap_protected _ d), hsites]
            rfl
          · rw [Quoting.next_mode_backslash hq, Mode.run_cons, Mode.run_cons, hnext, hrun]
      · rw [if_neg hbackslash, Quoting.next_mode hbackslash]
        obtain ⟨hsites, hrun⟩ := ih (by simp)
        exact ⟨_, rfl, hsites, hrun⟩
    rw [hwritten, Mode.sites, Shell.squeeze_cons_of_not_gap hgap, ← hsites]
    cases hpending : pending with
    | false => exact ⟨rfl, hrun⟩
    | true =>
      obtain rfl := h hpending
      exact ⟨rfl, hrun⟩

theorem sites_normalizeBlanks (line : Text) :
    Mode.start.sites (normalizeBlanks line) = Shell.squeeze false (Mode.start.sites (Text.trim line)) :=
  (sites_collapse .none false (Text.trim line) (by simp)).1

/-- A trimmed text does not begin with a gap. -/
theorem not_isGap_of_head?_sites {t : Text} (ht : Text.IsTrimmed t) {x : Site}
    (hx : (Mode.start.sites t).head? = some x) : x.isGap = false := by
  rw [Mode.head?_sites] at hx
  obtain ⟨c, hc, rfl⟩ := Option.map_eq_some_iff.1 hx
  rw [Site.isGap, ht.first c hc, Bool.and_false]

/-- In a normalized line the gaps are single spaces. -/
theorem hasSingleSpaces_normalizeBlanks (line : Text) :
    Shell.HasSingleSpaces (Mode.start.sites (normalizeBlanks line)) := by
  rw [sites_normalizeBlanks]
  apply Shell.hasSingleSpaces_squeeze
  intro x hx
  exact not_isGap_of_head?_sites (Text.isTrimmed_trim line) hx

/-- All that is no gap is kept, in the mode in which it was met. -/
theorem filter_sites_normalizeBlanks (line : Text) :
    (Mode.start.sites (normalizeBlanks line)).filter (!·.isGap) =
      (Mode.start.sites (Text.trim line)).filter (!·.isGap) := by
  rw [sites_normalizeBlanks, Shell.filter_squeeze]

theorem isTrimmed_normalizeBlanks (line : Text) : Text.IsTrimmed (normalizeBlanks line) := by
  have htrimmed := Text.isTrimmed_trim line
  have hsites := sites_normalizeBlanks line
  cases htrim : Text.trim line with
  | nil =>
    have hnil : normalizeBlanks line = [] := by rw [normalizeBlanks, htrim, collapse]
    rw [hnil]
    exact ⟨by simp, by simp⟩
  | cons c rest =>
    rw [htrim] at htrimmed hsites
    constructor
    · intro d hd
      have hgap : Site.isGap ⟨.start, c⟩ = false := not_isGap_of_head?_sites htrimmed rfl
      rw [Mode.sites, Shell.squeeze_cons_of_not_gap hgap] at hsites
      have hhead := congrArg List.head? hsites
      rw [Mode.head?_sites, hd] at hhead
      obtain rfl : d = c := congrArg Site.char (Option.some.inj hhead)
      exact htrimmed.first d rfl
    · intro d hd
      obtain ⟨x, hx⟩ : ∃ x, (Mode.start.sites (c :: rest)).getLast? = some x :=
        ⟨_, List.getLast?_eq_some_getLast (List.cons_ne_nil _ _)⟩
      have hchar : (c :: rest).getLast? = some x.char := by
        rw [← Mode.getLast?_sites .start, hx]
        rfl
      have hblank := htrimmed.last _ hchar
      have hgap : x.isGap = false := by rw [Site.isGap, hblank, Bool.and_false]
      rw [← Mode.getLast?_sites .start, hsites, Shell.getLast?_squeeze false hx hgap] at hd
      rwa [← Option.some.inj hd]

theorem normalizeBlanks_normalizeBlanks (line : Text) :
    normalizeBlanks (normalizeBlanks line) = normalizeBlanks line := by
  apply Mode.start.sites_injective
  rw [sites_normalizeBlanks, (isTrimmed_normalizeBlanks line).trim_eq, sites_normalizeBlanks,
    Shell.squeeze_squeeze]

/-! ## Tokens of a normalized line -/

namespace Shell

theorem collect_append_congr (ms : List Mark) {ns ns' : List Mark} (h : collect ns = collect ns') :
    collect (ms ++ ns) = collect (ms ++ ns') := by
  induction ms with
  | nil => exact h
  | cons m ms ih => cases m <;> simp only [List.cons_append, collect, ih]

theorem emit_of_isGap {x : Site} (hx : x.isGap = true) (hfeed : x.char ≠ '\n') : x.emit = [.blank] := by
  obtain ⟨hmode, hblank⟩ := Site.isGap_iff.1 hx
  rw [Site.emit, hmode, (Mode.start_break (isBreak_of_isBlank hblank)).1, ofBare_of_isBlank hblank hfeed]

/-- A stretch of gaps separates words as one space does, and at the end of a line it does nothing. -/
theorem collect_squeeze (p : Mode) (pending : Bool) {t : Text} (h : pending = true → p = .start)
    (hfeed : '\n' ∉ t) :
    collect ((squeeze pending (p.sites t)).flatMap Site.emit ++ (p.run t).finish) =
      collect ((if pending then [.blank] else []) ++ (p.emits t ++ (p.run t).finish)) := by
  induction t generalizing p pending with
  | nil =>
    cases pending with
    | false => rfl
    | true =>
      rw [h rfl]
      rfl
  | cons c rest ih =>
    obtain ⟨hc, hrest⟩ := not_or.1 (List.mem_cons.not.1 hfeed)
    rw [Mode.sites, Mode.run_cons, Mode.emits_cons]
    cases hx : Site.isGap ⟨p, c⟩ with
    | true =>
      have hemit : p.emit c = [.blank] := emit_of_isGap hx (Ne.symm hc)
      have hnext : p.next c = .start := by
        obtain ⟨rfl, hblank⟩ := Site.isGap_iff.1 hx
        exact (Mode.start_break (isBreak_of_isBlank hblank)).2
      rw [squeeze_cons_of_gap hx, ih (p.next c) true (fun _ => hnext) hrest, hemit]
      cases pending with
      | false => rfl
      | true => simp [collect]
    | false =>
      have hbehind := ih (p.next c) false (by simp) hrest
      have hspace : (if pending then [Site.space] else []).flatMap Site.emit =
          if pending then [Mark.blank] else [] := by
        cases pending <;> rfl
      rw [squeeze_cons_of_not_gap hx, List.flatMap_append, hspace, List.flatMap_cons, List.append_assoc,
        List.append_assoc, List.append_assoc]
      exact collect_append_congr _ (collect_append_congr (p.emit c) hbehind)

end Shell

/-- Without line feeds a normalized line has the tokens of the line. -/
theorem tokens_normalizeBlanks {line : Text} (htrimmed : Text.IsTrimmed line) (hfeed : '\n' ∉ line) :
    Shell.tokens (normalizeBlanks line) = Shell.tokens line := by
  obtain ⟨hsites, hrun⟩ := sites_collapse .none false line (by simp)
  have hcollect := Shell.collect_squeeze .start false (by simp) hfeed
  have hscan : ∀ t, Shell.scan .none t = Mode.start.emits t ++ (Mode.start.run t).finish :=
    Shell.scan_eq .none
  rw [normalizeBlanks, htrimmed.trim_eq, Shell.tokens_eq, Shell.tokens_eq, hscan, hscan]
  change Mode.start.sites _ = Shell.squeeze false (Mode.start.sites line) at hsites
  change Mode.start.run _ = Mode.start.run line at hrun
  rw [Mode.emits_eq_flatMap, hsites, hrun, Shell.tokensOf, hcollect]
  rfl

end BuildScript
