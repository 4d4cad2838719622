import BuildScript.Proofs.Shell.Marks

/-!
# The scan of a line and what a shell reads

A line is read by a shell and by the scan at once, character by character. Outside expansions the scan is
where the shell is, and it has the same marks (`Agrees`). In an expansion that is between double quotes,
and between backquotes, it may lose its way: quotes that the shell keeps apart are all the same to it. A
line is flat if that does not happen (`Reader.isFlat`), and then the scan has the marks that the shell
reads, with nothing behind them but a comment (`exists_shown_of_marks?`).
-/

namespace BuildScript.Posix

open Shell (Mode)

namespace Reader

/-! ## Where the scan may lose its way -/

/-- Whether what is read stands in an expansion that is between double quotes. -/
def isMasked (r : Reader) : Bool := anyDouble r.outer

/-- Whether what is read stands between backquotes. -/
def inBackquotes (r : Reader) : Bool :=
  match r.pending with
  | .backquote _ _ => true
  | _ => false

/-- The mode of the scan while the shell is outside such expansions. -/
def mode (r : Reader) : Mode :=
  ⟨if r.double then .double else if r.pending = .single then .single else .none, r.pending = .escape⟩

/-- Whether the scan goes the right way at a character: to it, what is expanded between double quotes is
part of a word, and at the end of such an expansion, or of one in backquotes, it has the same quotes open
as the shell. -/
def keepsUp (r : Reader) (p : Mode) (c : Char) : Bool :=
  (!(r.isMasked || r.inBackquotes && r.double) || (p.emit c).all (·.isPart)) &&
    (!(r.isMasked || r.inBackquotes) || (r.step c).isMasked || (r.step c).inBackquotes ||
      p.next c == (r.step c).mode)

/-- Whether the scan goes the right way at all characters of a text. -/
def isFlat (r : Reader) (p : Mode) : Text → Bool
  | [] => true
  | c :: rest => r.keepsUp p c && (r.step c).isFlat (p.next c) rest

theorem mode_eq {r : Reader} (hsingle : r.pending ≠ .single) (hescape : r.pending ≠ .escape) :
    r.mode = ⟨if r.double then .double else .none, false⟩ := by
  rw [mode, if_neg hsingle, decide_eq_false hescape]

theorem mode_nothing {r : Reader} (h : r.pending = .nothing) :
    r.mode = ⟨if r.double then .double else .none, false⟩ :=
  mode_eq (by simp [h]) (by simp [h])

theorem mode_single {r : Reader} (hdouble : r.double = false) (hsingle : r.pending = .single) :
    r.mode = ⟨.single, false⟩ := by
  rw [mode, hdouble, if_neg Bool.false_ne_true, if_pos hsingle, hsingle]
  rfl

theorem mode_escape {r : Reader} (h : r.pending = .escape) :
    r.mode = ⟨if r.double then .double else .none, true⟩ := by
  rw [mode, h]
  rfl

/-! ## Moves between places -/

/-- Whether the innermost place ends and is an expansion in the one around it. -/
def Leaves (r r' : Reader) : Prop :=
  ∃ o outer m, r.outer = o :: outer ∧ m.isExpansion = true ∧
    r' = ⟨{ o with marks := o.marks ++ [m] }, .nothing, outer⟩

theorem leave_moves (r : Reader) {m : Mark} (hm : m.isExpansion = true) :
    (r.leave m).outer = r.outer ∨ r.Leaves (r.leave m) := by
  unfold leave
  split
  · exact .inl rfl
  · next o outer houter => exact .inr ⟨o, outer, m, houter, hm, rfl⟩

theorem operator_moves (r : Reader) (c : Char) :
    (r.operator c).outer = r.outer ∨ r.Leaves (r.operator c) := by
  unfold operator
  split
  · exact r.leave_moves rfl
  all_goals exact .inl rfl

theorem bare_moves (r : Reader) (c : Char) : (r.bare c).outer = r.outer ∨ r.Leaves (r.bare c) := by
  unfold bare
  split
  · exact .inl rfl
  split
  · exact .inl rfl
  split
  · exact .inl rfl
  split
  · exact r.operator_moves c
  · exact .inl rfl

theorem plain_moves (r : Reader) (c : Char) : (r.plain c).outer = r.outer ∨ r.Leaves (r.plain c) := by
  unfold plain
  split
  · exact .inl rfl
  split
  · split <;> exact .inl rfl
  split
  · exact .inl rfl
  split
  · exact .inl rfl
  split
  · exact .inl rfl
  split
  · split
    · exact r.leave_moves rfl
    · split <;> exact .inl rfl
  · exact r.bare_moves c

/-- A character leaves the places that are open as they are, ends the innermost one or opens another. -/
theorem step_moves (r : Reader) (c : Char) :
    (r.step c).outer = r.outer ∨ r.Leaves (r.step c) ∨ (r.step c).outer = r.toLevel :: r.outer := by
  have hplain : ∀ r' : Reader, r'.outer = r.outer →
      (r'.plain c).outer = r.outer ∨ r.Leaves (r'.plain c) ∨ (r'.plain c).outer = r.toLevel :: r.outer := by
    intro r' houter
    have hmoves := r'.plain_moves c
    rw [Leaves, houter] at hmoves
    exact hmoves.imp_right .inl
  unfold step
  split
  · exact hplain r rfl
  · unfold escaped
    split
    · exact .inl rfl
    split <;> exact .inl rfl
  · split <;> exact .inl rfl
  · unfold expansion
    split
    · exact .inr (.inr rfl)
    split
    · exact .inr (.inr rfl)
    split
    · exact .inl rfl
    split
    · exact .inl rfl
    · exact hplain _ rfl
  · split
    · exact .inl rfl
    · exact hplain _ rfl
  · exact .inl rfl
  · split <;> exact .inl rfl
  · split
    · exact hplain _ rfl
    · exact .inl rfl

/-! ## Characters of words -/

/-- What the scan has for a character that is no quote. -/
def shown (r : Reader) (c : Char) : Shell.Mark := if r.double then .part [c] else .ofBare c

/-- The text behind a backquote that is open. -/
def behindBackquote (r : Reader) : Text :=
  match r.pending with
  | .backquote _ t => t
  | _ => []

/-- What the scan has for the characters that the shell waits with. -/
def waiting (r : Reader) : List Shell.Mark :=
  match r.pending with
  | .dollar => [.part ['$']]
  | .name t => .part ['$'] :: t.map fun c => .part [c]
  | .backquote _ t => .part ['\x60'] :: r.mode.emits t
  | _ => []

/-- The ways to read a character that is no quote and opens no expansion. -/
inductive ReadsAs (r : Reader) (c : Char) : Reader → Prop
  | mark (m : Mark) (closer : Closer) (hkind : closer.SameKind r.closer)
    (hpart : ∀ q, r.closer = .brace q → m.isPart = true)
    (hdouble : r.double = true → m = .char true c)
    (hbare : r.double = false → r.closer ≠ .brace true → c ≠ '\'' ∧ Shows m [.ofBare c]) :
    ReadsAs r c { r.add m with closer := closer }
  | quote (hc : c = '\'') (hdouble : r.double = false) : ReadsAs r c ((r.add .quotes).await .single)
  | comment (hc : c = '#') (hdouble : r.double = false) : ReadsAs r c (r.await .comment)
  | brace (q : Bool) (hc : c = '\x7d') (hdouble : r.double = false) (hcloser : r.closer = .brace q) :
    ReadsAs r c (r.leave (.ofBraces q r.marks))
  | command (q : Bool) (hc : c = ')') (hdouble : r.double = false) (hcloser : r.closer = .command q 0) :
    ReadsAs r c (r.leave (.command q r.marks))

theorem operator_readsAs (r : Reader) {c : Char} (hc : c ≠ '\'') (hoperator : isOperator c = true)
    (hdouble : r.double = false) (hbrace : ∀ q, r.closer ≠ .brace q) : ReadsAs r c (r.operator c) := by
  have hmark : ∀ closer : Closer, closer.SameKind r.closer →
      ReadsAs r c { r.add (.op c) with closer := closer } := by
    intro closer hkind
    refine .mark (.op c) closer hkind (fun q hq => absurd hq (hbrace q)) ?_
      (fun _ _ => ⟨hc, hoperator, rfl⟩)
    intro hopen
    rw [hdouble] at hopen
    cases hopen
  unfold operator
  split
  · next q hcloser => exact .command q rfl hdouble hcloser
  · next q depth hcloser => exact hmark _ (by rw [hcloser]; trivial)
  · next q depth _ hcloser => exact hmark _ (by rw [hcloser]; trivial)
  · exact hmark r.closer (.refl _)

theorem bare_readsAs (r : Reader) (c : Char) (hdouble : r.double = false)
    (hbrace : ∀ q, r.closer ≠ .brace q) : ReadsAs r c (r.bare c) := by
  have hmark : c ≠ '\'' → ∀ m : Mark, Shows m [.ofBare c] → ReadsAs r c (r.add m) := by
    intro hc m hm
    refine .mark m r.closer (.refl _) (fun q hq => absurd hq (hbrace q)) ?_ (fun _ _ => ⟨hc, hm⟩)
    intro hopen
    rw [hdouble] at hopen
    cases hopen
  unfold bare
  split
  · next hc => exact .quote hc hdouble
  · next hquote =>
    split
    · next hc => exact .comment hc.1 hdouble
    · split
      · next hc =>
        apply hmark hquote
        rcases hc with rfl | rfl <;> rfl
      · split
        · next hoperator => exact r.operator_readsAs hquote hoperator hdouble hbrace
        · exact hmark hquote _ (shows_char_false c)

/-- A character that is no double quote, no backslash and opens no expansion. -/
theorem plain_readsAs (r : Reader) {c : Char} (hc : "\\\"$\x60".toList.contains c = false) :
    ReadsAs r c (r.plain c) := by
  have hne : ∀ d ∈ "\\\"$\x60".toList, c ≠ d := by
    rintro d hd rfl
    rw [List.contains_iff_mem.2 hd] at hc
    cases hc
  rw [plain, if_neg (hne '\\' (by decide)), if_neg (hne '"' (by decide)), if_neg (hne '$' (by decide)),
    if_neg (hne '\x60' (by decide))]
  cases hdouble : r.double with
  | true =>
    rw [if_pos rfl]
    refine .mark (.char true c) r.closer (.refl _) (fun _ _ => rfl) (fun _ => rfl) ?_
    intro hopen
    rw [hdouble] at hopen
    cases hopen
  | false =>
    rw [if_neg Bool.false_ne_true]
    cases hcloser : r.closer with
    | brace q =>
      simp only
      split
      · next hc => exact .brace q hc hdouble hcloser
      · split
        · next hc => exact .quote hc.1 hdouble
        · next hquote =>
          refine .mark (.char q c) r.closer (.refl _) (fun _ _ => rfl) ?_ ?_
          · intro hopen
            rw [hdouble] at hopen
            cases hopen
          · intro _ hbrace
            cases q with
            | true => exact absurd hcloser hbrace
            | false => exact ⟨fun hc => hquote ⟨hc, rfl⟩, shows_char_false c⟩
    | script => exact r.bare_readsAs c hdouble fun q hq => by rw [hcloser] at hq; cases hq
    | command q depth => exact r.bare_readsAs c hdouble fun q hq => by rw [hcloser] at hq; cases hq

end Reader

/-! ## Agreement -/

/-- Whether the marks of a place end in a part of a word. -/
def Level.EndsInPart (l : Level) : Prop := ∃ front m, l.marks = front ++ [m] ∧ m.isPart = true

theorem endsInPart_concat {l : Level} {front : List Mark} {m : Mark} (h : l.marks = front ++ [m])
    (hm : m.isPart = true) : l.EndsInPart := ⟨front, m, h, hm⟩

/-- Whether the scan in the mode `p` has what a shell has read that is in no comment and in no expansion
between double quotes. -/
structure Agrees (r : Reader) (p : Mode) (ps : List Shell.Mark) : Prop where
  bare : r.isMasked = false
  mode : p = r.mode.run r.behindBackquote
  traced : ∃ before, ps = before ++ r.waiting ∧ Traced r.toLevel r.outer before
  last : r.double = true ∨ r.pending = .single → r.EndsInPart
  single : r.pending = .single → r.double = false
  parts : r.double = true → ∀ q ∈ r.mode.emits r.behindBackquote, q.isPart = true
  name : ∀ t, r.pending = .name t → ∀ c ∈ t, isNameChar c = true
  comment : r.pending ≠ .comment

theorem Agrees.eq_mode {r : Reader} {p : Mode} {ps : List Shell.Mark} (h : Agrees r p ps)
    (hbehind : r.behindBackquote = []) : p = r.mode := by
  rw [h.mode, hbehind]
  rfl

/-- Whether the scan in the mode `p` has followed a shell. -/
inductive Follows (r : Reader) (p : Mode) (ps : List Shell.Mark) : Prop
  | masked (hmasked : r.isMasked = true) (htraced : Traced r.toLevel r.outer ps)
  | agrees (h : Agrees r p ps)
  | comment (hbare : r.isMasked = false) (hpending : r.pending = .comment) {before after : List Shell.Mark}
    (hps : ps = before ++ after) (htraced : Traced r.toLevel r.outer before)

section Step

variable {r : Reader} {p : Mode} {ps : List Shell.Mark} {c : Char}

theorem agrees_of_nothing (hbare : r.isMasked = false) (hpending : r.pending = .nothing)
    (hp : p = r.mode) (htraced : Traced r.toLevel r.outer ps) (hlast : r.double = true → r.EndsInPart) :
    Agrees r p ps := by
  have hbehind : r.behindBackquote = [] := by rw [Reader.behindBackquote, hpending]
  have hwaiting : r.waiting = [] := by rw [Reader.waiting, hpending]
  refine ⟨hbare, ?_, ⟨ps, ?_, htraced⟩, ?_, ?_, ?_, ?_, ?_⟩
  · rw [hp, hbehind]
    rfl
  · rw [hwaiting, List.append_nil]
  · intro hopen
    rcases hopen with hopen | hopen
    · exact hlast hopen
    · rw [hpending] at hopen
      cases hopen
  · simp [hpending]
  · simp [hbehind, Mode.emits]
  all_goals simp [hpending]

theorem follows_of_nothing (hpending : r.pending = .nothing) (hp : r.isMasked = false → p = r.mode)
    (htraced : Traced r.toLevel r.outer ps)
    (hlast : r.isMasked = false → r.double = true → r.EndsInPart) : Follows r p ps := by
  cases hmasked : r.isMasked with
  | true => exact .masked hmasked htraced
  | false => exact .agrees (agrees_of_nothing hmasked hpending (hp hmasked) htraced (hlast hmasked))

theorem agrees_of_single (hbare : r.isMasked = false) (hpending : r.pending = .single)
    (hdouble : r.double = false) (hp : p = r.mode) (htraced : Traced r.toLevel r.outer ps)
    (hlast : r.EndsInPart) : Agrees r p ps := by
  have hbehind : r.behindBackquote = [] := by rw [Reader.behindBackquote, hpending]
  have hwaiting : r.waiting = [] := by rw [Reader.waiting, hpending]
  refine ⟨hbare, ?_, ⟨ps, ?_, htraced⟩, fun _ => hlast, fun _ => hdouble, ?_, ?_, ?_⟩
  · rw [hp, hbehind]
    rfl
  · rw [hwaiting, List.append_nil]
  · simp [hdouble]
  all_goals simp [hpending]

/-- A character in an expansion that is between double quotes. -/
theorem follows_masked (hmasked : r.isMasked = true) (htraced : Traced r.toLevel r.outer ps)
    (hkeeps : r.keepsUp p c = true) : Follows (r.step c) (p.next c) (ps ++ p.emit c) := by
  rw [Reader.keepsUp, hmasked] at hkeeps
  simp only [Bool.true_or, Bool.not_true, Bool.false_or, Bool.and_eq_true, List.all_eq_true] at hkeeps
  obtain ⟨hparts, hmode⟩ := hkeeps
  rcases r.step_moves c with hstay | ⟨o, outer, m, houter, hm, hleave⟩ | henter
  · refine .masked (by rw [Reader.isMasked, hstay]; exact hmasked) ?_
    rw [hstay]
    exact htraced.extend hmasked hparts _
  · rw [Reader.isMasked, houter] at hmasked
    rw [houter] at htraced
    rw [hleave] at hmode ⊢
    refine follows_of_nothing rfl ?_ (htraced.leave_quoted hmasked hm hparts)
      fun _ _ => endsInPart_concat rfl (isPart_of_isExpansion hm)
    intro hbare
    rw [hbare] at hmode
    simpa [Reader.inBackquotes] using hmode
  · have hopen : anyDouble (r.toLevel :: r.outer) = true := by
      rw [anyDouble, List.any_cons, ← anyDouble, ← Reader.isMasked, hmasked, Bool.or_true]
    refine .masked (by rw [Reader.isMasked, henter]; exact hopen) ?_
    rw [henter]
    refine ⟨ps, _, rfl, htraced, ?_⟩
    rw [hopen]
    exact hparts

/-! ## Outside quoted expansions -/

/-- A character that is no quote and no backslash is one mark of the scan. -/
theorem Reader.mode_emit (hsingle : r.pending ≠ .single) (hescape : r.pending ≠ .escape)
    (hc : "\\\"".toList.contains c = false) (hquote : r.double = false → c ≠ '\'') :
    r.mode.emit c = [r.shown c] ∧ r.mode.next c = r.mode := by
  have hback : c ≠ '\\' := by rintro rfl; cases hc
  have hdouble : c ≠ '"' := by rintro rfl; cases hc
  rw [Reader.mode_eq hsingle hescape, shown]
  cases hopen : r.double with
  | true => simp [Mode.emit, Mode.next, hback, hdouble]
  | false => simp [Mode.emit, Mode.next, hback, hdouble, hquote hopen]

theorem Reader.shown_of_ofBare (h : Shell.Mark.ofBare c = .part [c]) : r.shown c = .part [c] := by
  unfold Reader.shown
  split
  · rfl
  · exact h

/-- The innermost place ends, outside quotes. -/
theorem follows_leave (hbare : r.isMasked = false) (hdouble : r.double = false)
    (hpending : r.pending = .nothing) (hscript : r.closer ≠ .script)
    (htraced : Traced r.toLevel r.outer ps) {m : Mark} (hm : m.isExpansion = true) {qs : List Shell.Mark}
    (hleave : ∀ o outer, anyDouble (o :: outer) = false → Traced r.toLevel (o :: outer) ps →
      Traced { o with marks := o.marks ++ [m] } outer (ps ++ qs)) :
    Follows (r.leave m) r.mode (ps ++ qs) := by
  cases houter : r.outer with
  | nil =>
    rw [houter] at htraced
    exact absurd htraced.1 hscript
  | cons o outer =>
    rw [Reader.isMasked, houter] at hbare
    rw [houter] at htraced
    have ho : o.double = false := (Bool.or_eq_false_iff.1 hbare).1
    have hleft : r.leave m = ⟨{ o with marks := o.marks ++ [m] }, .nothing, outer⟩ := by
      rw [Reader.leave, houter]
    rw [hleft]
    refine follows_of_nothing rfl (fun _ => ?_) (hleave o outer hbare htraced)
      fun _ _ => endsInPart_concat rfl (isPart_of_isExpansion hm)
    rw [Reader.mode_nothing hpending, Reader.mode_nothing rfl, hdouble]
    simp [ho]

theorem follows_readsAs (hbare : r.isMasked = false) (hpending : r.pending = .nothing)
    (htraced : Traced r.toLevel r.outer ps) (hc : "\\\"".toList.contains c = false) {r' : Reader}
    (hread : r.ReadsAs c r') : Follows r' (r.mode.next c) (ps ++ r.mode.emit c) := by
  have hsingle : r.pending ≠ .single := by rw [hpending]; simp
  have hescape : r.pending ≠ .escape := by rw [hpending]; simp
  cases hread with
  | mark m closer hkind hpart hdouble hplain =>
    have hquote : r.double = false → c ≠ '\'' := fun hopen => (hplain hopen (htraced.closer_ne hbare)).1
    obtain ⟨hemit, hnext⟩ := r.mode_emit hsingle hescape hc hquote
    rw [hemit, hnext]
    refine follows_of_nothing hpending (fun _ => rfl) (htraced.add hbare rfl hkind hpart ?_)
      fun _ hopen => endsInPart_concat rfl (by rw [hdouble hopen]; rfl)
    cases hopen : r.double with
    | true =>
      rw [hdouble hopen, Reader.shown, hopen]
      exact shows_char_true c
    | false =>
      rw [Reader.shown, hopen]
      exact (hplain hopen (htraced.closer_ne hbare)).2
  | quote hc' hopen =>
    subst hc'
    have hquoted : ((r.add .quotes).await .single).mode = ⟨.single, false⟩ :=
      Reader.mode_single hopen rfl
    rw [Reader.mode_eq hsingle hescape, hopen]
    exact .agrees (agrees_of_single hbare rfl hopen hquoted.symm
      (htraced.add hbare rfl (.refl _) (fun _ _ => rfl) shows_quotes) (endsInPart_concat rfl rfl))
  | comment hc' hopen => exact .comment hbare rfl rfl htraced
  | brace q hc' hopen hcloser =>
    subst hc'
    obtain ⟨hemit, hnext⟩ := r.mode_emit hsingle hescape hc (by simp)
    rw [hemit, hnext, r.shown_of_ofBare (by decide)]
    exact follows_leave hbare hopen hpending (by simp [hcloser]) htraced rfl
      fun o outer hall hinner => hinner.leave_brace hall hcloser
  | command q hc' hopen hcloser =>
    subst hc'
    obtain ⟨hemit, hnext⟩ := r.mode_emit hsingle hescape hc (by simp)
    rw [hemit, hnext]
    exact follows_leave hbare hopen hpending (by simp [hcloser]) htraced rfl
      fun o outer hall hinner => hinner.leave_command hall hcloser

theorem agrees_await (hbare : r.isMasked = false) {pending : Pending}
    (hpending : pending = .escape ∨ pending = .dollar ∨ pending = .backquote false [])
    (htraced : Traced r.toLevel r.outer ps) (hlast : r.double = true → r.EndsInPart) :
    Agrees (r.await pending) (r.await pending).mode (ps ++ (r.await pending).waiting) := by
  have hbehind : (r.await pending).behindBackquote = [] := by
    rcases hpending with rfl | rfl | rfl <;> rfl
  refine ⟨hbare, by rw [hbehind]; rfl, ⟨ps, rfl, htraced⟩, ?_, ?_, by simp [hbehind, Mode.emits],
    ?_, ?_⟩
  · intro hopen
    rcases hopen with hopen | hopen
    · exact hlast hopen
    · rcases hpending with rfl | rfl | rfl <;> cases hopen
  all_goals rcases hpending with rfl | rfl | rfl <;> simp [Reader.await]

/-- A backslash: the scan has nothing for it. -/
theorem follows_backslash (hbare : r.isMasked = false) (hpending : r.pending = .nothing)
    (htraced : Traced r.toLevel r.outer ps) (hlast : r.double = true → r.EndsInPart) :
    Follows (r.plain '\\') (r.mode.next '\\') (ps ++ r.mode.emit '\\') := by
  have hplain : r.plain '\\' = r.await .escape := rfl
  have hescaped : (r.await .escape).mode = ⟨if r.double then .double else .none, true⟩ :=
    Reader.mode_escape rfl
  have hstep : r.mode.emit '\\' = (r.await .escape).waiting ∧
      r.mode.next '\\' = (r.await .escape).mode := by
    rw [Reader.mode_nothing hpending, hescaped]
    cases r.double <;> exact ⟨rfl, rfl⟩
  rw [hplain, hstep.1, hstep.2]
  exact .agrees (agrees_await hbare (.inl rfl) htraced hlast)

/-- A double quote. One that closes adds to the mark before it. -/
theorem follows_doubleQuote (hbare : r.isMasked = false) (hpending : r.pending = .nothing)
    (htraced : Traced r.toLevel r.outer ps) (hlast : r.double = true → r.EndsInPart) :
    Follows (r.plain '"') (r.mode.next '"') (ps ++ r.mode.emit '"') := by
  rw [Reader.mode_nothing hpending]
  cases hopen : r.double with
  | true =>
    have hplain : r.plain '"' = { r with double := false } := by
      simp [Reader.plain, hopen]
    have hclosed : Reader.mode { r with double := false } = ⟨.none, false⟩ :=
      Reader.mode_nothing hpending
    obtain ⟨front, m, hmarks, hm⟩ := hlast hopen
    rw [hplain]
    refine follows_of_nothing hpending (fun _ => hclosed.symm)
      (htraced.close hbare rfl rfl hmarks hm) ?_
    rintro - ⟨⟩
  | false =>
    have hplain : r.plain '"' = { r.add .quotes with double := true } := by
      simp [Reader.plain, hopen]
    have hopened : Reader.mode { r.add .quotes with double := true } = ⟨.double, false⟩ :=
      Reader.mode_nothing hpending
    rw [hplain]
    exact follows_of_nothing hpending (fun _ => hopened.symm)
      (htraced.add hbare rfl (.refl _) (fun _ _ => rfl) shows_quotes) fun _ _ => endsInPart_concat rfl rfl

/-- A sign that begins an expansion: it stands in the scan while the shell waits for what is expanded. -/
theorem follows_sign (hbare : r.isMasked = false) (hpending : r.pending = .nothing)
    (htraced : Traced r.toLevel r.outer ps) (hlast : r.double = true → r.EndsInPart) {pending : Pending}
    (hsign : c = '$' ∧ pending = .dollar ∨ c = '\x60' ∧ pending = .backquote false []) :
    Follows (r.await pending) (r.mode.next c) (ps ++ r.mode.emit c) := by
  have hstart : pending = .escape ∨ pending = .dollar ∨ pending = .backquote false [] :=
    .inr (hsign.imp And.right And.right)
  have hstays : (r.await pending).mode = r.mode := by
    rw [Reader.mode_nothing hpending]
    exact Reader.mode_eq (by rcases hsign with ⟨-, rfl⟩ | ⟨-, rfl⟩ <;> simp [Reader.await])
      (by rcases hsign with ⟨-, rfl⟩ | ⟨-, rfl⟩ <;> simp [Reader.await])
  have hshown : [r.shown c] = (r.await pending).waiting := by
    rcases hsign with ⟨rfl, rfl⟩ | ⟨rfl, rfl⟩ <;> rw [r.shown_of_ofBare (by decide)] <;> rfl
  obtain ⟨hemit, hnext⟩ := r.mode_emit (by rw [hpending]; simp) (by rw [hpending]; simp) (c := c)
    (by rcases hsign with ⟨rfl, -⟩ | ⟨rfl, -⟩ <;> decide)
    fun _ => by rcases hsign with ⟨rfl, -⟩ | ⟨rfl, -⟩ <;> decide
  rw [hemit, hnext, hshown, ← hstays]
  exact .agrees (agrees_await hbare hstart htraced hlast)

/-- A character before which nothing is pending. -/
theorem follows_plain (hbare : r.isMasked = false) (hpending : r.pending = .nothing)
    (htraced : Traced r.toLevel r.outer ps) (hlast : r.double = true → r.EndsInPart) :
    Follows (r.plain c) (r.mode.next c) (ps ++ r.mode.emit c) := by
  by_cases hback : c = '\\'
  · rw [hback]
    exact follows_backslash hbare hpending htraced hlast
  by_cases hdouble : c = '"'
  · rw [hdouble]
    exact follows_doubleQuote hbare hpending htraced hlast
  by_cases hdollar : c = '$'
  · rw [hdollar]
    exact follows_sign hbare hpending htraced hlast (.inl ⟨rfl, rfl⟩)
  by_cases hquote : c = '\x60'
  · rw [hquote]
    exact follows_sign hbare hpending htraced hlast (.inr ⟨rfl, rfl⟩)
  exact follows_readsAs hbare hpending htraced (by simp [hback, hdouble])
    (r.plain_readsAs (by simp [hback, hdouble, hdollar, hquote]))

theorem ofBare_of_isNameChar (h : isNameChar c = true) : Shell.Mark.ofBare c = .part [c] := by
  have hoperator : Shell.isOperator c = false := by
    rw [Bool.eq_false_iff]
    intro hoperator
    simp only [Shell.isOperator, Bool.or_eq_true, beq_iff_eq] at hoperator
    rcases hoperator with ((((rfl | rfl) | rfl) | rfl) | rfl) | rfl <;> cases h
  rw [Shell.Mark.ofBare, hoperator, isBlank_of_isNameChar h]
  rfl

theorem ofBare_of_isSpecial (h : isSpecial c = true) : Shell.Mark.ofBare c = .part [c] := by
  rw [isSpecial, Bool.or_eq_true] at h
  rcases h with h | h
  · exact ofBare_of_isNameChar (by simp [isNameChar, Char.isAlphanum, h])
  · have hall : "@*#?-$!".toList.all (fun d => Shell.Mark.ofBare d = .part [d]) = true := by decide
    exact of_decide_eq_true (List.all_eq_true.1 hall c (List.contains_iff_mem.1 h))

/-- A character that is protected by a backslash. -/
theorem follows_escaped (h : Agrees r p ps) (hpending : r.pending = .escape) (hfeed : c ≠ '\n') :
    Follows (r.step c) (p.next c) (ps ++ p.emit c) := by
  obtain ⟨before, rfl, htraced⟩ := h.traced
  have hwaiting : r.waiting = [] := by rw [Reader.waiting, hpending]
  have hp : p = r.mode := h.eq_mode (by rw [Reader.behindBackquote, hpending])
  have hstep : r.step c = r.settle.escaped c := by rw [Reader.step, hpending]
  have hemit : r.mode.emit c = [.part [c]] := by
    rw [Reader.mode_escape hpending]
    rfl
  have hnext : r.mode.next c = ⟨if r.double then .double else .none, false⟩ := by
    rw [Reader.mode_escape hpending]
    rfl
  have hadd : ∀ {l : Level} {m : Mark} {qs qs' : List Shell.Mark}, m.isPart = true → Shows m qs →
      Traced l r.outer qs' → Traced { l with marks := l.marks ++ [m] } r.outer (qs' ++ qs) :=
    fun hpart hm hl => hl.add h.bare rfl (.refl _) (fun _ _ => hpart) hm
  rw [hwaiting, List.append_nil, hp, hstep, hemit, hnext, Reader.escaped, if_neg hfeed]
  split
  · -- The backslash stays, but the scan drops it.
    have hkept := hadd rfl shows_kept htraced
    rw [List.append_nil] at hkept
    refine follows_of_nothing rfl (fun _ => ?_) (hadd rfl (shows_char_true c) hkept)
      fun _ _ => endsInPart_concat rfl rfl
    rw [Reader.mode_nothing rfl]
    rfl
  · refine follows_of_nothing rfl (fun _ => ?_) (hadd rfl (shows_char_true c) htraced)
      fun _ _ => endsInPart_concat rfl rfl
    rw [Reader.mode_nothing rfl]
    rfl

/-- A character between single quotes. -/
theorem follows_single (h : Agrees r p ps) (hpending : r.pending = .single) :
    Follows (r.step c) (p.next c) (ps ++ p.emit c) := by
  have hopen := h.single hpending
  obtain ⟨before, rfl, htraced⟩ := h.traced
  have hwaiting : r.waiting = [] := by rw [Reader.waiting, hpending]
  have hp : p = ⟨.single, false⟩ :=
    (h.eq_mode (by rw [Reader.behindBackquote, hpending])).trans (Reader.mode_single hopen hpending)
  have hstep : r.step c = if c = '\'' then r.settle else r.add (.char true c) := by
    rw [Reader.step, hpending]
  rw [hwaiting, List.append_nil, hp, hstep]
  split
  · next hc =>
    subst hc
    obtain ⟨front, m, hmarks, hm⟩ := h.last (.inr hpending)
    have hsettled : r.settle.mode = ⟨.none, false⟩ := by
      rw [Reader.mode_nothing rfl]
      simp [Reader.settle, hopen]
    refine follows_of_nothing rfl (fun _ => hsettled.symm) (htraced.close h.bare rfl rfl hmarks hm) ?_
    intro _ hdouble
    have hdouble : r.double = true := hdouble
    rw [hopen] at hdouble
    cases hdouble
  · next hc =>
    have hadded : (r.add (.char true c)).mode = ⟨.single, false⟩ := Reader.mode_single hopen hpending
    have hemit : Mode.emit ⟨.single, false⟩ c = [.part [c]] := by simp [Mode.emit, hc]
    have hnext : Mode.next ⟨.single, false⟩ c = ⟨.single, false⟩ := by simp [Mode.next, hc]
    rw [hemit, hnext]
    exact .agrees (agrees_of_single h.bare hpending hopen hadded.symm
      (htraced.add h.bare rfl (.refl _) (fun _ _ => rfl) (shows_char_true c)) (endsInPart_concat rfl rfl))

/-- One more character of a name that is not in braces. -/
theorem agrees_name (hbare : r.isMasked = false) (hp : p = r.mode) (hsingle : r.pending ≠ .single)
    (hescape : r.pending ≠ .escape) {t : Text} (ht : ∀ d ∈ t, isNameChar d = true)
    (hc : isNameChar c = true) (htraced : Traced r.toLevel r.outer ps)
    (hlast : r.double = true → r.EndsInPart) :
    Agrees (r.await (.name (t ++ [c]))) (p.next c)
      (ps ++ .part ['$'] :: t.map (fun c => .part [c]) ++ p.emit c) := by
  have hne : ∀ d, isNameChar d = false → c ≠ d := by
    rintro d hd rfl
    rw [hc] at hd
    cases hd
  obtain ⟨hemit, hnext⟩ := r.mode_emit hsingle hescape (c := c)
    (by simp [hne '\\' (by decide), hne '"' (by decide)]) fun _ => hne '\'' (by decide)
  rw [hp, hemit, hnext, r.shown_of_ofBare (ofBare_of_isNameChar hc)]
  refine ⟨hbare, ?_, ⟨ps, ?_, htraced⟩, ?_, ?_, ?_, ?_, ?_⟩
  · rw [Reader.mode_eq hsingle hescape, Reader.mode_eq (by simp [Reader.await]) (by simp [Reader.await])]
    rfl
  · simp [Reader.waiting, Reader.await]
  · exact fun hopen => hopen.elim hlast (fun h => by cases h)
  · simp [Reader.await]
  · simp [Reader.await, Reader.behindBackquote, Mode.emits]
  · intro u hu d hd
    cases hu
    rcases List.mem_append.1 hd with hd | hd
    · exact ht d hd
    · rwa [List.mem_singleton.1 hd]
  · simp [Reader.await]

/-- A character of a name, or behind one. -/
theorem follows_name (h : Agrees r p ps) {t : Text} (hpending : r.pending = .name t) :
    Follows (r.step c) (p.next c) (ps ++ p.emit c) := by
  have hsingle : r.pending ≠ .single := by rw [hpending]; simp
  have hescape : r.pending ≠ .escape := by rw [hpending]; simp
  obtain ⟨before, rfl, htraced⟩ := h.traced
  have hwaiting : r.waiting = .part ['$'] :: t.map fun c => .part [c] := by rw [Reader.waiting, hpending]
  have hp : p = r.mode := h.eq_mode (by rw [Reader.behindBackquote, hpending])
  have hstep : r.step c = if isNameChar c then r.await (.name (t ++ [c])) else
      (r.settle.add (.param r.quoted t [] [])).plain c := by rw [Reader.step, hpending]
  rw [hstep, hwaiting]
  split
  · next hc =>
    exact .agrees (agrees_name h.bare hp hsingle hescape (h.name t hpending) hc htraced
      fun hopen => h.last (.inl hopen))
  · have hparts : ∀ q ∈ Shell.Mark.part ['$'] :: t.map (fun c => .part [c]), q.isPart = true := by
      simp [Shell.Mark.isPart]
    have hadded : Traced (r.settle.add (.param r.quoted t [] [])).toLevel r.outer
        (before ++ .part ['$'] :: t.map fun c => .part [c]) :=
      htraced.add_expansion h.bare rfl fun _ => steady_of_parts hparts
    have hmode : p = (r.settle.add (.param r.quoted t [] [])).mode := by
      rw [hp, Reader.mode_eq hsingle hescape, Reader.mode_nothing rfl]
      rfl
    rw [hmode]
    exact follows_plain h.bare rfl hadded fun _ => endsInPart_concat rfl rfl

/-! ### Behind a dollar sign

The dollar sign has been read, and is a mark of the scan; the shell tells by the next character what it
introduces. -/

theorem Reader.anyDouble_outer (hbare : r.isMasked = false) : anyDouble (r.toLevel :: r.outer) = r.double := by
  rw [anyDouble, List.any_cons, ← anyDouble, ← Reader.isMasked, hbare, Bool.or_false]

/-- A place begins whose end is `closer`. -/
theorem follows_enter {closer : Closer} {qs : List Shell.Mark} (hpending : r.pending = .nothing)
    (htraced : Traced r.toLevel r.outer ps)
    (hinside : Inside (anyDouble (r.toLevel :: r.outer)) ⟨closer, false, []⟩ qs) :
    Follows (r.enter closer) r.mode (ps ++ qs) := by
  refine follows_of_nothing rfl ?_ (htraced.enter hinside) fun _ hopen => by cases hopen
  intro hbare
  have hopen : r.double = false := (Bool.or_eq_false_iff.1 hbare).1
  rw [Reader.mode_nothing hpending, Reader.mode_nothing rfl]
  simp [Reader.enter, hopen]

theorem follows_brace (hbare : r.isMasked = false) (hpending : r.pending = .nothing)
    (htraced : Traced r.toLevel r.outer ps) :
    Follows (r.enter (.brace r.quoted)) (r.mode.next '\x7b') (ps ++ .part ['$'] :: r.mode.emit '\x7b') := by
  obtain ⟨hemit, hnext⟩ := r.mode_emit (by simp [hpending]) (by simp [hpending]) (c := '\x7b') (by decide) (by simp)
  rw [hemit, hnext, r.shown_of_ofBare (by decide)]
  refine follows_enter hpending htraced ?_
  rw [Reader.anyDouble_outer hbare]
  cases hopen : r.double with
  | true => simp [Inside, Shell.Mark.isPart]
  | false =>
    have hquoted : r.quoted = false := by
      simp [Level.quoted, hopen, htraced.closer_ne hbare]
    rw [hquoted]
    exact ⟨[], rfl, .nil, by simp⟩

theorem follows_parenthesis (hbare : r.isMasked = false) (hpending : r.pending = .nothing)
    (htraced : Traced r.toLevel r.outer ps) :
    Follows (r.enter (.command r.quoted 0)) (r.mode.next '(') (ps ++ .part ['$'] :: r.mode.emit '(') := by
  obtain ⟨hemit, hnext⟩ := r.mode_emit (by simp [hpending]) (by simp [hpending]) (c := '(') (by decide) (by simp)
  rw [hemit, hnext]
  refine follows_enter hpending htraced ?_
  rw [Reader.anyDouble_outer hbare, Reader.shown]
  cases r.double with
  | true => simp [Inside, Shell.Mark.isPart]
  | false => exact ⟨[], rfl⟩

theorem follows_special (hbare : r.isMasked = false) (hpending : r.pending = .nothing)
    (htraced : Traced r.toLevel r.outer ps) (hc : isSpecial c = true) :
    Follows (r.add (.param r.quoted [c] [] [])) (r.mode.next c) (ps ++ .part ['$'] :: r.mode.emit c) := by
  have hne : ∀ d, isSpecial d = false → c ≠ d := by
    rintro d hd rfl
    rw [hc] at hd
    cases hd
  obtain ⟨hemit, hnext⟩ := r.mode_emit (by simp [hpending]) (by simp [hpending]) (c := c)
    (by simp [hne '\\' (by decide), hne '"' (by decide)]) fun _ => hne '\'' (by decide)
  rw [hemit, hnext, r.shown_of_ofBare (ofBare_of_isSpecial hc)]
  exact follows_of_nothing hpending (fun _ => rfl) (htraced.add_expansion hbare rfl fun _ => rfl)
    fun _ _ => endsInPart_concat rfl rfl

/-- The dollar sign is a character like others. -/
theorem follows_plain_dollar (hbare : r.isMasked = false) (hpending : r.pending = .nothing)
    (htraced : Traced r.toLevel r.outer ps) :
    Follows ((r.add (.char r.quoted '$')).plain c) (r.mode.next c) (ps ++ .part ['$'] :: r.mode.emit c) := by
  have hshows : Shows (.char r.quoted '$') [.part ['$']] := by
    cases r.quoted with
    | true => exact shows_char_true '$'
    | false => exact shows_char_false '$'
  have hadded : Traced (r.add (.char r.quoted '$')).toLevel r.outer (ps ++ [.part ['$']]) :=
    htraced.add hbare rfl (.refl _) (fun _ _ => rfl) hshows
  have hfollows := follows_plain (r := r.add (.char r.quoted '$')) (c := c) hbare hpending hadded
    fun _ => endsInPart_concat rfl rfl
  rwa [List.append_assoc] at hfollows

theorem follows_expansion (hbare : r.isMasked = false) (hpending : r.pending = .nothing)
    (htraced : Traced r.toLevel r.outer ps) (hlast : r.double = true → r.EndsInPart) :
    Follows (r.expansion c) (r.mode.next c) (ps ++ .part ['$'] :: r.mode.emit c) := by
  rw [Reader.expansion]
  split
  · next hc => exact hc ▸ follows_brace hbare hpending htraced
  split
  · next hc => exact hc ▸ follows_parenthesis hbare hpending htraced
  split
  · next hc =>
    have hagrees := agrees_name (t := []) hbare rfl (by simp [hpending]) (by simp [hpending]) (by simp)
      (isNameChar_of_isNameStart hc) htraced hlast
    rw [List.append_assoc] at hagrees
    exact .agrees hagrees
  split
  · next hc => exact follows_special hbare hpending htraced hc
  · exact follows_plain_dollar hbare hpending htraced

/-- A character behind a dollar sign. -/
theorem follows_dollar (h : Agrees r p ps) (hpending : r.pending = .dollar) :
    Follows (r.step c) (p.next c) (ps ++ p.emit c) := by
  obtain ⟨before, rfl, htraced⟩ := h.traced
  have hwaiting : r.waiting = [.part ['$']] := by rw [Reader.waiting, hpending]
  have hp : p = r.mode := h.eq_mode (by rw [Reader.behindBackquote, hpending])
  have hsettled : r.mode = r.settle.mode := by
    rw [Reader.mode_eq (by simp [hpending]) (by simp [hpending]), Reader.mode_nothing rfl]
    rfl
  have hstep : r.step c = r.settle.expansion c := by rw [Reader.step, hpending]
  rw [hstep, hwaiting, hp, hsettled, List.append_assoc]
  exact follows_expansion h.bare rfl htraced fun hopen => h.last (.inl hopen)

/-- One more character between backquotes. -/
theorem agrees_backquote (h : Agrees r p ps) {escaped : Bool} {t : Text}
    (hpending : r.pending = .backquote escaped t)
    (hparts : r.double = true → ∀ q ∈ p.emit c, q.isPart = true) (escaped' : Bool) :
    Agrees (r.await (.backquote escaped' (t ++ [c]))) (p.next c) (ps ++ p.emit c) := by
  have hsingle : r.pending ≠ .single := by rw [hpending]; simp
  have hescape : r.pending ≠ .escape := by rw [hpending]; simp
  obtain ⟨before, rfl, htraced⟩ := h.traced
  have hwaiting : r.waiting = .part ['\x60'] :: r.mode.emits t := by rw [Reader.waiting, hpending]
  have hbehind : r.behindBackquote = t := by rw [Reader.behindBackquote, hpending]
  have hp : p = r.mode.run t := by rw [h.mode, hbehind]
  have hemits : r.mode.emits (t ++ [c]) = r.mode.emits t ++ p.emit c := by
    rw [Mode.emits_append, ← hp, Mode.emits_singleton]
  have hstays : (r.await (.backquote escaped' (t ++ [c]))).mode = r.mode := by
    rw [Reader.mode_eq hsingle hescape]
    exact Reader.mode_eq (by simp [Reader.await]) (by simp [Reader.await])
  have hbody : (r.await (.backquote escaped' (t ++ [c]))).behindBackquote = t ++ [c] := rfl
  have hwaits : (r.await (.backquote escaped' (t ++ [c]))).waiting =
      .part ['\x60'] :: (r.await (.backquote escaped' (t ++ [c]))).mode.emits (t ++ [c]) := rfl
  refine ⟨h.bare, ?_, ⟨before, ?_, htraced⟩, ?_, ?_, ?_, ?_, ?_⟩
  · rw [hstays, hbody, Mode.run_append, hp]
    rfl
  · rw [hwaits, hstays, hemits, hwaiting, List.append_assoc]
    rfl
  · exact fun hopen => h.last (hopen.imp_right fun h => by cases h)
  · simp [Reader.await]
  · rw [hstays, hbody, hemits]
    exact fun hopen => List.forall_mem_append.2 ⟨hbehind ▸ h.parts hopen, hparts hopen⟩
  all_goals simp [Reader.await]

/-- A backquote that closes, where the scan has found back to the quotes of the shell. -/
theorem follows_closing (h : Agrees r p ps) {escaped : Bool} {t : Text}
    (hpending : r.pending = .backquote escaped t)
    (hback : p.next '\x60' = (r.settle.add (.backquoted r.quoted t)).mode) :
    Follows (r.settle.add (.backquoted r.quoted t)) (p.next '\x60') (ps ++ p.emit '\x60') := by
  obtain ⟨before, rfl, htraced⟩ := h.traced
  have hwaiting : r.waiting = .part ['\x60'] :: r.mode.emits t := by rw [Reader.waiting, hpending]
  have hbehind : r.behindBackquote = t := by rw [Reader.behindBackquote, hpending]
  have hemit : p.emit '\x60' = [.part ['\x60']] := by
    obtain ⟨quotes, escaped⟩ := p
    cases quotes <;> cases escaped <;> rfl
  rw [hemit, hwaiting, List.append_assoc]
  refine follows_of_nothing rfl (fun _ => hback) (htraced.add_expansion h.bare rfl fun hsplits => ?_)
    fun _ _ => endsInPart_concat rfl rfl
  have hbody : steady (.part ['\x60'] :: r.mode.emits t) = true := by
    cases hopen : r.double with
    | true => exact steady_of_parts (List.forall_mem_cons.2 ⟨rfl, hbehind ▸ h.parts hopen⟩)
    | false =>
      have hcloser := htraced.closer_ne h.bare
      have hunquoted : r.quoted = false := by simp [Level.quoted, hopen, hcloser]
      rw [hunquoted] at hsplits
      exact steady_emits hsplits
  exact steady_append hbody rfl

/-- A character between backquotes, or the one that closes. -/
theorem follows_backquote (h : Agrees r p ps) {escaped : Bool} {t : Text}
    (hpending : r.pending = .backquote escaped t) (hkeeps : r.keepsUp p c = true) :
    Follows (r.step c) (p.next c) (ps ++ p.emit c) := by
  have hinside : r.inBackquotes = true := by rw [Reader.inBackquotes, hpending]
  rw [Reader.keepsUp, h.bare, hinside] at hkeeps
  simp only [Bool.true_and, Bool.false_or, Bool.not_true, Bool.and_eq_true, Bool.or_eq_true,
    Bool.not_eq_true', List.all_eq_true, beq_iff_eq] at hkeeps
  obtain ⟨hquoted, hback⟩ := hkeeps
  have hparts : r.double = true → ∀ q ∈ p.emit c, q.isPart = true :=
    fun hopen => hquoted.resolve_left (by simp [hopen])
  cases escaped with
  | true =>
    have hstep : r.step c = r.await (.backquote false (t ++ [c])) := by rw [Reader.step, hpending]
    rw [hstep]
    exact .agrees (agrees_backquote h hpending hparts false)
  | false =>
    have hstep : r.step c = if c = '\x60' then r.settle.add (.backquoted r.quoted t) else
        r.await (.backquote (c == '\\') (t ++ [c])) := by rw [Reader.step, hpending]
    rw [hstep] at hback ⊢
    split
    · next hc =>
      subst hc
      have hbare : (r.settle.add (.backquoted r.quoted t)).isMasked = false := h.bare
      rw [if_pos rfl, hbare] at hback
      exact follows_closing h hpending (by simpa [Reader.inBackquotes, Reader.add, Reader.settle] using hback)
    · exact .agrees (agrees_backquote h hpending hparts _)

/-- One more character of a line. -/
theorem Follows.step (h : Follows r p ps) (hfeed : c ≠ '\n') (hkeeps : r.keepsUp p c = true) :
    Follows (r.step c) (p.next c) (ps ++ p.emit c) := by
  cases h with
  | masked hmasked htraced => exact follows_masked hmasked htraced hkeeps
  | comment hbare hpending hps htraced =>
    have hstep : r.step c = r := by simp [Reader.step, hpending, hfeed]
    rw [hstep, hps, List.append_assoc]
    exact .comment hbare hpending rfl htraced
  | agrees h =>
    cases hpending : r.pending with
    | nothing =>
      obtain ⟨before, rfl, htraced⟩ := h.traced
      have hwaiting : r.waiting = [] := by rw [Reader.waiting, hpending]
      have hp : p = r.mode := h.eq_mode (by rw [Reader.behindBackquote, hpending])
      rw [hwaiting, List.append_nil, Reader.step_nothing hpending, hp]
      exact follows_plain h.bare hpending htraced fun hopen => h.last (.inl hopen)
    | escape => exact follows_escaped h hpending hfeed
    | single => exact follows_single h hpending
    | dollar => exact follows_dollar h hpending
    | name t => exact follows_name h hpending
    | backquote escaped t => exact follows_backquote h hpending hkeeps
    | comment => exact absurd hpending h.comment

/-- A stretch of a line. -/
theorem Follows.run (h : Follows r p ps) {t : Text} (hfeed : '\n' ∉ t) (hflat : r.isFlat p t = true) :
    Follows (r.run t) (p.run t) (ps ++ p.emits t) := by
  induction t generalizing r p ps with
  | nil => simpa [Mode.emits, Mode.run] using h
  | cons c rest ih =>
    rw [List.mem_cons, not_or] at hfeed
    rw [Reader.isFlat, Bool.and_eq_true] at hflat
    rw [Reader.run_cons, Mode.run_cons, Mode.emits_cons, ← List.append_assoc]
    exact ih (h.step (Ne.symm hfeed.1) hflat.1) hfeed.2 hflat.2

end Step

theorem follows_start : Follows .start .start [] :=
  follows_of_nothing rfl (fun _ => rfl) ⟨rfl, .nil⟩ fun _ hopen => by cases hopen

theorem outer_of_marks? {r : Reader} {ms : List Mark} (hread : r.marks? = some ms) :
    r.outer = [] ∧ r.double = false := by
  rw [Reader.marks?] at hread
  split at hread
  case isFalse => cases hread
  case isTrue hclosed => simpa using hclosed

theorem Follows.closer {r : Reader} {p : Mode} {ps : List Shell.Mark} (h : Follows r p ps)
    (houter : r.outer = []) : r.closer = .script := by
  cases h with
  | masked hmasked _ =>
    rw [Reader.isMasked, houter] at hmasked
    cases hmasked
  | agrees h =>
    obtain ⟨before, -, htraced⟩ := h.traced
    rw [houter] at htraced
    exact htraced.1
  | comment _ _ _ htraced =>
    rw [houter] at htraced
    exact htraced.1

/-- At the end of a script the scan has the marks that were read. -/
theorem Agrees.shown_marks? {r : Reader} {p : Mode} {ps : List Shell.Mark} (h : Agrees r p ps)
    {ms : List Mark} (hread : r.marks? = some ms) : Shown ms ps ∧ p.finish = [] := by
  obtain ⟨before, rfl, htraced⟩ := h.traced
  obtain ⟨houter, hdouble⟩ := outer_of_marks? hread
  rw [Reader.marks?, houter, hdouble] at hread
  rw [houter] at htraced
  have hfinish : r.pending ≠ .single → r.pending ≠ .escape → r.behindBackquote = [] →
      p.finish = [] := by
    intro hsingle hescape hbehind
    rw [h.eq_mode hbehind, Reader.mode_eq hsingle hescape, hdouble]
    rfl
  rw [Reader.waiting]
  rw [Reader.behindBackquote] at hfinish
  cases hpending : r.pending with
  | nothing =>
    rw [hpending] at hread hfinish
    cases hread
    refine ⟨?_, hfinish (by simp) (by simp) rfl⟩
    rw [List.append_nil]
    exact htraced.2
  | dollar =>
    rw [hpending] at hread hfinish
    cases hread
    exact ⟨htraced.2.add (shows_char_false '$'), hfinish (by simp) (by simp) rfl⟩
  | name t =>
    rw [hpending] at hread hfinish
    cases hread
    refine ⟨htraced.2.add (shows_expansion rfl fun _ => steady_of_parts ?_),
      hfinish (by simp) (by simp) rfl⟩
    simp [Shell.Mark.isPart]
  | comment => exact absurd hpending h.comment
  | escape | single | backquote =>
    rw [hpending] at hread
    cases hread

/-- The scan of a line has what a shell reads, and behind it nothing but a comment. -/
theorem exists_shown_of_marks? {line : Text} {ms : List Mark}
    (hread : (Reader.start.run line).marks? = some ms) (hfeed : '\n' ∉ line)
    (hflat : Reader.start.isFlat .start line = true) :
    ∃ ps after, Shell.scan .none line = ps ++ after ∧ Shown ms ps ∧
      ((Reader.start.run line).pending ≠ .comment → after = []) := by
  have hfollows := follows_start.run hfeed hflat
  rw [List.nil_append] at hfollows
  obtain ⟨houter, hdouble⟩ := outer_of_marks? hread
  rw [Shell.scan_eq]
  cases hfollows with
  | masked hmasked _ =>
    rw [Reader.isMasked, houter] at hmasked
    cases hmasked
  | agrees hagrees =>
    obtain ⟨hshown, hfinish⟩ := hagrees.shown_marks? hread
    rw [hfinish]
    exact ⟨_, [], rfl, hshown, fun _ => rfl⟩
  | comment _ hpending hemits htraced =>
    rw [hemits, List.append_assoc]
    refine ⟨_, _, rfl, ?_, fun h => absurd hpending h⟩
    rw [Reader.marks?, houter, hdouble, hpending] at hread
    cases hread
    rw [houter] at htraced
    exact htraced.2

end BuildScript.Posix
