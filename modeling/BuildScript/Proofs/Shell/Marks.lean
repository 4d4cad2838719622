import Mathlib.Data.List.Forall2
import BuildScript.Proofs.Posix.ShellState
import BuildScript.Proofs.Shell.Scan

/-!
# Marks of a scan and marks of a shell

The scan of a command line tells words and operators apart by quotes alone: it knows no expansions and no
comments. While a shell is outside all expansions, the scan has the same marks (`Shows`). What an expansion
comes to in the scan matters only up to its first operator or blank (`steady`), and of one that is still
open as much is known as its end needs (`Traced`).
-/

namespace BuildScript.Posix

open Shell (Mode)

/-! ## Marks of the scan -/

/-- Whether marks of the scan have no blank before their first operator. -/
def steady : List Shell.Mark → Bool
  | [] => true
  | .part _ :: rest => steady rest
  | .blank :: _ => false
  | .op :: _ => true

theorem steady_append {ps qs : List Shell.Mark} (hps : steady ps = true) (hqs : steady qs = true) :
    steady (ps ++ qs) = true := by
  induction ps with
  | nil => exact hqs
  | cons p ps ih =>
    cases p with
    | part t => exact ih hps
    | blank => cases hps
    | op => rfl

theorem steady_of_parts {ps : List Shell.Mark} (h : ∀ p ∈ ps, p.isPart = true) : steady ps = true := by
  induction ps with
  | nil => rfl
  | cons p ps ih =>
    have hp := h p List.mem_cons_self
    cases p with
    | part t => exact ih fun q hq => h q (List.mem_cons_of_mem _ hq)
    | blank => cases hp
    | op => cases hp

theorem steady_ofBare {c : Char} (h : isBlank c = false) : steady [.ofBare c] = true := by
  unfold Shell.Mark.ofBare
  split
  · rfl
  · rw [h]
    rfl

theorem steady_emit {p : Mode} {c : Char} (h : isBlank c = false) : steady (p.emit c) = true := by
  unfold Mode.emit
  split
  · rfl
  · split
    · rfl
    split
    · rfl
    · exact steady_ofBare h
  · split <;> rfl
  · split
    · rfl
    split <;> rfl

/-- Without blanks a text is scanned to steady marks. -/
theorem steady_emits {p : Mode} {t : Text} (h : t.any isBlank = false) : steady (p.emits t) = true := by
  induction t generalizing p with
  | nil => rfl
  | cons c rest ih =>
    rw [List.any_cons, Bool.or_eq_false_iff] at h
    exact steady_append (steady_emit h.1) (ih h.2)

/-- Quotes that close contribute nothing but that there is a word. -/
def closings (n : Nat) : List Shell.Mark := List.replicate n (.part [])

theorem isPart_closings {n : Nat} : ∀ p ∈ closings n, p.isPart = true := by
  intro p hp
  rw [List.eq_of_mem_replicate hp]
  rfl

/-- What the scan has for a mark of the shell. A backslash between double quotes that stays may be missing;
the quotes that close are counted with the mark before them. -/
def Shows : Mark → List Shell.Mark → Prop
  | .char false c, ps => ∃ n, ps = .ofBare c :: closings n
  | .char true c, ps => ∃ n, ps = .part [c] :: closings n ∨ c = '\\' ∧ ps = closings n
  | .quotes, ps => ∃ n, ps = .part [] :: closings n
  | .blank, ps => ps = [.blank]
  | .op c, ps => isOperator c = true ∧ ps = [.ofBare c]
  | m, ps => m.splits = false → steady ps = true

/-- Whether a mark is an expansion. -/
def Mark.isExpansion : Mark → Bool
  | .param _ _ _ _ | .command _ _ | .backquoted _ _ => true
  | _ => false

theorem isPart_of_isExpansion {m : Mark} (hm : m.isExpansion = true) : m.isPart = true := by
  cases m <;> first | rfl | cases hm

theorem shows_expansion {m : Mark} (hm : m.isExpansion = true) {ps : List Shell.Mark}
    (h : m.splits = false → steady ps = true) : Shows m ps := by
  cases m with
  | param | command | backquoted => exact h
  | _ => cases hm

theorem shows_char_false (c : Char) : Shows (.char false c) [.ofBare c] := ⟨0, rfl⟩

theorem shows_char_true (c : Char) : Shows (.char true c) [.part [c]] := ⟨0, .inl rfl⟩

theorem shows_kept : Shows (.char true '\\') [] := ⟨0, .inr ⟨rfl, rfl⟩⟩

theorem shows_quotes : Shows .quotes [.part []] := ⟨0, rfl⟩

theorem closings_succ (n : Nat) : closings n ++ [.part []] = closings (n + 1) := by
  rw [closings, ← List.replicate_succ']
  rfl

theorem Shows.close {m : Mark} (hm : m.isPart = true) {ps : List Shell.Mark} (h : Shows m ps) :
    Shows m (ps ++ [.part []]) := by
  have hsteady : (m.splits = false → steady ps = true) →
      m.splits = false → steady (ps ++ [.part []]) = true :=
    fun hps hsplits => steady_append (hps hsplits) rfl
  match m, h with
  | .char false c, ⟨n, h⟩ => exact ⟨n + 1, by rw [h, List.cons_append, closings_succ]⟩
  | .char true c, ⟨n, .inl h⟩ => exact ⟨n + 1, .inl (by rw [h, List.cons_append, closings_succ])⟩
  | .char true c, ⟨n, .inr ⟨hc, h⟩⟩ => exact ⟨n + 1, .inr ⟨hc, by rw [h, closings_succ]⟩⟩
  | .quotes, ⟨n, h⟩ => exact ⟨n + 1, by rw [h, List.cons_append, closings_succ]⟩
  | .blank, _ => cases hm
  | .op _, _ => cases hm
  | .param _ _ _ _, h => exact hsteady h
  | .command _ _, h => exact hsteady h
  | .backquoted _ _, h => exact hsteady h

/-- What is not cut at a blank is steady. -/
theorem Shows.steady {m : Mark} (hm : m.isPart = true) (hsplits : m.splits = false)
    {ps : List Shell.Mark} (h : Shows m ps) : Posix.steady ps = true := by
  have hclosings : ∀ n, Posix.steady (closings n) = true := fun n => steady_of_parts isPart_closings
  match m, h with
  | .char false c, ⟨n, h⟩ =>
    rw [h, ← List.singleton_append]
    exact steady_append (steady_ofBare hsplits) (hclosings n)
  | .char true c, ⟨n, .inl h⟩ =>
    rw [h]
    exact hclosings n
  | .char true c, ⟨n, .inr ⟨_, h⟩⟩ =>
    rw [h]
    exact hclosings n
  | .quotes, ⟨n, h⟩ =>
    rw [h]
    exact hclosings n
  | .blank, _ => cases hm
  | .op _, _ => cases hm
  | .param _ _ _ _, h => exact h hsplits
  | .command _ _, h => exact h hsplits
  | .backquoted _ _, h => exact h hsplits

/-- What the scan has for marks of the shell. -/
def Shown (ms : List Mark) (ps : List Shell.Mark) : Prop :=
  ∃ pss, List.Forall₂ Shows ms pss ∧ pss.flatten = ps

namespace Shown

variable {ms ns : List Mark} {ps qs : List Shell.Mark} {m : Mark}

theorem nil : Shown [] [] := ⟨[], .nil, rfl⟩

theorem cons (hm : Shows m ps) (h : Shown ms qs) : Shown (m :: ms) (ps ++ qs) := by
  obtain ⟨qss, hall, rfl⟩ := h
  exact ⟨ps :: qss, .cons hm hall, rfl⟩

theorem exists_of_cons (h : Shown (m :: ms) ps) :
    ∃ qs rs, ps = qs ++ rs ∧ Shows m qs ∧ Shown ms rs := by
  obtain ⟨pss, hall, rfl⟩ := h
  cases hall with
  | cons hm hms => exact ⟨_, _, rfl, hm, _, hms, rfl⟩

theorem append (h : Shown ms ps) (h' : Shown ns qs) : Shown (ms ++ ns) (ps ++ qs) := by
  obtain ⟨pss, hall, rfl⟩ := h
  obtain ⟨qss, hall', rfl⟩ := h'
  exact ⟨pss ++ qss, List.rel_append hall hall', List.flatten_append⟩

theorem add (h : Shown ms ps) (hm : Shows m qs) : Shown (ms ++ [m]) (ps ++ qs) := by
  have hone : Shown [m] (qs ++ []) := .cons hm .nil
  rw [List.append_nil] at hone
  exact h.append hone

/-- Marks that are cut in two are shown in two stretches. -/
theorem exists_of_append (h : Shown (ms ++ ns) ps) :
    ∃ qs rs, ps = qs ++ rs ∧ Shown ms qs ∧ Shown ns rs := by
  induction ms generalizing ps with
  | nil => exact ⟨[], ps, rfl, .nil, h⟩
  | cons m ms ih =>
    obtain ⟨first, others, rfl, hm, hms⟩ := exists_of_cons h
    obtain ⟨qs, rs, rfl, hqs, hrs⟩ := ih hms
    exact ⟨first ++ qs, rs, (List.append_assoc _ _ _).symm, .cons hm hqs, hrs⟩

theorem close (h : Shown (ms ++ [m]) ps) (hm : m.isPart = true) :
    Shown (ms ++ [m]) (ps ++ [.part []]) := by
  obtain ⟨qs, rs, rfl, hms, hlast⟩ := exists_of_append h
  obtain ⟨last, nothing, rfl, hshows, ⟨_, hall, rfl⟩⟩ := exists_of_cons hlast
  cases hall
  rw [List.flatten_nil, List.append_nil, List.append_assoc]
  exact hms.add (hshows.close hm)

theorem steady (h : Shown ms ps) (hparts : ∀ m ∈ ms, m.isPart = true) (hsplits : splits ms = false) :
    Posix.steady ps = true := by
  induction ms generalizing ps with
  | nil =>
    obtain ⟨_, hall, rfl⟩ := h
    cases hall
    rfl
  | cons m ms ih =>
    obtain ⟨qs, rs, rfl, hm, hms⟩ := exists_of_cons h
    rw [splits, Bool.or_eq_false_iff] at hsplits
    exact steady_append (hm.steady (hparts m List.mem_cons_self) hsplits.1)
      (ih hms (fun k hk => hparts k (List.mem_cons_of_mem _ hk)) hsplits.2)

end Shown

/-! ## Open places -/

/-- Whether one of some open places has an open double quote. -/
def anyDouble (levels : List Level) : Bool := levels.any (·.double)

/-- What the scan has for an expansion that is still open: parts of a word if it is quoted, and else its
first characters and, in braces, what stands behind them. -/
def Inside (masked : Bool) (l : Level) (ps : List Shell.Mark) : Prop :=
  if masked then ∀ p ∈ ps, p.isPart = true
  else
    match l.closer with
    | .brace false => ∃ inner, ps = .part ['$'] :: .part ['\x7b'] :: inner ∧ Shown l.marks inner ∧
      ∀ m ∈ l.marks, m.isPart = true
    | .command _ _ => ∃ inner, ps = .part ['$'] :: .op :: inner
    | _ => False

/-- What the scan has for the innermost place that is open and those around it. -/
def Traced (l : Level) : List Level → List Shell.Mark → Prop
  | [], ps => l.closer = .script ∧ Shown l.marks ps
  | o :: outer, ps => ∃ before inner, ps = before ++ inner ∧ Traced o outer before ∧
    Inside (anyDouble (o :: outer)) l inner

/-- Whether two places are ended in the same way, but for parentheses that are open in them. -/
def Closer.SameKind : Closer → Closer → Prop
  | .command _ _, .command _ _ => True
  | a, b => a = b

theorem Closer.SameKind.refl (a : Closer) : a.SameKind a := by
  cases a <;> trivial

theorem Closer.SameKind.eq_or {a b : Closer} (h : a.SameKind b) :
    a = b ∨ (∃ q n, a = .command q n) ∧ ∃ q n, b = .command q n := by
  cases a with
  | command q n =>
    cases b with
    | command q' n' => exact .inr ⟨⟨q, n, rfl⟩, q', n', rfl⟩
    | script | brace => exact .inl h
  | script | brace => exact .inl h

namespace Traced

variable {l l' o : Level} {outer : List Level} {ps qs : List Shell.Mark} {m : Mark}

/-- In an expansion that is quoted only the places around it count. -/
theorem extend (hmasked : anyDouble outer = true) (h : Traced l outer ps)
    (hqs : ∀ q ∈ qs, q.isPart = true) (l' : Level) : Traced l' outer (ps ++ qs) := by
  cases outer with
  | nil => cases hmasked
  | cons o outer =>
    obtain ⟨before, inner, rfl, htraced, hinside⟩ := h
    rw [hmasked] at hinside
    refine ⟨before, inner ++ qs, List.append_assoc _ _ _, htraced, ?_⟩
    rw [hmasked]
    intro p hp
    rcases List.mem_append.1 hp with hp | hp
    · exact hinside p hp
    · exact hqs p hp

/-- What is read goes on in the innermost place. -/
theorem grow (hbare : anyDouble outer = false) (h : Traced l outer ps)
    (hcloser : l'.closer.SameKind l.closer)
    (hall : ∀ q, l.closer = .brace q → (∀ m ∈ l.marks, m.isPart = true) →
      ∀ m ∈ l'.marks, m.isPart = true)
    (hshown : ∀ inner, Shown l.marks inner → Shown l'.marks (inner ++ qs)) :
    Traced l' outer (ps ++ qs) := by
  cases outer with
  | nil =>
    refine ⟨?_, hshown ps h.2⟩
    rcases hcloser.eq_or with heq | ⟨-, q, n, heq⟩
    · rw [heq, h.1]
    · rw [h.1] at heq
      cases heq
  | cons o outer =>
    obtain ⟨before, inner, rfl, htraced, hinside⟩ := h
    refine ⟨before, inner ++ qs, List.append_assoc _ _ _, htraced, ?_⟩
    rw [hbare, Inside, if_neg Bool.false_ne_true] at hinside ⊢
    rcases hcloser.eq_or with heq | ⟨⟨q, n, heq'⟩, q', n', heq⟩
    · rw [heq]
      cases hkind : l.closer with
      | script => simp only [hkind] at hinside
      | command q depth =>
        simp only [hkind] at hinside
        obtain ⟨rest, rfl⟩ := hinside
        exact ⟨rest ++ qs, rfl⟩
      | brace q =>
        cases q with
        | true => simp only [hkind] at hinside
        | false =>
          simp only [hkind] at hinside
          obtain ⟨rest, rfl, hrest, hmarks⟩ := hinside
          exact ⟨rest ++ qs, rfl, hshown rest hrest, hall false hkind hmarks⟩
    · rw [heq] at hinside
      rw [heq']
      obtain ⟨rest, rfl⟩ := hinside
      exact ⟨rest ++ qs, rfl⟩

/-- One more mark of the innermost place. -/
theorem add (hbare : anyDouble outer = false) (h : Traced l outer ps) (hmarks : l'.marks = l.marks ++ [m])
    (hcloser : l'.closer.SameKind l.closer) (hpart : ∀ q, l.closer = .brace q → m.isPart = true)
    (hm : Shows m qs) : Traced l' outer (ps ++ qs) := by
  refine h.grow hbare hcloser ?_ ?_
  · intro q hq hall
    rw [hmarks]
    exact List.forall_mem_append.2 ⟨hall, List.forall_mem_singleton.2 (hpart q hq)⟩
  · intro inner hinner
    rw [hmarks]
    exact hinner.add hm

/-- A quote that closes behind a mark of the innermost place. -/
theorem close (hbare : anyDouble outer = false) (h : Traced l outer ps) (hmarks : l'.marks = l.marks)
    (hcloser : l'.closer = l.closer) {front : List Mark} (hlast : l.marks = front ++ [m])
    (hm : m.isPart = true) : Traced l' outer (ps ++ [.part []]) := by
  refine h.grow hbare (hcloser ▸ .refl _) (fun _ _ hall => hmarks ▸ hall) ?_
  intro inner hinner
  rw [hmarks, hlast]
  rw [hlast] at hinner
  exact hinner.close hm

/-- An expansion begins: in braces, or as a command in parentheses. -/
theorem enter (h : Traced l outer ps) {closer : Closer}
    (hinside : Inside (anyDouble (l :: outer)) ⟨closer, false, []⟩ qs) :
    Traced ⟨closer, false, []⟩ (l :: outer) (ps ++ qs) :=
  ⟨ps, qs, rfl, h, hinside⟩

/-- An expansion that ends, of which only steady marks are left. -/
theorem add_expansion (hbare : anyDouble outer = false) (h : Traced l outer ps)
    (hm : m.isExpansion = true) (hsteady : m.splits = false → steady qs = true) :
    Traced { l with marks := l.marks ++ [m] } outer (ps ++ qs) :=
  h.add hbare rfl (.refl _) (fun _ _ => isPart_of_isExpansion hm) (shows_expansion hm hsteady)

/-- An expansion ends that is quoted. -/
theorem leave_quoted (hquoted : anyDouble (o :: outer) = true) (h : Traced l (o :: outer) ps)
    (hm : m.isExpansion = true) (hqs : ∀ q ∈ qs, q.isPart = true) :
    Traced { o with marks := o.marks ++ [m] } outer (ps ++ qs) := by
  obtain ⟨before, inner, rfl, htraced, hinside⟩ := h
  rw [hquoted] at hinside
  have hall : ∀ q ∈ inner ++ qs, q.isPart = true := List.forall_mem_append.2 ⟨hinside, hqs⟩
  rw [List.append_assoc]
  cases houter : anyDouble outer with
  | true => exact htraced.extend houter hall _
  | false => exact htraced.add_expansion houter hm fun _ => steady_of_parts hall

/-- An expansion ends that is not quoted. -/
theorem leave (hbare : anyDouble (o :: outer) = false) (h : Traced l (o :: outer) ps)
    (hm : m.isExpansion = true)
    (hsteady : m.splits = false → ∀ inner, Inside false l inner → steady (inner ++ qs) = true) :
    Traced { o with marks := o.marks ++ [m] } outer (ps ++ qs) := by
  obtain ⟨before, inner, rfl, htraced, hinside⟩ := h
  have houter : anyDouble outer = false := by
    rw [anyDouble, List.any_cons, Bool.or_eq_false_iff] at hbare
    exact hbare.2
  rw [hbare] at hinside
  rw [List.append_assoc]
  exact htraced.add_expansion houter hm fun hsplits => hsteady hsplits inner hinside

end Traced

/-! ## Ends of expansions -/

theorem splits_char_of_mem {chars : Text} (h : chars.all (!isBlank ·) = true) {c : Char}
    (hc : chars.contains c = true) (q : Bool) : (Mark.char q c).splits = false := by
  have hblank := List.all_eq_true.1 h c (List.contains_iff_mem.1 hc)
  cases q with
  | true => rfl
  | false => simpa [Mark.splits] using hblank

theorem splits_of_splitName {marks : List Mark} (h : splits (Mark.splitName false marks).2 = false) :
    splits marks = false := by
  fun_induction Mark.splitName false marks with
  | case1 q c rest hc name after heq ih =>
    rw [heq] at ih
    rw [splits, ih h, hc.1, Mark.splits, isBlank_of_isNameChar hc.2]
    rfl
  | case2 => exact h
  | case3 => exact h

theorem splits_of_splitOperator {marks : List Mark} (h : splits (Mark.splitOperator marks).2 = false) :
    splits marks = false := by
  unfold Mark.splitOperator at h
  split at h
  · next q q' c rest =>
    have hcolon : ∀ q, (Mark.char q ':').splits = false := fun q => by cases q <;> rfl
    split at h
    · next hc =>
      rw [splits, splits, hcolon, splits_char_of_mem (by decide) hc, h]
      rfl
    · rw [splits, hcolon] at h ⊢
      exact h
  · next q c rest _ =>
    split at h
    · next hc =>
      rw [splits, splits_char_of_mem (by decide) hc, h]
      rfl
    · exact h
  · exact h

theorem splits_of_ofBraces {marks : List Mark} (h : (Mark.ofBraces false marks).splits = false) :
    splits marks = false := by
  rw [Mark.ofBraces, Mark.splits] at h
  exact splits_of_splitName (splits_of_splitOperator h)

theorem Traced.leave_brace {l o : Level} {outer : List Level} {ps : List Shell.Mark} {q : Bool}
    (hbare : anyDouble (o :: outer) = false) (h : Traced l (o :: outer) ps) (hcloser : l.closer = .brace q) :
    Traced { o with marks := o.marks ++ [.ofBraces q l.marks] } outer (ps ++ [.part ['\x7d']]) := by
  refine h.leave hbare rfl ?_
  intro hsplits inner hinside
  rw [Inside, if_neg Bool.false_ne_true, hcloser] at hinside
  cases q with
  | true => cases hinside
  | false =>
    obtain ⟨rest, rfl, hshown, hall⟩ := hinside
    exact steady_append (hshown.steady hall (splits_of_ofBraces hsplits)) rfl

theorem Traced.leave_command {l o : Level} {outer : List Level} {ps qs : List Shell.Mark} {q : Bool}
    {depth : Nat} (hbare : anyDouble (o :: outer) = false) (h : Traced l (o :: outer) ps)
    (hcloser : l.closer = .command q depth) :
    Traced { o with marks := o.marks ++ [.command q l.marks] } outer (ps ++ qs) := by
  refine h.leave hbare rfl ?_
  intro _ inner hinside
  rw [Inside, if_neg Bool.false_ne_true, hcloser] at hinside
  obtain ⟨rest, rfl⟩ := hinside
  rfl

/-- Outside quotes a place has no closing brace that is quoted. -/
theorem Traced.closer_ne {l : Level} {outer : List Level} {ps : List Shell.Mark} (h : Traced l outer ps)
    (hbare : anyDouble outer = false) : l.closer ≠ .brace true := by
  intro hcloser
  cases outer with
  | nil =>
    rw [h.1] at hcloser
    cases hcloser
  | cons o outer =>
    obtain ⟨before, inner, -, -, hinside⟩ := h
    rw [hbare, Inside, if_neg Bool.false_ne_true, hcloser] at hinside
    exact hinside

end BuildScript.Posix
