import BuildScript.Proofs.Posix.Quoting

/-!
# Reading on

What a shell has read before a place does not matter for what it reads from there on, if a word may begin
at that place: the marks that are there already stay in front of those that come (`Reader.run_shift`). So a
line that is read on its own is read in the same way behind other lines and inside parentheses
(`Reader.shift_parenthesis`).
-/

namespace BuildScript.Posix

/-- Places with marks in front of those of the outermost one. -/
def shiftLevels (ns : List Mark) : List Level → List Level
  | [] => []
  | [l] => [{ l with marks := ns ++ l.marks }]
  | l :: o :: outer => l :: shiftLevels ns (o :: outer)

namespace Reader

/-- A reader with marks in front of those of the outermost place. -/
def shift (ns : List Mark) (r : Reader) : Reader :=
  match r.outer with
  | [] => { r with marks := ns ++ r.marks }
  | o :: outer => { r with outer := shiftLevels ns (o :: outer) }

variable {ns : List Mark} (r : Reader)

theorem start_addAll (ms : List Mark) : start.addAll ms = start.shift ms := by
  simp [addAll, shift, start]

@[simp] theorem shift_closer : (r.shift ns).closer = r.closer := by
  unfold shift
  split <;> rfl

@[simp] theorem shift_double : (r.shift ns).double = r.double := by
  unfold shift
  split <;> rfl

@[simp] theorem shift_pending : (r.shift ns).pending = r.pending := by
  unfold shift
  split <;> rfl

@[simp] theorem shift_quoted : (r.shift ns).quoted = r.quoted := by
  simp [Level.quoted]

@[simp] theorem shift_add (m : Mark) : (r.shift ns).add m = (r.add m).shift ns := by
  obtain ⟨l, pending, outer⟩ := r
  cases outer with
  | nil => simp [shift, add]
  | cons o outer => rfl

@[simp] theorem shift_await (p : Pending) : (r.shift ns).await p = (r.await p).shift ns := by
  obtain ⟨l, pending, outer⟩ := r
  cases outer <;> rfl

@[simp] theorem shift_settle : (r.shift ns).settle = r.settle.shift ns := r.shift_await .nothing

@[simp] theorem shift_enter (closer : Closer) : (r.shift ns).enter closer = (r.enter closer).shift ns := by
  obtain ⟨l, pending, outer⟩ := r
  cases outer <;> rfl

/-- The end of a place; what is in it counts only if there is one around it. -/
@[simp] theorem shift_leave (f : List Mark → Mark) :
    (r.shift ns).leave (f (r.shift ns).marks) = (r.leave (f r.marks)).shift ns := by
  obtain ⟨l, pending, outer⟩ := r
  cases outer with
  | nil => rfl
  | cons o outer =>
    cases outer with
    | nil => simp [shift, shiftLevels, leave]
    | cons o' outer => rfl

theorem shift_withCloser (closer : Closer) :
    { r.shift ns with closer := closer } = shift ns { r with closer := closer } := by
  obtain ⟨l, pending, outer⟩ := r
  cases outer <;> rfl

theorem shift_withDouble (double : Bool) :
    { r.shift ns with double := double } = shift ns { r with double := double } := by
  obtain ⟨l, pending, outer⟩ := r
  cases outer <;> rfl

theorem atWordStart_shift (hns : (start.addAll ns).atWordStart = true) :
    (r.shift ns).atWordStart = r.atWordStart := by
  obtain ⟨l, pending, outer⟩ := r
  cases outer with
  | cons o outer => rfl
  | nil =>
    have hmarks : (shift ns ⟨l, pending, []⟩).marks = ns ++ l.marks := rfl
    rw [atWordStart, atWordStart, hmarks, List.getLast?_append]
    cases hlast : l.marks.getLast? with
    | some m => rfl
    | none => exact hns

theorem shift_operator (c : Char) : (r.shift ns).operator c = (r.operator c).shift ns := by
  unfold operator
  rw [shift_closer]
  split
  · exact r.shift_leave _
  · rw [shift_add, shift_withCloser]
  · rw [shift_add, shift_withCloser]
  · exact r.shift_add _

variable (hns : (start.addAll ns).atWordStart = true)

include hns

theorem shift_bare (c : Char) : (r.shift ns).bare c = (r.bare c).shift ns := by
  simp only [bare, atWordStart_shift r hns, shift_operator, shift_add, shift_await, apply_ite (shift ns)]

theorem shift_plain (c : Char) : (r.shift ns).plain c = (r.plain c).shift ns := by
  unfold plain
  split
  · exact r.shift_await _
  split
  · rw [shift_double]
    split
    · exact r.shift_withDouble false
    · rw [shift_add, shift_withDouble]
  split
  · exact r.shift_await _
  split
  · exact r.shift_await _
  rw [shift_double]
  split
  · exact r.shift_add _
  rw [shift_closer]
  split
  · split
    · exact r.shift_leave _
    · split
      · rw [shift_add, shift_await]
      · exact r.shift_add _
  · exact r.shift_bare hns c

theorem shift_step (c : Char) : (r.shift ns).step c = (r.step c).shift ns := by
  unfold step
  rw [shift_pending]
  split
  · exact r.shift_plain hns c
  · simp only [escaped, shift_settle, shift_double, shift_quoted, shift_add, apply_ite (shift ns)]
  · simp only [shift_settle, shift_add, apply_ite (shift ns)]
  · simp only [expansion, shift_settle, shift_quoted, shift_enter, shift_await, shift_add,
      shift_plain _ hns, apply_ite (shift ns)]
  · simp only [shift_settle, shift_quoted, shift_await, shift_add, shift_plain _ hns, apply_ite (shift ns)]
  · exact r.shift_await _
  · simp only [shift_settle, shift_quoted, shift_await, shift_add, apply_ite (shift ns)]
  · simp only [shift_settle, shift_plain _ hns, apply_ite (shift ns)]

/-- Marks in front of those of the outermost place stay there. -/
theorem run_shift (t : Text) : (r.shift ns).run t = (r.run t).shift ns := by
  induction t generalizing r with
  | nil => rfl
  | cons c rest ih => rw [run_cons, run_cons, shift_step r hns, ih]

omit hns

/-- A parenthesis that closes, or the end of a line, behind a script which is read to its end. A comment ends
with its line only. -/
theorem step_control {r : Reader} {ms : List Mark} {c : Char} (hc : c = ')' ∨ c = '\n')
    (hread : r.marks? = some ms) (hcloser : r.closer = .script) (hcomment : r.pending = .comment → c = '\n') :
    r.step c = start.addAll (ms ++ [.op c]) := by
  obtain ⟨⟨closer, double, marks⟩, pending, outer⟩ := r
  cases (hcloser : closer = .script)
  rw [marks?] at hread
  split at hread
  case isFalse => cases hread
  case isTrue hclosed =>
    simp only [Bool.and_eq_true, List.isEmpty_iff, Bool.not_eq_true'] at hclosed
    obtain ⟨rfl, rfl⟩ := hclosed
    cases pending with
    | nothing | dollar | name =>
      cases hread
      rcases hc with rfl | rfl <;> rfl
    | comment =>
      cases hread
      rw [hcomment rfl]
      rfl
    | escape | single | backquote => cases hread

/-- A script that is read to its end is read in the same way in parentheses. -/
theorem shift_parenthesis {r : Reader} {ms : List Mark} (hread : r.marks? = some ms) (hcloser : r.closer = .script)
    (hcomment : r.pending ≠ .comment) (hns : (start.addAll ns).atWordStart = true) :
    (r.shift ns).step ')' = start.addAll (ns ++ ms ++ [.op ')']) := by
  have hclose := step_control (.inl rfl) hread hcloser fun h => absurd h hcomment
  rw [shift_step _ hns, hclose, List.append_assoc]
  rfl

end Reader

end BuildScript.Posix
