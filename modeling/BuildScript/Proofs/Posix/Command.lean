import BuildScript.Proofs.Posix.Fields
import BuildScript.Compile.Outcome

/-!
# Statements of simple commands

The lines that do not come from `RUN` are commands with operands, joined by `&&`. A statement is such a
line before it is written: it tells for each operand what it is to be. A shell that reads the text of a
statement finds the commands and operands of the statement and nothing else (`read_text`); in the operands
it finds no more than they were to be (`Operand.IsRead`).
-/

namespace BuildScript

namespace Posix

/-- Whether a text is a word without quotes. -/
def isPlainText (t : Text) : Bool := !t.isEmpty && t.all Shell.isPlain

/-- An operand of a command, or its name. -/
inductive Operand where
  /-- Text that needs no quotes. -/
  | plain (t : Text)
  | word (w : Word)
  /-- A word whose pattern characters are live. -/
  | pattern (w : Word)
  /-- A name and a value, with an equals sign between them. -/
  | binding (name : Text) (value : Word)
  /-- The directory of a path, told by a command that is substituted. -/
  | parent (path : Word)
  deriving Repr

namespace Operand

def text : Operand → Text
  | .plain t => t
  | .word w => w.toShell
  | .pattern w => w.toShellGlob
  | .binding name value => name ++ '=' :: value.toShell
  | .parent path => "\"$(dirname -- ".toList ++ path.toShell ++ ")\"".toList

@[simp] theorem text_plain (t : Text) : (plain t).text = t := rfl

@[simp] theorem text_word (w : Word) : (word w).text = w.toShell := rfl

@[simp] theorem text_pattern (w : Word) : (pattern w).text = w.toShellGlob := rfl

/-- Whether an operand refers to variables by names that are ones, and is plain where it is to be. -/
def IsNamed : Operand → Prop
  | .plain t => isPlainText t = true
  | .binding name value => isName name = true ∧ value.named = true
  | .word w | .pattern w | .parent w => w.named = true

/-- Whether a shell that reads `ms` reads the operand: a word without a meaning of its own, but for
references, for the characters of a pattern, and for the command that tells a parent. -/
def IsRead : Operand → List Mark → Prop
  | .plain t, ms => ms = t.map (.char false)
  | .word w, ms => Reads noChar w ms
  | .pattern w, ms => Reads Shell.isGlob w ms
  | .binding name value, ms =>
    ∃ ns, ms = (name ++ ['=']).map (.char false) ++ ns ∧ Reads noChar value ns
  | .parent path, ms => ∃ body ns, ms = [.quotes, .command true body] ∧
    tokens body = ["dirname".toList.map (.char false), "--".toList.map (.char false), ns].map .word ∧
    Reads noChar path ns

end Operand

/-- A command: its name and its operands. -/
abbrev Command := List Operand

namespace Command

def text (c : Command) : Text := Text.join [' '] (c.map Operand.text)

/-- Whether a command has a name and all its operands are named. -/
def IsNamed (c : Command) : Prop := c ≠ [] ∧ ∀ o ∈ c, o.IsNamed

/-- Whether tokens are the words of a command. -/
def IsRead (c : Command) (ts : List Token) : Prop :=
  List.Forall₂ (fun (o : Operand) t => ∃ ms, t = .word ms ∧ o.IsRead ms) c ts

end Command

/-- Commands that each run if those before them succeeded. -/
abbrev Statement := List Command

namespace Statement

def text (s : Statement) : Text := chain (s.map Command.text)

/-- Whether a statement has commands and all of them are named. -/
def IsNamed (s : Statement) : Prop := s ≠ [] ∧ ∀ c ∈ s, c.IsNamed

/-- Whether tokens are the commands of a statement with the operator between neighbours. -/
inductive IsRead : Statement → List Token → Prop
  | last {c : Command} {ts : List Token} (hc : c.IsRead ts) : IsRead [c] ts
  | and {c : Command} {s : Statement} {ts us : List Token} (hc : c.IsRead ts) (hs : IsRead s us) :
    IsRead (c :: s) (ts ++ .op "&&".toList :: us)

end Statement

/-! ## Commands in a row -/

theorem tokens_spaced_blank {mss : List (List Mark)} (h : ∀ ms ∈ mss, IsWord ms) (hne : mss ≠ [])
    (rest : List Mark) : tokens (spaced mss ++ .blank :: rest) = mss.map .word ++ tokens rest := by
  refine spaced_induction (P := fun mss ms => mss ≠ [] →
    tokens (ms ++ .blank :: rest) = mss.map .word ++ tokens rest) ?_ ?_ ?_ h hne
  · exact fun hnil => absurd rfl hnil
  · intro ms hms _
    exact tokens_blank hms rest
  · intro ms others hms hothers ih _
    rw [List.append_assoc, List.cons_append, tokens_blank hms, ih hothers]
    rfl

theorem tokens_and (rest : List Mark) :
    tokens (.op '&' :: .op '&' :: .blank :: rest) = .op "&&".toList :: tokens rest := by
  have hpair : isPair '&' '&' = true := by decide
  simp [tokens, collect, hpair]

namespace Reader

theorem IsBare.step_and {r : Reader} (h : r.IsBare) : r.step '&' = r.add (.op '&') := by
  have hoperator : r.bare '&' = r.operator '&' := rfl
  rw [h.step_eq_bare rfl, hoperator]
  unfold operator
  split <;> first | rfl | contradiction

/-- The marks of the operator between two commands. -/
def between : List Mark := [.blank, .op '&', .op '&', .blank]

theorem IsBare.run_and {r : Reader} (h : r.IsBare) : r.run " && ".toList = r.addAll between := by
  show (((r.step ' ').step '&').step '&').step ' ' = _
  rw [h.step_space, (h.add _).step_and, ((h.add _).add _).step_and,
    (((h.add _).add _).add _).step_space]
  simp [add_eq_addAll, addAll_addAll, between]

/-- A command that is substituted between double quotes is one mark, which holds those of the command. -/
theorem run_substitution {r : Reader} (h : r.IsBare) {P : List Mark → Prop} {t : Text}
    (ht : ∀ q : Reader, q.IsBare → ∃ ms, q.run t = q.addAll ms ∧ P ms) :
    ∃ body, r.run ("\"$(".toList ++ t ++ ")\"".toList) = r.addAll [.quotes, .command true body] ∧
      P body := by
  obtain ⟨⟨closer, double, marks⟩, pending, outer⟩ := r
  obtain ⟨rfl, rfl, hcloser⟩ := h
  let inner : Reader :=
    { closer := .command true 0, double := false, marks := [], pending := .nothing
      outer := ⟨closer, true, marks ++ [.quotes]⟩ :: outer }
  have hopen : run ⟨⟨closer, false, marks⟩, .nothing, outer⟩ "\"$(".toList = inner := by
    rfl
  have hinner : inner.IsBare := ⟨rfl, rfl, fun _ hbrace => by cases hbrace⟩
  obtain ⟨body, hbody, hP⟩ := ht inner hinner
  have hclose : (inner.addAll body).run ")\"".toList =
      ⟨⟨closer, false, marks ++ [.quotes] ++ [.command true body]⟩, .nothing, outer⟩ := rfl
  refine ⟨body, ?_, hP⟩
  rw [run_append, run_append, hopen, hbody, hclose]
  simp [addAll]

end Reader

/-! ## A statement is read as it was meant -/

theorem isPlainText_iff {t : Text} :
    isPlainText t = true ↔ t ≠ [] ∧ ∀ c ∈ t, Shell.isPlain c = true := by
  simp [isPlainText]

theorem isWord_of_plain {t : Text} (hne : t ≠ []) : IsWord (t.map (.char false)) := by
  refine ⟨by simpa using hne, ?_⟩
  intro m hm
  obtain ⟨c, -, rfl⟩ := List.mem_map.1 hm
  rfl

theorem isPlain_of_mem_name {name : Text} (h : isName name = true) {c : Char} (hc : c ∈ name) :
    Shell.isPlain c = true := by
  have hchar := isNameChar_of_mem_isName h hc
  simp only [isNameChar, Bool.or_eq_true, beq_iff_eq] at hchar
  rcases hchar with halnum | rfl
  · simp [Shell.isPlain, halnum]
  · decide

theorem isPlain_assign {name : Text} (h : isName name = true) :
    ∀ c ∈ name ++ ['='], Shell.isPlain c = true := by
  intro c hc
  rcases List.mem_append.1 hc with hc | hc
  · exact isPlain_of_mem_name h hc
  · rw [List.mem_singleton.1 hc]
    decide

namespace Operand

theorem run_plain {t : Text} (h : (plain t).IsNamed) {r : Reader} (hr : r.IsBare) :
    ∃ ms, r.run (plain t).text = r.addAll ms ∧ IsWord ms ∧ (plain t).IsRead ms := by
  obtain ⟨hne, hplain⟩ := isPlainText_iff.1 h
  exact ⟨t.map (.char false), hr.run_plain hplain, isWord_of_plain hne, rfl⟩

theorem run_word {w : Word} (h : w.named = true) {r : Reader} (hr : r.IsBare) :
    ∃ ms, r.run (word w).text = r.addAll ms ∧ IsWord ms ∧ (word w).IsRead ms := by
  obtain ⟨ms, hms, hsolid, hreads⟩ := Reader.run_toShell noChar hr h
  exact ⟨ms, hms, isWord_of_inert hreads.inert hsolid, hreads⟩

theorem run_binding {name : Text} {value : Word} (h : (binding name value).IsNamed) {r : Reader}
    (hr : r.IsBare) :
    ∃ ms, r.run (binding name value).text = r.addAll ms ∧ IsWord ms ∧
      (binding name value).IsRead ms := by
  obtain ⟨hname, hvalue⟩ := h
  have hplain := isPlain_assign hname
  have htext : text (binding name value) = (name ++ ['=']) ++ value.toShell := by
    rw [List.append_assoc]
    rfl
  have hrun := hr.run_plain hplain
  have hreads : Reads noChar _ _ := Reads.ofPlain hplain
  obtain ⟨ns, hns, hsolid, hreads'⟩ := Reader.run_toShell noChar (hr.addAll _) hvalue
  refine ⟨_, ?_, isWord_of_inert (hreads.append hreads').inert ?_, ns, rfl, hreads'⟩
  · rw [htext, Reader.run_append, hrun, hns, Reader.addAll_addAll]
  · rw [List.any_append, hsolid, Bool.or_true]

theorem run_parent {path : Word} (h : path.named = true) {r : Reader} (hr : r.IsBare) :
    ∃ ms, r.run (parent path).text = r.addAll ms ∧ IsWord ms ∧ (parent path).IsRead ms := by
  have htext : text (parent path) = "\"$(".toList ++
      Text.join [' '] ([plain "dirname".toList, plain "--".toList, word path].map text) ++
        ")\"".toList := rfl
  have hdirname : isPlainText "dirname".toList = true := rfl
  have hend : isPlainText "--".toList = true := rfl
  have hinner : ∀ o ∈ [plain "dirname".toList, plain "--".toList, word path],
      ∀ q : Reader, q.IsBare → ∃ ms, q.run o.text = q.addAll ms ∧ IsWord ms ∧ o.IsRead ms := by
    intro o ho q hq
    simp only [List.mem_cons, List.not_mem_nil, or_false] at ho
    rcases ho with rfl | rfl | rfl
    · exact run_plain hdirname hq
    · exact run_plain hend hq
    · exact run_word h hq
  obtain ⟨body, hrun, mss, hbody, hall⟩ := Reader.run_substitution hr
    (P := fun body => ∃ mss, body = spaced mss ∧ List.Forall₂ _ _ mss) fun q hq => by
      obtain ⟨mss, hmss, hall⟩ := Reader.run_join hinner hq
      exact ⟨spaced mss, hmss, mss, rfl, hall⟩
  have htokens := tokens_spaced (forall_mem_of_forall₂ hall fun _ _ hw => hw.1)
  rw [← hbody] at htokens
  obtain _ | ⟨⟨-, rfl⟩, _ | ⟨⟨-, rfl⟩, _ | ⟨⟨-, hpath⟩, _ | _⟩⟩⟩ := hall
  have hword : IsWord [.quotes, .command true body] := ⟨by simp, by simp [Mark.isPart]⟩
  exact ⟨_, hrun, hword, body, _, rfl, htokens, hpath⟩

theorem run_text {o : Operand} (h : o.IsNamed) {r : Reader} (hr : r.IsBare) :
    ∃ ms, r.run o.text = r.addAll ms ∧ IsWord ms ∧ o.IsRead ms := by
  cases o with
  | plain t => exact run_plain h hr
  | word w => exact run_word h hr
  | pattern w =>
    obtain ⟨ms, hms, hsolid, hreads⟩ := Reader.run_toShellGlob hr h
    exact ⟨ms, hms, isWord_of_inert hreads.inert hsolid, hreads⟩
  | binding name value => exact run_binding h hr
  | parent path => exact run_parent h hr

end Operand

theorem Command.isRead_map_word {c : Command} {mss : List (List Mark)}
    (h : List.Forall₂ (fun (o : Operand) ms => IsWord ms ∧ o.IsRead ms) c mss) :
    c.IsRead (mss.map .word) := by
  rw [IsRead, List.forall₂_map_right_iff]
  exact h.imp fun o ms hread => ⟨ms, rfl, hread.2⟩

theorem Command.run_text {c : Command} (h : c.IsNamed) {r : Reader} (hr : r.IsBare) :
    ∃ mss, r.run c.text = r.addAll (spaced mss) ∧ mss ≠ [] ∧ (∀ ms ∈ mss, IsWord ms) ∧
      c.IsRead (mss.map .word) := by
  obtain ⟨hne, hoperands⟩ := h
  have hread : ∀ o ∈ c, ∀ q : Reader, q.IsBare →
      ∃ ms, q.run o.text = q.addAll ms ∧ IsWord ms ∧ o.IsRead ms := fun o ho q hq =>
    Operand.run_text (hoperands o ho) hq
  obtain ⟨mss, hmss, hall⟩ := Reader.run_join hread hr
  refine ⟨mss, hmss, ?_, forall_mem_of_forall₂ hall fun _ _ hw => hw.1, isRead_map_word hall⟩
  rintro rfl
  cases hall
  exact hne rfl

/-- A statement is read as its commands. The induction goes over the commands; each is read by a reader
that stands where the one before it ended. -/
theorem Statement.run_text {s : Statement} (hs : s.IsNamed) {r : Reader} (hr : r.IsBare) :
    ∃ ms, r.run s.text = r.addAll ms ∧ s.IsRead (tokens ms) := by
  induction s generalizing r with
  | nil => exact absurd rfl hs.1
  | cons c rest ih =>
    obtain ⟨hc, hcommands⟩ := List.forall_mem_cons.1 hs.2
    obtain ⟨mss, hmss, hnil, hwords, hread⟩ := Command.run_text hc hr
    cases rest with
    | nil =>
      refine ⟨spaced mss, hmss, .last ?_⟩
      rw [tokens_spaced hwords]
      exact hread
    | cons d rest =>
      have hr' := (hr.addAll (spaced mss)).addAll Reader.between
      obtain ⟨ns, hns, hrest⟩ := ih ⟨by simp, hcommands⟩ hr'
      have htext : text (c :: d :: rest) = c.text ++ " && ".toList ++ text (d :: rest) := rfl
      refine ⟨spaced mss ++ (Reader.between ++ ns), ?_, ?_⟩
      · rw [htext, Reader.run_append, Reader.run_append, hmss, (hr.addAll _).run_and, hns,
          Reader.addAll_addAll, Reader.addAll_addAll]
      · have htokens : tokens (spaced mss ++ (Reader.between ++ ns)) =
            mss.map .word ++ .op "&&".toList :: tokens ns := by
          rw [← tokens_and]
          exact tokens_spaced_blank hwords hnil _
        rw [htokens]
        exact .and hread hrest

/-- A shell that reads the text of a statement finds its commands and operands and nothing else. -/
theorem Statement.read_text {s : Statement} (hs : s.IsNamed) :
    ∃ ts, read s.text = some ts ∧ s.IsRead ts := by
  obtain ⟨ms, hms, hread⟩ := run_text hs Reader.isBare_start
  exact ⟨tokens ms, read_of_run hms, hread⟩

end Posix

end BuildScript
