import BuildScript.Proofs.Posix.Command
import BuildScript.Proofs.Posix.Shift

/-!
# Complete lines

At the end of a line a shell goes on reading if the commands are not complete there: a quote, an expansion or a
parenthesis is open, a backslash stands there, or an operator that joins another command. What it reads of a
line that leaves none of these open is the same whatever follows, and the next line is read as if it came
first (`read_append_feed`). A line of commands is complete if it can be read so, its parentheses are in
balance, and it does not end in such an operator (`isComplete`).
-/

namespace BuildScript.Posix

/-! ## Places that are open -/

namespace Reader

/-- What ends the places that are open, the innermost one first. -/
def closers (r : Reader) : List Closer := r.closer :: r.outer.map Level.closer

/-- Whether the outermost place is the script. -/
def Grounded (r : Reader) : Prop := r.closers.getLast? = some .script

variable {r : Reader}

theorem grounded_start : start.Grounded := rfl

theorem Grounded.enter (h : r.Grounded) (closer : Closer) : (r.enter closer).Grounded := by
  rw [Grounded, closers, Reader.enter, List.map_cons, List.getLast?_cons_cons]
  exact h

theorem Grounded.leave (h : r.Grounded) (m : Mark) : (r.leave m).Grounded := by
  unfold Reader.leave
  split
  · exact h
  · next l outer houter =>
    rw [Grounded, closers, houter, List.map_cons, List.getLast?_cons_cons] at h
    exact h

/-- A place that is not the outermost one may be ended by something else. -/
theorem Grounded.withCloser (h : r.Grounded) (hcloser : r.closer ≠ .script) (closer : Closer) :
    Grounded { r with closer := closer } := by
  rw [Grounded, closers] at h ⊢
  cases houter : r.outer with
  | nil =>
    rw [houter] at h
    exact absurd (Option.some.inj h) hcloser
  | cons l outer =>
    rw [houter, List.map_cons, List.getLast?_cons_cons] at h
    exact h

theorem Grounded.operator (h : r.Grounded) (c : Char) : (r.operator c).Grounded := by
  unfold Reader.operator
  split
  · exact h.leave _
  · next hcloser => exact Grounded.withCloser (r := r.add _) h (by simp [Reader.add, hcloser]) _
  · next hcloser => exact Grounded.withCloser (r := r.add _) h (by simp [Reader.add, hcloser]) _
  · exact h

theorem Grounded.bare (h : r.Grounded) (c : Char) : (r.bare c).Grounded := by
  unfold Reader.bare
  split
  · exact h
  split
  · exact h
  split
  · exact h
  split
  · exact h.operator c
  · exact h

theorem Grounded.plain (h : r.Grounded) (c : Char) : (r.plain c).Grounded := by
  unfold Reader.plain
  split
  · exact h
  split
  · split <;> exact h
  split
  · exact h
  split
  · exact h
  split
  · exact h
  split
  · split
    · exact h.leave _
    · split <;> exact h
  · exact h.bare c

theorem Grounded.expansion (h : r.Grounded) (c : Char) : (r.expansion c).Grounded := by
  unfold Reader.expansion
  split
  · exact h.enter _
  split
  · exact h.enter _
  split
  · exact h
  split
  · exact h
  · exact Grounded.plain (r := r.add _) h c

theorem Grounded.step (h : r.Grounded) (c : Char) : (r.step c).Grounded := by
  unfold Reader.step
  split
  · exact h.plain c
  · unfold Reader.escaped
    split
    · exact h
    · split <;> exact h
  · split <;> exact h
  · exact Grounded.expansion (r := r.settle) h c
  · split
    · exact h
    · exact Grounded.plain (r := r.settle.add _) h c
  · exact h
  · split <;> exact h
  · split
    · exact Grounded.plain (r := r.settle) h c
    · exact h

theorem Grounded.run (h : r.Grounded) (t : Text) : (r.run t).Grounded := by
  induction t generalizing r with
  | nil => exact h
  | cons c rest ih => exact ih (h.step c)

/-- What is read to its end has ended in the script itself. -/
theorem Grounded.closer_of_marks? (h : r.Grounded) {ms : List Mark} (hread : r.marks? = some ms) :
    r.closer = .script := by
  have houter : r.outer = [] := by
    rw [marks?] at hread
    split at hread
    · next hclosed => exact List.isEmpty_iff.1 (Bool.and_eq_true_iff.1 hclosed).1
    · cases hread
  rw [Grounded, closers, houter] at h
  exact Option.some.inj h

theorem marks?_shift (ns : List Mark) (r : Reader) : (r.shift ns).marks? = r.marks?.map (ns ++ ·) := by
  obtain ⟨l, pending, outer⟩ := r
  cases outer with
  | nil =>
    unfold marks? shift
    cases l.double <;> cases pending <;> simp
  | cons o outer =>
    cases outer <;> rfl

end Reader

/-! ## Tokens of one line after the other -/

/-- Whether a character is an operator by itself, whatever operator stands next to it. -/
def StandsApart (c : Char) : Prop := ∀ d, isPair c d = false ∧ isPair d c = false

theorem standsApart_open : StandsApart '(' := fun d => by simp [isPair]

theorem standsApart_close : StandsApart ')' := fun d => by simp [isPair]

theorem standsApart_feed : StandsApart '\n' := fun d => by simp [isPair]

theorem collect_blank (ns : List Mark) : collect (.blank :: ns) = (none, tokens ns) := rfl

theorem fst_collect_op (c : Char) (ns : List Mark) : (collect (.op c :: ns)).1 = none := by
  cases ns with
  | nil => rfl
  | cons n ns =>
    cases n with
    | op d =>
      rw [collect]
      split <;> rfl
    | _ => rfl

/-- An operator that is no pair with what stands behind it. -/
theorem collect_op {c : Char} {ns : List Mark} (h : ∀ d rest, ns = .op d :: rest → isPair c d = false) :
    collect (.op c :: ns) = (none, .op [c] :: tokens ns) := by
  cases ns with
  | nil => rfl
  | cons n ns =>
    cases n with
    | op d =>
      rw [collect, h d ns rfl, if_neg Bool.false_ne_true, tokens, fst_collect_op]
      rfl
    | _ => rfl

theorem collect_pair {c d : Char} (h : isPair c d = true) (ns : List Mark) :
    collect (.op c :: .op d :: ns) = (none, .op [c, d] :: tokens ns) := by
  rw [collect, if_pos h]
  rfl

section Cut

variable {c : Char} {ns : List Mark}

theorem tokens_of_collect {rest : List Mark}
    (h : collect (rest ++ .op c :: ns) = ((collect rest).1, (collect rest).2 ++ .op [c] :: tokens ns)) :
    tokens (rest ++ .op c :: ns) = tokens rest ++ .op [c] :: tokens ns := by
  simp only [tokens, h, List.append_assoc]

theorem collect_append_op (hc : StandsApart c) (ms : List Mark) :
    collect (ms ++ .op c :: ns) = ((collect ms).1, (collect ms).2 ++ .op [c] :: tokens ns) := by
  fun_induction collect ms with
  | case1 => exact collect_op fun d _ _ => (hc d).1
  | case2 rest word ts heq ih =>
    rw [List.cons_append, collect_blank, tokens_of_collect ih, tokens, heq]
  | case3 a d rest hpair word ts heq ih =>
    rw [List.cons_append, List.cons_append, collect_pair hpair, tokens_of_collect ih, tokens, heq]
    simp
  | case4 a d rest hpair ih =>
    have hop : collect (.op a :: (.op d :: rest ++ .op c :: ns)) = _ :=
      collect_op fun e others heq => by
        cases heq
        exact Bool.eq_false_iff.2 hpair
    rw [List.cons_append, hop, tokens_of_collect ih, tokens, fst_collect_op]
    rfl
  | case5 a rest hrest word ts heq ih =>
    have hop : collect (.op a :: (rest ++ .op c :: ns)) = _ :=
      collect_op fun e others heq => by
        cases rest with
        | nil =>
          cases heq
          exact (hc a).2
        | cons m rest =>
          cases heq
          exact absurd rfl (hrest e rest)
    rw [List.cons_append, hop, tokens_of_collect ih, tokens, heq]
    simp
  | case6 m rest hblank _ hop word ts heq ih =>
    rw [List.cons_append, collect_part (isPart_of_ne hblank hop), ih, heq]

/-- An operator that stands apart cuts what is read in two. -/
theorem tokens_append_op (hc : StandsApart c) (ms : List Mark) :
    tokens (ms ++ .op c :: ns) = tokens ms ++ .op [c] :: tokens ns :=
  tokens_of_collect (collect_append_op hc ms)

end Cut

theorem read_of_run_shift {t : Text} {r : Reader} {ns ms : List Mark} (hrun : Reader.start.run t = r.shift ns)
    (hms : r.marks? = some ms) : read t = some (tokens (ns ++ ms)) := by
  rw [read, hrun, Reader.marks?_shift, hms]
  rfl

/-- What is read of a line is the same whatever follows, and the next line is read as if it came first. -/
theorem read_append_feed {line : Text} {ts : List Token} (h : read line = some ts) (next : Text) :
    read (line ++ '\n' :: next) = (read next).map (ts ++ .op ['\n'] :: ·) := by
  obtain ⟨ms, hms, rfl⟩ := Option.map_eq_some_iff.1 h
  have hcloser := (Reader.grounded_start.run line).closer_of_marks? hms
  have hstep := Reader.step_control (.inr rfl) hms hcloser fun _ => rfl
  have hstart : (Reader.start.addAll (ms ++ [.op '\n'])).atWordStart = true := by
    rw [Reader.atWordStart]
    simp [Reader.addAll, Reader.start]
  rw [read, Reader.run_append, Reader.run_cons, hstep, Reader.start_addAll, Reader.run_shift _ hstart,
    Reader.marks?_shift, Option.map_map, read, Option.map_map]
  congr 1
  funext ns
  simp only [Function.comp, List.append_assoc, List.singleton_append]
  exact tokens_append_op standsApart_feed ms

/-! ## Complete commands -/

namespace Token

def isWord : Token → Bool
  | .word _ => true
  | .op _ => false

/-- Whether a token is the end of a line. -/
def endsLine : Token → Bool
  | .word _ => false
  | .op t => t == ['\n']

/-- Whether a token joins the command before it to one that has to follow. -/
def joins : Token → Bool
  | .word _ => false
  | .op t => ["&&", "||", "|"].any (·.toList == t)

/-- How many parentheses are open behind a token; none may be closed that is not open. -/
def nest (depth : Nat) : Token → Option Nat
  | .word _ => some depth
  | .op t =>
    if t = ['('] then some (depth + 1)
    else if t = [')'] then (if depth = 0 then none else some (depth - 1))
    else some depth

end Token

/-- Whether tokens are complete commands on one line: there is a word among them, their parentheses are in
balance, and no other command has to follow. -/
def completes (ts : List Token) : Bool :=
  ts.any Token.isWord && ts.foldlM Token.nest 0 == some 0 && !ts.getLast?.any Token.joins &&
    !ts.any Token.endsLine

/-- Whether a line has complete commands, and can be read to its end. -/
def isComplete (line : Text) : Bool := (read line).any completes

theorem isComplete_iff {line : Text} {ts : List Token} (h : read line = some ts) :
    isComplete line = true ↔ completes ts = true := by
  rw [isComplete, h, Option.any_some]

/-- Whether tokens may lead up to a command: words, and the operator of a chain. -/
def Leads (ts : List Token) : Prop := ∀ t ∈ ts, t.isWord = true ∨ t = .op "&&".toList

theorem completes_iff {ts : List Token} :
    completes ts = true ↔ ts.any Token.isWord = true ∧ ts.foldlM Token.nest 0 = some 0 ∧
      ts.getLast?.any Token.joins = false ∧ ts.any Token.endsLine = false := by
  simp [completes, and_assoc]

theorem foldlM_nest_of_leads {ts : List Token} (h : Leads ts) (depth : Nat) :
    ts.foldlM Token.nest depth = some depth := by
  induction ts with
  | nil => rfl
  | cons t ts ih =>
    obtain ⟨ht, hts⟩ := List.forall_mem_cons.1 h
    have hnest : Token.nest depth t = some depth := by
      cases t with
      | word ms => rfl
      | op text =>
        obtain hword | hand := ht
        · cases hword
        · cases hand
          rfl
    rw [List.foldlM_cons, hnest]
    exact ih hts

theorem endsLine_of_leads {ts : List Token} (h : Leads ts) : ts.any Token.endsLine = false := by
  rw [List.any_eq_false]
  intro t ht
  rcases h t ht with hword | rfl
  · cases t with
    | word ms => simp [Token.endsLine]
    | op text => cases hword
  · decide

/-- Parentheses that are open before tokens are so behind them. -/
theorem foldlM_nest_add {ts : List Token} {depth after : Nat} (h : ts.foldlM Token.nest depth = some after)
    (more : Nat) : ts.foldlM Token.nest (depth + more) = some (after + more) := by
  induction ts generalizing depth with
  | nil =>
    cases h
    rfl
  | cons t ts ih =>
    rw [List.foldlM_cons] at h ⊢
    obtain ⟨next, hnext, hrest⟩ := Option.bind_eq_some_iff.1 h
    have hmore : Token.nest (depth + more) t = some (next + more) := by
      cases t with
      | word ms =>
        cases hnext
        rfl
      | op text =>
        unfold Token.nest at hnext ⊢
        grind
    rw [hmore]
    exact ih hrest

section Wrapped

variable {before ts : List Token}

theorem leads_words (h : ∀ t ∈ ts, t.isWord = true) : Leads ts := fun t ht => .inl (h t ht)

theorem completes_words (h : ∀ t ∈ ts, t.isWord = true) (hne : ts ≠ []) : completes ts = true := by
  have hleads := leads_words h
  rw [completes_iff]
  refine ⟨?_, foldlM_nest_of_leads hleads 0, ?_, endsLine_of_leads hleads⟩
  · obtain ⟨t, rest, rfl⟩ := List.exists_cons_of_ne_nil hne
    rw [List.any_cons, h t List.mem_cons_self, Bool.true_or]
  · rw [List.getLast?_eq_some_getLast hne]
    have hlast := h _ (List.getLast_mem hne)
    cases hword : ts.getLast hne with
    | word ms => rfl
    | op t =>
      rw [hword] at hlast
      cases hlast

theorem ne_nil_of_completes (h : completes ts = true) : ts ≠ [] := by
  rintro rfl
  cases h

/-- Complete commands are complete behind others. -/
theorem completes_behind (hbefore : Leads before) (h : completes ts = true) :
    completes (before ++ ts) = true := by
  obtain ⟨hword, hnest, hlast, hfeed⟩ := completes_iff.1 h
  rw [completes_iff]
  refine ⟨?_, ?_, ?_, ?_⟩
  · rw [List.any_append, hword, Bool.or_true]
  · rw [List.foldlM_append, foldlM_nest_of_leads hbefore]
    exact hnest
  · rw [List.getLast?_append_of_ne_nil _ (ne_nil_of_completes h), hlast]
  · rw [List.any_append, endsLine_of_leads hbefore, hfeed, Bool.or_false]

/-- Complete commands are complete in parentheses. -/
theorem completes_parentheses (h : completes ts = true) :
    completes (.op ['('] :: ts ++ [.op [')']]) = true := by
  obtain ⟨hword, hnest, -, hfeed⟩ := completes_iff.1 h
  have hinside : ts.foldlM Token.nest 1 = some 1 := foldlM_nest_add hnest 1
  rw [completes_iff]
  refine ⟨?_, ?_, ?_, ?_⟩
  · simp [hword]
  · have hopen : Token.nest 0 (.op ['(']) = some 1 := rfl
    rw [List.cons_append, List.foldlM_cons, hopen, Option.bind_eq_bind, Option.bind_some,
      List.foldlM_append, hinside]
    rfl
  · rw [List.getLast?_concat]
    rfl
  · rw [List.any_append, List.any_cons, hfeed]
    rfl

/-- A parenthesis that opens and does not close. -/
theorem not_completes_open (h : completes ts = true) : completes (.op ['('] :: ts) = false := by
  obtain ⟨-, hnest, -⟩ := completes_iff.1 h
  rw [Bool.eq_false_iff]
  intro hopen
  obtain ⟨-, hclosed, -⟩ := completes_iff.1 hopen
  have hinside : (Token.op ['('] :: ts).foldlM Token.nest 0 = some 1 := foldlM_nest_add hnest 1
  rw [hinside] at hclosed
  cases hclosed

end Wrapped

/-! ## Statements -/

theorem Command.isWord_of_isRead {c : Command} {ts : List Token} (h : c.IsRead ts) :
    ∀ t ∈ ts, t.isWord = true :=
  forall_mem_of_forall₂ h fun _ _ ⟨_, heq, _⟩ => heq ▸ rfl

theorem leads_append_and {ts : List Token} (h : ∀ t ∈ ts, t.isWord = true) :
    Leads (ts ++ [.op "&&".toList]) := by
  intro t ht
  rcases List.mem_append.1 ht with ht | ht
  · exact .inl (h t ht)
  · exact .inr (List.mem_singleton.1 ht)

theorem Statement.IsRead.leads {s : Statement} {ts : List Token} (h : s.IsRead ts) : Leads ts := by
  induction h with
  | last hc => exact leads_words (Command.isWord_of_isRead hc)
  | and hc _ ih =>
    intro t ht
    rw [List.append_cons, List.mem_append] at ht
    exact ht.elim (leads_append_and (Command.isWord_of_isRead hc) t) (ih t)

/-- A statement is complete if its commands have names. -/
theorem Statement.IsRead.completes {s : Statement} {ts : List Token} (h : s.IsRead ts)
    (hs : ∀ c ∈ s, c ≠ []) : completes ts = true := by
  induction h with
  | last hc =>
    refine completes_words (Command.isWord_of_isRead hc) ?_
    rintro rfl
    cases hc
    exact hs _ List.mem_cons_self rfl
  | and hc _ ih =>
    obtain ⟨-, hrest⟩ := List.forall_mem_cons.1 hs
    rw [List.append_cons]
    exact completes_behind (leads_append_and (Command.isWord_of_isRead hc)) (ih hrest)

end BuildScript.Posix
