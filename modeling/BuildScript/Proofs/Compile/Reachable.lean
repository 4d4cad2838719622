import BuildScript.Proofs.Compile.Clean
import BuildScript.Proofs.Compile.Context
import BuildScript.Proofs.Path.Parent

/-!
# States that compiling comes to

A state is reached from the first one by compiling instructions, each with options of its own
(`State.Reachable`). In all these states the escape character is the first one, the working directory is a
path from the root, what is recorded has names of variables, and the user is not the one that runs the script
and has no group (`State.WellFormed`).

So whatever `WORKDIR`, `VOLUME`, `COPY` and `ADD` make, enter or write to is told from the root, and no such
place can be taken for an option or depends on where the script is (`State.Reachable.wellFormed_and_arePlaced`).
-/

namespace BuildScript

/-! ## Well-formed states -/

/-- Whether a word is a path from the root, which is normalized if it has no references. -/
structure Word.IsPlace (w : Word) : Prop where
  root : w.startsWith ['/'] = true
  normal : ∀ t, w.text? = some t → Path.normalize t = t

/-- Whether a word is the name of a user, without a group, that does not run the script. -/
structure Word.IsOtherUser (w : Word) : Prop where
  ne_nil : w ≠ .nil
  text : ∀ t, w.text? = some t → t ≠ "root".toList ∧ t ≠ "0".toList ∧ ':' ∉ t

/-- What holds of a state after any instructions, if `escape` is the escape character. -/
structure State.WellFormed (escape : Char) (s : State) : Prop where
  escape : s.escape = escape
  workdir : ∀ dir ∈ s.workdir, dir.IsPlace ∧ dir.named = true
  env : ∀ b ∈ s.env, isName b.1 = true ∧ b.2.named = true
  user : ∀ user ∈ s.user, user.IsOtherUser ∧ user.named = true

/-- The states that instructions lead to from the first one. -/
inductive State.Reachable (escape : Char) : State → Prop
  | initial : Reachable escape (.initial escape)
  | step {s : State} (h : Reachable escape s) (o : Options) (files : FileView) (i : Instruction) :
    Reachable escape (Step.ofInstruction o files s i).state

theorem reachable_stateAfter {o : Options} {files : FileView} {escape : Char} {is : List Instruction}
    {before after : List Step} (h : traceFrom o files (.initial escape) is = before ++ after) :
    State.Reachable escape (stateAfter (.initial escape) before) :=
  stateAfter_induction (fun _ i _ hs => hs.step o files i) .initial h

/-! ## Paths from the root -/

namespace Word

theorem startsWith_append {v : Word} (h : v.startsWith ['/'] = true) (w : Word) :
    (v ++ w).startsWith ['/'] = true := by
  obtain ⟨rest, rfl⟩ := startsWith_slash_iff.1 h
  rfl

theorem startsWith_withSlash {w : Word} (h : w.startsWith ['/'] = true) :
    w.withSlash.startsWith ['/'] = true := by
  unfold withSlash
  split
  · exact h
  · exact startsWith_append h _

theorem startsWith_literal {t : Text} : (literal t).startsWith ['/'] = true ↔ Path.IsRooted t := by
  cases t with
  | nil => simp [literal, startsWith, leading, Path.IsRooted]
  | cons c rest =>
    have hstarts : (literal (c :: rest)).startsWith ['/'] = true ↔ '/' = c := by
      simp [literal, startsWith, leading, List.isPrefixOf]
    rw [hstarts, Path.IsRooted, List.head?_cons, Option.some_inj, eq_comm]

end Word

theorem Path.isRooted_normalize (path : Text) : IsRooted (normalize path) := rfl

theorem Path.isRooted_parent {path : Text} (h : IsRooted path) : IsRooted (parent path) := by
  rcases parent_eq_or_prefix path with hroot | ⟨hne, after, hafter⟩
  · rw [hroot]
    rfl
  · rw [← hafter] at h
    obtain ⟨c, rest, hcons⟩ := List.exists_cons_of_ne_nil hne
    rw [hcons] at h ⊢
    exact h

namespace State

variable {escape : Char} {s : State}

/-- What a path is resolved to is a place, if the working directory is a path from the root. -/
theorem isPlace_resolve (h : ∀ dir ∈ s.workdir, dir.startsWith ['/'] = true) (path : Word) :
    (s.resolve path).IsPlace := by
  have hbase : s.workingDir.startsWith ['/'] = true := by
    unfold workingDir
    cases hdir : s.workdir with
    | none => rfl
    | some dir => exact h dir hdir
  have hjoined : (s.joined path).startsWith ['/'] = true :=
    of_joined (P := fun w => w.startsWith ['/'] = true) id
      (Word.startsWith_append (Word.startsWith_withSlash hbase) path)
  rcases s.resolve_cases path with ⟨t, -, heq⟩ | ⟨hnone, heq⟩
  · rw [heq]
    refine ⟨Word.startsWith_literal.2 (Path.isRooted_normalize t), fun u hu => ?_⟩
    rw [Word.text?_literal] at hu
    rw [← Option.some.inj hu, Path.normalize_normalize]
  · rw [heq]
    refine ⟨hjoined, fun u hu => ?_⟩
    rw [hnone] at hu
    cases hu

theorem wellFormed_initial (escape : Char) : (initial escape).WellFormed escape :=
  ⟨rfl, fun _ hdir => (nomatch hdir), fun _ hb => (nomatch hb), fun _ huser => (nomatch huser)⟩

end State

/-! ## Users -/

/-- The user of a word has no group. -/
theorem State.notMem_text?_userOf {spec : Word} {t : Text} (h : (userOf spec).text? = some t) : ':' ∉ t := by
  unfold userOf at h
  split at h
  · next hcut =>
    rw [Word.text?_literal] at h
    exact Option.some.inj h ▸ (Word.cutAt_eq_some_iff.1 hcut).1
  · next hcut =>
    rw [Word.eq_literal_of_text? h, Word.cutAt_eq_none_iff, Word.leading_literal] at hcut
    exact hcut

theorem State.named_userOf {spec : Word} (h : spec.named = true) : (userOf spec).named = true := by
  unfold userOf
  split
  · exact Word.named_literal _
  · exact h

/-- A user that is not told to be the one who runs the script. -/
theorem State.isOtherUser_userOf {spec : Word} (hempty : (userOf spec).isEmpty = false)
    (hroot : isRoot (userOf spec) = false) : (userOf spec).IsOtherUser := by
  refine ⟨?_, fun t ht => ⟨?_, ?_, notMem_text?_userOf ht⟩⟩
  · intro hnil
    rw [hnil] at hempty
    cases hempty
  · rintro rfl
    rw [Word.eq_literal_of_text? ht] at hroot
    cases hroot
  · rintro rfl
    rw [Word.eq_literal_of_text? ht] at hroot
    cases hroot

/-! ## What instructions keep -/

namespace State.WellFormed

variable {escape : Char} {s : State}

theorem toNamed (h : s.WellFormed escape) : s.Named :=
  ⟨fun dir hdir => (h.workdir dir hdir).2, fun b hb => (h.env b hb).2⟩

theorem isPlace_resolve (h : s.WellFormed escape) (path : Word) : (s.resolve path).IsPlace :=
  State.isPlace_resolve (fun dir hdir => (h.workdir dir hdir).1.root) path

theorem of_sameWords (h : s.WellFormed escape) {t : State} (ht : s.SameWords t)
    (hescape : t.escape = s.escape) : t.WellFormed escape where
  escape := hescape.trans h.escape
  workdir dir hdir := h.workdir dir (ht.workdir ▸ hdir)
  env := ht.env ▸ h.env
  user user huser := h.user user (ht.user ▸ huser)

/-- Instructions keep a state well formed. -/
theorem change (h : s.WellFormed escape) {i : Instruction} {t : State} (hc : s.Change i t) :
    t.WellFormed escape := by
  have hnamed := h.toNamed.change hc
  cases hc with
  | workdir hkeyword =>
    refine ⟨h.escape, fun dir hdir => ⟨?_, hnamed.workdir dir hdir⟩, h.env, h.user⟩
    exact Option.some.inj hdir ▸ h.isPlace_resolve _
  | env hkeyword hbindings =>
    refine ⟨h.escape, h.workdir, fun b hb => ⟨?_, hnamed.env b hb⟩, h.user⟩
    rcases Environment.mem_record hb with hb | ⟨c, hc, rfl⟩
    · exact (h.env b hb).1
    · exact (named_envBindings? hbindings c hc).1
  | invoker hkeyword => exact ⟨h.escape, h.workdir, h.env, fun _ huser => (nomatch huser)⟩
  | user hkeyword hspec hempty hroot =>
    refine ⟨h.escape, h.workdir, h.env, fun user huser => ?_⟩
    obtain rfl := Option.some.inj huser
    refine ⟨isOtherUser_userOf hempty hroot, State.named_userOf (h.toNamed.expand ?_)⟩
    exact Word.named_lexAll s.escape i.arguments _ hspec
  | usesContext | keep => exact h.of_sameWords ⟨rfl, rfl, rfl⟩ rfl

end State.WellFormed

theorem State.Reachable.wellFormed {escape : Char} {s : State} (h : s.Reachable escape) :
    s.WellFormed escape := by
  induction h with
  | initial => exact wellFormed_initial escape
  | step _ _ _ _ ih => exact ofInstruction_induction ih fun _ => ih.change

end BuildScript
