import Mathlib.Data.List.Forall2
import BuildScript.Proofs.Compile.Frame
import BuildScript.Proofs.Posix.Command
import BuildScript.Proofs.Text.Trim
import BuildScript.Proofs.Word.Cuts
import BuildScript.Proofs.Word.Reread

/-!
# The bindings of `ENV`

An argument of `ENV` is read twice: its first stretch without blanks tells which form it has, and its words tell
the bindings (`BindingsOf`). The two readings fit together, whatever is quoted: the words that are cut at an
equals sign are all the words of the argument, and a name without a value is its first word
(`envBindings?_eq_some_iff`).

All values are expanded in the state before the instruction, and then all names are recorded. So a binding
contributes the same line wherever it stands, and the order of bindings with different names makes no difference
to the state (`State.env_atOnce`).
-/

namespace BuildScript

/-! ## The two forms -/

/-- Whether a word is `NAME=value`: its text before the first equals sign is a name, and no reference stands
in it. -/
def IsBinding (w : Word) (b : Binding) : Prop :=
  isName b.1 = true ∧ '=' ∉ b.1 ∧ w = .literal b.1 ++ .char '=' b.2

/-- The bindings that an argument of `ENV` has. -/
inductive BindingsOf (escape : Char) (raw : Text) : List Binding → Prop
  /-- All words are bindings. -/
  | pairs {bindings : List Binding} (hform : '=' ∈ (Text.beforeBlank raw).1)
    (hwords : List.Forall₂ IsBinding (Word.lexAll escape raw) bindings) : BindingsOf escape raw bindings
  /-- The first word is a name, and the other ones are joined by single spaces. -/
  | single {name : Text} {words : List Word} (hform : '=' ∉ (Text.beforeBlank raw).1)
    (hname : isName name = true) (hfirst : (Text.beforeBlank raw).1 = name)
    (hwords : Word.lexAll escape raw = .literal name :: words) (hne : words ≠ []) :
    BindingsOf escape raw [(name, Word.join [' '] words)]

namespace State

theorem isBinding_iff {w : Word} {b : Binding} : IsBinding w b ↔ w.cutAt '=' = some b ∧ isName b.1 = true := by
  rw [IsBinding, Word.cutAt_eq_some_iff, and_comm]

theorem bindings?_eq_some_iff {ws : List Word} {bindings : List Binding} :
    bindings? ws = some bindings ↔ List.Forall₂ IsBinding ws bindings := by
  rw [bindings?_eq_some_iff_forall₂]
  exact ⟨fun h => h.imp fun _ _ => isBinding_iff.2, fun h => h.imp fun _ _ => isBinding_iff.1⟩

end State

/-! ## A name in front of other words -/

namespace Word

variable {escape : Char}

theorem lexAll_trimStart (escape : Char) (t : Text) : lexAll escape (Text.trimStart t) = lexAll escape t := by
  induction t with
  | nil => rfl
  | cons c rest ih =>
    by_cases hc : isBlank c = true
    · rw [Text.trimStart, List.dropWhile_cons_of_pos hc, lexAll_eq escape (c :: rest), wordsFrom_blank hc]
      exact ih
    · rw [Text.trimStart, List.dropWhile_cons_of_neg hc]

theorem lexAll_eq_nil_iff {t : Text} : lexAll escape t = [] ↔ Text.trimStart t = [] := by
  rw [Text.trimStart_eq_nil_iff]
  constructor
  · intro h c hc
    by_contra hblank
    exact lexAll_ne_nil hc (by simpa using hblank) escape h
  · intro h
    rw [← lexAll_trimStart, Text.trimStart_eq_nil_iff.2 h, lexAll_eq, wordsFrom_nil]
    rfl

/-- A name is read as itself, up to the blank behind it. -/
theorem lexAll_name_append (hescape : escape = '\\' ∨ escape = '\x60') {name rest : Text}
    (hname : isName name = true) (hrest : ∀ c ∈ rest.head?, isBlank c = true) :
    lexAll escape (name ++ rest) = literal name :: lexAll escape rest := by
  have hplain : Shell.isPlain escape = false := by rcases hescape with rfl | rfl <;> decide
  have hne : name ≠ [] := by
    rintro rfl
    cases hname
  have hread := wordsFrom_plain hplain (fun _ hc => Posix.isPlain_of_mem_name hname hc) hne rest
  cases rest with
  | nil =>
    rw [lexAll_eq, hread, lexAll_eq, wordsFrom_nil, Mark.adjoin]
    exact congrArg (· :: []) (append_nil _)
  | cons c rest =>
    rw [lexAll_eq, hread, lexAll_eq escape (c :: rest), wordsFrom_blank (hrest c rfl), Mark.adjoin]
    exact congrArg (· :: lexAll escape rest) (append_nil _)

end Word

/-- The bindings of an argument are told by its words. -/
theorem envBindings?_eq_some_iff {escape : Char} (hescape : escape = '\\' ∨ escape = '\x60') {raw : Text}
    (htrimmed : Text.IsTrimmed raw) {bindings : List Binding} :
    State.envBindings? escape raw = some bindings ↔ BindingsOf escape raw bindings := by
  have hraw := Text.beforeBlank_append raw
  have hblank := Text.isBlank_of_head?_beforeBlank raw
  have hlast : ∀ c, (Text.beforeBlank raw).2.getLast? = some c → isBlank c = false := by
    intro c hc
    refine htrimmed.last c ?_
    rw [← hraw, List.getLast?_append, hc]
    rfl
  have htrim := Text.trim_eq_trimStart hlast
  constructor
  · intro h
    rcases State.envBindings?_eq_some h with ⟨hform, hwords⟩ | ⟨hform, hname, hrest, rfl⟩
    · exact .pairs hform (State.bindings?_eq_some_iff.1 hwords)
    · rw [htrim] at hrest ⊢
      rw [Word.lexAll_trimStart]
      refine .single hform hname rfl ?_ (mt Word.lexAll_eq_nil_iff.1 hrest)
      rw [← Word.lexAll_name_append hescape hname hblank, hraw]
  · intro h
    cases h with
    | pairs hform hwords => rwa [State.envBindings?_of_mem hform, State.bindings?_eq_some_iff]
    | single hform hname hname' hwords hne =>
      subst hname'
      rw [← hraw, Word.lexAll_name_append hescape hname hblank] at hwords
      obtain ⟨-, rfl⟩ := List.cons.inj hwords
      rw [State.envBindings?_of_notMem hform, htrim, Word.lexAll_trimStart,
        if_pos ⟨hname, mt Word.lexAll_eq_nil_iff.2 hne⟩]

/-! ## Recording all bindings at once -/

namespace State

/-- Whether a state is another one with bindings recorded: each name has the value that it is bound to last,
expanded in the other state, and all else is as it was there. -/
structure Records (s : State) (bindings : List Binding) (t : State) : Prop where
  last : ∀ before b after, bindings = before ++ b :: after → b.1 ∉ after.map Prod.fst →
    t.env.get? b.1 = some (s.expand b.2)
  others : ∀ name, name ∉ bindings.map Prod.fst → t.env.get? name = s.env.get? name
  rest : t = { s with env := t.env }

variable {s t u : State} {bindings other : List Binding}

theorem records_record (s : State) (bindings : List Binding) :
    s.Records bindings { s with env := s.env.record bindings } where
  last before b after heq hafter := by
    have hnone : after.reverse.lookup b.1 = none := by
      rw [List.lookup_eq_none_iff]
      intro c hc
      rw [bne_iff_ne]
      intro hname
      exact hafter (hname ▸ List.mem_map_of_mem (List.mem_reverse.1 hc))
    have hreverse : bindings.reverse = after.reverse ++ (b.1, b.2) :: before.reverse := by simp [heq]
    rw [Environment.get?_record, hreverse, List.lookup_append, hnone, List.lookup_cons_self]
    rfl
  others _ hname := Environment.get?_record_of_notMem hname
  rest := rfl

/-- In bindings with different names, each one is the last of its name. -/
theorem Records.get?_of_mem (h : s.Records bindings t) (hnodup : (bindings.map Prod.fst).Nodup) {b : Binding}
    (hb : b ∈ bindings) : t.env.get? b.1 = some (s.expand b.2) := by
  obtain ⟨before, after, rfl⟩ := List.append_of_mem hb
  rw [List.map_append, List.map_cons] at hnodup
  exact h.last before b after rfl (List.nodup_cons.1 (List.nodup_append.1 hnodup).2.1).1

/-- The order of bindings with different names makes no difference. -/
theorem Records.get?_eq (ht : s.Records bindings t) (hu : s.Records other u) (hperm : other.Perm bindings)
    (hnodup : (bindings.map Prod.fst).Nodup) (name : Text) : u.env.get? name = t.env.get? name := by
  have hnames := hperm.map Prod.fst
  by_cases hname : name ∈ bindings.map Prod.fst
  · obtain ⟨b, hb, rfl⟩ := List.mem_map.1 hname
    rw [ht.get?_of_mem hnodup hb, hu.get?_of_mem (hnames.nodup_iff.2 hnodup) (hperm.mem_iff.2 hb)]
  · rw [ht.others name hname, hu.others name (mt hnames.mem_iff.1 hname)]

theorem compileEnv_eq {raw : Text} (h : envBindings? s.escape raw = some bindings) :
    s.compileEnv raw = some
      { lines := bindings.map fun b => exportLine b.1 (s.expand b.2)
        state := { s with env := s.env.record bindings } } := by
  rw [compileEnv, h, Option.map_some]
  simp only [List.map_map]
  rfl

/-- `ENV` in any state exports and records its bindings at once. Its lines are those of its bindings, in order,
each with the value expanded before the instruction. Each name is recorded with the value that it is bound to
last, expanded before the instruction, too, and nothing else changes. So a binding has the same line wherever it
stands and whatever the other ones are; if the names are different, bindings in another order have the lines in
that order, and leave the same state. The escape character is one of the two that a script can have, and its
instructions have no blanks around their arguments. -/
theorem env_atOnce (o : Options) (files : FileView) {i : Instruction} (hkeyword : i.keyword = .env)
    (hescape : s.escape = '\\' ∨ s.escape = '\x60') (htrimmed : Text.IsTrimmed i.arguments) {lines : List Text}
    (hlines : (Step.ofInstruction o files s i).lines = some lines) :
    ∃ bindings, BindingsOf s.escape i.arguments bindings ∧
      lines = bindings.map (fun b => exportLine b.1 (s.expand b.2)) ∧
      s.Records bindings (Step.ofInstruction o files s i).state ∧
      ∀ (j : Instruction) (other : List Binding), j.keyword = .env → Text.IsTrimmed j.arguments →
        BindingsOf s.escape j.arguments other →
        ∃ moved, (Step.ofInstruction o files s j).lines = some moved ∧
          (∀ (k l : Nat) (b : Binding), bindings[k]? = some b → other[l]? = some b → moved[l]? = lines[k]?) ∧
          (other.Perm bindings → (bindings.map Prod.fst).Nodup → moved.Perm lines ∧
            (∀ name, (Step.ofInstruction o files s j).state.env.get? name =
              (Step.ofInstruction o files s i).state.env.get? name) ∧
            (Step.ofInstruction o files s j).state =
              { (Step.ofInstruction o files s i).state with
                env := (Step.ofInstruction o files s j).state.env }) := by
  have hstep : ∀ {j : Instruction} {other : List Binding}, j.keyword = .env →
      envBindings? s.escape j.arguments = some other → Step.ofInstruction o files s j =
        ⟨j, some (other.map fun b => exportLine b.1 (s.expand b.2)), { s with env := s.env.record other }⟩ := by
    intro j other hj hother
    rw [Step.ofInstruction, State.compile, hj]
    simp only [compileEnv_eq hother]
  obtain ⟨outcome, hcompile, -, -⟩ := exists_compile_of_lines hlines
  rw [State.compile, hkeyword] at hcompile
  obtain ⟨bindings, hbindings, -⟩ := Option.map_eq_some_iff.1 hcompile
  have hi := hstep hkeyword hbindings
  obtain rfl : _ = lines := Option.some.inj ((congrArg Step.lines hi).symm.trans hlines)
  rw [hi]
  refine ⟨bindings, (envBindings?_eq_some_iff hescape htrimmed).1 hbindings, rfl, s.records_record bindings, ?_⟩
  intro j other hj hjtrimmed hother
  rw [hstep hj ((envBindings?_eq_some_iff hescape hjtrimmed).2 hother)]
  refine ⟨_, rfl, fun k l b hk hl => ?_, fun hperm hnodup => ⟨hperm.map _, fun name => ?_, rfl⟩⟩
  · rw [List.getElem?_map, List.getElem?_map, hk, hl]
  · exact (s.records_record bindings).get?_eq (s.records_record other) hperm hnodup name

/-- A value refers to a name that the same instruction binds, and another one has an equals sign and a blank in
quotes. -/
theorem env_atOnce_permuted :
    let s := { State.initial '\\' with env := [("A".toList, .literal "0".toList)] }
    let i : Instruction := ⟨.env, [], "A=1 B=\"$A  $N\" C='= '".toList, 1, []⟩
    let j : Instruction := ⟨.env, [], "C='= ' B=\"$A  $N\" A=1".toList, 1, []⟩
    (Step.ofInstruction {} (fun _ => none) s i).lines = some
        ["export A=1".toList, "export B='0  '\"$\x7bN\x7d\"".toList, "export C='= '".toList] ∧
      (∃ moved, (Step.ofInstruction {} (fun _ => none) s j).lines = some moved ∧ moved.Perm
        ["export A=1".toList, "export B='0  '\"$\x7bN\x7d\"".toList, "export C='= '".toList]) ∧
      (Step.ofInstruction {} (fun _ => none) s j).state.env.get? "A".toList =
        (Step.ofInstruction {} (fun _ => none) s i).state.env.get? "A".toList := by
  intro s i j
  have hlines : (Step.ofInstruction {} (fun _ => none) s i).lines = some
      ["export A=1".toList, "export B='0  '\"$\x7bN\x7d\"".toList, "export C='= '".toList] := by
    decide +kernel
  have htrimmed : ∀ k ∈ [i, j], Text.IsTrimmed k.arguments := by
    simp only [Text.isTrimmed_iff]
    decide +kernel
  have hescape : s.escape = '\\' ∨ s.escape = '\x60' := .inl rfl
  let a : Binding := ("A".toList, .literal "1".toList)
  let b : Binding :=
    ("B".toList, .var "A".toList (.char ' ' (.char ' ' (.var "N".toList .nil))))
  let c : Binding := ("C".toList, .literal "= ".toList)
  have hi : envBindings? s.escape i.arguments = some [a, b, c] := by decide +kernel
  have hj : envBindings? s.escape j.arguments = some [c, b, a] := by decide +kernel
  obtain ⟨bindings, hbindings, -, -, hmoved⟩ := env_atOnce {} (fun _ => none) (s := s) (i := i) rfl hescape
    (htrimmed i (by simp)) hlines
  rw [← envBindings?_eq_some_iff hescape (htrimmed i (by simp)), hi] at hbindings
  obtain rfl := Option.some.inj hbindings
  have hother := (envBindings?_eq_some_iff hescape (htrimmed j (by simp))).1 hj
  obtain ⟨moved, hlines', -, hperm⟩ := hmoved j [c, b, a] rfl (htrimmed j (by simp)) hother
  obtain ⟨hmoved, hget, -⟩ := hperm (List.reverse_perm [a, b, c]) (by decide)
  exact ⟨hlines, ⟨moved, hlines', hmoved⟩, hget _⟩

/-- A name that is bound twice, and a name without an equals sign, whose value has words in quotes. -/
example :
    (BuildScript.compile {} (fun _ => none) "ENV A=1 A=$A\nENV B  $A 'x  y' \nRUN id".toList).statements =
      ["export A=1".toList, "export A=\"$\x7bA\x7d\"".toList,
        "export B=\"$\x7bA\x7d\"' x  y'".toList, "id".toList] := by
  decide +kernel

end State

end BuildScript
