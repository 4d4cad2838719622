import BuildScript.Proofs.Compile.Deliveries
import BuildScript.Proofs.Compile.Rendering

/-!
# Arguments of deliveries

The argument of `COPY` and `ADD` is flags, then sources, then a destination. The text alone tells where the
flags end (`writtenFlags`, `afterFlags`). The state takes up the flags one after the other, expands the sources
and resolves the destination (`State.delivery?_eq_some_iff`).
-/

namespace BuildScript

theorem length_afterFlag_lt (rest : Text) :
    (Text.trimStart (Text.beforeBlank rest).2).length < ('-' :: '-' :: rest).length := by
  have h1 := (List.dropWhile_suffix isBlank (l := (Text.beforeBlank rest).2)).length_le
  have h2 := (List.dropWhile_suffix (!isBlank ·) (l := rest)).length_le
  simp only [Text.trimStart, Text.beforeBlank, List.length_cons] at *
  omega

/-- The flags at the start of an argument of `COPY` and `ADD`, without their dashes. -/
def writtenFlags (raw : Text) : List Text :=
  match raw with
  | '-' :: '-' :: rest =>
    (Text.beforeBlank rest).1 :: writtenFlags (Text.trimStart (Text.beforeBlank rest).2)
  | _ => []
termination_by raw.length
decreasing_by exact length_afterFlag_lt rest

/-- The name of a flag. -/
def flagName (flag : Text) : Text := ((Text.cutAt '=' flag).getD (flag, [])).1

/-- The value of a flag, which is empty if it has none. -/
def flagValue (flag : Text) : Text := ((Text.cutAt '=' flag).getD (flag, [])).2

namespace State

variable {s : State}

/-! ## Flags -/

theorem readFlags_fst (s : State) (flags : DeliveryFlags) (raw : Text) :
    (s.readFlags flags raw).1 = (writtenFlags raw).foldl s.setFlag flags := by
  fun_induction State.readFlags s flags raw with
  | case1 flags rest ih => rw [ih, writtenFlags, List.foldl_cons]
  | case2 flags raw hnot =>
    rw [writtenFlags.eq_2 raw hnot]
    rfl

theorem setFlag_eq (s : State) (flags : DeliveryFlags) (flag : Text) :
    s.setFlag flags flag =
      if flagName flag = "chown".toList then
        { flags with owner := some (s.expand (Word.lex s.escape (flagValue flag))) }
      else if flagName flag = "chmod".toList then
        { flags with mode := some (s.expand (Word.lex s.escape (flagValue flag))) }
      else if flagName flag = "from".toList then { flags with fromStage := true }
      else flags := rfl

theorem owner_setFlag (s : State) (flags : DeliveryFlags) (flag : Text) :
    (s.setFlag flags flag).owner =
      if flagName flag = "chown".toList then some (s.expand (Word.lex s.escape (flagValue flag)))
      else flags.owner := by
  rw [setFlag_eq]
  by_cases howner : flagName flag = "chown".toList
  · rw [if_pos howner, if_pos howner]
  · rw [if_neg howner, if_neg howner]
    split
    · rfl
    · split <;> rfl

theorem mode_setFlag (s : State) (flags : DeliveryFlags) (flag : Text) :
    (s.setFlag flags flag).mode =
      if flagName flag = "chmod".toList then some (s.expand (Word.lex s.escape (flagValue flag)))
      else flags.mode := by
  rw [setFlag_eq]
  by_cases howner : flagName flag = "chown".toList
  · have hmode : flagName flag ≠ "chmod".toList := by
      rw [howner]
      decide
    rw [if_pos howner, if_neg hmode]
  · rw [if_neg howner]
    split
    · rfl
    · split <;> rfl

/-- A part of flags that only the flags of one name set is set after some flags if and only if it was before or
one of them has that name. -/
theorem isSome_foldl_setFlag {part : DeliveryFlags → Option Word} {name : Text} {word : Text → Word}
    (hpart : ∀ flags flag, part (s.setFlag flags flag) =
      if flagName flag = name then some (word flag) else part flags)
    (flags : DeliveryFlags) (written : List Text) :
    (part (written.foldl s.setFlag flags)).isSome = true ↔
      (part flags).isSome = true ∨ ∃ flag ∈ written, flagName flag = name := by
  induction written generalizing flags with
  | nil => simp
  | cons flag rest ih =>
    rw [List.foldl_cons, ih, hpart, List.exists_mem_cons_iff]
    by_cases hname : flagName flag = name
    · simp [hname]
    · simp [hname]

/-! ## Sources and destination -/

/-- What is read of flags, sources and a destination. -/
def deliveryOf (s : State) (written : List Text) (sources : List Word) (dest : Word) : Delivery where
  flags := written.foldl s.setFlag {}
  sources := sources.map s.expand
  dest := s.destination dest

/-- The words of an argument behind its flags. -/
def pathWords (s : State) (raw : Text) : List Word := s.argumentWords (afterFlags (Text.trimStart raw))

theorem delivery?_eq (s : State) (raw : Text) :
    s.delivery? raw =
      match (s.pathWords raw).reverse with
      | dest :: last :: others =>
        some (s.deliveryOf (writtenFlags (Text.trimStart raw)) (last :: others).reverse dest)
      | _ => none := by
  have hread : s.readFlags {} (Text.trimStart raw) =
      ((writtenFlags (Text.trimStart raw)).foldl s.setFlag {}, afterFlags (Text.trimStart raw)) :=
    Prod.ext (readFlags_fst s _ _) (readFlags_snd s _ _)
  rw [delivery?, hread]
  rfl

theorem delivery?_eq_some_iff {raw : Text} {d : Delivery} :
    s.delivery? raw = some d ↔ ∃ sources dest, sources ≠ [] ∧ s.pathWords raw = sources ++ [dest] ∧
      d = s.deliveryOf (writtenFlags (Text.trimStart raw)) sources dest := by
  simp only [delivery?_eq_some_iff_readFlags, readFlags_fst, readFlags_snd, pathWords, deliveryOf]

end State

end BuildScript
