import BuildScript.Path
import BuildScript.Proofs.Text.Lines

/-!
# Components of a path

Normalizing a path keeps the components that it names (`walk_normalize`), so a normalized path is its own
normal form (`normalize_normalize`).

A path behind a directory names the components of the directory and then its own, but for those that its
`..` take away: as many as it climbs above the place that it starts at (`foldl_push_append`). So what stands
in front of a path makes no difference if the path climbs out of all of it, and only then
(`normalize_behind_eq_iff`).
-/

namespace BuildScript.Path

/-- Whether a component names a step down. -/
def IsStep (component : Text) : Prop :=
  component ≠ [] ∧ component ≠ ['.'] ∧ component ≠ ['.', '.'] ∧ '/' ∉ component

theorem push_of_isStep {component : Text} (h : IsStep component) (seen : List Text) :
    push seen component = component :: seen := by
  obtain ⟨hnil, hdot, hdots, -⟩ := h
  rw [push, if_neg (not_or.2 ⟨hnil, hdot⟩), if_neg hdots]

theorem isStep_push {seen : List Text} {component : Text} (hseen : ∀ c ∈ seen, IsStep c)
    (hslash : '/' ∉ component) : ∀ c ∈ push seen component, IsStep c := by
  unfold push
  split
  · exact hseen
  · next hstays =>
    split
    · exact fun c hc => hseen c (List.mem_of_mem_tail hc)
    · next hdots =>
      rw [not_or] at hstays
      exact List.forall_mem_cons.2 ⟨⟨hstays.1, hstays.2, hdots, hslash⟩, hseen⟩

/-- The components met along a path, the last one first; `seen` are those before it. -/
def walk (seen : List Text) (path : Text) : List Text := (Text.splitAt '/' path).foldl push seen

theorem components_eq (path : Text) : components path = (walk [] path).reverse := rfl

theorem walk_nil (seen : List Text) : walk seen [] = seen := rfl

theorem walk_append_cons (seen : List Text) (s t : Text) :
    walk seen (s ++ '/' :: t) = walk (walk seen s) t := by
  rw [walk, Text.splitAt_append_cons, List.foldl_append]
  rfl

theorem walk_cons (seen : List Text) (t : Text) : walk seen ('/' :: t) = walk seen t :=
  walk_append_cons seen [] t

theorem isStep_of_mem_walk (path : Text) : ∀ c ∈ walk [] path, IsStep c := by
  have hfold : ∀ parts : List Text, (∀ part ∈ parts, '/' ∉ part) → ∀ seen : List Text,
      (∀ c ∈ seen, IsStep c) → ∀ c ∈ parts.foldl push seen, IsStep c := by
    intro parts
    induction parts with
    | nil => exact fun _ _ hseen => hseen
    | cons part rest ih =>
      intro hparts seen hseen
      obtain ⟨hpart, hrest⟩ := List.forall_mem_cons.1 hparts
      exact ih hrest _ (isStep_push hseen hpart)
  exact hfold _ (fun _ => Text.notMem_of_mem_splitAt) [] (by simp)

/-- Steps that are written one after the other are met one after the other. -/
theorem walk_join {steps : List Text} (h : ∀ c ∈ steps, IsStep c) (seen : List Text) :
    walk seen (Text.join ['/'] steps) = steps.reverse ++ seen := by
  induction steps generalizing seen with
  | nil => exact walk_nil seen
  | cons c rest ih =>
    obtain ⟨hc, hrest⟩ := List.forall_mem_cons.1 h
    have hfirst : walk seen c = c :: seen := by
      rw [walk, Text.splitAt_of_notMem hc.2.2.2, List.foldl_cons, List.foldl_nil, push_of_isStep hc]
    by_cases hnil : rest = []
    · rw [hnil]
      exact hfirst
    · rw [Text.join_cons hnil, List.append_assoc, List.singleton_append, walk_append_cons, hfirst,
        ih hrest, List.reverse_cons, List.append_assoc]
      rfl

/-! ## Normal forms -/

theorem isStep_of_mem_components {path c : Text} (h : c ∈ components path) : IsStep c :=
  isStep_of_mem_walk path c (List.mem_reverse.1 h)

theorem walk_normalize (path : Text) : walk [] (normalize path) = walk [] path := by
  have hjoin : walk [] (Text.join ['/'] (components path)) = walk [] path := by
    rw [walk_join fun _ => isStep_of_mem_components, List.append_nil, components_eq, List.reverse_reverse]
  simp only [normalize]
  split
  · rw [List.cons_append, walk_cons, walk_append_cons, hjoin, walk_nil]
  · rw [List.append_nil, walk_cons, hjoin]

theorem components_normalize (path : Text) : components (normalize path) = components path := by
  rw [components_eq, walk_normalize, components_eq]

/-- A path that ends in a step down does not end in a slash. -/
theorem endsInSlash_join {steps : List Text} (h : ∀ c ∈ steps, IsStep c) (hne : steps ≠ []) :
    endsInSlash ('/' :: Text.join ['/'] steps) = false := by
  obtain ⟨front, last, rfl⟩ := List.eq_nil_or_concat' steps |>.resolve_left hne
  have hlast : IsStep last := h last (by simp)
  have hjoin : Text.join ['/'] (front ++ [last]) ≠ [] := Text.join_ne_nil (fun c hc => (h c hc).1) hne
  rw [endsInSlash, ← List.singleton_append, List.getLast?_append_of_ne_nil _ hjoin,
    Text.getLast?_join_append_singleton hlast.1, beq_eq_false_iff_ne]
  exact fun hmem => hlast.2.2.2 (List.mem_of_getLast? hmem)

/-- A path without components is written as the root; any other one keeps its end. -/
theorem endsInSlash_normalize {path : Text} (h : components path ≠ []) :
    endsInSlash (normalize path) = endsInSlash path := by
  have hnonempty : (components path).isEmpty = false := List.isEmpty_eq_false_iff.2 h
  cases hslash : endsInSlash path with
  | true =>
    have hnormal : normalize path = '/' :: Text.join ['/'] (components path) ++ ['/'] := by
      simp [normalize, hslash, hnonempty]
    rw [endsInSlash, hnormal, List.getLast?_concat]
    rfl
  | false =>
    have hnormal : normalize path = '/' :: Text.join ['/'] (components path) := by
      simp [normalize, hslash]
    rw [hnormal]
    exact endsInSlash_join (fun _ => isStep_of_mem_components) h

theorem normalize_congr {p q : Text} (hcomponents : components p = components q)
    (hslash : components q ≠ [] → endsInSlash p = endsInSlash q) : normalize p = normalize q := by
  simp only [normalize, hcomponents]
  by_cases h : components q = []
  · simp [h]
  · rw [hslash h]

/-- A normalized path is its own normal form. -/
theorem normalize_normalize (path : Text) : normalize (normalize path) = normalize path :=
  normalize_congr (components_normalize path) endsInSlash_normalize

theorem endsInSlash_append_cons (s t : Text) : endsInSlash (s ++ '/' :: t) = endsInSlash ('/' :: t) := by
  rw [endsInSlash, List.getLast?_append_of_ne_nil _ (List.cons_ne_nil _ _), endsInSlash]

/-- What stands in front of a slash may be normalized first. -/
theorem normalize_normalize_append (s t : Text) :
    normalize (normalize s ++ '/' :: t) = normalize (s ++ '/' :: t) := by
  refine normalize_congr ?_ fun _ => ?_
  · rw [components_eq, components_eq, walk_append_cons, walk_append_cons, walk_normalize]
  · rw [endsInSlash_append_cons, endsInSlash_append_cons]

/-! ## Climbing -/

/-- How far components lead above the place that they start at; `depth` tells how far below it they are. -/
def climbFrom (depth : Nat) : List Text → Nat
  | [] => 0
  | component :: rest =>
    if component = [] ∨ component = ['.'] then climbFrom depth rest
    else if component = ['.', '.'] then
      if depth = 0 then climbFrom 0 rest + 1 else climbFrom (depth - 1) rest
    else climbFrom (depth + 1) rest

/-- How far a path leads above the directory that it starts in. -/
def climb (path : Text) : Nat := climbFrom 0 (Text.splitAt '/' path)

/-- Components that were met before are left alone but for those that are climbed out of. -/
theorem foldl_push_append (parts top seen : List Text) :
    parts.foldl push (top ++ seen) = parts.foldl push top ++ seen.drop (climbFrom top.length parts) := by
  induction parts generalizing top seen with
  | nil => rfl
  | cons part rest ih =>
    rw [List.foldl_cons, List.foldl_cons, climbFrom]
    by_cases hstays : part = [] ∨ part = ['.']
    · have hpush : ∀ seen, push seen part = seen := fun seen => by rw [push, if_pos hstays]
      rw [hpush, hpush, if_pos hstays]
      exact ih top seen
    · by_cases hdots : part = ['.', '.']
      · have hpush : ∀ seen, push seen part = seen.tail := fun seen => by
          rw [push, if_neg hstays, if_pos hdots]
        rw [hpush, hpush, if_neg hstays, if_pos hdots]
        cases top with
        | nil =>
          rw [List.nil_append, List.tail_nil, ← List.nil_append seen.tail, ih, List.drop_tail]
          rfl
        | cons c top => exact ih top seen
      · have hpush : ∀ seen, push seen part = part :: seen := fun seen => by
          rw [push, if_neg hstays, if_neg hdots]
        rw [hpush, hpush, if_neg hstays, if_neg hdots]
        exact ih (part :: top) seen

theorem walk_eq_append_drop (seen : List Text) (path : Text) :
    walk seen path = walk [] path ++ seen.drop (climb path) :=
  foldl_push_append (Text.splitAt '/' path) [] seen

theorem endsInSlash_behind {path : Text} (h : path ≠ []) (dir : Text) :
    endsInSlash (dir ++ '/' :: path) = endsInSlash path := by
  rw [endsInSlash, ← List.singleton_append, List.getLast?_append_of_ne_nil _ (by simp),
    List.getLast?_append_of_ne_nil _ h]
  rfl

/-- A path behind a directory names what it names alone if and only if it climbs out of the directory. -/
theorem normalize_behind_eq_iff {path : Text} (h : path ≠ []) (dir : Text) :
    normalize (dir ++ '/' :: path) = normalize path ↔ (components dir).length ≤ climb path := by
  have hbehind : components (dir ++ '/' :: path) = components path ↔
      (components dir).length ≤ climb path := by
    rw [components_eq, components_eq, List.reverse_inj, walk_append_cons, walk_eq_append_drop,
      List.append_right_eq_self, List.drop_eq_nil_iff, components_eq, List.length_reverse]
  rw [← hbehind]
  refine ⟨fun heq => ?_, fun hcomponents => ?_⟩
  · rw [← components_normalize, heq, components_normalize]
  · exact normalize_congr hcomponents fun _ => endsInSlash_behind h dir

end BuildScript.Path
