import BuildScript.FileTree
import BuildScript.Proofs.Text.Lines

/-!
# Files that are written and read

A write puts a file at one place and changes nothing else (`exists_put_of_write`). The place that the path
names stays the same (`follow_put`), so what was written is read back (`read_of_write`). The directory of a file
that can be read is there (`exists_directory_of_read`).
-/

namespace BuildScript.FileTree

variable {tree written : FileTree} {cwd place other : Place} {path : Text} {bytes : Bytes} {mode : Nat}
  {node : Node}

/-! ## Places -/

theorem ne_nil_of_node? (h : tree.node? place ≠ some .directory) : place ≠ [] := by
  rintro rfl
  exact h rfl

theorem node?_put (h : place ≠ []) : (tree.put place node).node? place = some node := by
  simp [node?, put, h]

theorem node?_put_of_ne (h : other ≠ place) : (tree.put place node).node? other = tree.node? other := by
  have hne : (other == place) = false := beq_eq_false_iff_ne.2 h
  simp [node?, put, List.lookup_cons, hne]

/-! ## Paths -/

theorem follow_cons_eq_ok {component : Text} {rest : List Text}
    (h : tree.follow cwd (component :: rest) = .ok place) : tree.node? cwd = some .directory := by
  rw [follow] at h
  split at h
  · cases h
  · cases h
  · assumption

theorem follow_cons_of_directory (h : tree.node? cwd = some .directory) (component : Text)
    (rest : List Text) :
    tree.follow cwd (component :: rest) =
      if component = [] ∨ component = ['.'] then tree.follow cwd rest
      else if component = ['.', '.'] then tree.follow cwd.dropLast rest
      else tree.follow (cwd ++ [component]) rest := by
  rw [follow, h]

/-- A path is followed through directories only, so a change at a place that is none does not matter. -/
theorem follow_put (hplace : tree.node? place ≠ some .directory) {components : List Text}
    (h : tree.follow cwd components = .ok other) :
    (tree.put place node).follow cwd components = .ok other := by
  induction components generalizing cwd with
  | nil => exact h
  | cons component rest ih =>
    have hcwd := follow_cons_eq_ok h
    have hne : cwd ≠ place := by
      rintro rfl
      exact hplace hcwd
    have hcwd' : (tree.put place node).node? cwd = some .directory := (node?_put_of_ne hne).trans hcwd
    rw [follow_cons_of_directory hcwd] at h
    rw [follow_cons_of_directory hcwd']
    split
    · next hempty =>
      rw [if_pos hempty] at h
      exact ih h
    · next hempty =>
      rw [if_neg hempty] at h
      split
      · next hdots =>
        rw [if_pos hdots] at h
        exact ih h
      · next hdots =>
        rw [if_neg hdots] at h
        exact ih h

theorem follow_append (components more : List Text) :
    tree.follow cwd (components ++ more) =
      (tree.follow cwd components).bind fun place => tree.follow place more := by
  induction components generalizing cwd with
  | nil => rfl
  | cons component rest ih =>
    rw [List.cons_append]
    cases hcwd : tree.node? cwd with
    | none =>
      rw [follow, follow, hcwd]
      rfl
    | some node =>
      cases node with
      | file bytes mode =>
        rw [follow, follow, hcwd]
        rfl
      | directory =>
        rw [follow_cons_of_directory hcwd, follow_cons_of_directory hcwd]
        split
        · exact ih
        · split
          · exact ih
          · exact ih

theorem resolve_put (hplace : tree.node? place ≠ some .directory)
    (h : tree.resolve cwd path = .ok other) : (tree.put place node).resolve cwd path = .ok other := by
  unfold resolve at h ⊢
  split at h
  · cases h
  · exact follow_put hplace h
  · exact follow_put hplace h

/-- A slash behind a path is followed by an empty component, which is passed in a directory. -/
theorem follow_splitAt_directory {above name : Text} (hname : '/' ∉ name)
    (h : tree.follow cwd (Text.splitAt '/' (above ++ '/' :: name)) = .ok place) :
    ∃ directory, tree.follow cwd (Text.splitAt '/' (above ++ ['/'])) = .ok directory ∧
      tree.node? directory = some .directory := by
  rw [Text.splitAt_append_cons, Text.splitAt_of_notMem hname, follow_append] at h
  cases habove : tree.follow cwd (Text.splitAt '/' above) with
  | error e =>
    rw [habove] at h
    cases h
  | ok directory =>
    rw [habove] at h
    have hdirectory := follow_cons_eq_ok h
    refine ⟨directory, ?_, hdirectory⟩
    rw [Text.splitAt_append_cons, follow_append, habove]
    show tree.follow directory [[]] = .ok directory
    rw [follow_cons_of_directory hdirectory, if_pos (.inl rfl)]
    rfl

theorem resolve_of_ne {c : Char} (h : c ≠ '/') (rest : Text) :
    tree.resolve cwd (c :: rest) = tree.follow cwd (Text.splitAt '/' (c :: rest)) := by
  unfold resolve
  split
  · contradiction
  · next heq => exact absurd (List.cons.inj heq).1 h
  · rfl

/-- The directory of a path is what stands before the last slash, with it. -/
theorem directory_cases (path : Text) :
    ('/' ∉ path ∧ Path.directory path = ['.']) ∨
      ∃ above name, path = above ++ '/' :: name ∧ '/' ∉ name ∧ Path.directory path = above ++ ['/'] := by
  have hsplit : path = (path.reverse.dropWhile (· ≠ '/')).reverse ++
      (path.reverse.takeWhile (· ≠ '/')).reverse := by
    rw [← List.reverse_append, List.takeWhile_append_dropWhile, List.reverse_reverse]
  have hname : '/' ∉ (path.reverse.takeWhile (· ≠ '/')).reverse := by
    intro hmem
    simpa using List.mem_takeWhile_imp (List.mem_reverse.1 hmem)
  unfold Path.directory
  cases habove : path.reverse.dropWhile (· ≠ '/') with
  | nil =>
    rw [habove] at hsplit
    exact .inl ⟨hsplit ▸ hname, rfl⟩
  | cons c rest =>
    have hc : c = '/' := by
      have hhead := List.head?_dropWhile_not (· ≠ '/') path.reverse
      rw [habove] at hhead
      simpa using hhead
    rw [habove, List.reverse_cons, List.append_assoc, hc] at hsplit
    refine .inr ⟨rest.reverse, _, hsplit, hname, ?_⟩
    show (c :: rest).reverse = _
    rw [List.reverse_cons, hc]

/-- What a path names is in a directory, which the path names without its last component. -/
theorem exists_directory (h : tree.resolve cwd path = .ok place) :
    ∃ directory, tree.resolve cwd (Path.directory path) = .ok directory ∧
      tree.node? directory = some .directory := by
  rcases directory_cases path with ⟨hslash, hdirectory⟩ | ⟨above, name, rfl, hname, hdirectory⟩
  · rw [hdirectory]
    cases path with
    | nil => cases h
    | cons c rest =>
      have hc : c ≠ '/' := fun hc => hslash (hc ▸ List.mem_cons_self)
      rw [resolve_of_ne hc, Text.splitAt_of_notMem hslash] at h
      have hcwd := follow_cons_eq_ok h
      refine ⟨cwd, ?_, hcwd⟩
      show tree.follow cwd [['.']] = .ok cwd
      rw [follow_cons_of_directory hcwd, if_pos (.inr rfl)]
      rfl
  · rw [hdirectory]
    cases above with
    | nil => exact ⟨[], rfl, rfl⟩
    | cons c above =>
      by_cases hc : c = '/'
      · rw [hc] at h ⊢
        have hfollow : tree.follow [] (Text.splitAt '/' (above ++ '/' :: name)) = .ok place := h
        exact follow_splitAt_directory hname hfollow
      · have hfollow : tree.follow cwd (Text.splitAt '/' (c :: above ++ '/' :: name)) = .ok place :=
          (resolve_of_ne hc _).symm.trans h
        rw [List.cons_append, resolve_of_ne hc]
        exact follow_splitAt_directory hname hfollow

/-! ## Reading and writing -/

theorem read_eq_ok_iff :
    tree.read cwd path = .ok bytes ↔
      ∃ place mode, tree.resolve cwd path = .ok place ∧ tree.node? place = some (.file bytes mode) := by
  unfold read
  cases tree.resolve cwd path with
  | error e => simp [bind, Except.bind]
  | ok place =>
    simp only [bind, Except.bind, Except.ok.injEq, exists_and_left, exists_eq_left']
    cases tree.node? place with
    | none => simp
    | some node =>
      cases node with
      | directory => simp
      | file other mode => simp

/-- The absolute path of the directory of a file that can be read. -/
theorem canonical?_directory_of_read (h : tree.read cwd path = .ok bytes) :
    ∃ directory, tree.resolve cwd (Path.directory path) = .ok directory ∧
      tree.node? directory = some .directory ∧
      tree.canonical? cwd (Path.directory path) = some (render directory) := by
  obtain ⟨place, mode, hplace, -⟩ := read_eq_ok_iff.1 h
  obtain ⟨directory, hresolve, hnode⟩ := exists_directory hplace
  refine ⟨directory, hresolve, hnode, ?_⟩
  rw [canonical?, hresolve]
  simp [hnode]

/-- A write puts the file at the place that its path names, where no directory is. -/
theorem exists_put_of_write (h : tree.write cwd path bytes mode = .ok written) :
    ∃ place, tree.resolve cwd path = .ok place ∧ tree.node? place ≠ some .directory ∧
      written = tree.put place (.file bytes mode) := by
  unfold write at h
  split at h
  · simp only [bind, Except.bind] at h
    split at h
    · split at h <;> cases h
    · cases h
  · cases hplace : tree.resolve cwd path with
    | error e =>
      rw [hplace] at h
      cases h
    | ok place =>
      rw [hplace] at h
      simp only [bind, Except.bind] at h
      refine ⟨place, rfl, ?_⟩
      split at h
      · cases h
      · next hnode =>
        cases h
        exact ⟨hnode, rfl⟩

/-- What a write leaves: the file at one place, with its mode, and everything else as it was. -/
structure Wrote (tree : FileTree) (cwd : Place) (path : Text) (bytes : Bytes) (mode : Nat)
    (written : FileTree) (place : Place) : Prop where
  resolve : tree.resolve cwd path = .ok place
  node : written.node? place = some (.file bytes mode)
  others : ∀ other, other ≠ place → written.node? other = tree.node? other
  read : written.read cwd path = .ok bytes

theorem exists_wrote (h : tree.write cwd path bytes mode = .ok written) :
    ∃ place, Wrote tree cwd path bytes mode written place := by
  obtain ⟨place, hplace, hnode, rfl⟩ := exists_put_of_write h
  have hput : (tree.put place (.file bytes mode)).node? place = some (.file bytes mode) :=
    node?_put (ne_nil_of_node? hnode)
  exact ⟨place, hplace, hput, fun _ => node?_put_of_ne,
    read_eq_ok_iff.2 ⟨place, mode, resolve_put hnode hplace, hput⟩⟩

end BuildScript.FileTree
