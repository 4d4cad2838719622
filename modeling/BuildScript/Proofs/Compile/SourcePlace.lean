import BuildScript.Proofs.Compile.Anchoring
import BuildScript.Proofs.Compile.Embedded
import BuildScript.Proofs.Posix.PatternQuoting

/-!
# Where a source is, now and then

A source without references and pattern characters is looked for twice: at the path that embedding reads when the
script is made (`sourcePath`), and at the operand that the script has for it if it is not embedded. The two join
the source to the directory of the build context in different ways, but name the same place, unless the directory
has the empty text (`samePlace_located_iff`). The operand is written as a pattern, though, so the pattern
characters of the directory are live in it (`located_literal_iff`).
-/

namespace BuildScript

namespace Path

/-- The components of a path, but for those that are empty or a dot. -/
def names (path : Text) : List Text := (Text.splitAt '/' path).filter fun c => decide (c ≠ [] ∧ c ≠ ['.'])

/-- Whether two paths name the same place: both are paths from the root, or none is, and they have the same
components. -/
def SamePlace (p q : Text) : Prop := (IsRooted p ↔ IsRooted q) ∧ names p = names q

theorem names_append_cons (s t : Text) : names (s ++ '/' :: t) = names s ++ names t := by
  rw [names, Text.splitAt_append_cons, List.filter_append]
  rfl

theorem names_cons (t : Text) : names ('/' :: t) = names t := names_append_cons [] t

theorem names_slashes {slashes : Text} (h : ∀ c ∈ slashes, c = '/') : names slashes = [] := by
  induction slashes with
  | nil => rfl
  | cons c rest ih =>
    obtain ⟨rfl, hrest⟩ := List.forall_mem_cons.1 h
    rw [names_cons, ih hrest]

/-- Slashes at the end of a path are no components. -/
theorem names_dropTrailing (path : Text) : names (Text.dropTrailing '/' path) = names path := by
  obtain ⟨slashes, hslashes, hpath⟩ := exists_eq_dropTrailing_append path
  conv_rhs => rw [hpath]
  cases slashes with
  | nil => rw [List.append_nil]
  | cons c rest =>
    obtain ⟨rfl, hrest⟩ := List.forall_mem_cons.1 hslashes
    rw [names_append_cons, names_slashes hrest, List.append_nil]

theorem below_of_isRooted {path : Text} (h : IsRooted path) (base : Text) : below base path = path := by
  cases path with
  | nil => cases h
  | cons c rest =>
    obtain rfl := Option.some.inj h
    rfl

theorem below_of_not_isRooted {path : Text} (h : ¬IsRooted path) (base : Text) :
    below base path = if base = [] ∨ endsInSlash base then base ++ path else base ++ '/' :: path := by
  cases path with
  | nil => rfl
  | cons c rest =>
    unfold below
    split
    · next heq =>
      cases heq
      exact absurd rfl h
    · rfl

/-- A path below a directory has the components of the directory and then its own. -/
theorem names_below {path : Text} (h : ¬IsRooted path) (base : Text) :
    names (below base path) = names base ++ names path := by
  rw [below_of_not_isRooted h]
  by_cases hnil : base = []
  · rw [if_pos (.inl hnil), hnil]
    rfl
  · cases hslash : endsInSlash base with
    | false => rw [if_neg (by simp [hnil]), names_append_cons]
    | true =>
      obtain ⟨front, rfl⟩ := exists_of_endsInSlash hslash
      rw [if_pos (.inr rfl), List.append_assoc, List.singleton_append, names_append_cons, names_append_cons]
      exact congrArg (· ++ names path) (List.append_nil _).symm

theorem isRooted_below_iff {path : Text} (h : ¬IsRooted path) (base : Text) :
    IsRooted (below base path) ↔ IsRooted base := by
  rw [below_of_not_isRooted h]
  cases base with
  | nil => exact iff_of_false h nofun
  | cons c rest => split <;> exact Iff.rfl

end Path

/-- The path of a source in the script, if the directory of the build context was given. -/
def locatedPath (dir source : Text) : Text :=
  if Path.IsRooted source then source else Text.dropTrailing '/' dir ++ '/' :: source

theorem locate_literal {o : Options} {dir : Text} (h : o.contextDir = some dir) (source : Text) :
    o.locate (.literal source) = .literal (locatedPath dir source) := by
  have hstarts := Word.startsWith_literal (t := source)
  unfold locatedPath
  split
  · next hrooted => rw [Options.locate, if_pos (hstarts.2 hrooted)]
  · next hrooted =>
    rw [Options.locate_of_some o (.literal source) h (by simpa using mt hstarts.1 hrooted), Word.literal_append]
    rfl

/-- The directory of the build context may be anything but the empty text. -/
theorem samePlace_located_iff (dir source : Text) :
    Path.SamePlace (locatedPath dir source) (sourcePath (some dir) source) ↔
      Path.IsRooted source ∨ dir ≠ [] := by
  have hpath : sourcePath (some dir) source = Path.below dir source := rfl
  rw [hpath]
  by_cases hrooted : Path.IsRooted source
  · rw [locatedPath, if_pos hrooted, Path.below_of_isRooted hrooted]
    exact iff_of_true ⟨Iff.rfl, rfl⟩ (.inl hrooted)
  · have hnames : Path.names (Text.dropTrailing '/' dir ++ '/' :: source) =
        Path.names (Path.below dir source) := by
      rw [Path.names_append_cons, Path.names_dropTrailing, Path.names_below hrooted]
    rw [locatedPath, if_neg hrooted, Path.SamePlace, and_iff_left hnames, Path.isRooted_below_iff hrooted,
      or_iff_right hrooted]
    rcases dropTrailing_cases dir with ⟨hnil, hdir⟩ | ⟨c, rest, hdrop, hhead⟩
    · rw [hnil, List.nil_append]
      have htrue : Path.IsRooted ('/' :: source) := rfl
      rcases hdir with rfl | hdir
      · exact iff_of_false (fun h => nomatch h.1 htrue) (· rfl)
      · refine iff_of_true (iff_of_true htrue hdir) ?_
        rintro rfl
        cases hdir
    · refine iff_of_true ?_ ?_
      · rw [hdrop, Path.IsRooted, Path.IsRooted, hhead]
        rfl
      · rintro rfl
        cases hhead

theorem hasGlob_located {dir source : Text} (h : Shell.hasGlob source = false) :
    Shell.hasGlob (locatedPath dir source) = false ↔ Path.IsRooted source ∨ Shell.hasGlob dir = false := by
  unfold locatedPath
  split
  · next hrooted => exact iff_of_true h (.inl hrooted)
  · next hrooted =>
    obtain ⟨slashes, hslashes, hdir⟩ := exists_eq_dropTrailing_append dir
    have hnone : Shell.hasGlob slashes = false := by
      rw [Shell.hasGlob, List.any_eq_false]
      intro c hc
      rw [hslashes c hc]
      decide
    have hglob : Shell.hasGlob dir = Shell.hasGlob (Text.dropTrailing '/' dir) := by
      conv_lhs => rw [hdir, Shell.hasGlob, List.any_append, ← Shell.hasGlob, ← Shell.hasGlob, hnone,
        Bool.or_false]
    have hslash : Shell.isGlob '/' = false := by decide
    rw [or_iff_right hrooted, hglob]
    simp only [Shell.hasGlob] at h
    simp [Shell.hasGlob, h, hslash]

/-- For every directory of the build context and every source without references and pattern characters, the
operand that the script has for the source is one word. If it has no live pattern character, it is one field, the
text of the word. Its pattern characters are those of the directory, which are live, unless the source is a path
from the root. Its text and the path that embedding reads name the same place, unless the source is no path from
the root and the directory has the empty text. -/
theorem located_literal_iff {o : Options} {dir : Text} (hdir : o.contextDir = some dir) {source : Text}
    (hsource : Shell.hasGlob source = false) : ∃ atoms : List Posix.Atom,
    (∀ (m : Posix.Machine) (ρ : Vars),
      Posix.wordOf? m ρ (o.locate (.literal source)).toShellGlob = some atoms) ∧
    (atoms.any Posix.Atom.isLive = false ↔ Path.IsRooted source ∨ Shell.hasGlob dir = false) ∧
    (atoms.any Posix.Atom.isLive = false → ∀ (m : Posix.Machine) (ρ : Vars),
      Posix.fieldsOf? m ρ (o.locate (.literal source)).toShellGlob = some [atoms.flatMap Posix.Atom.text]) ∧
    (Path.SamePlace (atoms.flatMap Posix.Atom.text) (sourcePath o.contextDir source) ↔
      Path.IsRooted source ∨ dir ≠ []) ∧
    (o.embed = true → embedPath? o (.literal source) = some (sourcePath o.contextDir source)) := by
  rw [locate_literal hdir, toShellGlob_literal]
  refine ⟨Posix.globAtoms (locatedPath dir source), fun m ρ => Posix.wordOf?_quoteGlob m ρ _, ?_, ?_, ?_, ?_⟩
  · rw [Posix.any_isLive_globAtoms]
    exact hasGlob_located hsource
  · intro hlive m ρ
    rw [Posix.fieldsOf?_quoteGlob, Posix.pathnames, hlive]
    rfl
  · rw [Posix.text_globAtoms, hdir]
    exact samePlace_located_iff dir source
  · intro hembed
    exact embedPath?_eq_some_iff.2 ⟨hembed, source, Word.text?_literal source, hsource, rfl⟩

/-- A relative directory with a blank and slashes at its end. -/
theorem located_literal_iff_relative :
    let o : Options := { contextDir := some "./my ctx//".toList, embed := true }
    (∀ (m : Posix.Machine) (ρ : Vars),
        Posix.fieldsOf? m ρ (o.locate (.literal "./a b".toList)).toShellGlob =
          some ["./my ctx/./a b".toList]) ∧
      embedPath? o (.literal "./a b".toList) = some "./my ctx//./a b".toList ∧
      Path.SamePlace "./my ctx/./a b".toList "./my ctx//./a b".toList := by
  intro o
  obtain ⟨atoms, hword, hlive, hfields, hplace, hembed⟩ :=
    @located_literal_iff o "./my ctx//".toList rfl "./a b".toList (by decide)
  have htext : atoms.flatMap Posix.Atom.text = "./my ctx/./a b".toList := by
    have hatoms : Posix.wordOf? (.bare []) (fun _ => none)
        (o.locate (.literal "./a b".toList)).toShellGlob =
          some (.none :: "./my ctx/./a b".toList.map .quoted) := by
      decide +kernel
    obtain rfl := Option.some.inj (hatoms.symm.trans (hword (.bare []) fun _ => none))
    decide +kernel
  have hsource : sourcePath o.contextDir "./a b".toList = "./my ctx//./a b".toList := by decide
  rw [htext] at hfields hplace
  rw [hsource] at hplace hembed
  exact ⟨hfields (hlive.2 (.inr (by decide))), hembed rfl, hplace.2 (.inr (by decide))⟩

/-- A directory with pattern characters in its name, which match another directory, and one with the empty text,
for which the script copies from the root. -/
theorem located_literal_pattern :
    (compile { contextDir := some "/ctx[1]".toList } (fun _ => none) "COPY a /b".toList).statements =
      ["mkdir -p / && cp -R /ctx[1]/a /b".toList] ∧
    (Posix.wordOf? (.bare []) (fun _ => none) "/ctx[1]/a".toList).map
      (fun atoms => Posix.isMatch (Posix.glyphs atoms) "/ctx1/a".toList) = some true ∧
    (compile { contextDir := some [] } (fun _ => none) "COPY a /b".toList).statements =
      ["mkdir -p / && cp -R /a /b".toList] ∧
    embedPath? { contextDir := some [], embed := true } (.literal "a".toList) = some "a".toList ∧
    ¬Path.SamePlace "/a".toList "a".toList := by
  refine ⟨by decide +kernel, by decide +kernel, by decide +kernel, by decide +kernel, fun h => ?_⟩
  exact absurd (h.1.1 rfl) (by decide)

end BuildScript
