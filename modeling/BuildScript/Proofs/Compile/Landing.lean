import BuildScript.Proofs.Compile.Sources
import BuildScript.Proofs.Word.Ends

/-!
# Where a delivery lands

A delivery makes a directory and then brings its sources there. What the directory is, and whether a file gets
the path of the destination or one inside of it, is told by the slash at the end of the destination, by the
number of sources and by the archives among them. If the destination has no references, all that is brought lands
in the directory that was made (`Delivery.LandsIn`, `State.Reachable.landsIn`).
-/

namespace BuildScript

open BuildScript.Path (IsFileName endsInSlash withoutSlash slashed)
open Posix.Command (makeDirectory copy copies fetch unpack)

/-- Whether a command makes the directory or brings something to it: it copies into the directory, or the only
source to a path in it, fetches to a path in it, or unpacks there. -/
inductive Delivery.LandsIn (d : Delivery) (dir : Text) : Posix.Command → Prop
  | make : LandsIn d dir (makeDirectory (.word (.literal dir)))
  | copyInto (sources : List Word) : LandsIn d dir (copy sources (.literal dir))
  | copyTo (source : Word) {path : Text} (hsources : d.sources.length = 1) (hslash : endsInSlash path = false)
    (hparent : Path.parent path = dir) : LandsIn d dir (copy [source] (.literal path))
  | fetch {target : Text} (url : Text) (hparent : Path.parent target = withoutSlash dir) :
    LandsIn d dir (fetch (.literal target) url)
  | unpack (archive : Word) : LandsIn d dir (unpack archive (.literal dir))

/-! ## Names of fetched files -/

theorem Percent.notMem_encode {encoded : Char → Bool} {t : Text} (h : '/' ∉ t) : '/' ∉ encode encoded t := by
  have hdigit : ∀ k < 16, (Nat.digitChar k).toUpper ≠ '/' := by decide
  have hcapital : ∀ n, Hex.capital n ≠ '/' := fun n => hdigit (n % 16) (Nat.mod_lt n (by decide))
  intro hmem
  obtain ⟨c, hc, hmem⟩ := List.mem_flatMap.1 hmem
  split at hmem
  · obtain ⟨b, -, hmem⟩ := List.mem_flatMap.1 hmem
    simp only [ofByte, List.mem_cons, List.not_mem_nil, or_false] at hmem
    rcases hmem with hmem | hmem | hmem
    · exact absurd hmem (by decide)
    · exact hcapital _ hmem.symm
    · exact hcapital _ hmem.symm
  · exact h (List.mem_singleton.1 hmem ▸ hc)

namespace Url

theorem notMem_of_mem_segmentsOf {t segment : Text} (h : segment ∈ segmentsOf t) : '/' ∉ segment := by
  rcases mem_of_mem_resolveFrom h with h | h | rfl
  · cases h
  · obtain ⟨u, hu, rfl⟩ := List.mem_map.1 h
    exact Percent.notMem_encode (Text.notMem_of_mem_splitAt hu)
  · exact List.not_mem_nil

theorem notMem_of_mem_path {t segment : Text} {u : Url} (h : ofText? t = some u) (hsegment : segment ∈ u.path) :
    '/' ∉ segment := by
  obtain ⟨written, hpath⟩ := (isRead_of_ofText? h).path
  exact notMem_of_mem_segmentsOf (hpath ▸ hsegment)

/-- The file that is fetched has the name of a file. -/
theorem isFileName_fileName {t : Text} {u : Url} (h : ofText? t = some u) : IsFileName u.fileName := by
  unfold fileName
  split
  · exact ⟨by decide, by decide⟩
  · exact ⟨by decide, by decide⟩
  · next name hne hname =>
    exact ⟨fun hnil => hne (hnil ▸ rfl), notMem_of_mem_path h (List.mem_of_getLast? hname)⟩

end Url

/-! ## The directory -/

namespace Delivery

/-- The directory that a delivery makes, if its destination is a path without references. -/
def directoryOf (d : Delivery) (unpacks : Bool) (path : Text) : Text :=
  if unpacks || d.intoDirectory then path else Path.parent path

variable {d : Delivery} {o : Options} {files : FileView} {i : Instruction} {path : Text} {unpacks : Bool}

theorem not_endsInSlash_of_not_intoDirectory (hdest : d.dest = .literal path) (h : ¬d.intoDirectory = true) :
    endsInSlash path = false ∧ d.sources.length ≤ 1 := by
  rw [intoDirectory, hdest, Word.endsWith_slash_literal, Bool.or_eq_true, not_or, decide_eq_true_eq] at h
  exact ⟨by simpa using h.1, Nat.le_of_not_lt h.2⟩

theorem directoryOperand_eq (hdest : d.dest = .literal path) :
    d.directoryOperand unpacks = .word (.literal (d.directoryOf unpacks path)) := by
  unfold directoryOperand directoryOf
  split
  · rw [hdest]
  · rw [hdest, Word.text?_literal]

theorem isRooted_directoryOf (hroot : Path.IsRooted path) : Path.IsRooted (d.directoryOf unpacks path) := by
  unfold directoryOf
  split
  · exact hroot
  · exact Path.isRooted_parent hroot

theorem normalize_directoryOf (hdest : d.dest = .literal path) (hnormal : Path.normalize path = path) :
    Path.normalize (d.directoryOf unpacks path) = d.directoryOf unpacks path := by
  unfold directoryOf
  split
  · exact hnormal
  · next h =>
    rw [Bool.or_eq_true, not_or] at h
    exact Path.normalize_parent hnormal (not_endsInSlash_of_not_intoDirectory hdest h.2).1

/-- A file gets a path in the directory that was made. -/
theorem exists_target (hdest : d.dest = .literal path) (hnormal : Path.normalize path = path) {use : Use}
    (huse : use ≠ .unpacked) (hsources : d.usedAs o files i use ≠ []) {name : Text} (hname : IsFileName name) :
    ∃ target, d.target name = .literal target ∧
      Path.parent target =
        withoutSlash (d.directoryOf (!(d.usedAs o files i .unpacked).isEmpty) path) := by
  rw [target, directoryOf]
  by_cases hinto : d.intoDirectory = true
  · have hne : path ≠ [] := by
      rw [← hnormal]
      exact List.cons_ne_nil _ _
    refine ⟨slashed path ++ name, ?_, ?_⟩
    · rw [if_pos hinto, inside, hdest, Word.withSlash_literal, Word.literal_append]
    · rw [if_pos (by simp [hinto]), Path.parent_slashed_append hne hname]
  · have hunpacked : d.usedAs o files i .unpacked = [] := by
      by_contra hne
      exact hinto (intoDirectory_of_uses huse hne hsources)
    refine ⟨path, by rw [if_neg hinto, hdest], ?_⟩
    rw [if_neg (by simp [hinto, hunpacked]),
      Path.withoutSlash_parent hnormal (not_endsInSlash_of_not_intoDirectory hdest hinto).1]

/-- The two ways to choose the path of a file that is fetched. -/
theorem fetchCommand_eq {url : Url} (h : d.inside url.fileName = d.target url.fileName) :
    d.fetchCommand true url = d.fetchCommand false url := by
  unfold fetchCommand
  rw [if_pos rfl, if_neg Bool.false_ne_true, h]

/-! ## Commands and files -/

theorem landsIn_of_mem_copies {sources : List Word} (hdest : d.dest = .literal path)
    (hsources : sources.length ≤ d.sources.length) {c : Posix.Command} (hc : c ∈ copies sources d.dest) :
    d.LandsIn (d.directoryOf unpacks path) c := by
  cases sources with
  | nil => cases hc
  | cons source others =>
    rw [List.mem_singleton.1 hc, hdest]
    by_cases hinto : (unpacks || d.intoDirectory) = true
    · rw [directoryOf, if_pos hinto]
      exact .copyInto _
    · have hplain : ¬d.intoDirectory = true := fun h => hinto (by simp [h])
      obtain ⟨hslash, hlength⟩ := not_endsInSlash_of_not_intoDirectory hdest hplain
      rw [List.length_cons] at hsources
      obtain rfl : others = [] := List.eq_nil_of_length_eq_zero (by omega)
      rw [directoryOf, if_neg hinto]
      exact .copyTo source (by rw [List.length_nil] at hsources; omega) hslash rfl

theorem landsIn_work (l : d.Layout o files i) (hdest : d.dest = .literal path)
    (hnormal : Path.normalize path = path) :
    ∀ c ∈ l.work, d.LandsIn (d.directoryOf (!(d.usedAs o files i .unpacked).isEmpty) path) c := by
  intro c hc
  simp only [Layout.work, List.cons_append, List.mem_cons, List.mem_append, List.mem_map] at hc
  rcases hc with rfl | (hc | hc) | ⟨source, hsource, rfl⟩
  · rw [directoryOperand_eq hdest]
    exact .make
  · refine landsIn_of_mem_copies hdest ?_ hc
    rw [List.length_map]
    exact List.filter_sublist.length_le
  · have hfetched : d.usedAs o files i .fetched ≠ [] := ne_nil_of_forall₂ l.fetches_spec hc
    revert c
    refine Posix.forall_mem_of_forall₂ l.fetches_spec ?_
    rintro source c ⟨url, hurl, rfl⟩
    obtain ⟨t, -, ht⟩ := Instruction.exists_text_of_fetched hurl
    obtain ⟨target, htarget, hparent⟩ :=
      exists_target hdest hnormal (by decide) hfetched (Url.isFileName_fileName ht)
    rw [htarget]
    exact .fetch _ hparent
  · have hunpacks : (!(d.usedAs o files i .unpacked).isEmpty) = true := by
      simpa using List.ne_nil_of_mem hsource
    rw [hdest, directoryOf, hunpacks, Bool.true_or, if_pos rfl]
    exact .unpack _

/-- Each file that is embedded is written to a path in the directory that was made. -/
theorem exists_embedLines_of_mem_written (l : d.Layout o files i) (hdest : d.dest = .literal path)
    (hnormal : Path.normalize path = path) :
    ∀ file ∈ l.written, ∃ target bytes, file = embedLines o.pack (Word.literal target).toShell bytes ∧
      Path.parent target =
        withoutSlash (d.directoryOf (!(d.usedAs o files i .unpacked).isEmpty) path) := by
  intro file hfile
  have hembedded : d.usedAs o files i .embedded ≠ [] := ne_nil_of_forall₂ l.written_spec hfile
  revert file
  refine Posix.forall_mem_of_forall₂ l.written_spec ?_
  rintro source lines ⟨_, name, bytes, -, hname, -, rfl⟩
  obtain ⟨target, htarget, hparent⟩ :=
    exists_target hdest hnormal (by decide) hembedded (Path.isFileName_of_fileName? hname)
  exact ⟨target, bytes, by rw [htarget], hparent⟩

end Delivery

/-! ## Reachable states -/

/-- The destination of a delivery is a path from the root, which is normalized if it has no references. -/
theorem State.WellFormed.isPlace_dest {escape : Char} {s : State} (h : s.WellFormed escape) {raw : Text}
    {d : Delivery} (hd : s.delivery? raw = some d) : d.dest.IsPlace := by
  obtain ⟨sources, dest, -, -, rfl⟩ := State.delivery?_eq_some_iff.1 hd
  have hresolved := h.isPlace_resolve (s.expand dest)
  refine ⟨h.startsWith_dest hd, ?_⟩
  show ∀ t, (s.destination dest).text? = some t → _
  unfold State.destination
  split
  · intro t ht
    rw [Word.text?_withSlash] at ht
    obtain ⟨path, hpath, rfl⟩ := Option.map_eq_some_iff.1 ht
    exact Path.normalize_slashed (hresolved.normal path hpath)
  · exact hresolved.normal

variable {o : Options} {files : FileView} {i : Instruction} {lines : List Text}

/-- Whatever `COPY` and `ADD` bring lands in the directory that they make. If the destination is a path without
references, this directory is normalized and told from the root; a file that is embedded or fetched gets a path
in it, archives are unpacked there, and the others are copied there, or to a path in it if there is one source
alone. A URL among archives is fetched to the same path as without them. -/
theorem State.Reachable.landsIn {escape : Char} {s : State} (hs : s.Reachable escape)
    (hkeyword : i.keyword ∈ [.copy, .add]) (hlines : (Step.ofInstruction o files s i).lines = some lines) :
    ∃ d, s.Delivers i d ∧ ∃ l : d.Layout o files i, lines = l.lines ∧
      (∀ path, d.dest.text? = some path →
        ∃ dir, l.work.head? = some (makeDirectory (.word (.literal dir))) ∧
          Path.IsRooted dir ∧ Path.normalize dir = dir ∧ (∀ c ∈ l.work, d.LandsIn dir c) ∧
          ∀ file ∈ l.written, ∃ target bytes, file = embedLines o.pack (Word.literal target).toShell bytes ∧
            Path.parent target = withoutSlash dir) ∧
      (d.usedAs o files i .unpacked ≠ [] → d.usedAs o files i .fetched ≠ [] →
        ∀ url, d.fetchCommand true url = d.fetchCommand false url) := by
  obtain ⟨d, hd, l, hl⟩ := State.exists_delivers_layout hkeyword hlines
  refine ⟨d, hd, l, hl, ?_, ?_⟩
  · intro path hpath
    have hplace := hs.wellFormed.isPlace_dest hd.read
    have hdest := Word.eq_literal_of_text? hpath
    have hnormal := hplace.normal path hpath
    have hroot : Path.IsRooted path := Word.startsWith_literal.1 (hdest ▸ hplace.root)
    refine ⟨d.directoryOf (!(d.usedAs o files i .unpacked).isEmpty) path, ?_,
      Delivery.isRooted_directoryOf hroot, Delivery.normalize_directoryOf hdest hnormal,
      Delivery.landsIn_work l hdest hnormal, Delivery.exists_embedLines_of_mem_written l hdest hnormal⟩
    rw [Delivery.Layout.work, Delivery.directoryOperand_eq hdest]
    rfl
  · intro hunpacked hfetched url
    exact Delivery.fetchCommand_eq (Delivery.inside_eq_target hunpacked hfetched url.fileName)

/-- An archive, a URL and a file that is embedded, brought to a directory that is written without a slash. -/
theorem State.Reachable.landsIn_archive :
    let s := (Step.ofInstruction {} (fun _ => none) (.initial '\\')
      ⟨.workdir, [], "/srv".toList, 1, []⟩).state
    let i : Instruction := ⟨.add, [], "https://b.org/c x.tgz f lib/.".toList, 2, []⟩
    let o : Options := { embed := true }
    let files : FileView := fun path => if path = "./f".toList then some [104, 105] else none
    let d : Delivery :=
      { flags := {}
        sources := ["https://b.org/c", "x.tgz", "f"].map fun t => .literal t.toList
        dest := .literal "/srv/lib/".toList }
    s.Reachable '\\' ∧ s.Delivers i d ∧
      ∃ l : d.Layout o files i, (Step.ofInstruction o files s i).lines = some l.lines ∧
        (∀ c ∈ l.work, d.LandsIn "/srv/lib/".toList c) ∧
        (∀ file ∈ l.written, ∃ target bytes, file = embedLines o.pack (Word.literal target).toShell bytes ∧
          Path.parent target = "/srv/lib".toList) ∧
        ∀ url, d.fetchCommand true url = d.fetchCommand false url := by
  intro s i o files d
  have hs : s.Reachable '\\' := .step .initial {} (fun _ => none) ⟨.workdir, [], "/srv".toList, 1, []⟩
  have hsome : (Step.ofInstruction o files s i).lines.isSome = true := by decide +kernel
  obtain ⟨lines, hlines⟩ := Option.isSome_iff_exists.1 hsome
  obtain ⟨e, he, l, rfl, hlands, hfetch⟩ := hs.landsIn (by decide) hlines
  have hread : s.delivery? i.arguments = some d := by decide +kernel
  obtain rfl : d = e := Option.some.inj (hread.symm.trans he.read)
  obtain ⟨dir, hmake, -, -, hwork, hwritten⟩ := hlands "/srv/lib/".toList (by decide +kernel)
  have hdirectory : d.directoryOf (!(d.usedAs o files i .unpacked).isEmpty) "/srv/lib/".toList =
      "/srv/lib/".toList := by
    decide +kernel
  have hdir : dir = "/srv/lib/".toList := by
    have hdest : d.dest = .literal "/srv/lib/".toList := rfl
    rw [Delivery.Layout.work, Delivery.directoryOperand_eq hdest, hdirectory] at hmake
    have htexts := congrArg Word.text? (Posix.Operand.word.inj (List.cons.inj
      (List.cons.inj (List.cons.inj (Option.some.inj hmake)).2).2).1)
    rw [Word.text?_literal, Word.text?_literal] at htexts
    exact (Option.some.inj htexts).symm
  subst hdir
  exact ⟨hs, he, l, hlines, hwork, hwritten, hfetch (by decide +kernel) (by decide +kernel)⟩

end BuildScript
