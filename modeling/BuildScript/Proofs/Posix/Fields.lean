import Mathlib.Data.List.Forall2
import BuildScript.Proofs.Posix.Quoting

/-!
# Words in a row

Words that are written next to each other, with one space between neighbours, are read one by one
(`run_join`), and what is read are words and nothing else (`tokens_spaced`). So each of them becomes one
field of its command, and the field is its value (`fieldsOf?_join_toShell`).
-/

namespace BuildScript

namespace Posix

/-- Whether a mark is part of a word. -/
def Mark.isPart : Mark → Bool
  | .blank | .op _ => false
  | _ => true

theorem Mark.Inert.isPart {live : Char → Bool} {m : Mark} (h : m.Inert live) : m.isPart = true := by
  cases h <;> rfl

/-- Whether marks are one word. -/
def IsWord (ms : List Mark) : Prop := ms ≠ [] ∧ ∀ m ∈ ms, m.isPart = true

theorem isWord_of_inert {live : Char → Bool} {ms : List Mark} (h : ∀ m ∈ ms, m.Inert live)
    (hsolid : ms.any Mark.isSolid = true) : IsWord ms := by
  refine ⟨?_, fun m hm => (h m hm).isPart⟩
  rintro rfl
  cases hsolid

theorem isPart_of_ne {m : Mark} (hblank : m ≠ .blank) (hop : ∀ c, m ≠ .op c) : m.isPart = true := by
  cases m with
  | blank => exact absurd rfl hblank
  | op c => exact absurd rfl (hop c)
  | _ => rfl

theorem collect_part {m : Mark} (h : m.isPart = true) (rest : List Mark) :
    collect (m :: rest) = (some (m :: (collect rest).1.getD []), (collect rest).2) := by
  cases m with
  | blank => cases h
  | op c => cases h
  | _ => rfl

theorem collect_append {ms : List Mark} (h : IsWord ms) (rest : List Mark) :
    collect (ms ++ rest) = (some (ms ++ (collect rest).1.getD []), (collect rest).2) := by
  obtain ⟨hne, hparts⟩ := h
  induction ms with
  | nil => exact absurd rfl hne
  | cons m ms ih =>
    rw [List.cons_append, collect_part (hparts m List.mem_cons_self)]
    by_cases hms : ms = []
    · simp [hms]
    · rw [ih hms fun k hk => hparts k (List.mem_cons_of_mem _ hk)]
      rfl

theorem tokens_word {ms : List Mark} (h : IsWord ms) : tokens ms = [.word ms] := by
  have hcollect := collect_append h []
  rw [List.append_nil] at hcollect
  simp [tokens, hcollect, collect]

theorem tokens_blank {ms : List Mark} (h : IsWord ms) (rest : List Mark) :
    tokens (ms ++ .blank :: rest) = .word ms :: tokens rest := by
  rw [tokens, collect_append h, tokens]
  simp [collect]

/-- The marks of words with a blank between neighbours. -/
def spaced : List (List Mark) → List Mark
  | [] => []
  | [ms] => ms
  | ms :: others => ms ++ .blank :: spaced others

theorem spaced_cons {ms : List Mark} {others : List (List Mark)} (h : others ≠ []) :
    spaced (ms :: others) = ms ++ .blank :: spaced others := by
  cases others with
  | nil => exact absurd rfl h
  | cons ns rest => rfl

/-- What holds of no word and of one, and of a word in front of others if it holds of these, holds of words with
a blank between neighbours. -/
theorem spaced_induction {P : List (List Mark) → List Mark → Prop} (hnil : P [] [])
    (hlast : ∀ ms, IsWord ms → P [ms] ms)
    (hcons : ∀ ms others, IsWord ms → others ≠ [] → P others (spaced others) →
      P (ms :: others) (ms ++ .blank :: spaced others)) {mss : List (List Mark)}
    (h : ∀ ms ∈ mss, IsWord ms) : P mss (spaced mss) := by
  induction mss with
  | nil => exact hnil
  | cons ms others ih =>
    obtain ⟨hms, hothers⟩ := List.forall_mem_cons.1 h
    by_cases hne : others = []
    · subst hne
      exact hlast ms hms
    · rw [spaced_cons hne]
      exact hcons ms others hms hne (ih hothers)

theorem tokens_spaced {mss : List (List Mark)} (h : ∀ ms ∈ mss, IsWord ms) :
    tokens (spaced mss) = mss.map .word := by
  refine spaced_induction (P := fun mss ms => tokens ms = mss.map .word) rfl ?_ ?_ h
  · intro ms hms
    exact tokens_word hms
  · intro ms others hms _ ih
    rw [tokens_blank hms, ih]
    rfl

theorem words?_map_word (mss : List (List Mark)) : words? (mss.map .word) = some mss := by
  induction mss with
  | nil => rfl
  | cons ms others ih => simp [words?, ih]

theorem forall_mem_of_forall₂ {α β : Type} {R : α → β → Prop} {P : β → Prop} {xs : List α}
    {ys : List β} (h : List.Forall₂ R xs ys) (hP : ∀ x y, R x y → P y) : ∀ y ∈ ys, P y := by
  induction h with
  | nil => simp
  | cons hR _ ih => exact List.forall_mem_cons.2 ⟨hP _ _ hR, ih⟩

namespace Reader

theorem IsBare.step_space {r : Reader} (h : r.IsBare) : r.step ' ' = r.add .blank := by
  rw [h.step_eq_bare rfl]
  simp [bare]

/-- Texts that are each read as a word are read one by one when they stand in a row. -/
theorem run_join {α : Type} {R : α → List Mark → Prop} {text : α → Text} {xs : List α}
    (h : ∀ x ∈ xs, ∀ r : Reader, r.IsBare → ∃ ms, r.run (text x) = r.addAll ms ∧ R x ms)
    {r : Reader} (hr : r.IsBare) :
    ∃ mss, r.run (Text.join [' '] (xs.map text)) = r.addAll (spaced mss) ∧ List.Forall₂ R xs mss := by
  induction xs generalizing r with
  | nil => exact ⟨[], by simp [Text.join, spaced], .nil⟩
  | cons x others ih =>
    obtain ⟨ms, hms, hR⟩ := h x List.mem_cons_self r hr
    cases others with
    | nil => exact ⟨[ms], by simpa [Text.join, spaced] using hms, .cons hR .nil⟩
    | cons y rest =>
      obtain ⟨mss, hmss, hall⟩ :=
        ih (fun z hz => h z (List.mem_cons_of_mem _ hz)) ((hr.addAll ms).add .blank)
      refine ⟨ms :: mss, ?_, .cons hR hall⟩
      have hspaced : spaced (ms :: mss) = ms ++ .blank :: spaced mss := by
        cases hall
        rfl
      rw [List.map_cons, List.map_cons, Text.join_cons_cons, ← List.map_cons, List.append_assoc,
        run_append, hms, List.singleton_append, run_cons, (hr.addAll ms).step_space, hmss,
        add_eq_addAll, addAll_addAll, addAll_addAll, hspaced]
      rfl

end Reader

theorem read_of_run {t : Text} {ms : List Mark} (h : Reader.start.run t = Reader.start.addAll ms) :
    read t = some (tokens ms) := by
  rw [read, h]
  rfl

theorem allFields?_of_forall₂ {m : Machine} {ρ : Vars} {ws : List Word} {mss : List (List Mark)}
    (h : List.Forall₂ (fun w ms => fields? m ρ ms = some [w.value ρ]) ws mss) :
    allFields? m ρ mss = some (ws.map (Word.value ρ)) := by
  induction h with
  | nil => rfl
  | cons hfirst _ ih => simp [allFields?, hfirst, ih]

/-- A word that is read as it was meant is one field, its value. -/
theorem Reads.fields? {w : Word} {ms : List Mark} (h : Reads noChar w ms)
    (hsolid : ms.any Mark.isSolid = true) (hclosed : w.closed = true) (m : Machine) (ρ : Vars) :
    Posix.fields? m ρ ms = some [w.value ρ] := by
  rw [fields?_of_inert h.inert hsolid, h.value hclosed m ρ]
  rfl

/-- Words whose references have no modifiers, written as shell words with single spaces between them, are
the fields of a command, each with the value of its word: whatever the values of the variables are, no
field is split, dropped, merged with another or matched against files. -/
theorem fieldsOf?_join_toShell {ws : List Word}
    (h : ∀ w ∈ ws, w.named = true ∧ w.unmodified = true) (m : Machine) (ρ : Vars) :
    fieldsOf? m ρ (Text.join [' '] (ws.map Word.toShell)) = some (ws.map (Word.value ρ)) := by
  have hread : ∀ w ∈ ws, ∀ r : Reader, r.IsBare → ∃ ms, r.run w.toShell = r.addAll ms ∧
      IsWord ms ∧ Posix.fields? m ρ ms = some [w.value ρ] := by
    intro w hw r hr
    obtain ⟨hnamed, hunmodified⟩ := h w hw
    obtain ⟨ms, hms, hsolid, hreads⟩ := Reader.run_toShell noChar hr hnamed
    exact ⟨ms, hms, isWord_of_inert hreads.inert hsolid,
      hreads.fields? hsolid (Word.closed_of_unmodified hunmodified) m ρ⟩
  obtain ⟨mss, hrun, hall⟩ := Reader.run_join hread Reader.isBare_start
  have hwords : ∀ ms ∈ mss, IsWord ms := forall_mem_of_forall₂ hall fun _ _ hw => hw.1
  have hfields := allFields?_of_forall₂ (hall.imp fun w ms hw => hw.2)
  simp [fieldsOf?, read_of_run hrun, tokens_spaced hwords, words?_map_word, hfields]

/-- Quotes, operators, a tilde, patterns and an empty word, and a value with a blank and a pattern. -/
theorem fieldsOf?_join_toShell_quotes :
    fieldsOf? (.bare "file".toList) (fun _ => some "a *".toList)
        (Text.join [' '] ([.literal "~it's; [*]".toList, .var "A".toList (.literal "#".toList), .nil].map
          Word.toShell)) =
      some ["~it's; [*]".toList, "a *#".toList, []] := by
  rw [fieldsOf?_join_toShell (by decide)]
  rfl

end Posix

end BuildScript
