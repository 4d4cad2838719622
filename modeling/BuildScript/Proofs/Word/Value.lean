import BuildScript.Proofs.Posix.Expansion
import BuildScript.Word.Basic

/-!
# The value of a word

What a word of a build file stands for when the variables have certain values, which names it refers to,
and where it holds braces. A word is taken as it was written: no shell is involved here.
-/

namespace BuildScript

/-- What a modifier makes of the value of its variable and that of its word. -/
def Choice.pick (choice : Choice) (own arg : Text) : Text :=
  match choice with
  | .default => if own = [] then arg else own
  | .alternate => if own = [] then [] else arg

namespace Word

/-- The text that a word stands for. -/
def value (ρ : Vars) : Word → Text
  | .nil => []
  | .char c rest => c :: value ρ rest
  | .var name rest => ρ.text name ++ value ρ rest
  | .cond name choice arg rest => choice.pick (ρ.text name) (value ρ arg) ++ value ρ rest

/-- The names that a word refers to, in modifiers too, from left to right. -/
def names : Word → List Text
  | .nil => []
  | .char _ rest => names rest
  | .var name rest => name :: names rest
  | .cond name _ arg rest => name :: names arg ++ names rest

/-- Whether a word refers to variables by names that are ones. -/
def named (w : Word) : Bool := w.names.all isName

/-- Whether no reference of a word has a modifier. -/
def unmodified : Word → Bool
  | .nil => true
  | .char _ rest | .var _ rest => unmodified rest
  | .cond _ _ _ _ => false

/-- Whether no character of a word closes a brace, in modifiers neither. -/
def braceFree : Word → Bool
  | .nil => true
  | .char c rest => c != '}' && braceFree rest
  | .var _ rest => braceFree rest
  | .cond _ _ arg rest => braceFree arg && braceFree rest

/-- Whether the words of all modifiers are free of characters that close a brace. -/
def closed : Word → Bool
  | .nil => true
  | .char _ rest | .var _ rest => closed rest
  | .cond _ _ arg rest => braceFree arg && closed rest

theorem value_append (ρ : Vars) (v w : Word) : value ρ (v ++ w) = value ρ v ++ value ρ w := by
  induction v with
  | nil => rfl
  | char c rest ih => simp [value, ih]
  | var name rest ih => simp [value, ih]
  | cond name choice arg rest _ ih => simp [value, ih]

@[simp] theorem value_literal (ρ : Vars) (t : Text) : value ρ (literal t) = t := by
  induction t with
  | nil => rfl
  | cons c rest ih => simp [literal, value, ih]

theorem names_append (v w : Word) : names (v ++ w) = names v ++ names w := by
  induction v with
  | nil => rfl
  | char c rest ih => simp [names, ih]
  | var name rest ih => simp [names, ih]
  | cond name choice arg rest _ ih => simp [names, ih]

theorem named_append (v w : Word) : (v ++ w).named = (v.named && w.named) := by
  rw [named, names_append, List.all_append, named, named]

@[simp] theorem names_literal (t : Text) : names (literal t) = [] := by
  induction t with
  | nil => rfl
  | cons c rest ih => simp [literal, names, ih]

@[simp] theorem named_literal (t : Text) : (literal t).named = true := by
  simp [named]

/-- Words with the same values for all names that they refer to have the same value. -/
theorem value_congr {ρ σ : Vars} {w : Word} (h : ∀ name ∈ w.names, ρ.text name = σ.text name) :
    value ρ w = value σ w := by
  induction w with
  | nil => rfl
  | char c rest ih => simp only [value, ih h]
  | var name rest ih =>
    have hrest : ∀ other ∈ rest.names, ρ.text other = σ.text other := fun other hother =>
      h other (List.mem_cons_of_mem _ hother)
    simp only [value, ih hrest, h name (by simp [names])]
  | cond name choice arg rest iharg ihrest =>
    have harg : ∀ other ∈ arg.names, ρ.text other = σ.text other := fun other hother =>
      h other (by simp [names, hother])
    have hrest : ∀ other ∈ rest.names, ρ.text other = σ.text other := fun other hother =>
      h other (by simp [names, hother])
    simp only [value, iharg harg, ihrest hrest, h name (by simp [names])]

theorem closed_append (v w : Word) : (v ++ w).closed = (v.closed && w.closed) := by
  induction v with
  | nil => rfl
  | char c rest ih => simpa [closed] using ih
  | var name rest ih => simpa [closed] using ih
  | cond name choice arg rest _ ih => simp [closed, ih, Bool.and_assoc]

theorem closed_literal (t : Text) : (literal t).closed = true := by
  induction t with
  | nil => rfl
  | cons c rest ih => rwa [literal, closed]

theorem unmodified_append (v w : Word) : (v ++ w).unmodified = (v.unmodified && w.unmodified) := by
  induction v with
  | nil => rfl
  | char c rest ih => simpa [unmodified] using ih
  | var name rest ih => simpa [unmodified] using ih
  | cond name choice arg rest => rfl

theorem closed_of_unmodified {w : Word} (h : w.unmodified = true) : w.closed = true := by
  induction w with
  | nil => rfl
  | char c rest ih => exact ih h
  | var name rest ih => exact ih h
  | cond name choice arg rest => cases h

theorem eq_nil_of_value_eq {w : Word} (hw : w.unmodified = true) (h : ∀ ρ, value ρ w = []) :
    w = .nil := by
  have hvalue := h fun _ => some ['a']
  cases w with
  | nil => rfl
  | char c rest => cases hvalue
  | var name rest => cases hvalue
  | cond name choice arg rest => cases hw

theorem not_forall_value_char_eq_var (c : Char) (v : Word) (name : Text) (w : Word) :
    ¬ ∀ ρ, value ρ (.char c v) = value ρ (.var name w) := by
  intro h
  have ha : c = 'a' := (List.cons.inj (h fun _ => some ['a'])).1
  have hb : c = 'b' := (List.cons.inj (h fun _ => some ['b'])).1
  exact absurd (ha.symm.trans hb) (by decide)

theorem eq_of_value_var_eq {name other : Text} {v w : Word}
    (h : ∀ ρ, value ρ (.var name v) = value ρ (.var other w)) : name = other := by
  have hvalue := h fun n => some (if n = name then ['a'] else ['b'])
  by_cases hname : other = name
  · exact hname.symm
  · simp [value, Vars.text, hname] at hvalue

/-- Words without modifiers that have the same value whatever the variables are the same word. -/
theorem eq_of_value_eq {v w : Word} (hv : v.unmodified = true) (hw : w.unmodified = true)
    (h : ∀ ρ, value ρ v = value ρ w) : v = w := by
  induction v generalizing w with
  | nil => exact (eq_nil_of_value_eq hw fun ρ => (h ρ).symm).symm
  | char c v ih =>
    cases w with
    | nil => exact eq_nil_of_value_eq (w := .char c v) hv h
    | char d w =>
      obtain rfl : c = d := (List.cons.inj (h fun _ => none)).1
      exact congrArg (Word.char c) (ih hv hw fun ρ => (List.cons.inj (h ρ)).2)
    | var name w => exact absurd h (not_forall_value_char_eq_var c v name w)
    | cond name choice arg w => cases hw
  | var name v ih =>
    cases w with
    | nil => exact eq_nil_of_value_eq (w := .var name v) hv h
    | char d w => exact absurd (fun ρ => (h ρ).symm) (not_forall_value_char_eq_var d w name v)
    | var other w =>
      obtain rfl := eq_of_value_var_eq h
      exact congrArg (Word.var name) (ih hv hw fun ρ => List.append_cancel_left (h ρ))
    | cond name choice arg w => cases hw
  | cond name choice arg v => cases hv

end Word

end BuildScript
