import BuildScript.Text.Hex

/-!
# Quoted JSON text

A text between double quotes. Writing escapes the quote, the backslash and the control characters, with
the short escapes where JSON has them; all else is written as it is. Reading takes every escape of the
format and refuses raw control characters and halves of surrogate pairs.
-/

namespace BuildScript.Json

/-- One character as it is written between the quotes. -/
def escape (c : Char) : Text :=
  if c = '"' then ['\\', '"']
  else if c = '\\' then ['\\', '\\']
  else if c = '\n' then ['\\', 'n']
  else if c = '\r' then ['\\', 'r']
  else if c = '\t' then ['\\', 't']
  else if c.toNat = 8 then ['\\', 'b']
  else if c.toNat = 12 then ['\\', 'f']
  else if c.toNat < 32 then '\\' :: 'u' :: Hex.four c.toNat
  else [c]

/-- A text as a quoted JSON string. -/
def quoted (t : Text) : Text :=
  '"' :: t.flatMap escape ++ ['"']

/-- Reads the character that an escape stands for; the text begins after `\u`. Two escapes that make a
surrogate pair are one character, and half a pair is none. -/
def unicode? (t : Text) : Option (Char × Text) :=
  match Hex.four? t with
  | none => none
  | some (n, rest) =>
    if n < 0xD800 ∨ 0xE000 ≤ n then some (Char.ofNat n, rest)
    else if 0xDC00 ≤ n then none
    else
      match rest with
      | '\\' :: 'u' :: low =>
        match Hex.four? low with
        | none => none
        | some (m, rest) =>
          if 0xDC00 ≤ m ∧ m < 0xE000 then
            some (Char.ofNat (0x10000 + (n - 0xD800) * 1024 + (m - 0xDC00)), rest)
          else none
      | _ => none

/-- Reads the character that an escape stands for; the text begins after the backslash. -/
def unescape? : Text → Option (Char × Text)
  | [] => none
  | c :: rest =>
    if c = '"' ∨ c = '\\' ∨ c = '/' then some (c, rest)
    else if c = 'b' then some (Char.ofNat 8, rest)
    else if c = 'f' then some (Char.ofNat 12, rest)
    else if c = 'n' then some ('\n', rest)
    else if c = 'r' then some ('\r', rest)
    else if c = 't' then some ('\t', rest)
    else if c = 'u' then unicode? rest
    else none

theorem unicode?_length {t rest : Text} {c : Char} (h : unicode? t = some (c, rest)) :
    rest.length < t.length := by
  unfold unicode? at h
  split at h
  · cases h
  · next hn =>
    have := Hex.four?_length hn
    split at h
    · cases h; exact this
    · split at h
      · cases h
      · split at h
        · split at h
          · cases h
          · next hm =>
            have := Hex.four?_length hm
            split at h
            · simp only [Option.some.injEq, Prod.mk.injEq] at h
              obtain ⟨-, rfl⟩ := h
              simp only [List.length_cons] at *
              omega
            · cases h
        · cases h

theorem unescape?_length {t rest : Text} {c : Char} (h : unescape? t = some (c, rest)) :
    rest.length < t.length := by
  cases t with
  | nil => cases h
  | cons d after =>
    by_cases hu : d = 'u'
    · have := unicode?_length (by simpa [unescape?, hu] using h)
      simp only [List.length_cons]
      omega
    · have hrest : rest = after := by
        grind [unescape?]
      simp [hrest]

/-- Reads the characters up to the closing quote; the text begins after the opening one. The answer holds
what follows the closing quote. -/
def body? (t : Text) : Option (Text × Text) :=
  match t with
  | [] => none
  | c :: rest =>
    if c = '"' then some ([], rest)
    else if c = '\\' then
      match h : unescape? rest with
      | none => none
      | some (d, rest') =>
        have : rest'.length < rest.length := unescape?_length h
        (body? rest').map fun (value, after) => (d :: value, after)
    else if c.toNat < 32 then none
    else (body? rest).map fun (value, after) => (c :: value, after)
termination_by t.length

theorem body?_length {t value rest : Text} (h : body? t = some (value, rest)) :
    rest.length < t.length := by
  fun_induction body? t generalizing value rest with
  | case1 => cases h
  | case2 => cases h; simp
  | case3 => cases h
  | case4 after _ d after' hd hlt ih =>
    obtain ⟨⟨v, r⟩, hv, heq⟩ := Option.map_eq_some_iff.1 h
    cases heq
    have := ih hv
    simp only [List.length_cons]
    omega
  | case5 => cases h
  | case6 c after _ _ _ ih =>
    obtain ⟨⟨v, r⟩, hv, heq⟩ := Option.map_eq_some_iff.1 h
    cases heq
    have := ih hv
    simp only [List.length_cons]
    omega

end BuildScript.Json
