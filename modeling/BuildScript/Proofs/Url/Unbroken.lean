import BuildScript.Proofs.Text.Unbroken
import BuildScript.Url.Basic

/-!
# URLs are one line

Whatever text a URL is read from, it is written on one line (`Url.unbroken_render`), and so is the name of
the file that is fetched (`Url.unbroken_fileName`). Reading keeps no control character: they are encoded in
every part but the host, a domain name holds none, and an address is written in digits.
-/

namespace BuildScript

open Text (Unbroken unbroken_join)

/-! ## Numbers -/

theorem mem_toDigits {base n : Nat} (hbase : 1 < base) {c : Char} (h : c ∈ Nat.toDigits base n) :
    ∃ k < base, c = Nat.digitChar k := by
  induction n using Nat.strongRecOn with
  | ind n ih =>
    rw [Nat.toDigits_eq_if hbase] at h
    split at h
    · next hn => exact ⟨n, hn, List.mem_singleton.1 h⟩
    · next hn =>
      rcases List.mem_append.1 h with h | h
      · exact ih (n / base) (Nat.div_lt_self (by omega) hbase) h
      · exact ⟨n % base, Nat.mod_lt n (by omega), List.mem_singleton.1 h⟩

theorem unbroken_toDigits {base : Nat} (hbase : 1 < base) (hsmall : base ≤ 16) (n : Nat) :
    Unbroken (Nat.toDigits base n) := by
  have hdigit : ∀ k < 16, Nat.digitChar k ≠ '\n' ∧ Nat.digitChar k ≠ '\x00' := by decide
  intro c hc
  obtain ⟨k, hk, rfl⟩ := mem_toDigits hbase hc
  exact hdigit k (by omega)

theorem Text.unbroken_ofNat (n : Nat) : Unbroken (Text.ofNat n) :=
  unbroken_toDigits (by decide) (by decide) n

/-! ## Percent encoding -/

namespace Percent

theorem unbroken_ofByte (b : UInt8) : Unbroken (ofByte b) := by
  have hdigit : ∀ k < 16, (Nat.digitChar k).toUpper ≠ '\n' ∧ (Nat.digitChar k).toUpper ≠ '\x00' := by
    decide
  have hcapital : ∀ n, Hex.capital n ≠ '\n' ∧ Hex.capital n ≠ '\x00' := fun n =>
    hdigit (n % 16) (Nat.mod_lt n (by decide))
  exact Text.unbroken_cons.2 ⟨by decide, Text.unbroken_cons.2
    ⟨hcapital _, Text.unbroken_cons.2 ⟨hcapital _, Text.unbroken_nil⟩⟩⟩

theorem not_isControl {c : Char} (h : isControl c = false) : c ≠ '\n' ∧ c ≠ '\x00' := by
  constructor
  · rintro rfl
    cases h
  · rintro rfl
    cases h

/-- What is encoded is one line if control characters are. -/
theorem unbroken_encode {encoded : Char → Bool} (h : ∀ c, isControl c = true → encoded c = true)
    (t : Text) : Unbroken (encode encoded t) := by
  refine Text.unbroken_flatMap.2 fun c _ => ?_
  split
  · exact Text.unbroken_flatMap.2 fun b _ => unbroken_ofByte b
  · next hc =>
    have hcontrol : isControl c = false := by
      by_contra hne
      exact hc (h c (by simpa using hne))
    exact Text.unbroken_cons.2 ⟨not_isControl hcontrol, Text.unbroken_nil⟩

theorem inFragment_of_isControl {c : Char} (h : isControl c = true) : inFragment c = true := by
  simp [inFragment, h]

theorem inPath_of_isControl {c : Char} (h : isControl c = true) : inPath c = true := by
  simp [inPath, inFragment_of_isControl h]

theorem inUserinfo_of_isControl {c : Char} (h : isControl c = true) : inUserinfo c = true := by
  simp [inUserinfo, inPath_of_isControl h]

theorem inQuery_of_isControl {c : Char} (h : isControl c = true) : inQuery c = true := by
  simp [inQuery, h]

end Percent

/-! ## Hosts -/

namespace Host

theorem unbroken_of_domain? {t name : Text} (h : domain? t = some name) : Unbroken name := by
  simp only [domain?, Option.bind_eq_bind, Option.bind_eq_some_iff] at h
  obtain ⟨_, -, labels, -, h⟩ := h
  split at h
  · cases h
  · split at h
    · cases h
    · next hforbidden =>
      cases h
      intro c hc
      have hallowed : isForbidden c = false := by
        by_contra hne
        exact hforbidden (.inr (List.any_eq_true.2 ⟨c, hc, by simpa using hne⟩))
      constructor
      · rintro rfl
        cases hallowed
      · rintro rfl
        cases hallowed

theorem unbroken_ipv6 (groups : List Nat) : Unbroken (Ipv6.render groups) := by
  have hwritten : ∀ gs : List Nat, Unbroken (Text.join [':'] (gs.map Ipv6.hex)) := by
    intro gs
    apply unbroken_join (Text.unbroken_of_not_isBroken rfl)
    intro t ht
    obtain ⟨n, -, rfl⟩ := List.mem_map.1 ht
    exact unbroken_toDigits (by decide) (by decide) n
  simp only [Ipv6.render]
  split
  · exact hwritten _
  · rw [Text.unbroken_append, Text.unbroken_cons, Text.unbroken_cons]
    exact ⟨hwritten _, by decide, by decide, hwritten _⟩

/-- A host that is read is written on one line. -/
theorem unbroken_render {t : Text} {host : Host} (h : ofText? t = some host) :
    Unbroken host.render := by
  cases host with
  | ipv4 address =>
    apply unbroken_join (Text.unbroken_of_not_isBroken rfl)
    intro u hu
    obtain ⟨n, -, rfl⟩ := List.mem_map.1 hu
    exact Text.unbroken_ofNat n
  | ipv6 groups => simpa [render] using unbroken_ipv6 groups
  | domain name =>
    unfold ofText? at h
    split at h
    · split at h
      · obtain ⟨_, -, heq⟩ := Option.map_eq_some_iff.1 h
        cases heq
      · cases h
    · simp only [Option.bind_eq_bind, Option.bind_eq_some_iff] at h
      obtain ⟨other, hname, h⟩ := h
      split at h
      · obtain ⟨_, -, heq⟩ := Option.map_eq_some_iff.1 h
        cases heq
      · cases h
        exact unbroken_of_domain? hname

end Host

/-! ## URLs -/

namespace Url

/-- The segments that are left when dots are resolved are among those that were there, or empty. -/
theorem mem_of_mem_resolveFrom {seen segments : List Text} {segment : Text}
    (h : segment ∈ resolveFrom seen segments) : segment ∈ seen ∨ segment ∈ segments ∨ segment = [] := by
  have hup : ∀ {seen : List Text}, segment ∈ up seen → segment ∈ seen := by
    intro seen h
    cases seen with
    | nil => exact h
    | cons top rest =>
      rw [up] at h
      split at h
      · exact h
      · exact List.mem_cons_of_mem _ h
  fun_induction resolveFrom seen segments with
  | case1 seen => exact .inl (List.mem_reverse.1 h)
  | case2 seen last hdouble =>
    rcases List.mem_cons.1 (List.mem_reverse.1 h) with h | h
    · exact .inr (.inr h)
    · exact .inl (hup h)
  | case3 seen last hdouble hsingle =>
    rcases List.mem_cons.1 (List.mem_reverse.1 h) with h | h
    · exact .inr (.inr h)
    · exact .inl h
  | case4 seen last hdouble hsingle =>
    rcases List.mem_cons.1 (List.mem_reverse.1 h) with h | h
    · exact .inr (.inl (h ▸ List.mem_cons_self))
    · exact .inl h
  | case5 seen first rest hne hdouble ih =>
    rcases ih h with h | h | h
    · exact .inl (hup h)
    · exact .inr (.inl (List.mem_cons_of_mem _ h))
    · exact .inr (.inr h)
  | case6 seen first rest hne hdouble hsingle ih =>
    rcases ih h with h | h | h
    · exact .inl h
    · exact .inr (.inl (List.mem_cons_of_mem _ h))
    · exact .inr (.inr h)
  | case7 seen first rest hne hdouble hsingle ih =>
    rcases ih h with h | h | h
    · rcases List.mem_cons.1 h with rfl | h
      · exact .inr (.inl List.mem_cons_self)
      · exact .inl h
    · exact .inr (.inl (List.mem_cons_of_mem _ h))
    · exact .inr (.inr h)

theorem unbroken_of_mem_segmentsOf {t segment : Text} (h : segment ∈ segmentsOf t) :
    Unbroken segment := by
  rcases mem_of_mem_resolveFrom h with h | h | rfl
  · cases h
  · obtain ⟨u, -, rfl⟩ := List.mem_map.1 h
    exact Percent.unbroken_encode (fun _ => Percent.inPath_of_isControl) u
  · exact Text.unbroken_nil

theorem unbroken_renderUserinfo (t : Text) : Unbroken (renderUserinfo t) := by
  have hencode : ∀ u, Unbroken (Percent.encode Percent.inUserinfo u) :=
    Percent.unbroken_encode fun _ => Percent.inUserinfo_of_isControl
  simp only [renderUserinfo]
  split
  · exact Text.unbroken_nil
  · rw [Text.unbroken_append, Text.unbroken_append]
    refine ⟨⟨hencode _, ?_⟩, Text.unbroken_of_not_isBroken rfl⟩
    split
    · exact Text.unbroken_nil
    · exact Text.unbroken_cons.2 ⟨by decide, hencode _⟩

/-- What each part of a URL that is read is made of. -/
structure IsRead (u : Url) : Prop where
  userinfo : ∃ written : Option Text, u.userinfo = (written.map renderUserinfo).getD []
  host : ∃ written, Host.ofText? written = some u.host
  path : ∃ written, u.path = segmentsOf written
  query : ∃ written : Option Text, u.query = written.map (Percent.encode Percent.inQuery)
  fragment : ∃ written : Option Text, u.fragment = written.map (Percent.encode Percent.inFragment)

theorem isRead_of_ofText? {t : Text} {u : Url} (h : ofText? t = some u) : u.IsRead := by
  simp only [ofText?, Option.bind_eq_bind, Option.bind_eq_some_iff] at h
  obtain ⟨_, -, h⟩ := h
  split at h
  · cases h
  simp only [Option.bind_eq_some_iff] at h
  obtain ⟨host, hhost, port, -, h⟩ := h
  cases h
  exact ⟨⟨_, rfl⟩, ⟨_, hhost⟩, ⟨_, rfl⟩, ⟨_, rfl⟩, ⟨_, rfl⟩⟩

/-- Whether every part of a URL is written on one line. -/
structure IsUnbroken (u : Url) : Prop where
  userinfo : Unbroken u.userinfo
  host : Unbroken u.host.render
  path : ∀ segment ∈ u.path, Unbroken segment
  query : ∀ q, u.query = some q → Unbroken q
  fragment : ∀ f, u.fragment = some f → Unbroken f

theorem IsRead.isUnbroken {u : Url} (h : u.IsRead) : u.IsUnbroken := by
  obtain ⟨⟨userinfo, huserinfo⟩, ⟨_, hhost⟩, ⟨path, hpath⟩, ⟨query, hquery⟩, ⟨fragment, hfragment⟩⟩ := h
  refine ⟨?_, Host.unbroken_render hhost, ?_, ?_, ?_⟩
  · rw [huserinfo]
    cases userinfo with
    | none => exact Text.unbroken_nil
    | some u => exact unbroken_renderUserinfo u
  · intro segment hsegment
    exact unbroken_of_mem_segmentsOf (hpath ▸ hsegment)
  · intro q hq
    obtain ⟨v, -, rfl⟩ := Option.map_eq_some_iff.1 (hquery.symm.trans hq)
    exact Percent.unbroken_encode (fun _ => Percent.inQuery_of_isControl) v
  · intro f hf
    obtain ⟨v, -, rfl⟩ := Option.map_eq_some_iff.1 (hfragment.symm.trans hf)
    exact Percent.unbroken_encode (fun _ => Percent.inFragment_of_isControl) v

/-- A URL that is read is written on one line. -/
theorem unbroken_render {t : Text} {u : Url} (h : ofText? t = some u) : Unbroken u.render := by
  have hparts := (isRead_of_ofText? h).isUnbroken
  have hscheme : Unbroken u.scheme.name := by
    cases u.scheme <;> exact Text.unbroken_of_not_isBroken rfl
  have hpath : Unbroken (Text.join ['/'] u.path) :=
    unbroken_join (Text.unbroken_of_not_isBroken rfl) hparts.path
  have hmark : Unbroken "://".toList := Text.unbroken_of_not_isBroken rfl
  simp only [render, List.append_assoc, List.cons_append, Text.unbroken_append, Text.unbroken_cons]
  refine ⟨hscheme, hmark, hparts.userinfo, hparts.host, ?_, by decide, hpath, ?_, ?_⟩
  · split
    · exact Text.unbroken_cons.2 ⟨by decide, Text.unbroken_ofNat _⟩
    · exact Text.unbroken_nil
  · split
    · next q hq => exact Text.unbroken_cons.2 ⟨by decide, hparts.query q hq⟩
    · exact Text.unbroken_nil
  · split
    · next f hf => exact Text.unbroken_cons.2 ⟨by decide, hparts.fragment f hf⟩
    · exact Text.unbroken_nil

theorem unbroken_fileName {t : Text} {u : Url} (h : ofText? t = some u) : Unbroken u.fileName := by
  unfold fileName
  split
  · exact Text.unbroken_of_not_isBroken rfl
  · exact Text.unbroken_of_not_isBroken rfl
  · next name _ hname => exact (isRead_of_ofText? h).isUnbroken.path name (List.mem_of_getLast? hname)

end Url

end BuildScript
