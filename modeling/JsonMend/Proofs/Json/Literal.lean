import JsonMend.Json.Escape
/-
  A string that is written is read back, and what is read as a string is known.

  1. **Four digits** (`readUnits_escapeUnit`) — an escape by number names the unit that it was made from.
  2. **One character** (`readUnits_escapeChar`) — what a character is written as is read as its units: its code
     point, or the two halves of a pair where a large one is escaped.
  3. **Joining** (`joinUnits_units`) — the units of a text join to the text.  No character is half a pair, so
     a half is only ever joined with the half that it was written with.
  4. **Bodies** (`StringBody`) — what the reader takes stands in front of a quote and is made of escapes by number,
     escapes by letter and characters that stand for themselves.  What holds of all strings that are read is shown by
     induction on these.
-/
namespace JsonMend

variable {a b ascii : Bool} {c : Char} {text rest : List Char} {n : Nat}

/-! ## Four digits -/

theorem hexValue_digitChar : ∀ k < 16, hexValue? (Nat.digitChar k) = some k := by decide

/-- The four hexadecimal digits of a unit. -/
theorem hexDigits_four (h : n < 65536) : hexDigits 4 n =
    [Nat.digitChar (n / 4096), Nat.digitChar (n / 256 % 16), Nat.digitChar (n / 16 % 16),
      Nat.digitChar (n % 16)] := by
  have hshift : ∀ m, 16 ≤ m → Nat.toDigits 16 m = Nat.toDigits 16 (m / 16) ++ [Nat.digitChar (m % 16)] :=
    fun m => Nat.toDigits_of_base_le (by decide)
  have hlast : ∀ m, m < 16 → Nat.toDigits 16 m = [Nat.digitChar m] :=
    fun m => Nat.toDigits_of_lt_base
  have hzero : Nat.digitChar 0 = '0' := rfl
  rw [hexDigits]
  by_cases h1 : n < 16
  · rw [hlast n h1, show n / 4096 = 0 by omega, show n / 256 % 16 = 0 by omega,
      show n / 16 % 16 = 0 by omega, show n % 16 = n by omega, hzero]
    rfl
  by_cases h2 : n < 256
  · rw [hshift n (by omega), hlast (n / 16) (by omega), show n / 4096 = 0 by omega,
      show n / 256 % 16 = 0 by omega, show n / 16 % 16 = n / 16 by omega, hzero]
    rfl
  by_cases h3 : n < 4096
  · rw [hshift n (by omega), hshift (n / 16) (by omega), hlast (n / 16 / 16) (by omega),
      show n / 4096 = 0 by omega, show n / 256 % 16 = n / 16 / 16 by omega, hzero]
    rfl
  · rw [hshift n (by omega), hshift (n / 16) (by omega), hshift (n / 16 / 16) (by omega),
      hlast (n / 16 / 16 / 16) (by omega), show n / 4096 = n / 16 / 16 / 16 by omega,
      show n / 256 % 16 = n / 16 / 16 % 16 by omega]
    rfl

/-- An escape by number is read as the unit that it names. -/
theorem readUnits_escapeUnit (h : n < 65536) :
    readUnits (escapeUnit n ++ rest) = (readUnits rest).map fun (units, after) => (n :: units, after) := by
  have hdigit : ∀ m, hexValue? (Nat.digitChar (m % 16)) = some (m % 16) :=
    fun m => hexValue_digitChar _ (Nat.mod_lt _ (by decide))
  have hunit : hexUnit? (Nat.digitChar (n / 4096)) (Nat.digitChar (n / 256 % 16))
      (Nat.digitChar (n / 16 % 16)) (Nat.digitChar (n % 16)) = some n := by
    rw [hexUnit?, hexValue_digitChar (n / 4096) (by omega), hdigit, hdigit, hdigit]
    show some (((n / 4096 * 16 + n / 256 % 16) * 16 + n / 16 % 16) * 16 + n % 16) = some n
    congr 1
    omega
  rw [escapeUnit, hexDigits_four h]
  show readUnits ('\\' :: 'u' :: _ :: _ :: _ :: _ :: rest) = _
  rw [readUnits, hunit]
  cases readUnits rest with
  | none => rfl
  | some read => rfl

/-! ## One character -/

/-- The numbers that a character is read as. -/
def charUnits (ascii : Bool) (c : Char) : List Nat :=
  if ascii && 0x10000 ≤ c.toNat then
    [0xD800 + (c.toNat - 0x10000) / 0x400, 0xDC00 + (c.toNat - 0x10000) % 0x400]
  else [c.toNat]

theorem toNat_lt (c : Char) : c.toNat < 0x110000 := by
  have h := c.valid
  rcases h with h | h
  · have : c.toNat < 0xD800 := h
    omega
  · exact h.2

theorem readUnits_escapeByNumber :
    readUnits (escapeByNumber c ++ rest) =
      (readUnits rest).map fun (units, after) => (charUnits true c ++ units, after) := by
  have hlt := toNat_lt c
  unfold escapeByNumber charUnits
  dsimp only
  by_cases hsmall : c.toNat < 0x10000
  · rw [if_pos hsmall, readUnits_escapeUnit hsmall]
    simp [Nat.not_le.mpr hsmall]
  · rw [if_neg hsmall, List.append_assoc, readUnits_escapeUnit (by omega),
      readUnits_escapeUnit (by omega)]
    have hle : 65536 ≤ c.toNat := by omega
    cases readUnits rest with
    | none => rfl
    | some read => simp [hle]

theorem readUnits_cons_of_plain (quote : c ≠ '"') (backslash : c ≠ '\\') (shown : 0x20 ≤ c.toNat) :
    readUnits (c :: rest) = (readUnits rest).map fun (units, after) => (c.toNat :: units, after) := by
  have hplain : ¬ (c = '\\' ∨ c.toNat < 0x20) := by
    rintro (h | h)
    · exact backslash h
    · omega
  rw [readUnits.eq_def]
  split
  · cases ‹_ = _›
  · cases ‹_ = _›
    exact absurd rfl quote
  · cases ‹_ = _›
    exact absurd rfl backslash
  · cases ‹_ = _›
    exact absurd rfl backslash
  · cases ‹_ = _›
    rw [if_neg hplain]
    cases readUnits rest with
    | none => rfl
    | some read => rfl

theorem charUnits_of_small (h : (ascii && decide (0x10000 ≤ c.toNat)) = false) :
    charUnits ascii c = [c.toNat] := by
  rw [charUnits, h]
  rfl

theorem charUnits_of_lt (h : c.toNat < 0x10000) : charUnits ascii c = [c.toNat] :=
  charUnits_of_small (by rw [decide_eq_false (Nat.not_le.mpr h), Bool.and_false])

/-- **What a character is written as is read as its units.** -/
theorem readUnits_escapeChar (ascii : Bool) (c : Char) (rest : List Char) :
    readUnits (escapeChar ascii c ++ rest) =
      (readUnits rest).map fun (units, after) => (charUnits ascii c ++ units, after) := by
  have hsimple : ∀ e d : Char, simpleEscape? e = some d → e ≠ 'u' → d.toNat < 0x10000 →
      readUnits ('\\' :: e :: rest) =
        (readUnits rest).map fun (units, after) => (charUnits ascii d ++ units, after) := by
    intro e d hescape hu hlt
    rw [charUnits_of_lt hlt, readUnits.eq_def]
    split
    · cases ‹_ = _›
    · cases ‹_ = _›
    · cases ‹_ = _›
      exact absurd rfl hu
    · cases ‹_ = _›
      rw [hescape]
      cases readUnits rest with
      | none => rfl
      | some read => rfl
    · rename_i hother _
      cases ‹_ = _›
      exact (hother e rest rfl rfl).elim
  unfold escapeChar
  split
  all_goals try exact hsimple _ _ rfl (by decide) (by decide)
  rename_i hquote hbackslash _ _ _ _ _
  split
  · rename_i hcontrol
    have hlt : c.toNat < 0x10000 := by omega
    rw [readUnits_escapeByNumber, charUnits_of_lt hlt, charUnits_of_lt hlt]
  rename_i hcontrol
  split
  · rename_i hescaped
    rw [Bool.and_eq_true] at hescaped
    rw [readUnits_escapeByNumber, hescaped.1]
  · rename_i hshown
    have hsmall : (ascii && decide (0x10000 ≤ c.toNat)) = false := by
      rw [Bool.and_eq_true, decide_eq_true_eq, not_and] at hshown
      rw [Bool.and_eq_false_imp]
      intro hascii
      have := hshown hascii
      exact decide_eq_false (by omega)
    rw [charUnits_of_small hsmall]
    exact readUnits_cons_of_plain hquote hbackslash (by omega)

/-! ## Joining -/

theorem joinUnits_cons_of_not_high (h : isHighHalf n = false) (units : List Nat) :
    joinUnits (n :: units) = unitChar n :: joinUnits units := by
  cases units with
  | nil => rfl
  | cons m units => rw [joinUnits, h]; rfl

theorem unitChar_toNat (c : Char) : unitChar c.toNat = c := by
  have hvalid : c.toNat.isValidChar := c.valid
  rw [unitChar, if_pos hvalid, Char.ofNat_toNat]

theorem isHighHalf_toNat (c : Char) : isHighHalf c.toNat = false := by
  have h := c.valid
  have hvalid : c.toNat < 0xD800 ∨ 0xDFFF < c.toNat ∧ c.toNat < 0x110000 := h
  simp only [isHighHalf, Bool.and_eq_false_iff, decide_eq_false_iff_not]
  omega

/-- **The units of a text join to the text.** -/
theorem joinUnits_units (ascii : Bool) (text : List Char) :
    joinUnits (text.flatMap (charUnits ascii)) = text := by
  induction text with
  | nil => rfl
  | cons c text ih =>
    rw [List.flatMap_cons]
    cases hlarge : ascii && decide (0x10000 ≤ c.toNat) with
    | true =>
      have hunits : charUnits ascii c = [0xD800 + (c.toNat - 0x10000) / 0x400,
          0xDC00 + (c.toNat - 0x10000) % 0x400] := by
        rw [charUnits, hlarge]
        rfl
      rw [Bool.and_eq_true, decide_eq_true_eq] at hlarge
      have hlt := toNat_lt c
      have hhigh : isHighHalf (0xD800 + (c.toNat - 0x10000) / 0x400) = true := by
        simp only [isHighHalf, Bool.and_eq_true, decide_eq_true_eq]
        omega
      have hlow : isLowHalf (0xDC00 + (c.toNat - 0x10000) % 0x400) = true := by
        simp only [isLowHalf, Bool.and_eq_true, decide_eq_true_eq]
        omega
      have hwhole : 0x10000 + (0xD800 + (c.toNat - 0x10000) / 0x400 - 0xD800) * 0x400 +
          (0xDC00 + (c.toNat - 0x10000) % 0x400 - 0xDC00) = c.toNat := by omega
      rw [hunits, List.cons_append, List.singleton_append, joinUnits, hhigh, hlow, hwhole,
        unitChar_toNat, ih]
      rfl
    | false =>
      rw [charUnits_of_small hlarge, List.singleton_append,
        joinUnits_cons_of_not_high (isHighHalf_toNat c), unitChar_toNat, ih]

/-- **A string that is written is read back**, up to its closing quote. -/
theorem readString_written (ascii : Bool) (text rest : List Char) :
    readString (text.flatMap (escapeChar ascii) ++ '"' :: rest) = some (text, rest) := by
  have hunits : readUnits (text.flatMap (escapeChar ascii) ++ '"' :: rest) =
      some (text.flatMap (charUnits ascii), rest) := by
    induction text with
    | nil => rfl
    | cons c text ih =>
      rw [List.flatMap_cons, List.append_assoc, readUnits_escapeChar, ih]
      rfl
  rw [readString, hunits, Option.map_some]
  dsimp only
  rw [joinUnits_units]

/-- A character that is written as it is. -/
theorem escapeChar_of_plain (quote : c ≠ '"') (backslash : c ≠ '\\') (shown : 0x20 ≤ c.toNat) :
    escapeChar false c = [c] := by
  unfold escapeChar
  split
  · exact absurd rfl quote
  · exact absurd rfl backslash
  · exact absurd shown (by decide)
  · exact absurd shown (by decide)
  · exact absurd shown (by decide)
  · exact absurd shown (by decide)
  · exact absurd shown (by decide)
  · rw [if_neg (by omega)]
    rfl

/-- A string of such characters is read as it stands. -/
theorem readString_of_plain (plain : ∀ c ∈ text, c ≠ '"' ∧ c ≠ '\\' ∧ 0x20 ≤ c.toNat) :
    readString (text ++ '"' :: rest) = some (text, rest) := by
  have hwritten : text.flatMap (escapeChar false) = text := by
    induction text with
    | nil => rfl
    | cons c text ih =>
      rw [List.forall_mem_cons] at plain
      rw [List.flatMap_cons, escapeChar_of_plain plain.1.1 plain.1.2.1 plain.1.2.2, ih plain.2]
      rfl
  have hread := readString_written false text rest
  rwa [hwritten] at hread

/-! ## Bodies -/

/-- What stands between the quotes of a string, with the numbers that it is read as. -/
inductive StringBody : List Char → List Nat → Prop
  | nil : StringBody [] []
  | unit {a b c d n body units} (digits : hexUnit? a b c d = some n) (rest : StringBody body units) :
      StringBody ('\\' :: 'u' :: a :: b :: c :: d :: body) (n :: units)
  | letter {e c body units} (escape : simpleEscape? e = some c) (rest : StringBody body units) :
      StringBody ('\\' :: e :: body) (c.toNat :: units)
  | plain {c body units} (quote : c ≠ '"') (backslash : c ≠ '\\') (shown : 0x20 ≤ c.toNat)
      (rest : StringBody body units) : StringBody (c :: body) (c.toNat :: units)

/-- The digits of a unit are hexadecimal. -/
theorem hexValue_of_hexUnit {a b c d : Char} (h : hexUnit? a b c d = some n) :
    ∀ x ∈ [a, b, c, d], ∃ k, hexValue? x = some k := by
  unfold hexUnit? at h
  simp only [Option.bind_eq_bind, Option.bind_eq_some_iff, Option.pure_def] at h
  obtain ⟨_, ha, _, hb, _, hc, _, hd, -⟩ := h
  simp [ha, hb, hc, hd]

namespace StringBody

variable {body after : List Char} {units : List Nat}

/-- A body is read up to its quote. -/
theorem readUnits_append (h : StringBody body units) (rest : List Char) :
    readUnits (body ++ '"' :: rest) = some (units, rest) := by
  induction h with
  | nil => rfl
  | unit hunit _ ih =>
    simp only [List.cons_append]
    rw [readUnits, hunit, ih]
    rfl
  | letter hescape _ ih =>
    simp only [List.cons_append]
    rw [readUnits, hescape, ih]
    · rfl
    · -- the letter is not that of an escape by number
      rintro a b c d rest' rfl
      cases hescape
  | plain hquote hbackslash hshown _ ih =>
    rw [List.cons_append, readUnits_cons_of_plain hquote hbackslash hshown, ih]
    rfl

/-- **What is read as a string has a body**, and ends with its quote. -/
theorem of_readUnits (h : readUnits text = some (units, after)) :
    ∃ body, text = body ++ '"' :: after ∧ StringBody body units := by
  induction text using readUnits.induct generalizing units after with
  | case1 => cases h
  | case2 rest =>
    cases h
    exact ⟨[], rfl, .nil⟩
  | case3 a b c d rest ih =>
    rw [readUnits] at h
    simp only [Option.bind_eq_bind, Option.bind_eq_some_iff, Option.pure_def] at h
    obtain ⟨_, hunit, ⟨units', after'⟩, hread, heq⟩ := h
    cases heq
    obtain ⟨body, rfl, hbody⟩ := ih hread
    exact ⟨_, rfl, hbody.unit hunit⟩
  | case4 e rest hother ih =>
    rw [readUnits] at h
    · simp only [Option.bind_eq_bind, Option.bind_eq_some_iff, Option.pure_def] at h
      obtain ⟨_, hescape, ⟨units', after'⟩, hread, heq⟩ := h
      cases heq
      obtain ⟨body, rfl, hbody⟩ := ih hread
      exact ⟨_, rfl, hbody.letter hescape⟩
    · exact hother
  | case5 c rest hquote hother hescape hbad =>
    rw [readUnits] at h
    · rw [if_pos hbad] at h
      cases h
    · exact hquote
    · exact hother
    · exact hescape
  | case6 c rest hquote hother hescape hplain ih =>
    rw [readUnits] at h
    · rw [if_neg hplain] at h
      simp only [Option.bind_eq_bind, Option.bind_eq_some_iff, Option.pure_def] at h
      obtain ⟨⟨units', after'⟩, hread, heq⟩ := h
      cases heq
      obtain ⟨body, rfl, hbody⟩ := ih hread
      rw [not_or, Nat.not_lt] at hplain
      exact ⟨_, rfl, hbody.plain hquote hplain.1 hplain.2⟩
    · exact hquote
    · exact hother
    · exact hescape

/-- The same of a whole string. -/
theorem of_readString {read : List Char} (h : readString text = some (read, after)) :
    ∃ body units, text = body ++ '"' :: after ∧ StringBody body units ∧ read = joinUnits units := by
  obtain ⟨⟨units, after'⟩, hunits, heq⟩ := Option.map_eq_some_iff.mp h
  cases heq
  obtain ⟨body, hbody, hunits⟩ := of_readUnits hunits
  exact ⟨body, units, hbody, hunits, rfl⟩

end StringBody

end JsonMend
