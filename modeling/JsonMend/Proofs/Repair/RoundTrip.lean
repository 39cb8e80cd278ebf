import JsonMend.Proofs.Repair.Integer
import JsonMend.Text.LetterCase
/-
  A scalar that was written as a string is read back as it was.

  1. **Blanks** (`trimBlanks_between`) — blanks in front of a text and behind it are of no account.
  2. **Integers** (`ofChars?_writeInt`, `numeralNumber_ofInt`) — what is written of an integer is a numeral without a
     point and an exponent, so it is read exactly, and no double is made of it on the way.
  3. **Booleans** (`toLower_of_lowerCase`) — the crux is that of the letters of all scripts only those of ASCII have
     their lower case in one of the two words, so that looking at ASCII alone misses nothing.
-/
namespace JsonMend

/-! ## Blanks -/

theorem trimBlanks_between {front back : List Char} (hfront : ∀ c ∈ front, isBlank c = true)
    (hback : ∀ c ∈ back, isBlank c = true) (text : List Char) :
    trimBlanks (front ++ text ++ back) = trimBlanks text := by
  rw [trimBlanks, trimBlanks, List.append_assoc, List.dropWhile_append_of_pos hfront, List.dropWhile_append]
  split
  · rename_i hblank
    rw [List.isEmpty_iff.mp hblank, List.dropWhile_eq_nil_iff.mpr hback]
  · rw [List.reverse_append, List.dropWhile_append_of_pos fun c hc => hback c (List.mem_reverse.mp hc)]

/-! ## Integers -/

namespace Numeral

/-- The numeral that is written of an integer. -/
def ofInt (k : ℤ) : Numeral := ⟨decide (k < 0), writeDigits k.natAbs, none, none⟩

theorem ofChars?_writeInt (k : ℤ) : ofChars? (writeInt k) = some (ofInt k) := by
  have hsign := splitSign_writeInt k []
  have hdigits := splitDigits_writeDigits k.natAbs [] (by rintro _ ⟨⟩)
  rw [List.append_nil] at hsign hdigits
  unfold ofChars?
  simp [hsign, hdigits, writeDigits_ne_nil, exponentOf?, ofInt]

/-- With blanks around it, a written integer is the numeral that it was. -/
theorem reads_writeInt (k : ℤ) {front back : String} (blank : ∀ c ∈ front.toList ++ back.toList, isBlank c = true) :
    ofChars? (trimBlanks (front ++ String.ofList (writeInt k) ++ back).toList) = some (ofInt k) := by
  have hfront : ∀ c ∈ front.toList, isBlank c = true := fun c hc => blank c (List.mem_append_left _ hc)
  have hback : ∀ c ∈ back.toList, isBlank c = true := fun c hc => blank c (List.mem_append_right _ hc)
  rw [String.toList_append, String.toList_append, String.toList_ofList, trimBlanks_between hfront hback,
    Coerce.trimBlanks_of_unblank (unblank_writeInt k), ofChars?_writeInt]

theorem toInt_ofInt (k : ℤ) : (ofInt k).toInt = k := by
  have hvalue : digitsValue (writeDigits k.natAbs) = k.natAbs := by
    rw [digitsValue_of_ascii fun c hc => isAsciiDigit_of_mem_writeDigits hc, readDigits_writeDigits]
  simp only [ofInt, toInt, hvalue, decide_eq_true_eq]
  split <;> omega

end Numeral

namespace Coerce

theorem numeralNumber_ofInt (whole : Bool) {k : ℤ} (short : digitCount k.natAbs ≤ digitLimit) :
    numeralNumber whole (.ofInt k) = .ok (some (.num (.int k))) := by
  have hshort : ¬ digitLimit < (Numeral.ofInt k).whole.length := short.not_gt
  have hinteger : (Numeral.ofInt k).isInteger = true := rfl
  rw [numeralNumber, if_pos hinteger, if_neg hshort, Numeral.toInt_ofInt]

end Coerce

/-! ## Booleans -/

/-- The same letters, each in upper or lower case.  The long s and other variants are letters of their own. -/
def Recased (s t : String) : Prop := s.toList.map lowerCase = t.toList.map lowerCase

instance (s t : String) : Decidable (Recased s t) := inferInstanceAs (Decidable (_ = _))

/-- The word for a boolean. -/
def boolWord (b : Bool) : String := if b then "true" else "false"

/-- A small letter of ASCII, but neither `i` nor `k`: these are the lower case of letters beyond ASCII too. -/
def HasOneCapital (point : Nat) : Prop := 97 ≤ point ∧ point ≤ 122 ∧ point ≠ 105 ∧ point ≠ 107

instance (point : Nat) : Decidable (HasOneCapital point) := inferInstanceAs (Decidable (_ ∧ _))

/-- A point is its own lower case, or lies in a run and is moved by its distance. -/
theorem lowerCaseIn_cases (runs : List (Nat × Nat × Nat × Int)) (n : Nat) :
    lowerCaseIn runs n = n ∨
      ∃ run ∈ runs, run.1 ≤ n ∧ n ≤ run.2.1 ∧ lowerCaseIn runs n = (n + run.2.2.2).toNat := by
  induction runs with
  | nil => exact .inl rfl
  | cons run rest ih =>
    unfold lowerCaseIn
    split
    · rename_i hrun
      exact .inr ⟨run, List.mem_cons_self, hrun.1, hrun.2.1, rfl⟩
    · rcases ih with hsame | ⟨run', hmem, hmoved⟩
      · exact .inl hsame
      · exact .inr ⟨run', List.mem_cons_of_mem _ hmem, hmoved⟩

/-- A run other than the capitals of ASCII lies behind the small letters of ASCII, and is moved to where it lies behind
them too or is one letter with the lower case `i` or `k`. -/
theorem lowerCaseRuns_cases : ∀ run ∈ lowerCaseRuns, run = (65, 90, 1, 32) ∨
    122 < run.1 ∧ (122 < run.1 + run.2.2.2 ∨
      run.1 = run.2.1 ∧ (run.1 + run.2.2.2 = 105 ∨ run.1 + run.2.2.2 = 107)) := by
  decide +kernel

section
variable {b : Bool} {c d : Char}

theorem lowerCase_of_hasOneCapital (hd : HasOneCapital d.toNat) : lowerCase d = d.toNat := by
  obtain ⟨hlow, hhigh, -⟩ := hd
  rcases lowerCaseIn_cases lowerCaseRuns d.toNat with hsame | ⟨run, hmem, hfirst, hlast, -⟩
  · exact hsame
  · rcases lowerCaseRuns_cases run hmem with rfl | ⟨hbeyond, -⟩
    · dsimp only at hlast
      omega
    · omega

/-- What has such a letter as its lower case is the letter or its capital in ASCII. -/
theorem cases_of_lowerCase (hd : HasOneCapital d.toNat) (h : lowerCase c = lowerCase d) :
    c.toNat = d.toNat ∨ c.toNat + 32 = d.toNat := by
  rw [lowerCase_of_hasOneCapital hd] at h
  obtain ⟨hlow, hhigh, hi, hk⟩ := hd
  rcases lowerCaseIn_cases lowerCaseRuns c.toNat with hsame | ⟨run, hmem, hfirst, hlast, hmoved⟩
  · exact .inl (hsame.symm.trans h)
  · have hpoint : (c.toNat + run.2.2.2).toNat = d.toNat := hmoved.symm.trans h
    -- the run is taken whole, with the points that its step leaves out
    rcases lowerCaseRuns_cases run hmem with rfl | ⟨-, hbeyond | hletter⟩
    · dsimp only at hpoint
      omega
    · omega
    · omega

theorem toLower_of_lowerCase (hd : HasOneCapital d.toNat) (h : lowerCase c = lowerCase d) : c.toLower = d := by
  have ascii : ∀ k < 26, (Char.ofNat (97 + k)).toLower = Char.ofNat (97 + k) ∧
      (Char.ofNat (65 + k)).toLower = Char.ofNat (97 + k) := by decide
  have hpoint := cases_of_lowerCase hd h
  obtain ⟨hlow, hhigh, -⟩ := hd
  obtain ⟨hsmall, hcapital⟩ := ascii (d.toNat - 97) (by omega)
  rw [Nat.add_sub_cancel' hlow, Char.ofNat_toNat] at hsmall hcapital
  rcases hpoint with hsame | hmoved
  · obtain rfl : c = d := Char.toNat_inj.mp hsame
    exact hsmall
  · rw [show 65 + (d.toNat - 97) = c.toNat by omega, Char.ofNat_toNat] at hcapital
    exact hcapital

theorem hasOneCapital_of_letter (letter : d ∈ (boolWord b).toList) : HasOneCapital d.toNat := by
  have hpoints : ∀ point ∈ (boolWord b).toList.map Char.toNat, HasOneCapital point := by
    cases b <;> decide
  exact hpoints _ (List.mem_map_of_mem letter)

end

theorem map_toLower_of_lowerCase {text word : List Char} (hword : ∀ d ∈ word, HasOneCapital d.toNat)
    (h : text.map lowerCase = word.map lowerCase) : text.map Char.toLower = word := by
  induction text generalizing word with
  | nil => exact (List.map_eq_nil_iff.mp h.symm).symm
  | cons c text ih =>
    obtain ⟨d, word, rfl, hd, htext⟩ := List.map_eq_cons_iff.mp h.symm
    rw [List.map_cons, toLower_of_lowerCase (hword d List.mem_cons_self) hd.symm,
      ih (fun x hx => hword x (List.mem_cons_of_mem _ hx)) htext.symm]

namespace Coerce

theorem toBoolean_of_recased {b : Bool} {s : String} (h : Recased s (boolWord b)) :
    toBoolean (.str s) = some (.bool b) := by
  rw [toBoolean, map_toLower_of_lowerCase (fun _ => hasOneCapital_of_letter) h, String.ofList_toList]
  cases b <;> rfl

/-! ## Back again -/

/-- **A scalar written as a string is read back.**  An integer that may be written at all is read back as the integer
and as the number it was, exactly, whatever blanks stand around its digits; a boolean is read back from its word, in
whatever case its letters are. -/
theorem scalar_read_back :
    (∀ n : ℤ, digitCount n.natAbs ≤ digitLimit →
      ∃ t : String, toTypeNamed "string" (.num (.int n)) = .ok (some (.str t)) ∧
        ∀ front back : String, (∀ c ∈ front.toList ++ back.toList, isBlank c = true) →
          toTypeNamed "integer" (.str (front ++ t ++ back)) = .ok (some (.num (.int n))) ∧
          toTypeNamed "number" (.str (front ++ t ++ back)) = .ok (some (.num (.int n)))) ∧
    ∀ b : Bool,
      ∃ t : String, toTypeNamed "string" (.bool b) = .ok (some (.str t)) ∧
        ∀ u : String, Recased u t → toTypeNamed "boolean" (.str u) = .ok (some (.bool b)) := by
  refine ⟨fun n short => ⟨String.ofList (writeInt n), ?_, fun front back blank => ⟨?_, ?_⟩⟩,
    fun b => ⟨boolWord b, ?_, fun u recased => ?_⟩⟩
  · exact (toTypeNamed_name .string _).trans (if_neg short.not_gt)
  · rw [toTypeNamed_integer (Numeral.reads_writeInt n blank), numeralNumber_ofInt true short]
  · rw [toTypeNamed_number (Numeral.reads_writeInt n blank), numeralNumber_ofInt false short]
  · exact (toTypeNamed_name .string _).trans rfl
  · exact (toTypeNamed_name .boolean _).trans (congrArg Except.ok (toBoolean_of_recased recased))

/-- An integer that no double holds, among blanks beyond ASCII, and a word in capitals and small letters. -/
theorem scalar_read_back_of_two :
    toTypeNamed "string" (.num (.int (-9007199254740993))) = .ok (some (.str "-9007199254740993")) ∧
      toTypeNamed "integer" (.str ("\u2003" ++ "-9007199254740993" ++ "\x85\n")) =
        .ok (some (.num (.int (-9007199254740993)))) ∧
      toTypeNamed "number" (.str ("\u2003" ++ "-9007199254740993" ++ "\x85\n")) =
        .ok (some (.num (.int (-9007199254740993)))) ∧
      toTypeNamed "string" (.bool false) = .ok (some (.str "false")) ∧
      toTypeNamed "boolean" (.str "fAlSE") = .ok (some (.bool false)) := by
  obtain ⟨t, ht, hnumber⟩ := scalar_read_back.1 (-9007199254740993) (by decide +kernel)
  obtain ⟨word, hword, hboolean⟩ := scalar_read_back.2 false
  obtain rfl : t = "-9007199254740993" := by
    have hwritten : toTypeNamed "string" (.num (.int (-9007199254740993))) = .ok (some (.str "-9007199254740993")) := by
      decide +kernel
    simpa using ht.symm.trans hwritten
  obtain rfl : word = "false" := by
    have hwritten : toTypeNamed "string" (.bool false) = .ok (some (.str "false")) := by decide +kernel
    simpa using hword.symm.trans hwritten
  obtain ⟨hinteger, hreal⟩ := hnumber "\u2003" "\x85\n" (List.all_eq_true.mp (by decide +kernel))
  exact ⟨ht, hinteger, hreal, hword, hboolean "fAlSE" (by decide +kernel)⟩

end Coerce

end JsonMend
