import Mathlib.Data.List.TakeWhile
import JsonMend.Proofs.Repair.Passes
import JsonMend.Proofs.Repair.Scalar
/-
  Which conversions of a scalar are possible, and which one fails.

  1. **Possible** (`Representable`) — what a type can be made of, said without the conversions.  A conversion
     gives nothing exactly where it is impossible (`toType_eq_none`).
  2. **Failing** (`Overlong`) — an integer of too many digits, read or written, is no impossible conversion
     but ends the repair.  Nothing else does (`toType_eq_error`).
  3. **The listed types in turn** — none of them gives anything exactly where each is impossible
     (`firstSuccess_eq_none_iff`).  The first one that is possible decides: it fails
     (`firstSuccess_eq_error`), or its result wins.  Only `array` wins with an array
     (`firstSuccess_eq_wrapped`).
-/
namespace JsonMend

theorem JsonType.ofName?_eq_some {name : String} {t : JsonType} :
    JsonType.ofName? name = some t ↔ name = t.name := by
  constructor
  · intro h
    have hfound := List.find?_some h
    exact (of_decide_eq_true hfound).symm
  · rintro rfl
    exact ofName?_name t

namespace Coerce

/-! ## One type -/

/-- A type has a value for a scalar. -/
inductive Representable : JsonType → Json → Prop
  | boolText (b : Bool) : Representable .string (.bool b)
  | numberText (n : Number) : Representable .string (.num n)
  | boolNumber {t : JsonType} (b : Bool) (numeric : t = .number ∨ t = .integer) :
      Representable t (.bool b)
  | numeral {t : JsonType} {text : String} {n : Numeral} (numeric : t = .number ∨ t = .integer)
      (reads : Numeral.ofChars? (trimBlanks text.toList) = some n)
      (finite : n.isInteger = true ∨ ∃ x, n.toDecimal.toBinary64 = .finite x) :
      Representable t (.str text)
  | numberBool (n : Number) : Representable .boolean (.num n)
  | textBool {text : String}
      (word : String.ofList (text.toList.map Char.toLower) ∈ ["true", "1", "false", "0", ""]) :
      Representable .boolean (.str text)
  | wrapped {v : Json} (scalar : v.isScalar = true) : Representable .array v
  | textNull {text : String} (word : text = "" ∨ text = "null") : Representable .null (.str text)

/-- An integer has too many digits to be read from a scalar, or to be written as a string. -/
inductive Overlong : JsonType → Json → Fault → Prop
  | read {t : JsonType} {text : String} {n : Numeral} (numeric : t = .number ∨ t = .integer)
      (reads : Numeral.ofChars? (trimBlanks text.toList) = some n) (integer : n.isInteger = true)
      (long : digitLimit < n.whole.length) :
      Overlong t (.str text) (.tooManyDigits n.whole.length)
  | written {n : Int} (long : digitLimit < digitCount n.natAbs) :
      Overlong .string (.num (.int n)) .integerTooLong

variable {t : JsonType} {v : Json} {fault : Fault} {names : List String}

theorem Representable.isScalar (h : Representable t v) : v.isScalar = true := by
  cases h with
  | wrapped scalar => exact scalar
  | boolText | numberText | boolNumber | numeral | numberBool | textBool | textNull => rfl

/-- What is too long to be converted has a value of the type nevertheless. -/
theorem Overlong.representable (h : Overlong t v fault) : Representable t v := by
  cases h with
  | read numeric reads integer long => exact .numeral numeric reads (.inl integer)
  | written long => exact .numberText _

/-! ### Texts of digits -/

theorem trimBlanks_of_unblank {text : List Char} (h : ∀ c ∈ text, isBlank c = false) :
    trimBlanks text = text := by
  have hfront : ∀ {cs : List Char}, (∀ c ∈ cs, isBlank c = false) → cs.dropWhile isBlank = cs := by
    intro cs hcs
    cases cs with
    | nil => rfl
    | cons c rest => rw [List.dropWhile_cons_of_neg (by simp [hcs c List.mem_cons_self])]
  rw [trimBlanks, hfront h, hfront fun c hc => h c (List.mem_reverse.mp hc), List.reverse_reverse]

/-- A text of digits only is an integer numeral. -/
theorem ofChars?_digits {digits : List Char} (nonempty : digits ≠ [])
    (h : ∀ c ∈ digits, isDecimalDigit c = true) :
    Numeral.ofChars? digits = some ⟨false, digits, none, none⟩ := by
  have hsign : Numeral.splitSign digits = (false, digits) := by
    unfold Numeral.splitSign
    split
    · exact absurd (h '-' List.mem_cons_self) (by decide +kernel)
    · exact absurd (h '+' List.mem_cons_self) (by decide +kernel)
    · rfl
  have htake : digits.takeWhile isDecimalDigit = digits := List.takeWhile_eq_self_iff.mpr h
  have hdrop : digits.dropWhile isDecimalDigit = [] := List.dropWhile_eq_nil_iff.mpr h
  unfold Numeral.ofChars? Numeral.splitDigits
  simp [hsign, htake, hdrop, nonempty, Numeral.exponentOf?]

/-- A text of too many digits, of whatever scripts, is too long to be read. -/
theorem Overlong.of_digits {digits : List Char} (numeric : t = .number ∨ t = .integer)
    (h : ∀ c ∈ digits, isDecimalDigit c = true ∧ isBlank c = false)
    (long : digitLimit < digits.length) :
    Overlong t (.str (String.ofList digits)) (.tooManyDigits digits.length) := by
  have hnonempty : digits ≠ [] := by
    rintro rfl
    exact absurd long (by decide)
  refine .read (n := ⟨false, digits, none, none⟩) numeric ?_ rfl long
  rw [String.toList_ofList, trimBlanks_of_unblank fun c hc => (h c hc).2]
  exact ofChars?_digits hnonempty fun c hc => (h c hc).1

/-! ### Numbers -/

theorem numeralNumber_eq_none {whole : Bool} {n : Numeral} : numeralNumber whole n = .ok none ↔
    ¬ (n.isInteger = true ∨ ∃ x, n.toDecimal.toBinary64 = .finite x) := by
  unfold numeralNumber
  cases n.isInteger with
  | true =>
    rw [if_pos rfl]
    split <;> simp
  | false =>
    rw [if_neg Bool.false_ne_true]
    cases n.toDecimal.toBinary64 <;> simp

theorem numeralNumber_eq_error {whole : Bool} {n : Numeral} :
    numeralNumber whole n = .error fault ↔
      n.isInteger = true ∧ digitLimit < n.whole.length ∧ fault = .tooManyDigits n.whole.length := by
  unfold numeralNumber
  cases n.isInteger with
  | true =>
    rw [if_pos rfl]
    split
    · rename_i hlong
      simp [hlong, eq_comm]
    · rename_i hshort
      simp [hshort]
  | false =>
    rw [if_neg Bool.false_ne_true]
    cases n.toDecimal.toBinary64 <;> simp

theorem toNumber_eq_none {whole : Bool} (numeric : t = .number ∨ t = .integer) :
    toNumber whole v = .ok none ↔ ¬ Representable t v := by
  cases v with
  | bool b => simpa [toNumber] using Representable.boolNumber b numeric
  | str text =>
    have hread : Representable t (.str text) ↔ ∃ n,
        Numeral.ofChars? (trimBlanks text.toList) = some n ∧
          (n.isInteger = true ∨ ∃ x, n.toDecimal.toBinary64 = .finite x) := by
      constructor
      · intro h
        cases h with
        | numeral _ reads finite => exact ⟨_, reads, finite⟩
        | wrapped | textBool | textNull => simp at numeric
      · rintro ⟨n, reads, finite⟩
        exact .numeral numeric reads finite
    rw [hread, toNumber]
    cases Numeral.ofChars? (trimBlanks text.toList) with
    | none => simp
    | some n => simp [numeralNumber_eq_none]
  | null | num | arr | obj =>
    simp only [toNumber, true_iff]
    intro h
    cases h <;> simp_all

theorem toNumber_eq_error {whole : Bool} (numeric : t = .number ∨ t = .integer) :
    toNumber whole v = .error fault ↔ Overlong t v fault := by
  cases v with
  | str text =>
    rw [toNumber]
    cases hreads : Numeral.ofChars? (trimBlanks text.toList) with
    | none =>
      simp only [reduceCtorEq, false_iff]
      rintro ⟨⟩
      simp_all
    | some n =>
      simp only [numeralNumber_eq_error]
      constructor
      · rintro ⟨hinteger, hlong, rfl⟩
        exact .read numeric hreads hinteger hlong
      · rintro (⟨-, hreads', hinteger, hlong⟩ | -)
        rw [hreads] at hreads'
        cases hreads'
        exact ⟨hinteger, hlong, rfl⟩
  | num n =>
    simp only [toNumber, reduceCtorEq, false_iff]
    rintro ⟨⟩
    simp at numeric
  | null | bool | arr | obj =>
    simp only [toNumber, reduceCtorEq, false_iff]
    rintro ⟨⟩

/-! ### Other types -/

theorem toText_eq_none (scalar : v.isScalar = true) :
    toText v = .ok none ↔ ¬ Representable .string v := by
  cases v with
  | bool b => simpa [toText] using Representable.boolText b
  | num n =>
    have hpossible : Representable .string (.num n) := .numberText n
    cases n with
    | int n =>
      simp only [toText, hpossible, not_true, iff_false]
      split <;> simp
    | real x => cases x <;> simpa [toText] using hpossible
  | str text =>
    simp only [toText, true_iff]
    intro h
    cases h with
    | numeral numeric => simp at numeric
  | null | arr | obj => cases scalar

theorem toText_eq_error : toText v = .error fault ↔ Overlong .string v fault := by
  constructor
  · intro h
    unfold toText at h
    split at h
    · cases h
    · split at h
      · rename_i hlong
        cases h
        exact .written hlong
      · cases h
    · cases h
    · cases h
    · cases h
  · intro h
    cases h with
    | read numeric => simp at numeric
    | written long => rw [toText, if_pos long]

theorem toBoolean_eq_none (scalar : v.isScalar = true) :
    toBoolean v = none ↔ ¬ Representable .boolean v := by
  cases v with
  | num n => simpa [toBoolean] using Representable.numberBool n
  | str text =>
    have hword : Representable .boolean (.str text) ↔
        String.ofList (text.toList.map Char.toLower) ∈ ["true", "1", "false", "0", ""] := by
      constructor
      · intro h
        cases h with
        | numeral numeric => simp at numeric
        | textBool word => exact word
      · exact .textBool
    rw [hword, toBoolean]
    generalize String.ofList (text.toList.map Char.toLower) = word
    split
    · rename_i h
      rcases h with rfl | rfl <;> simp
    · rename_i htrue
      split
      · rename_i h
        rcases h with rfl | rfl | rfl <;> simp
      · rename_i hfalse
        simp_all
  | bool b =>
    simp only [toBoolean, true_iff]
    intro h
    cases h with
    | boolNumber _ numeric => simp at numeric
  | null | arr | obj => cases scalar

theorem toNull_eq_none (scalar : v.isScalar = true) : toNull v = none ↔ ¬ Representable .null v := by
  cases v with
  | str text =>
    have hword : Representable .null (.str text) ↔ text = "" ∨ text = "null" := by
      constructor
      · intro h
        cases h with
        | numeral numeric => simp at numeric
        | textNull word => exact word
      · exact .textNull
    rw [hword, toNull]
    split <;> simp_all
  | bool b =>
    simp only [toNull, true_iff]
    intro h
    cases h with
    | boolNumber _ numeric => simp at numeric
  | num n =>
    simp only [toNull, true_iff]
    rintro ⟨⟩
  | null | arr | obj => cases scalar

/-! ### All types -/

/-- **A conversion gives nothing exactly where the type has no value for the scalar.** -/
theorem toType_eq_none : toType t v = .ok none ↔ ¬ Representable t v := by
  unfold toType
  cases hscalar : v.isScalar with
  | false =>
    simp only [Bool.not_false, if_true, true_iff]
    intro h
    rw [h.isScalar] at hscalar
    cases hscalar
  | true =>
    simp only [Bool.not_true, Bool.false_eq_true, if_false]
    cases t with
    | string => exact toText_eq_none hscalar
    | number => exact toNumber_eq_none (.inl rfl)
    | integer => exact toNumber_eq_none (.inr rfl)
    | boolean => rw [Except.ok.injEq, toBoolean_eq_none hscalar]
    | array => simpa using Representable.wrapped hscalar
    | null => rw [Except.ok.injEq, toNull_eq_none hscalar]
    | object =>
      simp only [true_iff]
      intro h
      cases h with
      | boolNumber _ numeric => simp at numeric
      | numeral numeric => simp at numeric

/-- **A conversion fails exactly where an integer has too many digits.** -/
theorem toType_eq_error : toType t v = .error fault ↔ Overlong t v fault := by
  unfold toType
  cases hscalar : v.isScalar with
  | false =>
    simp only [Bool.not_false, if_true, reduceCtorEq, false_iff]
    intro h
    rw [h.representable.isScalar] at hscalar
    cases hscalar
  | true =>
    simp only [Bool.not_true, Bool.false_eq_true, if_false]
    cases t with
    | string => exact toText_eq_error
    | number => exact toNumber_eq_error (.inl rfl)
    | integer => exact toNumber_eq_error (.inr rfl)
    | boolean | array | null | object =>
      simp only [reduceCtorEq, false_iff]
      intro h
      cases h with
      | read numeric => simp at numeric

/-! ## The listed types -/

/-- None of the named types has a value for the scalar. -/
def NoneRepresentable (names : List String) (v : Json) : Prop :=
  ∀ t : JsonType, t.name ∈ names → ¬ Representable t v

theorem toTypeNamed_name (t : JsonType) (v : Json) : toTypeNamed t.name v = toType t v := by
  rw [toTypeNamed, JsonType.ofName?_name]

theorem toTypeNamed_eq_none {name : String} :
    toTypeNamed name v = .ok none ↔ ∀ t : JsonType, t.name = name → ¬ Representable t v := by
  unfold toTypeNamed
  cases hname : JsonType.ofName? name with
  | none =>
    simp only [true_iff]
    rintro t rfl
    rw [JsonType.ofName?_name] at hname
    cases hname
  | some t =>
    rw [JsonType.ofName?_eq_some] at hname
    subst hname
    simp only [toType_eq_none]
    constructor
    · intro h u hu
      have heq : u = t := by
        have hname := JsonType.ofName?_name u
        rw [hu, JsonType.ofName?_name] at hname
        exact (Option.some.inj hname).symm
      rwa [heq]
    · intro h
      exact h t rfl

theorem toTypeNamed_eq_error {name : String} :
    toTypeNamed name v = .error fault ↔ ∃ t : JsonType, name = t.name ∧ Overlong t v fault := by
  unfold toTypeNamed
  cases hname : JsonType.ofName? name with
  | none =>
    simp only [reduceCtorEq, false_iff]
    rintro ⟨t, rfl, -⟩
    rw [JsonType.ofName?_name] at hname
    cases hname
  | some t =>
    simp only [toType_eq_error]
    constructor
    · intro h
      exact ⟨t, JsonType.ofName?_eq_some.mp hname, h⟩
    · rintro ⟨u, rfl, h⟩
      rw [JsonType.ofName?_name] at hname
      cases hname
      exact h

theorem firstSuccess_eq_none_iff : firstSuccess v names = .ok none ↔ NoneRepresentable names v := by
  rw [firstSuccess_eq_none]
  constructor
  · intro h t hmem
    exact toTypeNamed_eq_none.mp (h _ hmem) t rfl
  · intro h name hmem
    refine toTypeNamed_eq_none.mpr ?_
    rintro t rfl
    exact h t hmem

/-- What the first of some names decides where nothing in front of it is possible. -/
theorem firstSuccess_append {earlier : List String} (h : NoneRepresentable earlier v)
    (later : List String) : firstSuccess v (earlier ++ later) = firstSuccess v later := by
  induction earlier with
  | nil => rfl
  | cons name rest ih =>
    have hhead : toTypeNamed name v = .ok none := by
      refine toTypeNamed_eq_none.mpr ?_
      rintro t rfl
      exact h t List.mem_cons_self
    rw [List.cons_append, firstSuccess, hhead]
    exact ih fun t hmem => h t (List.mem_cons_of_mem _ hmem)

/-- **Trying the listed types fails exactly where the first one that has a value for the scalar meets an
integer of too many digits.** -/
theorem firstSuccess_eq_error : firstSuccess v names = .error fault ↔
    ∃ (earlier later : List String) (t : JsonType), names = earlier ++ t.name :: later ∧
      NoneRepresentable earlier v ∧ Overlong t v fault := by
  constructor
  · intro h
    induction names with
    | nil => cases h
    | cons name rest ih =>
      rw [firstSuccess] at h
      cases hname : toTypeNamed name v with
      | error other =>
        rw [hname] at h
        cases h
        obtain ⟨t, rfl, hlong⟩ := toTypeNamed_eq_error.mp hname
        exact ⟨[], rest, t, rfl, fun _ hmem => absurd hmem List.not_mem_nil, hlong⟩
      | ok result? =>
        rw [hname] at h
        cases result? with
        | some result => cases h
        | none =>
          obtain ⟨earlier, later, t, rfl, hearlier, hlong⟩ := ih h
          refine ⟨name :: earlier, later, t, rfl, fun u hmem => ?_, hlong⟩
          rcases List.mem_cons.mp hmem with hu | hmem
          · exact toTypeNamed_eq_none.mp hname u hu
          · exact hearlier u hmem
  · rintro ⟨earlier, later, t, rfl, hearlier, hlong⟩
    rw [firstSuccess_append hearlier, firstSuccess, toTypeNamed_name, toType_eq_error.mpr hlong]
    rfl

/-- Nothing is turned into an object. -/
theorem firstSuccess_ne_obj {target : String} {ms : Members} :
    firstSuccess v names ≠ .ok (some (target, .obj ms)) := by
  intro h
  rcases toTypeNamed_flat (toTypeNamed_of_firstSuccess h) with harray | hflat
  · cases harray
  · exact hflat

/-- **A scalar is put into an array exactly where `array` is the first listed type that has a value for
it.** -/
theorem firstSuccess_eq_wrapped {target : String} {xs : List Json} :
    firstSuccess v names = .ok (some (target, .arr xs)) ↔
      target = "array" ∧ xs = [v] ∧ v.isScalar = true ∧
        ∃ earlier later, names = earlier ++ "array" :: later ∧ NoneRepresentable earlier v := by
  constructor
  · intro h
    obtain ⟨earlier, later, rfl, hearlier, htarget⟩ := firstSuccess_cases h
    have hscalar := isScalar_of_toTypeNamed htarget
    have harray := isOfTypeNamed_of_toTypeNamed htarget
    have hname : target = "array" := by
      obtain ⟨t, hname, -⟩ := toType_of_toTypeNamed htarget
      rw [Json.isOfTypeNamed, hname] at harray
      cases t with
      | array => exact JsonType.ofName?_eq_some.mp hname
      | null | boolean | string | object | number | integer => cases harray
    subst hname
    rcases toTypeNamed_flat htarget with hxs | hflat
    · cases hxs
      exact ⟨rfl, rfl, hscalar, earlier, later, rfl, firstSuccess_eq_none_iff.mp
        (firstSuccess_eq_none.mpr hearlier)⟩
    · exact hflat.elim
  · rintro ⟨rfl, rfl, hscalar, earlier, later, rfl, hearlier⟩
    have harray : toTypeNamed "array" v = .ok (some (.arr [v])) := by
      rw [show "array" = JsonType.array.name from rfl, toTypeNamed_name, toType, hscalar]
      rfl
    rw [firstSuccess_append hearlier, firstSuccess, harray]
    rfl

end Coerce

end JsonMend
