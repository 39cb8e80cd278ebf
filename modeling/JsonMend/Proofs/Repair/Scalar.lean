import JsonMend.Repair.Coerce
import JsonMend.Proofs.Json.Keys
/-
  Turning a scalar into a value of another type.

  1. **Sound** (`isOfTypeNamed_of_toTypeNamed`) — what comes out is of the type that was asked for.
  2. **Only scalars** (`isScalar_of_toTypeNamed`) — null, arrays and objects are turned into nothing.
  3. **Flat** (`toTypeNamed_flat`) — what comes out is the scalar in an array of its own, or has no parts.
     So no key ever comes from a conversion.
-/
namespace JsonMend

namespace Coerce

variable {name : String} {t : JsonType} {v w : Json}

/-- What a numeral stands for is a number, and a whole one where that was asked for. -/
theorem numeralNumber_cases {whole : Bool} {n : Numeral}
    (h : numeralNumber whole n = .ok (some w)) :
    ∃ x : Number, w = .num x ∧ (whole = true → x.isWhole = true) := by
  unfold numeralNumber at h
  split at h
  · split at h
    · cases h
    · cases h
      exact ⟨_, rfl, fun _ => rfl⟩
  · split at h
    · cases h
    · cases h
      refine ⟨_, rfl, fun hwhole => ?_⟩
      rw [hwhole]
      rfl

theorem toNumber_cases {whole : Bool} (h : toNumber whole v = .ok (some w)) :
    ∃ x : Number, w = .num x ∧ (whole = true → x.isWhole = true) := by
  unfold toNumber at h
  split at h
  · cases h
    exact ⟨_, rfl, fun _ => rfl⟩
  · split at h
    · exact numeralNumber_cases h
    · cases h
  · cases h

theorem toText_cases (h : toText v = .ok (some w)) : ∃ s, w = .str s := by
  unfold toText at h
  split at h
  · cases h; exact ⟨_, rfl⟩
  · split at h
    · cases h
    · cases h; exact ⟨_, rfl⟩
  · cases h; exact ⟨_, rfl⟩
  · cases h; exact ⟨_, rfl⟩
  · cases h

theorem toBoolean_cases (h : toBoolean v = some w) : ∃ b, w = .bool b := by
  unfold toBoolean at h
  split at h
  · dsimp only at h
    split at h
    · cases h; exact ⟨_, rfl⟩
    · split at h
      · cases h; exact ⟨_, rfl⟩
      · cases h
  · cases h; exact ⟨_, rfl⟩
  · cases h

theorem toNull_cases (h : toNull v = some w) : w = .null := by
  unfold toNull at h
  split at h
  · split at h
    · cases h; rfl
    · cases h
  · cases h

/-- A value has no parts that a pass could enter. -/
def Flat : Json → Prop
  | .arr _ | .obj _ => False
  | _ => True

/-- All that is known of what comes out of a conversion. -/
theorem toType_cases (h : toType t v = .ok (some w)) :
    v.isScalar = true ∧ w.isOfType t = true ∧ (w = .arr [v] ∨ Flat w) := by
  unfold toType at h
  split at h
  · cases h
  · rename_i hscalar
    refine ⟨by simpa using hscalar, ?_⟩
    cases t with
    | string =>
      obtain ⟨s, rfl⟩ := toText_cases h
      exact ⟨rfl, .inr trivial⟩
    | number =>
      obtain ⟨x, rfl, -⟩ := toNumber_cases h
      exact ⟨rfl, .inr trivial⟩
    | integer =>
      obtain ⟨x, rfl, hwhole⟩ := toNumber_cases h
      exact ⟨hwhole rfl, .inr trivial⟩
    | boolean =>
      rw [Except.ok.injEq] at h
      obtain ⟨b, rfl⟩ := toBoolean_cases h
      exact ⟨rfl, .inr trivial⟩
    | array =>
      cases h
      exact ⟨rfl, .inl rfl⟩
    | null =>
      rw [Except.ok.injEq] at h
      rw [toNull_cases h]
      exact ⟨rfl, .inr trivial⟩
    | object => cases h

theorem toType_of_toTypeNamed (h : toTypeNamed name v = .ok (some w)) :
    ∃ t, JsonType.ofName? name = some t ∧ toType t v = .ok (some w) := by
  unfold toTypeNamed at h
  split at h
  · rename_i t hname
    exact ⟨t, hname, h⟩
  · cases h

/-- Only a scalar is turned into anything. -/
theorem isScalar_of_toTypeNamed (h : toTypeNamed name v = .ok (some w)) : v.isScalar = true := by
  obtain ⟨t, -, htype⟩ := toType_of_toTypeNamed h
  exact (toType_cases htype).1

/-- A scalar is turned into a value of the type that was asked for. -/
theorem isOfTypeNamed_of_toTypeNamed (h : toTypeNamed name v = .ok (some w)) :
    w.isOfTypeNamed name = true := by
  obtain ⟨t, hname, htype⟩ := toType_of_toTypeNamed h
  rw [Json.isOfTypeNamed, hname]
  exact (toType_cases htype).2.1

/-- What a scalar is turned into is the scalar in an array of its own, or has no parts. -/
theorem toTypeNamed_flat (h : toTypeNamed name v = .ok (some w)) : w = .arr [v] ∨ Flat w := by
  obtain ⟨t, -, htype⟩ := toType_of_toTypeNamed h
  exact (toType_cases htype).2.2

/-- No key comes from a conversion. -/
theorem eachObject_of_toTypeNamed {P : List String → Prop} (h : toTypeNamed name v = .ok (some w)) :
    w.EachObject P := by
  have hv : v.EachObject P := Json.eachObject_of_isScalar (isScalar_of_toTypeNamed h)
  rcases toTypeNamed_flat h with rfl | hflat
  · exact .arr fun x hx => by rw [List.mem_singleton.mp hx]; exact hv
  · cases w with
    | null => exact .null
    | bool b => exact .bool b
    | num n => exact .num n
    | str s => exact .str s
    | arr xs => exact hflat.elim
    | obj ms => exact hflat.elim

end Coerce

end JsonMend
