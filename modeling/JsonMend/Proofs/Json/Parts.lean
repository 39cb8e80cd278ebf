import JsonMend.Proofs.Json.Keys
/-
  The values that a value is made of.

  They are listed with the value itself in front, so there are as many as its size says, and a condition on all of
  them is decided by running it.
-/
namespace JsonMend

namespace Json

mutual
/-- The values inside a value, the value itself left out. -/
def innerParts : Json → List Json
  | .arr xs => itemsParts xs
  | .obj ms => membersParts ms
  | _ => []
def itemsParts : List Json → List Json
  | [] => []
  | x :: xs => x :: (innerParts x ++ itemsParts xs)
def membersParts : List (String × Json) → List Json
  | [] => []
  | (_, x) :: ms => x :: (innerParts x ++ membersParts ms)
end

/-- The values that a value is made of. -/
def parts (v : Json) : List Json := v :: v.innerParts

variable {v x y : Json} {xs : List Json} {ms : Members} {key : String}

theorem itemsParts_eq (xs : List Json) : itemsParts xs = xs.flatMap parts := by
  induction xs with
  | nil => rfl
  | cons x xs ih => exact congrArg (x.parts ++ ·) ih

theorem membersParts_eq (ms : Members) : membersParts ms = ms.flatMap fun m => m.2.parts := by
  induction ms with
  | nil => rfl
  | cons m ms ih => exact congrArg (m.2.parts ++ ·) ih

theorem innerParts_arr (xs : List Json) : (arr xs).innerParts = xs.flatMap parts := itemsParts_eq xs

theorem innerParts_obj (ms : Members) : (obj ms).innerParts = ms.flatMap fun m => m.2.parts := membersParts_eq ms

theorem mem_innerParts_arr : y ∈ (arr xs).innerParts ↔ ∃ x ∈ xs, y ∈ x.parts := by
  rw [innerParts_arr, List.mem_flatMap]

theorem mem_innerParts_obj : y ∈ (obj ms).innerParts ↔ ∃ m ∈ ms, y ∈ m.2.parts := by
  rw [innerParts_obj, List.mem_flatMap]

theorem self_mem_parts (v : Json) : v ∈ v.parts := List.mem_cons_self

theorem mem_parts_of_inner (h : x ∈ v.innerParts) : x ∈ v.parts := List.mem_cons_of_mem _ h

/-- A member of an object is inside it. -/
theorem member_mem_innerParts (h : (key, x) ∈ ms) : x ∈ (obj ms).innerParts :=
  mem_innerParts_obj.mpr ⟨_, h, x.self_mem_parts⟩

/-- An item of an array is inside it. -/
theorem item_mem_innerParts (h : x ∈ xs) : x ∈ (arr xs).innerParts :=
  mem_innerParts_arr.mpr ⟨_, h, x.self_mem_parts⟩

/-- **What a part is made of is inside the value**, where the part is. -/
theorem innerParts_trans (hx : x ∈ v.innerParts) (hy : y ∈ x.parts) : y ∈ v.innerParts := by
  induction v using induction_on_parts with
  | null | bool | num | str => cases hx
  | arr xs ih =>
    obtain ⟨item, hitem, hx⟩ := mem_innerParts_arr.mp hx
    refine mem_innerParts_arr.mpr ⟨item, hitem, ?_⟩
    rcases List.mem_cons.mp hx with rfl | hx
    · exact hy
    · exact mem_parts_of_inner (ih item hitem hx)
  | obj ms ih =>
    obtain ⟨m, hm, hx⟩ := mem_innerParts_obj.mp hx
    refine mem_innerParts_obj.mpr ⟨m, hm, ?_⟩
    rcases List.mem_cons.mp hx with rfl | hx
    · exact hy
    · exact mem_parts_of_inner (ih m hm hx)

theorem parts_trans (hx : x ∈ v.parts) (hy : y ∈ x.parts) : y ∈ v.parts := by
  rcases List.mem_cons.mp hx with rfl | hx
  · exact hy
  · exact mem_parts_of_inner (innerParts_trans hx hy)

/-- A property of all key lists holds of the parts. -/
theorem EachObject.inner {P : List String → Prop} (h : v.EachObject P) (hx : x ∈ v.innerParts) : x.EachObject P := by
  induction h with
  | null | bool | num | str => cases hx
  | arr items ih =>
    obtain ⟨item, hitem, hx⟩ := mem_innerParts_arr.mp hx
    rcases List.mem_cons.mp hx with rfl | hx
    · exact items x hitem
    · exact ih item hitem hx
  | obj _ members ih =>
    obtain ⟨m, hm, hx⟩ := mem_innerParts_obj.mp hx
    rcases List.mem_cons.mp hx with rfl | hx
    · exact members m hm
    · exact ih m hm hx

theorem EachObject.part {P : List String → Prop} (h : v.EachObject P) (hx : x ∈ v.parts) : x.EachObject P := by
  rcases List.mem_cons.mp hx with rfl | hx
  · exact h
  · exact h.inner hx

/-- **There are as many parts as the size says.** -/
theorem length_parts (v : Json) : v.parts.length = v.size := by
  induction v using induction_on_parts with
  | null | bool | num | str => rfl
  | arr xs ih =>
    rw [parts, List.length_cons, innerParts_arr, size]
    congr 1
    induction xs with
    | nil => rfl
    | cons x xs ihs =>
      rw [List.forall_mem_cons] at ih
      rw [List.flatMap_cons, List.length_append, ih.1, ihs ih.2, itemsSize]
  | obj ms ih =>
    rw [parts, List.length_cons, innerParts_obj, size]
    congr 1
    induction ms with
    | nil => rfl
    | cons m ms ihs =>
      rw [List.forall_mem_cons] at ih
      rw [List.flatMap_cons, List.length_append, ih.1, ihs ih.2, membersSize]

end Json

end JsonMend
