import Mathlib.Data.List.TakeWhile
import JsonMend.Proofs.Pointer.Place
import JsonMend.Proofs.Shape.Walk
/-
  Looking a shape up at a pointer, against walking down to it.

  A pointer keeps less than the place it was built for: the texts of the steps, but not which of them are
  indices, and of empty keys in front nothing but that there were some, as a lone slash is the root.

  1. **What the pointer keeps** (`split_below`) — taken apart, it is the texts of the steps behind the empty
     keys in front.
  2. **Keys for indices** (`descend_asKeys`) — to read an index as the key of its text changes nothing in a
     shape that declares no such key: both are led to the items.  `DiscernsIndices` says so of every index on
     the way.
  3. **Telling places apart** — a pointer that two places of a value share differs only in the number of
     empty keys in front (`place_eq_of_below`).

  Main result (`atPointer_below`): looking up the pointer to a place walks down its steps as keys.  It leads
  where the place leads and means no other place, up to what the pointer leaves out;
  `atPointer_below_loses` shows that it loses something there.
-/
namespace JsonMend

/-! ## What the pointer keeps -/

/-- Whether a step is the empty key. -/
def Segment.isBlank (step : Segment) : Bool := step = .key ""

theorem Segment.isBlank_iff {step : Segment} : step.isBlank = true ↔ step = .key "" :=
  decide_eq_true_iff

/-- A step as a pointer has it: by its text, which is then taken as a key. -/
def Segment.asKey (step : Segment) : Segment := .key step.text

namespace Pointer

theorem text_ne_of_not_blank {step : Segment} (h : step.isBlank = false) : step.text ≠ "" := by
  cases step with
  | index i => exact index_text_ne i
  | key name =>
    rintro rfl
    cases h

/-- A step behind the lone slash stands behind the root. -/
theorem split_below_slash (place : Position) : split (below "/" place) = split (below "" place) := by
  cases place with
  | nil => rfl
  | cons step rest =>
    have hjoin : join "/" step.text = join "" step.text := by simp [join, isRoot]
    show split (below (join "/" step.text) rest) = split (below (join "" step.text) rest)
    rw [hjoin]

/-- The pointer that is built along a place splits into the texts of the steps behind the empty keys that
the place begins with. -/
theorem split_below (place : Position) :
    split (below "" place) = (place.dropWhile Segment.isBlank).map Segment.text := by
  induction place with
  | nil => rfl
  | cons step rest ih =>
    cases hblank : step.isBlank with
    | true =>
      cases Segment.isBlank_iff.mp hblank
      rw [List.dropWhile_cons_of_pos hblank, ← ih]
      exact split_below_slash rest
    | false =>
      have htext : step.text ≠ "" := text_ne_of_not_blank hblank
      rw [List.dropWhile_cons_of_neg (by rw [hblank]; exact Bool.false_ne_true), below_root htext]
      exact split_concat htext _

end Pointer

/-! ## Telling places apart -/

theorem dropWhile_blank {place : Position} (h : place.head? ≠ some (.key "")) :
    place.dropWhile Segment.isBlank = place := by
  cases place with
  | nil => rfl
  | cons step rest =>
    refine List.dropWhile_cons_of_neg fun hblank => h ?_
    rw [List.head?_cons, Segment.isBlank_iff.mp hblank]

theorem takeWhile_blank (place : Position) : place.takeWhile Segment.isBlank =
    List.replicate (place.takeWhile Segment.isBlank).length (.key "") := by
  refine List.eq_replicate_of_mem fun step hstep => ?_
  exact Segment.isBlank_iff.mp (List.mem_takeWhile_imp hstep)

/-- Two places of a value that begin with equally many empty keys share no pointer. -/
theorem Json.place_eq_of_below {v x y : Json} {place other : Position} (h : v.at? place = some x)
    (hother : v.at? other = some y) (hpointer : Pointer.below "" place = Pointer.below "" other)
    (hblank : (place.takeWhile Segment.isBlank).length = (other.takeWhile Segment.isBlank).length) :
    place = other := by
  have hbehind : (place.dropWhile Segment.isBlank).map Segment.text =
      (other.dropWhile Segment.isBlank).map Segment.text := by
    rw [← Pointer.split_below, hpointer, Pointer.split_below]
  have hfront : place.takeWhile Segment.isBlank = other.takeWhile Segment.isBlank := by
    rw [takeWhile_blank place, hblank, ← takeWhile_blank other]
  refine Json.place_eq_of_text h hother ?_
  rw [← List.takeWhile_append_dropWhile (p := Segment.isBlank) (l := place), List.map_append, hbehind,
    hfront, ← List.map_append, List.takeWhile_append_dropWhile]

/-! ## Keys for indices -/

namespace Shape

/-- A step that a shape discerns from the key of its text: an index, if the shape declares no such key. -/
def Discerns (s : Shape) : Segment → Prop
  | .key _ => True
  | .index i => s.isObject = true → s.declares (Segment.index i).text = .ok false

/-- Every index on the way down is told from a key. -/
def DiscernsIndices (s : Shape) : Position → Prop
  | [] => True
  | step :: rest => s.Discerns step ∧ ∀ sub, s.child step = .ok (some sub) → sub.DiscernsIndices rest

instance (s : Shape) (step : Segment) : Decidable (s.Discerns step) :=
  match step with
  | .key _ => .isTrue trivial
  | .index i =>
    inferInstanceAs (Decidable (s.isObject = true → s.declares (Segment.index i).text = .ok false))

instance decidableDiscernsIndices (s : Shape) : (place : Position) → Decidable (s.DiscernsIndices place)
  | [] => .isTrue trivial
  | step :: rest =>
    match hchild : s.child step with
    | .ok (some sub) =>
      have := decidableDiscernsIndices sub rest
      decidable_of_iff (s.Discerns step ∧ sub.DiscernsIndices rest) <| by
        simp only [DiscernsIndices, hchild, Except.ok.injEq, Option.some.injEq, forall_eq']
    | .ok none | .error _ =>
      decidable_of_iff (s.Discerns step) <| by
        simp [DiscernsIndices, hchild]

variable {s : Shape} {step : Segment} {place : Position}

/-- A key that a shape does not declare is led to the items, as every index is. -/
theorem child_of_undeclared {key : String} (h : s.isObject = true → s.declares key = .ok false) :
    s.child (.key key) = .ok s.items := by
  unfold child
  rw [items_if_isArray]
  cases hobject : s.isObject with
  | false => rfl
  | true =>
    obtain ⟨hlookup, hmatch⟩ := declares_eq_false.mp (h hobject)
    simp only [hlookup, hmatch, Except.map]

theorem child_asKey (h : s.Discerns step) : s.child step.asKey = s.child step := by
  cases step with
  | key name => rfl
  | index i => rw [Segment.asKey, child_of_undeclared h, child_index]

@[simp] theorem descend_none (place : Position) : descend none place = .ok none := by
  induction place with
  | nil => rfl
  | cons step rest ih => exact ih

/-- Walking down step by step, where a fault ends the walk. -/
theorem descend_cons (s : Shape) (step : Segment) (place : Position) :
    descend (some s) (step :: place) = (s.child step).bind (descend · place) := rfl

/-- Walking down the texts of the steps leads where the steps lead, if every index on the way is told from
a key. -/
theorem descend_asKeys (h : s.DiscernsIndices place) :
    descend (some s) (place.map Segment.asKey) = descend (some s) place := by
  induction place generalizing s with
  | nil => rfl
  | cons step rest ih =>
    obtain ⟨hdiscerns, hrest⟩ := h
    rw [List.map_cons, descend_cons, descend_cons, child_asKey hdiscerns]
    cases hchild : s.child step with
    | error fault => rfl
    | ok sub? =>
      cases sub? with
      | none => exact (descend_none _).trans (descend_none _).symm
      | some sub => exact ih (hrest sub hchild)

/-! ## The lookup -/

/-- Looking up the pointer along a place walks down the texts of its steps, empty keys in front left out. -/
theorem atPointer_below_eq (s : Option Shape) (place : Position) :
    atPointer s (Pointer.below "" place) =
      descend s ((place.dropWhile Segment.isBlank).map Segment.asKey) := by
  rw [atPointer, Pointer.split_below, List.map_map]
  rfl

/-- **Looking up the pointer to a place walks down to it.**  For every place of a value: the pointer that is
built along it is looked up by walking down its steps as keys, the empty keys in front left out; so the
lookup gives the shape to which the place itself leads, if the place does not begin with the empty key and
every index on the way is told from a key; and no other place of the value that begins with equally many
empty keys has that pointer. -/
theorem atPointer_below {s : Shape} {v x : Json} {place : Position} (hplace : v.at? place = some x) :
    atPointer (some s) (Pointer.below "" place) =
        descend (some s) ((place.dropWhile Segment.isBlank).map Segment.asKey) ∧
      (place.head? ≠ some (.key "") → s.DiscernsIndices place →
        atPointer (some s) (Pointer.below "" place) = descend (some s) place) ∧
      ∀ other y, v.at? other = some y → Pointer.below "" place = Pointer.below "" other →
        (place.takeWhile Segment.isBlank).length = (other.takeWhile Segment.isBlank).length →
        place = other := by
  refine ⟨atPointer_below_eq _ _, fun hhead hdiscerns => ?_, fun other y hother hpointer hblank => ?_⟩
  · rw [atPointer_below_eq, dropWhile_blank hhead, descend_asKeys hdiscerns]
  · exact Json.place_eq_of_below hplace hother hpointer hblank

/-- A place with an escaped key, an index under a shape for objects and arrays both, a key written like an
index and an empty key at the end; the shape is found by the second pattern. -/
theorem atPointer_below_of_four :
    let s := ofSchema (.obj [("properties", .obj [("a/b", .obj [
      ("properties", .obj [("00", .obj [])]), ("patternProperties", .obj [("^x", .obj [])]),
      ("items", .obj [("patternProperties", .obj [("x", .obj []), ("[0-9]", .obj [
        ("properties", .obj [("", .obj [("type", .str "null")])])])])])])])])
    let v : Json := .obj [("a/b", .arr [.null, .obj [("0", .obj [("", .str "x")])]]), ("", .null)]
    let place : Position := [.key "a/b", .index 1, .key "0", .key ""]
    v.at? place = some (.str "x") ∧ place.head? ≠ some (.key "") ∧ s.DiscernsIndices place ∧
      Pointer.below "" place = "/a~1b/1/0/" ∧
      atPointer (some s) (Pointer.below "" place) = descend (some s) place ∧
      (descend (some s) place).map (·.map types) = .ok (some ["null"]) ∧
      v.at? [.key "a/b", .index 0] = some .null ∧
      Pointer.below "" place ≠ Pointer.below "" [.key "a/b", .index 0] := by
  intro s v place
  have hplace : v.at? place = some (.str "x") := by decide +kernel
  have hhead : place.head? ≠ some (.key "") := by decide
  have hdiscerns : s.DiscernsIndices place := by decide +kernel
  obtain ⟨-, hlookup, hapart⟩ := atPointer_below (s := s) hplace
  refine ⟨hplace, hhead, hdiscerns, by decide +kernel, hlookup hhead hdiscerns, by decide +kernel,
    by decide +kernel, ?_⟩
  intro hpointer
  exact absurd (hapart _ .null (by decide +kernel) hpointer (by decide)) (by decide)

/-- **What the pointer leaves out is lost.**  Where a shape is for objects and declares a key that is written
like an index, the pointer to an array's item leads to that key's shape, while the item itself is led
nowhere.  And behind an empty key at the root, the pointer is that of the place without it. -/
theorem atPointer_below_loses :
    ((Json.arr [.num (.int 7)]).at? [.index 0] = some (.num (.int 7)) ∧
      let s := ofSchema (.obj [("properties", .obj [("0", .obj [("type", .str "string")])])])
      (descend (some s) [.index 0]).map (·.map types) = .ok none ∧
        (atPointer (some s) (Pointer.below "" [.index 0])).map (·.map types) = .ok (some ["string"])) ∧
    let v : Json := .obj [("", .obj [("a", .null)]), ("a", .null)]
    v.at? [.key "", .key "a"] = some .null ∧ v.at? [.key "a"] = some .null ∧
      Pointer.below "" [.key "", .key "a"] = Pointer.below "" [.key "a"] := by
  refine ⟨⟨?_, ?_, ?_⟩, ?_, ?_, ?_⟩ <;> decide +kernel

end Shape

end JsonMend
