import JsonMend.Pointer
import JsonMend.JsonType
import JsonMend.Fault
import JsonMend.Regex.Parser
/-
  The shape that a schema asks for: what a repair can act on.

  A shape keeps the types, the properties by name and by pattern, the one schema of all items, the
  required names, whether other properties are forbidden, and the default.  Every other keyword is
  left out.  A schema that is no object constrains nothing.

  Stepping down from a shape (`child`) always gives a smaller one, which is why each pass of a repair
  ends; `child_lt` is that fact.
-/
namespace JsonMend

structure Shape where
  types : List String
  properties : List (String × Shape)
  items : Option Shape
  required : List String
  /-- Whether properties that are not declared are forbidden. -/
  closed : Bool
  patterns : List (String × Shape)
  fallback : Option Json

namespace Shape

/-- The shape that allows everything. -/
def unconstrained : Shape := ⟨[], [], none, [], false, [], none⟩

instance : Inhabited Shape := ⟨unconstrained⟩

/-! ## Reading a schema -/

/-- The strings among the items of an array. -/
def stringsIn : Option Json → List String
  | some (.arr items) => items.filterMap fun | .str s => some s | _ => none
  | _ => []

/-- The types that a schema lists: one name, or the names in an array. -/
def typesIn : Option Json → List String
  | some (.str name) => [name]
  | v => stringsIn v

mutual
/-- The shape of a schema. -/
def ofSchema : Json → Shape
  | .obj members =>
    { types := typesIn (members.lookup "type")
      properties := shapesUnder "properties" members
      items := shapeOfItems members
      required := stringsIn (members.lookup "required")
      closed := members.lookup "additionalProperties" = some (.bool false)
      patterns := shapesUnder "patternProperties" members
      fallback := members.lookup "default" }
  | _ => unconstrained
/-- The shapes of the schemas in the object under a key. -/
def shapesUnder (key : String) : List (String × Json) → List (String × Shape)
  | [] => []
  | (k, v) :: rest => if key = k then shapesOf v else shapesUnder key rest
/-- The shapes of the members of an object. -/
def shapesOf : Json → List (String × Shape)
  | .obj members => shapesOfMembers members
  | _ => []
def shapesOfMembers : List (String × Json) → List (String × Shape)
  | [] => []
  | (k, v) :: rest => (k, ofSchema v) :: shapesOfMembers rest
/-- The shape of all items, where one schema is given for them. -/
def shapeOfItems : List (String × Json) → Option Shape
  | [] => none
  | (k, v) :: rest =>
    if "items" = k then if v.isObj then some (ofSchema v) else none else shapeOfItems rest
end

theorem shapesOfMembers_eq_map (members : Members) :
    shapesOfMembers members = members.map fun (k, v) => (k, ofSchema v) := by
  induction members with
  | nil => rfl
  | cons m ms ih => simp [shapesOfMembers, ih]

/-- The shapes under a key are those of the members that the key holds. -/
theorem shapesUnder_eq (key : String) (members : Members) :
    shapesUnder key members = ((members.lookup key).map shapesOf).getD [] := by
  induction members with
  | nil => rfl
  | cons m ms ih =>
    obtain ⟨k, v⟩ := m
    simp only [shapesUnder, lookup_cons_if]
    split
    · rfl
    · exact ih

theorem shapeOfItems_eq (members : Members) :
    shapeOfItems members =
      (members.lookup "items").bind fun v => if v.isObj then some (ofSchema v) else none := by
  induction members with
  | nil => rfl
  | cons m ms ih =>
    obtain ⟨k, v⟩ := m
    simp only [shapeOfItems, lookup_cons_if]
    split
    · rfl
    · exact ih

/-! ## Views -/

/-- Whether the shape names any key of an object, by itself or by a pattern. -/
def namesKeys (s : Shape) : Bool := !s.properties.isEmpty || !s.patterns.isEmpty

/-- Whether the shape is one for objects. -/
def isObject (s : Shape) : Bool := s.types.contains "object" || s.namesKeys

/-- Whether the shape is one for arrays. -/
def isArray (s : Shape) : Bool := s.types.contains "array" || s.items.isSome

/-- Whether a value is of one of the types; without types, every value is. -/
def admits (s : Shape) (v : Json) : Bool := s.types.isEmpty || s.types.any v.isOfTypeNamed

/-! ## Stepping down -/

/-- The shape of the first pattern that a key matches. -/
def firstMatching (key : String) : List (String × Shape) → Except Fault (Option Shape)
  | [] => .ok none
  | (pattern, sub) :: rest =>
    match Regex.found pattern key with
    | .error error => .error (.badPattern error)
    | .ok true => .ok (some sub)
    | .ok false => firstMatching key rest

/-- Whether the shape has a place for a key, by name or by pattern. -/
def declares (s : Shape) (key : String) : Except Fault Bool :=
  if hasKey s.properties key then .ok true
  else (firstMatching key s.patterns).map Option.isSome

/-- The shape one step below, or `none` where nothing is constrained.  A key goes to the property of
that name, else to the first matching pattern; in a shape for arrays whatever is left goes to the
items. -/
def child (s : Shape) (step : Segment) : Except Fault (Option Shape) :=
  let below := if s.isArray then s.items else none
  match s.isObject, step with
  | true, .key name =>
    match s.properties.lookup name with
    | some sub => .ok (some sub)
    | none =>
      (firstMatching name s.patterns).map fun
        | some sub => some sub
        | none => below
  | _, _ => .ok below

/-- The shape at the end of several steps. -/
def descend (s : Option Shape) (steps : List Segment) : Except Fault (Option Shape) :=
  steps.foldlM (fun
    | some s, step => s.child step
    | none, _ => .ok none) s

/-- The shape at a pointer, every step of which is taken as a key. -/
def atPointer (s : Option Shape) (path : String) : Except Fault (Option Shape) :=
  descend s ((Pointer.split path).map .key)

/-! ## Stepping down gives smaller shapes -/

theorem sizeOf_lt_of_lookup {shapes : List (String × Shape)} {key : String} {sub : Shape}
    (found : shapes.lookup key = some sub) : sizeOf sub < sizeOf shapes := by
  induction shapes with
  | nil => simp at found
  | cons head rest ih =>
    obtain ⟨k, s⟩ := head
    simp only [lookup_cons_if] at found
    split at found
    · cases found
      simp only [List.cons.sizeOf_spec, Prod.mk.sizeOf_spec]
      omega
    · have := ih found
      simp only [List.cons.sizeOf_spec]
      omega

theorem sizeOf_lt_of_firstMatching {shapes : List (String × Shape)} {key : String} {sub : Shape}
    (found : firstMatching key shapes = .ok (some sub)) : sizeOf sub < sizeOf shapes := by
  induction shapes with
  | nil => simp [firstMatching] at found
  | cons head rest ih =>
    obtain ⟨pattern, s⟩ := head
    simp only [firstMatching] at found
    split at found
    · cases found
    · cases found
      simp only [List.cons.sizeOf_spec, Prod.mk.sizeOf_spec]
      omega
    · have := ih found
      simp only [List.cons.sizeOf_spec]
      omega

theorem sizeOf_lt_of_mem {shapes : List (String × Shape)} {entry : String × Shape}
    (mem : entry ∈ shapes) : sizeOf entry.2 < sizeOf shapes := by
  induction shapes with
  | nil => cases mem
  | cons head rest ih =>
    simp only [List.cons.sizeOf_spec]
    rcases List.mem_cons.mp mem with rfl | later
    · obtain ⟨_, s⟩ := entry
      simp only [Prod.mk.sizeOf_spec]
      omega
    · have := ih later
      omega

theorem property_lt {s : Shape} {entry : String × Shape} (mem : entry ∈ s.properties) :
    sizeOf entry.2 < sizeOf s := by
  have := sizeOf_lt_of_mem mem
  cases s
  simp only [mk.sizeOf_spec] at *
  omega

theorem items_lt {s sub : Shape} (found : s.items = some sub) : sizeOf sub < sizeOf s := by
  cases s
  simp only at found
  simp only [mk.sizeOf_spec, found, Option.some.sizeOf_spec]
  omega

/-- The shape one step below is smaller. -/
theorem child_lt {s sub : Shape} {step : Segment} (found : s.child step = .ok (some sub)) :
    sizeOf sub < sizeOf s := by
  have ofBelow : (if s.isArray then s.items else none) = some sub → sizeOf sub < sizeOf s := by
    intro h
    split at h
    · exact items_lt h
    · cases h
  simp only [child] at found
  split at found
  · split at found
    · rename_i lookup
      cases found
      have := sizeOf_lt_of_lookup lookup
      cases s
      simp only [mk.sizeOf_spec] at *
      omega
    · rename_i name _ _ _
      cases matching : firstMatching name s.patterns with
      | error fault => simp [matching, Except.map] at found
      | ok result =>
        cases result with
        | none =>
          simp only [matching, Except.map, Except.ok.injEq] at found
          exact ofBelow found
        | some other =>
          simp only [matching, Except.map, Except.ok.injEq, Option.some.injEq] at found
          subst found
          have := sizeOf_lt_of_firstMatching matching
          cases s
          simp only [mk.sizeOf_spec] at *
          omega
  · exact ofBelow (by simpa using found)

end Shape

end JsonMend
