import JsonMend.Proofs.Draft7.Enter
import JsonMend.Proofs.Draft7.Kin
import JsonMend.Proofs.Json.Parts
/-
  What is inside a schema, and where its references lead.

  1. **Keywords** (`Keyword.ReadFrom`) — a keyword that holds schemas is read from a member of which they are the
     value, or of whose value they are the items or the members; only the consequences of a test stand beside it.
     So what a keyword holds is inside the schema (`Keyword.schema_inside`).
  2. **Collecting** (`documentsIn_closed`, `anchorsIn_closed`) — the documents and the anchors of a registry are parts
     of the schema that they are collected from, and their URIs are among any that the identifiers lead to.
  3. **References** (`Registry.Closed.resolve`) — a property of URIs and values that holds of the documents and of
     the schemas with anchors, and goes inward, is kept by references.  The crux is the pointer, each step of which goes
     inward or leads to a single character (`stepInto_inside`).
-/
namespace JsonMend

/-! ## Keywords -/

namespace Keyword

/-- The schemas that a keyword holds. -/
def schemas : Keyword → List Json
  | .properties schemas | .patternProperties schemas => schemas.map Prod.snd
  | .propertyNames schema | .additionalProperties _ _ schema | .items schema | .additionalItems _ schema
  | .contains schema | .forbid schema => [schema]
  | .itemsInTurn schemas | .allOf schemas | .anyOf schemas | .oneOf schemas => schemas
  | .dependencies entries => entries.filterMap fun (_, dependency) =>
      match dependency with
      | .properties _ => none
      | .schema schema => some schema
  | .conditional test whenMet whenUnmet => test :: (whenMet.toList ++ whenUnmet.toList)
  | _ => []

/-- How the schemas that a keyword holds are read from the value of a member: they are the value itself, its items or
its members.  The consequences of a test stand under names of their own. -/
def ReadFrom (members : Members) (value : Json) : Keyword → Prop
  | .properties schemas | .patternProperties schemas => value = .obj schemas
  | .propertyNames schema | .additionalProperties _ _ schema | .items schema | .additionalItems _ schema
  | .contains schema | .forbid schema => value = schema
  | .itemsInTurn schemas | .allOf schemas | .anyOf schemas | .oneOf schemas => value = .arr schemas
  | .dependencies entries => ∃ ms, value = .obj ms ∧ entries.map Prod.fst = ms.map Prod.fst ∧
      ∀ property s, (property, .schema s) ∈ entries → (property, s) ∈ ms
  | .conditional test whenMet whenUnmet =>
    value = test ∧ whenMet = members.lookup "then" ∧ whenUnmet = members.lookup "else"
  | _ => True

variable {members : Members} {name : String} {value schema : Json} {k : Keyword}

theorem value_of_additionalItems {covered : Option Nat} {s : Json}
    (h : additionalItems? members value = some (some (.additionalItems covered s))) : value = s := by
  unfold additionalItems? at h
  split at h
  · cases h
  · cases h
  · obtain ⟨s', hs, hk⟩ := Option.map_eq_some_iff.mp h
    cases hk
    exact Json.eq_of_schema? hs
  · obtain ⟨s', hs, hk⟩ := Option.map_eq_some_iff.mp h
    cases hk
    exact Json.eq_of_schema? hs
  · cases h

/-- The entries of `dependencies` have the keys of the members that they are read from, and their schemas are
the values of these members. -/
theorem members_of_entries {ms : Members} {entries : List (String × Dependency)}
    (h : List.Forall₂ (fun m e => (Dependency.ofJson? m.2).map (m.1, ·) = some e) ms entries) :
    entries.map Prod.fst = ms.map Prod.fst ∧
      ∀ property s, (property, .schema s) ∈ entries → (property, s) ∈ ms := by
  induction h with
  | nil => exact ⟨rfl, fun _ _ h => nomatch h⟩
  | @cons m e ms entries hfirst _ ih =>
    obtain ⟨d, hd, rfl⟩ := Option.map_eq_some_iff.mp hfirst
    refine ⟨by rw [List.map_cons, List.map_cons, ih.1], fun property s hs => ?_⟩
    rcases List.mem_cons.mp hs with heq | hs
    · obtain ⟨key, v⟩ := m
      cases heq
      cases v with
      | arr items =>
        obtain ⟨names, -, hnames⟩ := Option.map_eq_some_iff.mp hd
        cases hnames
      | null | bool | num | str | obj =>
        cases hd
        exact List.mem_cons_self
    · exact List.mem_cons_of_mem _ (ih.2 property s hs)

/-- **A keyword is read from the value of its member.** -/
theorem readFrom_of_ofMember (h : ofMember members name value = .ok (some k)) : k.ReadFrom members value := by
  have hread := read?_of_ofMember h
  cases name_of_ofMember h
  cases k with
  | properties | patternProperties =>
    obtain ⟨ms, hms, hk⟩ := Option.map_eq_some_iff.mp hread
    cases hk
    exact Json.eq_obj_of_members? hms
  | additionalProperties =>
    obtain ⟨declared, -, hread⟩ := Option.bind_eq_some_iff.mp hread
    obtain ⟨patterns, -, hread⟩ := Option.bind_eq_some_iff.mp hread
    obtain ⟨s, hs, hread⟩ := Option.bind_eq_some_iff.mp hread
    cases hread
    exact Json.eq_of_schema? hs
  | propertyNames | contains | forbid =>
    cases hread
    rfl
  | items =>
    cases value with
    | arr => cases hread
    | null | bool | num | str | obj =>
      cases hread
      rfl
  | itemsInTurn =>
    cases value with
    | arr =>
      cases hread
      rfl
    | null | bool | num | str | obj => cases hread
  | additionalItems => exact value_of_additionalItems hread
  | allOf | anyOf | oneOf =>
    obtain ⟨schemas, hschemas, hk⟩ := Option.map_eq_some_iff.mp hread
    cases hk
    exact Json.eq_arr_of_items? hschemas
  | dependencies =>
    obtain ⟨ms, hms, hread⟩ := Option.bind_eq_some_iff.mp hread
    obtain ⟨entries, hentries, hread⟩ := Option.bind_eq_some_iff.mp hread
    cases hread
    exact ⟨ms, Json.eq_obj_of_members? hms, members_of_entries (forall₂_of_mapM hentries)⟩
  | conditional =>
    cases hread
    exact ⟨rfl, rfl, rfl⟩
  | reference | type | enum | const | bound | multipleOf | count | uniqueItems | pattern | format | required =>
    trivial

/-- **What a keyword holds is inside the schema that it is read from.** -/
theorem schema_inside (hmem : (name, value) ∈ members) (h : ofMember members name value = .ok (some k))
    (hs : schema ∈ k.schemas) : schema ∈ (Json.obj members).innerParts := by
  have hvalue : value ∈ (Json.obj members).innerParts := Json.member_mem_innerParts hmem
  have hunder : ∀ {s}, s ∈ value.innerParts → s ∈ (Json.obj members).innerParts :=
    fun hs => Json.innerParts_trans hvalue (Json.mem_parts_of_inner hs)
  have hread := readFrom_of_ofMember h
  cases k with
  | properties | patternProperties =>
    cases hread
    obtain ⟨m, hm, rfl⟩ := List.mem_map.mp hs
    exact hunder (Json.member_mem_innerParts hm)
  | propertyNames | additionalProperties | items | additionalItems | contains | forbid =>
    cases hread
    rw [List.mem_singleton.mp hs]
    exact hvalue
  | itemsInTurn | allOf | anyOf | oneOf =>
    cases hread
    exact hunder (Json.item_mem_innerParts hs)
  | dependencies =>
    obtain ⟨ms, rfl, -, hschemas⟩ := hread
    obtain ⟨⟨property, dependency⟩, hentry, hs⟩ := List.mem_filterMap.mp hs
    cases dependency with
    | properties => cases hs
    | schema s =>
      cases hs
      exact hunder (Json.member_mem_innerParts (hschemas _ _ hentry))
  | conditional =>
    obtain ⟨rfl, rfl, rfl⟩ := hread
    simp only [schemas, List.mem_cons, List.mem_append, Option.mem_toList] at hs
    rcases hs with rfl | hs | hs
    · exact hvalue
    · exact Json.member_mem_innerParts (mem_keys_of_lookup hs)
    · exact Json.member_mem_innerParts (mem_keys_of_lookup hs)
  | reference | type | enum | const | bound | multipleOf | count | uniqueItems | pattern | format | required =>
    cases hs

end Keyword

/-! ## Collecting -/

namespace Registry

variable {r : Registry} {P : String → Json → Prop} {U : String → Prop} {base inside uri : String}
  {schema s v x document : Json} {depth : Nat}

/-- The schemas directly inside a schema are parts of it. -/
theorem innerSchemas_inside (h : s ∈ innerSchemas schema) : s ∈ schema.innerParts := by
  have hget : ∀ {key x}, schema.get? key = some x → x ∈ schema.innerParts := by
    intro key x hx
    cases schema with
    | obj ms => exact Json.member_mem_innerParts (mem_keys_of_lookup hx)
    | null | bool | num | str | arr => cases hx
  -- what is inside the value of a key is inside
  have hunder : ∀ key, s ∈ ((schema.get? key).getD .null).innerParts → s ∈ schema.innerParts := by
    intro key hs
    cases hx : schema.get? key with
    | none =>
      rw [hx] at hs
      cases hs
    | some x =>
      rw [hx] at hs
      exact Json.innerParts_trans (hget hx) (Json.mem_parts_of_inner hs)
  have hvalues : ∀ {ms : Members}, s ∈ ms.map Prod.snd → s ∈ (Json.obj ms).innerParts := by
    intro ms hs
    obtain ⟨m, hm, rfl⟩ := List.mem_map.mp hs
    exact Json.member_mem_innerParts hm
  simp only [innerSchemas, List.mem_append] at h
  rcases h with (((h | h) | h) | h) | h
  · obtain ⟨key, -, hs⟩ := List.mem_filterMap.mp h
    exact hget hs
  · obtain ⟨key, -, hs⟩ := List.mem_flatMap.mp h
    refine hunder key ?_
    split at hs
    · rename_i heq
      rw [heq]
      exact Json.item_mem_innerParts hs
    · cases hs
  · obtain ⟨key, -, hs⟩ := List.mem_flatMap.mp h
    refine hunder key ?_
    split at hs
    · rename_i heq
      rw [heq]
      exact hvalues hs
    · cases hs
  · split at h
    · rename_i items heq
      exact Json.innerParts_trans (hget heq) (Json.mem_parts_of_inner (Json.item_mem_innerParts h))
    · rename_i heq
      rw [List.mem_singleton.mp h]
      exact hget heq
    · cases h
  · refine hunder "dependencies" ?_
    split at h
    · rename_i heq
      rw [← heq] at h
      split at h
      · rename_i heq'
        rw [heq']
        exact hvalues h
      · cases h
    · cases h

/-- Schemas collected from a schema and from those inside it are parts of it, and the URIs that hold there stay among
those that the identifiers do not lead out of. -/
theorem collected_closed {κ : Type} {collect : Nat → String → Json → List (κ × Json)} {Q : κ → Prop}
    (none : ∀ base schema, collect 0 base schema = [])
    (some : ∀ depth base schema, ∀ p ∈ collect (depth + 1) base schema,
      (p.2 = schema ∧ (U (baseInside base schema) → Q p.1)) ∨
        ∃ s ∈ innerSchemas schema, p ∈ collect depth (baseInside base schema) s)
    (depth : Nat) (own : U (baseInside base schema))
    (joined : ∀ s ∈ schema.innerParts, ∀ base, U base → U (baseInside base s)) :
    ∀ p ∈ collect depth base schema, Q p.1 ∧ p.2 ∈ schema.parts := by
  induction depth generalizing base schema with
  | zero =>
    intro p hp
    rw [none] at hp
    cases hp
  | succ depth ih =>
    intro p hp
    rcases some depth base schema p hp with ⟨hown, hkey⟩ | ⟨s, hs, hp⟩
    · exact ⟨hkey own, hown ▸ schema.self_mem_parts⟩
    · have hinner := innerSchemas_inside hs
      obtain ⟨hkey, hpart⟩ := ih (joined s hinner _ own)
        (fun x hx => joined x (Json.innerParts_trans hinner (Json.mem_parts_of_inner hx))) p hp
      exact ⟨hkey, Json.mem_parts_of_inner (Json.innerParts_trans hinner hpart)⟩

theorem documentsIn_closed (own : U (baseInside base schema))
    (joined : ∀ s ∈ schema.innerParts, ∀ base, U base → U (baseInside base s)) :
    ∀ p ∈ documentsIn depth base schema, U p.1 ∧ p.2 ∈ schema.parts := by
  refine collected_closed (fun _ _ => rfl) (fun depth base schema p hp => ?_) depth own joined
  rcases List.mem_append.mp hp with hp | hp
  · split at hp
    · rw [List.mem_singleton.mp hp]
      exact .inl ⟨rfl, id⟩
    · cases hp
  · exact .inr (List.mem_flatMap.mp hp)

theorem anchorsIn_closed (own : U (baseInside base schema))
    (joined : ∀ s ∈ schema.innerParts, ∀ base, U base → U (baseInside base s)) :
    ∀ p ∈ anchorsIn depth base schema, U p.1.1 ∧ p.2 ∈ schema.parts := by
  refine collected_closed (Q := fun key : String × String => U key.1) (fun _ _ => rfl)
    (fun depth base schema p hp => ?_) depth own joined
  rcases List.mem_append.mp hp with hp | hp
  · split at hp
    · rw [List.mem_singleton.mp hp]
      exact .inl ⟨rfl, id⟩
    · cases hp
  · exact .inr (List.mem_flatMap.mp hp)

/-- The documents inside a schema are parts of it. -/
theorem documentsIn_inside : ∀ p ∈ documentsIn depth base schema, p.2 ∈ schema.parts :=
  fun p hp => (documentsIn_closed (U := fun _ => True) trivial (fun _ _ _ _ => trivial) p hp).2

/-- The schemas with an anchor inside a schema are parts of it. -/
theorem anchorsIn_inside : ∀ p ∈ anchorsIn depth base schema, p.2 ∈ schema.parts :=
  fun p hp => (anchorsIn_closed (U := fun _ => True) trivial (fun _ _ _ _ => trivial) p hp).2

/-! ## References -/

theorem itemAt?_mem {α : Type} {items : List α} {index : Int} {x : α} (h : itemAt? items index = some x) :
    x ∈ items := by
  unfold itemAt? at h
  split at h
  · exact List.mem_of_getElem? h
  · split at h
    · exact List.mem_of_getElem? h
    · cases h

/-- One step of a pointer leads inside, or to a single character. -/
theorem stepInto_inside {step : String} {part : Json} (h : stepInto v step = .ok (some part)) :
    part ∈ v.innerParts ∨ ∃ c, part = .str c := by
  cases v with
  | obj ms => exact .inl (Json.member_mem_innerParts (mem_keys_of_lookup (Except.ok.inj h)))
  | arr items =>
    rw [stepInto] at h
    split at h
    · exact .inl (Json.item_mem_innerParts (itemAt?_mem (Except.ok.inj h)))
    · cases h
  | str s =>
    rw [stepInto] at h
    split at h
    · obtain ⟨c, -, rfl⟩ := Option.map_eq_some_iff.mp (Except.ok.inj h)
      exact .inr ⟨_, rfl⟩
    · cases h
  | null | bool | num => cases h

/-- A property of URIs and values holds of the documents and of the schemas that have anchors, and goes inward. -/
structure Closed (r : Registry) (P : String → Json → Prop) : Prop where
  inward : ∀ {base v x}, P base v → x ∈ v.innerParts → P base x ∧ P (baseInside base x) x
  found : ∀ {uri document}, r.document? uri = some document → P uri document
  anchored : ∀ {uri document name s}, r.document? uri = some document →
    (r.anchors.lookup (uri, name)).or (r.anchors.lookup ((identifier? document).getD uri, name)) = some s →
    P uri s

/-- The steps of a pointer go inward, or lead to a single character. -/
theorem Closed.follow {pointer : String} {steps taken : List String} (h : r.Closed P)
    (hv : P base v ∨ ∃ c, v = .str c)
    (followed : Registry.follow document pointer steps taken base v = .ok (s, inside)) :
    P inside s ∨ ∃ c, s = .str c := by
  induction steps generalizing taken base v with
  | nil =>
    cases followed
    exact hv
  | cons step rest ih =>
    rw [Registry.follow] at followed
    obtain ⟨part?, hpart, followed⟩ := bind_eq_ok.mp followed
    cases part? with
    | none => cases followed
    | some part =>
      have hplace : (P base part ∧ P (baseInside base part) part) ∨ ∃ c, part = .str c := by
        rcases stepInto_inside hpart with hinner | hchar
        · rcases hv with hv | ⟨c, rfl⟩
          · exact .inl (h.inward hv hinner)
          · cases hinner
        · exact .inr hchar
      dsimp only at followed
      split at followed
      · rename_i id _ hid
        refine ih (hplace.imp_left fun hplace => ?_) followed
        rw [baseInside, hid] at hplace
        exact hplace.2
      · exact ih (hplace.imp_left And.left) followed

/-- **What a reference leads to has a closed property, or is a single character.** -/
theorem Closed.resolve {reference : String} (h : r.Closed P)
    (resolved : r.resolve base reference = .ok (s, inside)) : P inside s ∨ ∃ c, s = .str c := by
  unfold Registry.resolve at resolved
  -- to which URI and fragment the reference is read does not matter
  generalize (if reference.toList.head? = some '#' then
    (base, String.ofList (reference.toList.drop 1))
    else Uri.splitFragment (Uri.join base reference)) = target at resolved
  obtain ⟨uri, fragment⟩ := target
  dsimp only at resolved
  cases hfound : r.document? uri with
  | none =>
    rw [hfound] at resolved
    cases resolved
  | some found =>
    rw [hfound] at resolved
    dsimp only at resolved
    split at resolved
    · cases resolved
      exact .inl (h.found hfound)
    · split at resolved
      · exact h.follow (.inl (h.found hfound)) resolved
      · split at resolved
        · rename_i hanchor
          cases resolved
          exact .inl (h.anchored hfound hanchor)
        · split at resolved <;> cases resolved

end Registry

end JsonMend
