import Mathlib.Data.List.ProdSigma
import JsonMend.Proofs.Draft7.Distinct
import JsonMend.Proofs.Draft7.Rounds
/-
  Where a judging can stand.

  A judging stands at a part of a document, under a URI.  Which URIs hold is up to the identifiers: each gives the
  schema that has it a URI that is read against the one around it.

  1. **Closed properties** (`Registry.Closed.consults`) — a property of URIs and values that references keep and that
     goes inward is kept by all that a rule consults.
  2. **Closed lists of URIs** (`Registry.closed_of_uris`) — where no identifier leads out of a list of URIs, a judging
     stands at the places that its URIs make with the parts of the documents.
  3. **No references** (`Validator.judgeBy_rebase`) — only a reference looks at the URI, so what a schema without
     references finds does not depend on it.
  4. **One identifier** (`Json.NamedOnce.closed`) — where only the root has an identifier, the URI tells the document.
-/
namespace JsonMend

/-! ## Closed properties -/

namespace Registry

variable {r : Registry} {P : String → Json → Prop} {base inside uri : String} {uris : List String}
  {schema s v x document : Json}

/-- **What a rule consults has a closed property, or is a single character.** -/
theorem Closed.consults {validator : Validator} {draft : Draft} {members : Members} {name : String} {value : Json}
    {rule : Rule} (h : validator.registry.Closed P) (stands : P base (.obj members)) (hmem : (name, value) ∈ members)
    (hr : Rule.ofMember draft members name value = .ok (some rule))
    (consults : rule.Consults validator base v inside schema x) :
    (P inside schema ∨ ∃ c, schema = .str c) ∧ (x = v ∨ x.depth < v.depth) := by
  have hplaces : ∀ {s}, s ∈ rule.schemas → P base s ∧ P (baseInside base s) s :=
    fun hs => h.inward stands (Rule.schema_inside hmem hr hs)
  cases consults with
  | shared hconsults =>
    cases hconsults with
    | reference hresolved => exact ⟨h.resolve hresolved, .inl rfl⟩
    | held hs huri hpart =>
      refine ⟨.inl ?_, hpart⟩
      rcases huri with rfl | rfl
      · exact (hplaces hs).1
      · exact (hplaces hs).2
  | held hs hpart => exact ⟨.inl (hplaces hs).2, hpart⟩

/-! ## Closed lists of URIs -/

/-- The documents of a registry with their URIs. -/
def holdings (r : Registry) : List (String × Json) := (r.rootUri, r.root) :: r.known

/-- The parts of all documents. -/
def allParts (r : Registry) : List Json := r.holdings.flatMap fun p => p.2.parts

theorem length_allParts (r : Registry) : r.allParts.length = r.size := by
  have hknown : ∀ known : List (String × Json), (known.flatMap fun p => p.2.parts).length + r.root.size =
      known.foldr (fun p total => p.2.size + total) r.root.size := by
    intro known
    induction known with
    | nil => exact Nat.zero_add _
    | cons p rest ih =>
      rw [List.flatMap_cons, List.length_append, Json.length_parts, Nat.add_assoc, ih]
      rfl
  rw [allParts, holdings, List.flatMap_cons, List.length_append, Json.length_parts, Nat.add_comm]
  exact hknown r.known

/-- The places that URIs make with the parts of the documents. -/
def places (r : Registry) (uris : List String) : List (String × Json) := uris ×ˢ r.allParts

theorem length_places (r : Registry) (uris : List String) : (r.places uris).length = uris.length * r.size := by
  rw [places, List.length_product, length_allParts]

/-- What is part of the root is a part of a document. -/
theorem mem_allParts_of_root (h : s ∈ r.root.parts) : s ∈ r.allParts :=
  List.mem_flatMap.mpr ⟨_, List.mem_cons_self, h⟩

theorem baseInside_of_none (h : identifier? schema = none) : baseInside base schema = base := by
  rw [baseInside, h]

/-- URIs are closed if those of the documents are among them and no identifier leads out of them. -/
structure ClosedUris (r : Registry) (uris : List String) : Prop where
  held : ∀ p ∈ r.holdings, p.1 ∈ uris
  own : baseInside r.rootUri r.root ∈ uris
  joined : ∀ p ∈ r.holdings, ∀ s ∈ p.2.innerParts, ∀ base ∈ uris, baseInside base s ∈ uris

instance (r : Registry) (uris : List String) : Decidable (r.ClosedUris uris) :=
  decidable_of_iff ((∀ p ∈ r.holdings, p.1 ∈ uris) ∧ baseInside r.rootUri r.root ∈ uris ∧
      ∀ p ∈ r.holdings, ∀ s ∈ p.2.innerParts, ∀ base ∈ uris, baseInside base s ∈ uris)
    ⟨fun h => ⟨h.1, h.2.1, h.2.2⟩, fun h => ⟨h.held, h.own, h.joined⟩⟩

/-- A document that is found is a place under its URI. -/
theorem document_place {known : List (String × Json)} (closed : (ofRoot known schema).ClosedUris uris)
    (found : (ofRoot known schema).document? uri = some s) : (uri, s) ∈ (ofRoot known schema).places uris := by
  refine List.mem_product.mpr ?_
  unfold document? at found
  split at found
  · rename_i huri
    cases found
    rw [huri]
    exact ⟨closed.held _ List.mem_cons_self, mem_allParts_of_root (Json.self_mem_parts _)⟩
  · rcases Option.or_eq_some_iff.mp found with hknown | ⟨-, hdocument⟩
    · have hheld : (uri, s) ∈ (ofRoot known schema).holdings :=
        List.mem_cons_of_mem _ (mem_keys_of_lookup hknown)
      exact ⟨closed.held _ hheld, List.mem_flatMap.mpr ⟨_, hheld, s.self_mem_parts⟩⟩
    · obtain ⟨huri, hpart⟩ := documentsIn_closed (U := (· ∈ uris)) closed.own (closed.joined _ List.mem_cons_self) _
        (mem_keys_of_lookup hdocument)
      exact ⟨huri, mem_allParts_of_root hpart⟩

/-- **A judging stands at the places that closed URIs make**, in a registry that is made from a schema. -/
theorem closed_of_uris {known : List (String × Json)} (closed : (ofRoot known schema).ClosedUris uris) :
    (ofRoot known schema).Closed fun base v => (base, v) ∈ (ofRoot known schema).places uris where
  inward {base v x} hv hx := by
    obtain ⟨hbase, hv⟩ := List.mem_product.mp hv
    obtain ⟨p, hp, hv⟩ := List.mem_flatMap.mp hv
    have hpart : x ∈ (ofRoot known schema).allParts :=
      List.mem_flatMap.mpr ⟨p, hp, Json.parts_trans hv (Json.mem_parts_of_inner hx)⟩
    refine ⟨List.mem_product.mpr ⟨hbase, hpart⟩, List.mem_product.mpr ⟨?_, hpart⟩⟩
    refine closed.joined p hp x ?_ base hbase
    rcases List.mem_cons.mp hv with rfl | hv
    · exact hx
    · exact Json.innerParts_trans hv (Json.mem_parts_of_inner hx)
  found := document_place closed
  anchored hfound hanchor := by
    have hroot : ∀ p ∈ (ofRoot known schema).anchors, p.2 ∈ schema.parts := anchorsIn_inside
    refine List.mem_product.mpr ⟨(List.mem_product.mp (document_place closed hfound)).1, mem_allParts_of_root ?_⟩
    rcases Option.or_eq_some_iff.mp hanchor with hanchor | ⟨-, hanchor⟩
    · exact hroot _ (mem_keys_of_lookup hanchor)
    · exact hroot _ (mem_keys_of_lookup hanchor)

end Registry

/-! ## No references -/

/-- Neither a schema nor anything inside it is a reference. -/
def Json.ReferenceFree (schema : Json) : Prop := ∀ s ∈ schema.parts, s.get? "$ref" = none

instance (schema : Json) : Decidable schema.ReferenceFree :=
  inferInstanceAs (Decidable (∀ s ∈ schema.parts, s.get? "$ref" = none))

theorem Json.ReferenceFree.inside {schema s : Json} (free : schema.ReferenceFree) (h : s ∈ schema.innerParts) :
    s.ReferenceFree :=
  fun x hx => free x (Json.parts_trans (Json.mem_parts_of_inner h) hx)

section
variable {validator : Validator} {sub : Json → Json → Outcome} {base base' : String} {v schema : Json}

theorem Keyword.firstAccepting_rebase (schemas : List Json) :
    firstAccepting (fun _ => sub) base v schemas = firstAccepting (fun _ => sub) base' v schemas := by
  induction schemas with
  | nil => rfl
  | cons s rest ih =>
    have hdescend : Judge.descend (fun _ => sub) base s [] [] v = Judge.descend (fun _ => sub) base' s [] [] v := by
      by_cases hrefuses : s = .bool false
      · rw [hrefuses]
        rfl
      · rw [Judge.descend_of_ne hrefuses, Judge.descend_of_ne hrefuses]
    rw [firstAccepting, firstAccepting, hdescend, ih]

/-- A keyword that is no reference looks at the URI only to pass it on. -/
theorem Keyword.judge_rebase {k : Keyword} (h : k.name ≠ "$ref") :
    k.judge validator (fun _ => sub) base v = k.judge validator (fun _ => sub) base' v := by
  cases k with
  | reference => exact absurd rfl h
  | anyOf schemas | oneOf schemas =>
    rw [judge, judge, firstAccepting_rebase schemas]
  | type | enum | const | bound | multipleOf | count | uniqueItems | pattern | format | required | properties
  | patternProperties | propertyNames | additionalProperties | items | itemsInTurn | additionalItems | contains
  | dependencies | allOf | forbid | conditional => rfl

theorem Rule.judge_rebase {r : Rule} (h : r.name ≠ "$ref") :
    r.judge validator (fun _ => sub) base v = r.judge validator (fun _ => sub) base' v := by
  cases r with
  | shared k => exact Keyword.judge_rebase h
  | disallow refused =>
    have hmeets : meets (fun _ => sub) base v = meets (fun _ => sub) base' v := by
      funext x
      cases x <;> rfl
    rw [judge, judge, hmeets]
  | type | bound | items | properties | dependencies | extension | divisibleBy => rfl

section
variable {draft : Draft} {members : Members} {name inside : String} {value s x : Json} {r : Rule}

/-- A schema without references has no rule that is one. -/
theorem Rule.name_of_free (free : (Json.obj members).ReferenceFree) (hmem : (name, value) ∈ Keyword.applicable members)
    (hr : ofMember draft members name value = .ok (some r)) : r.name ≠ "$ref" := by
  cases r with
  | shared k =>
    intro hname
    have hsame : name = k.name := Keyword.name_of_ofMember (keyword_of_ofMember hr)
    have hreference : name = "$ref" := hsame.trans hname
    have habsent : members.lookup "$ref" = none := free _ (Json.self_mem_parts _)
    exact lookup_eq_none_iff.mp habsent (List.mem_map.mpr ⟨_, Validator.mem_of_applicable hmem, hreference⟩)
  | bound side => cases side <;> simp [Rule.name, Bound.name]
  | type | items | properties | dependencies | extension | disallow | divisibleBy => simp [Rule.name]

/-- What a schema without references consults has none either. -/
theorem Rule.free_of_consults (free : (Json.obj members).ReferenceFree)
    (hmem : (name, value) ∈ Keyword.applicable members) (hr : ofMember draft members name value = .ok (some r))
    (consults : r.Consults validator base v inside s x) : s.ReferenceFree := by
  have hheld : s ∈ r.schemas → s.ReferenceFree :=
    fun hs => free.inside (schema_inside (Validator.mem_of_applicable hmem) hr hs)
  cases consults with
  | held hs => exact hheld hs
  | shared hconsults =>
    cases hconsults with
    | reference => exact absurd rfl (name_of_free free hmem hr)
    | held hs => exact hheld hs

/-- Nor do the members of such a schema look at the URI. -/
theorem Validator.judgeMembers_rebase (free : (Json.obj members).ReferenceFree) :
    validator.judgeMembers draft (fun _ => sub) base members v (Keyword.applicable members) =
      validator.judgeMembers draft (fun _ => sub) base' members v (Keyword.applicable members) := by
  refine congrArg Outcome.concat (List.map_congr_left ?_)
  rintro ⟨name, value⟩ hmem
  cases hr : Rule.ofMember draft members name value with
  | error fault => simp only [hr, Outcome.ofExcept]
  | ok r? =>
    cases r? with
    | none => simp only [hr, Outcome.ofExcept]
    | some r =>
      have hname : r.name ≠ "$ref" := Rule.name_of_free free hmem hr
      simp only [hr, Outcome.ofExcept]
      rw [Rule.judge_rebase hname]

end

/-- **What a schema without references finds does not depend on the URI that holds.** -/
theorem Validator.judgeBy_rebase {rounds : Nat} {draft : Draft} (free : schema.ReferenceFree) :
    (validator.judgeBy rounds draft base schema v).Keeps (validator.judgeBy rounds draft base' schema v) := by
  induction rounds generalizing draft base base' schema v with
  | zero => exact .refl _
  | succ rounds ih =>
    cases schema with
    | obj members =>
      -- by way of a judging that does not look at the URI
      let still : Judge := fun _ => validator.inside rounds draft ""
      have hfirst : (validator.judgeBy (rounds + 1) draft base (.obj members) v).Keeps
          (validator.judgeMembers draft still base members v (Keyword.applicable members)) :=
        judgeMembers_keeps fun _ _ _ _ _ _ hmem hr hconsults => ih (Rule.free_of_consults free hmem hr hconsults)
      have hsecond : (validator.judgeMembers draft still base' members v (Keyword.applicable members)).Keeps
          (validator.judgeBy (rounds + 1) draft base' (.obj members) v) :=
        judgeMembers_keeps fun _ _ _ _ _ _ hmem hr hconsults => ih (Rule.free_of_consults free hmem hr hconsults)
      rw [judgeMembers_rebase free] at hfirst
      exact hfirst.trans hsecond
    | bool b => cases b <;> exact .refl _
    | null | num | str | arr => exact .refl _

/-- So a verdict of such a schema stands under every URI. -/
theorem Validator.VerdictIn.rebase {rounds : Nat} {outer : Draft} {accepted : Bool} (free : schema.ReferenceFree)
    (h : validator.VerdictIn rounds outer base schema v accepted) :
    validator.VerdictIn rounds outer base' schema v accepted := by
  have hkept : Keeps (validator.inside rounds outer base schema v).accepts
      (validator.inside rounds outer base' schema v).accepts := (judgeBy_rebase free).verdict
  rw [VerdictIn] at h
  rw [h] at hkept
  exact hkept.of_ok

end

/-! ## One identifier -/

/-- The only identifier in a schema is that of the root, which gives it the same URI inside and outside. -/
structure Json.NamedOnce (schema : Json) : Prop where
  root : baseInside ((identifier? schema).getD "") schema = (identifier? schema).getD ""
  inside : ∀ s ∈ schema.innerParts, identifier? s = none

instance (schema : Json) : Decidable schema.NamedOnce :=
  decidable_of_iff (_ ∧ ∀ s ∈ schema.innerParts, identifier? s = none) ⟨fun h => ⟨h.1, h.2⟩, fun h => ⟨h.1, h.2⟩⟩

namespace Json.NamedOnce

variable {schema : Json} {known : List (String × Json)} {uri : String} {document : Json}

/-- Where only the root has an identifier, the URIs of the documents are closed. -/
theorem closedUris (named : schema.NamedOnce) (hknown : ∀ p ∈ known, ∀ s ∈ p.2.innerParts, identifier? s = none) :
    (Registry.ofRoot known schema).ClosedUris ((Registry.ofRoot known schema).holdings.map Prod.fst) where
  held p hp := List.mem_map_of_mem hp
  own := List.mem_cons.mpr (.inl named.root)
  joined p hp s hs base hbase := by
    rw [Registry.baseInside_of_none]
    · exact hbase
    · rcases List.mem_cons.mp hp with rfl | hp
      · exact named.inside s hs
      · exact hknown p hp s hs

/-- The URI of such a schema is closed under all that is inside it. -/
theorem joined (named : schema.NamedOnce) : ∀ s ∈ schema.innerParts, ∀ base ∈ [(identifier? schema).getD ""],
    baseInside base s ∈ [(identifier? schema).getD ""] := by
  intro s hs base hbase
  rw [Registry.baseInside_of_none (named.inside s hs)]
  exact hbase

theorem own (named : schema.NamedOnce) :
    baseInside ((identifier? schema).getD "") schema ∈ [(identifier? schema).getD ""] :=
  List.mem_singleton.mpr named.root

/-- A document that is found under a URI is held under it. -/
theorem held_of_found (named : schema.NamedOnce)
    (found : (Registry.ofRoot known schema).document? uri = some document) :
    (uri, document) ∈ (Registry.ofRoot known schema).holdings := by
  unfold Registry.document? at found
  split at found
  · rename_i huri
    cases found
    rw [huri]
    exact List.mem_cons_self
  · rename_i huri
    rcases Option.or_eq_some_iff.mp found with hknown | ⟨-, hdocument⟩
    · exact List.mem_cons_of_mem _ (mem_keys_of_lookup hknown)
    · have hown := (Registry.documentsIn_closed named.own named.joined _ (mem_keys_of_lookup hdocument)).1
      exact absurd (List.mem_singleton.mp hown) huri

/-- A schema with an anchor that is found stands in the root, under its URI. -/
theorem anchor_of_found {name : String} {s : Json} (named : schema.NamedOnce)
    (known_uri : ∀ p ∈ known, identifier? p.2 = some p.1)
    (found : (Registry.ofRoot known schema).document? uri = some document)
    (anchored : ((Registry.ofRoot known schema).anchors.lookup (uri, name)).or
      ((Registry.ofRoot known schema).anchors.lookup ((identifier? document).getD uri, name)) = some s) :
    uri = (Registry.ofRoot known schema).rootUri ∧ s ∈ schema.parts := by
  have hroot := @Registry.anchorsIn_closed _ _ _ (schema.depth + 1) named.own named.joined
  rcases Option.or_eq_some_iff.mp anchored with hown | ⟨-, hcanonical⟩
  · obtain ⟨huri, hs⟩ := hroot _ (mem_keys_of_lookup hown)
    exact ⟨List.mem_singleton.mp huri, hs⟩
  · obtain ⟨huri, hs⟩ := hroot _ (mem_keys_of_lookup hcanonical)
    refine ⟨?_, hs⟩
    rcases List.mem_cons.mp (named.held_of_found found) with heq | hheld
    · exact congrArg Prod.fst heq
    · -- the identifier of a known document is its URI
      have hidentifier : identifier? document = some uri := known_uri _ hheld
      rw [hidentifier] at huri
      exact List.mem_singleton.mp huri

/-- **A judging stands at parts of the document whose URI holds.** -/
theorem closed (named : schema.NamedOnce) (hknown : ∀ p ∈ known, identifier? p.2 = some p.1 ∧
    ∀ s ∈ p.2.innerParts, identifier? s = none) :
    (Registry.ofRoot known schema).Closed fun base v =>
      ∃ document, (base, document) ∈ (Registry.ofRoot known schema).holdings ∧ v ∈ document.parts where
  inward {base v x} hv hx := by
    obtain ⟨document, hheld, hv⟩ := hv
    have hinner : x ∈ document.innerParts := by
      rcases List.mem_cons.mp hv with rfl | hv
      · exact hx
      · exact Json.innerParts_trans hv (Json.mem_parts_of_inner hx)
    have hnone : identifier? x = none := by
      rcases List.mem_cons.mp hheld with heq | hheld
      · cases heq
        exact named.inside x hinner
      · exact (hknown _ hheld).2 x hinner
    rw [Registry.baseInside_of_none hnone, and_self]
    exact ⟨document, hheld, Json.mem_parts_of_inner hinner⟩
  found hfound := ⟨_, named.held_of_found hfound, Json.self_mem_parts _⟩
  anchored hfound hanchor := by
    obtain ⟨rfl, hs⟩ := named.anchor_of_found (fun p hp => (hknown p hp).1) hfound hanchor
    exact ⟨schema, List.mem_cons_self, hs⟩

end Json.NamedOnce

end JsonMend
