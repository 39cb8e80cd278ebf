import JsonMend.Proofs.Json.Leaves
import JsonMend.Proofs.Json.Literal
import JsonMend.Proofs.Number.Text
/-
  The canonical text of a value stands for the value up to the order of members.

  1. **Lead characters** (`lead_writeChars`) — the first character of a value's text tells its kind.
  2. **Reading on** (`writeChars_inj`) — with the separators of a style fixed and integers for numbers, a text is
     that of one value only, whatever stands behind it: kind by kind, an item or a member at a time.  With
     doubles this would need that the digits of a double tell it, which nothing here is about.
  3. **Up to order** (`canonicalText_eq_iff`) — the canonical text is the text of the sorted value, so it is
     shared exactly by the values that differ in the order of members.
-/
namespace JsonMend

variable {style : JsonStyle} {rest rest' : List Char}

/-- What stands behind a value: nothing, a separator or a closing bracket. -/
def ClosesValue (rest : List Char) : Prop := ∀ c, rest.head? = some c → c = ',' ∨ c = ']' ∨ c = '}'

theorem ClosesValue.stops (h : ClosesValue rest) : StopsNumeral rest := by
  intro c hc
  rcases h c hc with rfl | rfl | rfl <;> decide

theorem closesValue_nil : ClosesValue [] := by rintro _ ⟨⟩

theorem closesValue_cons {c : Char} (h : c = ',' ∨ c = ']' ∨ c = '}') : ClosesValue (c :: rest) := by
  rintro _ ⟨⟩
  exact h

/-! ## Lead characters -/

/-- The kind of value that a text with this first character is of. -/
def leadKind? (c : Char) : Option String :=
  if c = 'n' then some "null"
  else if c = 't' ∨ c = 'f' then some "boolean"
  else if c = '"' then some "string"
  else if c = '[' then some "array"
  else if c = '{' then some "object"
  else if c = '-' ∨ c = 'I' ∨ isAsciiDigit c then some "number"
  else none

theorem leadKind?_digit {c : Char} (h : isAsciiDigit c = true) : leadKind? c = some "number" := by
  have apart : ∀ d ∈ ['n', 't', 'f', '"', '[', '{'], isAsciiDigit d = false := by simp [isAsciiDigit]
  have hne : ∀ d ∈ ['n', 't', 'f', '"', '[', '{'], c ≠ d := by
    rintro d hd rfl
    rw [apart c hd] at h
    cases h
  simp only [List.forall_mem_cons] at hne
  simp [leadKind?, hne, h]

theorem Number.lead_write (m : Number) :
    ∃ c cs, m.write infinityWord = c :: cs ∧ leadKind? c = some "number" := by
  have numeral : ∀ t : JsonNumeral, ∃ c cs, t.chars = c :: cs ∧ leadKind? c = some "number" := by
    intro t
    obtain ⟨c, cs, hchars, rfl | hdigit⟩ := t.lead
    · exact ⟨'-', cs, hchars, by decide⟩
    · exact ⟨c, cs, hchars, leadKind?_digit hdigit⟩
  cases m with
  | int i => rw [write, ← intNumeral_chars]; exact numeral _
  | real x =>
    cases x with
    | finite x =>
      obtain ⟨t, hchars, -⟩ := x.exists_numeral
      rw [write, ← hchars]
      exact numeral t
    | infinite negative => cases negative <;> exact ⟨_, _, rfl, by decide⟩

namespace Json

variable {v w : Json} {xs ys : List Json} {ms ns : Members}

theorem lead_writeChars (style : JsonStyle) (v : Json) :
    ∃ c cs, v.writeChars style = c :: cs ∧ leadKind? c = some v.kindName := by
  cases v with
  | null => exact ⟨_, _, by rw [writeChars], by decide⟩
  | bool b => cases b <;> exact ⟨_, _, by rw [writeChars], by decide⟩
  | num n => rw [writeChars]; exact n.lead_write
  | str s => exact ⟨_, _, by rw [writeChars, writeString], rfl⟩
  | arr xs => cases xs <;> exact ⟨_, _, by rw [writeChars], rfl⟩
  | obj ms => rcases ms with _ | ⟨⟨k, x⟩, ms⟩ <;> exact ⟨_, _, by rw [writeChars], rfl⟩

/-- Texts that go on alike are of values of one kind. -/
theorem kindName_eq_of_text (h : v.writeChars style ++ rest = w.writeChars style ++ rest') :
    v.kindName = w.kindName := by
  obtain ⟨c, cs, hv, hkind⟩ := lead_writeChars style v
  obtain ⟨d, ds, hw, hkind'⟩ := lead_writeChars style w
  rw [hv, hw, List.cons_append, List.cons_append, List.cons.injEq] at h
  rw [h.1, hkind'] at hkind
  exact (Option.some.inj hkind).symm

/-! ## Reading on -/

theorem writeString_inj {ascii : Bool} {text text' : List Char}
    (h : writeString ascii text ++ rest = writeString ascii text' ++ rest') :
    text = text' ∧ rest = rest' := by
  simp only [writeString, List.cons_append, List.append_assoc, List.nil_append, List.cons.injEq,
    true_and] at h
  have hread := congrArg readString h
  rw [readString_written, readString_written] at hread
  exact Prod.mk.inj (Option.some.inj hread)

/-- No other value has the text of `v`, whatever follows. -/
def TextTells (style : JsonStyle) (v : Json) : Prop :=
  ∀ {w : Json} {rest rest' : List Char}, ClosesValue rest → ClosesValue rest' →
    v.writeChars style ++ rest = w.writeChars style ++ rest' → v = w ∧ rest = rest'

theorem closesValue_items {sep : List Char} (hsep : style.itemSeparator = ',' :: sep) :
    ClosesValue (writeItems style xs ++ (']' :: rest)) := by
  cases xs with
  | nil => exact closesValue_cons (.inr (.inl rfl))
  | cons x xs => rw [writeItems, hsep]; exact closesValue_cons (.inl rfl)

theorem closesValue_members {sep : List Char} (hsep : style.itemSeparator = ',' :: sep) :
    ClosesValue (writeMembers style ms ++ ('}' :: rest)) := by
  rcases ms with _ | ⟨⟨key, x⟩, ms⟩
  · exact closesValue_cons (.inr (.inr rfl))
  · rw [writeMembers, hsep]
    exact closesValue_cons (.inl rfl)

/-- The items behind the first end where the bracket closes. -/
theorem writeItems_inj {sep : List Char} (hsep : style.itemSeparator = ',' :: sep)
    (items : ∀ x ∈ xs, x.TextTells style) {ys : List Json} {rest rest' : List Char}
    (h : writeItems style xs ++ (']' :: rest) = writeItems style ys ++ (']' :: rest')) :
    xs = ys ∧ rest = rest' := by
  induction xs generalizing ys with
  | nil =>
    cases ys with
    | nil => simpa [writeItems] using h
    | cons y ys =>
      rw [writeItems, writeItems, hsep] at h
      cases (List.cons.inj h).1
  | cons x xs ih =>
    cases ys with
    | nil =>
      rw [writeItems, writeItems, hsep] at h
      cases (List.cons.inj h).1
    | cons y ys =>
      rw [List.forall_mem_cons] at items
      simp only [writeItems, List.append_assoc, List.append_cancel_left_eq] at h
      obtain ⟨rfl, hrest⟩ := items.1 (closesValue_items hsep) (closesValue_items hsep) h
      obtain ⟨rfl, rfl⟩ := ih items.2 hrest
      exact ⟨rfl, rfl⟩

/-- The members behind the first end where the brace closes. -/
theorem writeMembers_inj {sep : List Char} (hsep : style.itemSeparator = ',' :: sep)
    (members : ∀ m ∈ ms, m.2.TextTells style) {ns : Members} {rest rest' : List Char}
    (h : writeMembers style ms ++ ('}' :: rest) = writeMembers style ns ++ ('}' :: rest')) :
    ms = ns ∧ rest = rest' := by
  induction ms generalizing ns with
  | nil =>
    rcases ns with _ | ⟨⟨k, y⟩, ns⟩
    · simpa [writeMembers] using h
    · rw [writeMembers, writeMembers, hsep] at h
      cases (List.cons.inj h).1
  | cons m ms ih =>
    obtain ⟨key, x⟩ := m
    rcases ns with _ | ⟨⟨key', y⟩, ns⟩
    · rw [writeMembers, writeMembers, hsep] at h
      cases (List.cons.inj h).1
    · rw [List.forall_mem_cons] at members
      simp only [writeMembers, List.append_assoc, List.append_cancel_left_eq] at h
      obtain ⟨hkey, hvalue⟩ := writeString_inj h
      rw [List.append_cancel_left_eq] at hvalue
      obtain ⟨rfl, hrest⟩ := members.1 (closesValue_members hsep) (closesValue_members hsep) hvalue
      obtain ⟨rfl, rfl⟩ := ih members.2 hrest
      exact ⟨by rw [String.toList_inj.mp hkey], rfl⟩

/-- An array's text goes on like no other array's. -/
theorem writeChars_arr_inj {sep : List Char} (hsep : style.itemSeparator = ',' :: sep)
    (items : ∀ x ∈ xs, x.TextTells style)
    (h : (arr xs).writeChars style ++ rest = (arr ys).writeChars style ++ rest') :
    xs = ys ∧ rest = rest' := by
  have closing : ∀ {z : Json} {zs more : List Char}, ']' :: more ≠ z.writeChars style ++ zs := by
    intro z zs more heq
    obtain ⟨c, cs, hz, hkind⟩ := lead_writeChars style z
    rw [hz, List.cons_append, List.cons.injEq] at heq
    rw [← heq.1] at hkind
    cases hkind
  cases xs with
  | nil =>
    cases ys with
    | nil => simpa [writeChars] using h
    | cons y ys =>
      simp only [writeChars, List.cons_append, List.nil_append, List.append_assoc, List.cons.injEq,
        true_and] at h
      exact absurd h closing
  | cons x xs =>
    cases ys with
    | nil =>
      simp only [writeChars, List.cons_append, List.nil_append, List.append_assoc, List.cons.injEq,
        true_and] at h
      exact absurd h.symm closing
    | cons y ys =>
      simp only [writeChars, List.cons_append, List.nil_append, List.append_assoc, List.cons.injEq,
        true_and] at h
      rw [List.forall_mem_cons] at items
      obtain ⟨rfl, hrest⟩ := items.1 (closesValue_items hsep) (closesValue_items hsep) h
      obtain ⟨rfl, rfl⟩ := writeItems_inj hsep items.2 hrest
      exact ⟨rfl, rfl⟩

/-- An object's text goes on like no other object's. -/
theorem writeChars_obj_inj {sep : List Char} (hsep : style.itemSeparator = ',' :: sep)
    (members : ∀ m ∈ ms, m.2.TextTells style)
    (h : (obj ms).writeChars style ++ rest = (obj ns).writeChars style ++ rest') :
    ms = ns ∧ rest = rest' := by
  rcases ms with _ | ⟨⟨key, x⟩, ms⟩ <;> rcases ns with _ | ⟨⟨key', y⟩, ns⟩
  · simpa [writeChars] using h
  · simp [writeChars, writeString] at h
  · simp [writeChars, writeString] at h
  · simp only [writeChars, List.cons_append, List.append_assoc, List.cons.injEq, true_and] at h
    obtain ⟨hkey, hvalue⟩ := writeString_inj h
    rw [List.append_cancel_left_eq] at hvalue
    rw [List.forall_mem_cons] at members
    obtain ⟨rfl, hrest⟩ := members.1 (closesValue_members hsep) (closesValue_members hsep) hvalue
    obtain ⟨rfl, rfl⟩ := writeMembers_inj hsep members.2 hrest
    exact ⟨by rw [String.toList_inj.mp hkey], rfl⟩

/-- **A text with integers for numbers is the text of one value.** -/
theorem writeChars_inj {sep : List Char} (hsep : style.itemSeparator = ',' :: sep) (integers : v.FloatFree) :
    v.TextTells style := by
  induction v using induction_on_parts with
  | null =>
    intro w rest rest' follows follows' h
    have hkind := kindName_eq_of_text h
    cases w with
    | null => exact ⟨rfl, List.append_cancel_left h⟩
    | bool | num | str | arr | obj => simp [kindName] at hkind
  | bool b =>
    intro w rest rest' follows follows' h
    have hkind := kindName_eq_of_text h
    cases w with
    | bool c => cases b <;> cases c <;> simp [writeChars] at h ⊢ <;> exact h
    | null | num | str | arr | obj => simp [kindName] at hkind
  | num n =>
    intro w rest rest' follows follows' h
    have hkind := kindName_eq_of_text h
    cases w with
    | num m =>
      cases n with
      | int i =>
        obtain ⟨rfl, rfl⟩ := Number.write_int_inj follows.stops follows'.stops (by simpa [writeChars] using h)
        exact ⟨rfl, rfl⟩
      | real x => exact absurd (integers (.real x) (by simp [numbers])) (by simp [Number.isInt])
    | null | bool | str | arr | obj => simp [kindName] at hkind
  | str s =>
    intro w rest rest' follows follows' h
    have hkind := kindName_eq_of_text h
    cases w with
    | str t =>
      rw [writeChars, writeChars] at h
      obtain ⟨htext, hrest⟩ := writeString_inj h
      exact ⟨by rw [String.toList_inj.mp htext], hrest⟩
    | null | bool | num | arr | obj => simp [kindName] at hkind
  | arr xs ih =>
    intro w rest rest' follows follows' h
    have hkind := kindName_eq_of_text h
    cases w with
    | arr ys =>
      obtain ⟨rfl, hrest⟩ := writeChars_arr_inj hsep (fun x hx => ih x hx (floatFree_arr.mp integers x hx)) h
      exact ⟨rfl, hrest⟩
    | null | bool | num | str | obj => simp [kindName] at hkind
  | obj ms ih =>
    intro w rest rest' follows follows' h
    have hkind := kindName_eq_of_text h
    cases w with
    | obj ns =>
      obtain ⟨rfl, hrest⟩ := writeChars_obj_inj hsep (fun m hm => ih m hm (floatFree_obj.mp integers m hm)) h
      exact ⟨rfl, hrest⟩
    | null | bool | num | str | arr => simp [kindName] at hkind

/-- **The canonical text of a value with integers for numbers stands for it up to the order of members.** -/
theorem canonicalText_eq_iff (distinct : v.Distinct) (integers : v.FloatFree) :
    v.canonicalText = w.canonicalText ↔ v.Reordered w := by
  rw [reordered_iff distinct]
  constructor
  · intro h
    have htext := String.ofList_injective h
    have htells : TextTells .ascii v.sortKeys :=
      writeChars_inj rfl ((reordered_sortKeys v).floatFree integers)
    exact (htells closesValue_nil closesValue_nil (by simpa using htext)).1
  · intro h
    rw [canonicalText, canonicalText, h]

end Json

end JsonMend
