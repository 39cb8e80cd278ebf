import JsonMend.Proofs.Json.Canonical
import JsonMend.Proofs.Json.Reader
import JsonMend.Proofs.Number.Shortest
/-
  The text of a value is read back as that value.

  1. **Styles** (`JsonStyle.Legible`) — the separators may have any white space around their comma or colon.  The
     reader skips it, and no numeral goes on into a separator.
  2. **Values** (`readsBack`) — kind by kind, whatever stands behind the text.  The length of the text is fuel
     enough.  An integer with too many digits is the one thing that stops the reader, so this says of every value
     whether its text is read, not only what is read of it.
  3. **Whole texts** (`parseChars?_written`).
-/
namespace JsonMend

variable {style : JsonStyle} {rest : List Char}

/-! ## Styles -/

/-- A mark with nothing but white space around it. -/
def Separates (mark : Char) (text : List Char) : Prop :=
  ∃ before after, text = before ++ mark :: after ∧ ∀ c ∈ before ++ after, isJsonSpace c = true

/-- The separators of a style are a comma and a colon, with nothing but white space around them. -/
structure JsonStyle.Legible (style : JsonStyle) : Prop where
  item : Separates ',' style.itemSeparator
  key : Separates ':' style.keySeparator

theorem JsonStyle.Legible.compact (ascii : Bool) : JsonStyle.Legible ⟨[','], [':'], ascii⟩ :=
  ⟨⟨[], [], rfl, by simp⟩, ⟨[], [], rfl, by simp⟩⟩

theorem JsonStyle.Legible.spaced (ascii : Bool) : JsonStyle.Legible ⟨[',', ' '], [':', ' '], ascii⟩ :=
  ⟨⟨[], [' '], rfl, by simp [isJsonSpace]⟩, ⟨[], [' '], rfl, by simp [isJsonSpace]⟩⟩

section
variable {mark : Char} {separator : List Char}

/-- The reader finds the mark of a separator, and then what stands behind the separator. -/
theorem Separates.skipSpaces (h : Separates mark separator) (shown : isJsonSpace mark = false) (rest : List Char) :
    ∃ after, JsonMend.skipSpaces (separator ++ rest) = mark :: after ∧
      JsonMend.skipSpaces after = JsonMend.skipSpaces rest := by
  obtain ⟨before, after, rfl, hblank⟩ := h
  rw [List.forall_mem_append] at hblank
  refine ⟨after ++ rest, ?_, List.dropWhile_append_of_pos hblank.2⟩
  rw [List.append_assoc, JsonMend.skipSpaces, List.dropWhile_append_of_pos hblank.1]
  exact skipSpaces_cons shown

theorem Separates.length_pos (h : Separates mark separator) : 0 < separator.length := by
  obtain ⟨before, after, rfl, -⟩ := h
  simp

theorem Separates.stops (h : Separates mark separator) (hmark : StopsNumeral [mark]) (rest : List Char) :
    StopsNumeral (separator ++ rest) := by
  obtain ⟨before, after, rfl, hblank⟩ := h
  cases before with
  | nil =>
    rintro _ ⟨⟩
    exact hmark _ rfl
  | cons c before => exact stopsNumeral_space (hblank c List.mem_cons_self)

end

/-! ## Values -/

namespace Json

variable {v : Json}

/-- All numbers inside the value are finite. -/
def Finite (v : Json) : Prop := ∀ n ∈ v.numbers, n.isFinite = true

instance (v : Json) : Decidable v.Finite := inferInstanceAs (Decidable (∀ n ∈ v.numbers, _))

theorem FloatFree.finite (h : v.FloatFree) : v.Finite := by
  intro n hn
  have hint := h n hn
  cases n with
  | int i => rfl
  | real x => cases hint

/-- The text of the value is read as the value, and no further, unless it has an integer with too many digits. -/
def ReadsBack (style : JsonStyle) (v : Json) : Prop :=
  ∀ (fuel : Nat) (rest : List Char), (v.writeChars style).length ≤ fuel → StopsNumeral rest →
    readValue fuel (v.writeChars style ++ rest) = if v.isReadable then some (v, rest) else none

theorem isJsonSpace_of_lead {c : Char} {kind : String} (h : leadKind? c = some kind) : isJsonSpace c = false := by
  rw [← Bool.not_eq_true]
  intro hspace
  rcases jsonSpace_cases hspace with rfl | rfl | rfl | rfl <;> cases h

theorem skipSpaces_written (style : JsonStyle) (v : Json) (rest : List Char) :
    skipSpaces (v.writeChars style ++ rest) = v.writeChars style ++ rest := by
  obtain ⟨c, cs, hchars, hkind⟩ := v.lead_writeChars style
  rw [hchars]
  exact skipSpaces_cons (isJsonSpace_of_lead hkind)

/-- No value's text begins with a character that leads no value. -/
theorem head_written_ne {c : Char} (h : leadKind? c = none) :
    (skipSpaces (v.writeChars style ++ rest)).head? ≠ some c := by
  obtain ⟨d, cs, hchars, hkind⟩ := v.lead_writeChars style
  rw [skipSpaces_written, hchars]
  rintro ⟨⟩
  rw [h] at hkind
  cases hkind

theorem length_writeChars_pos (style : JsonStyle) (v : Json) : 0 < (v.writeChars style).length := by
  obtain ⟨c, cs, hchars, -⟩ := v.lead_writeChars style
  rw [hchars]
  exact Nat.succ_pos _

theorem stopsNumeral_mark {c : Char} (h : c = ',' ∨ c = ':' ∨ c = ']' ∨ c = '\x7d') : StopsNumeral (c :: rest) := by
  rcases h with rfl | rfl | rfl | rfl <;> exact stopsNumeral_cons (by decide)

/-- The items of an array are read up to its closing bracket. -/
theorem readItems_written (legible : style.Legible) {x : Json} {xs : List Json}
    (items : ∀ y ∈ x :: xs, y.ReadsBack style) {fuel : Nat}
    (hfuel : (x.writeChars style ++ writeItems style xs).length < fuel) :
    readItems fuel (x.writeChars style ++ (writeItems style xs ++ ']' :: rest)) =
      if (arr (x :: xs)).isReadable then some (x :: xs, rest) else none := by
  induction xs generalizing x fuel with
  | nil =>
    obtain ⟨n, rfl⟩ := Nat.exists_eq_add_of_le' (Nat.zero_lt_of_lt hfuel)
    rw [List.length_append] at hfuel
    have hvalue := items x List.mem_cons_self n (']' :: rest) (by omega) (stopsNumeral_mark (by decide))
    rw [writeItems, List.nil_append, readItems_eq, hvalue, isReadable_cons, isReadable_arr_nil, Bool.and_true]
    cases x.isReadable with
    | false => rfl
    | true =>
      show behindEntry ']' (readItems n) x (skipSpaces (']' :: rest)) = _
      rw [skipSpaces_cons (by decide)]
      rfl
  | cons y ys ih =>
    obtain ⟨n, rfl⟩ := Nat.exists_eq_add_of_le' (Nat.zero_lt_of_lt hfuel)
    rw [List.forall_mem_cons] at items
    simp only [writeItems, List.length_append] at hfuel
    have hlength := y.length_writeChars_pos style
    have hmark := legible.item.length_pos
    have hstops := legible.item.stops (stopsNumeral_mark (by decide))
      (y.writeChars style ++ (writeItems style ys ++ ']' :: rest))
    have hvalue := items.1 n _ (by omega) hstops
    have hmore := ih items.2 (show (y.writeChars style ++ writeItems style ys).length < n by
      rw [List.length_append]
      omega)
    obtain ⟨after, hcomma, hafter⟩ := legible.item.skipSpaces (by decide)
      (y.writeChars style ++ (writeItems style ys ++ ']' :: rest))
    simp only [writeItems, List.append_assoc]
    rw [readItems_eq, hvalue, isReadable_cons]
    cases x.isReadable with
    | false => rfl
    | true =>
      show behindEntry ']' (readItems n) x (skipSpaces _) = _
      rw [hcomma, behindEntry_comma (by decide), hafter, skipSpaces_written, hmore, map_ite_none, Bool.true_and]

/-- A key and what stands between it and its value. -/
theorem readMembers_key (legible : style.Legible) (key : String) (v : Json) (fuel : Nat) (rest : List Char) :
    readMembers (fuel + 1)
        (writeString style.asciiOnly key.toList ++ (style.keySeparator ++ (v.writeChars style ++ rest))) =
      (readValue fuel (v.writeChars style ++ rest)).bind fun (value, after) =>
        behindEntry '\x7d' (readMembers fuel) (key, value) (skipSpaces after) := by
  obtain ⟨after, hcolon, hafter⟩ := legible.key.skipSpaces (by decide) (v.writeChars style ++ rest)
  rw [writeString, List.cons_append, List.append_assoc, List.singleton_append,
    readMembers_eq (readString_written _ _ _) hcolon, hafter, skipSpaces_written, String.ofList_toList]

/-- The members of an object are read up to its closing brace. -/
theorem readMembers_written (legible : style.Legible) {key : String} {x : Json} {ms : Members}
    (members : ∀ m ∈ (key, x) :: ms, m.2.ReadsBack style) {fuel : Nat}
    (hfuel : (x.writeChars style ++ writeMembers style ms).length < fuel) :
    readMembers fuel (writeString style.asciiOnly key.toList ++ (style.keySeparator ++
        (x.writeChars style ++ (writeMembers style ms ++ '\x7d' :: rest)))) =
      if (obj ((key, x) :: ms)).isReadable then some ((key, x) :: ms, rest) else none := by
  induction ms generalizing key x fuel with
  | nil =>
    obtain ⟨n, rfl⟩ := Nat.exists_eq_add_of_le' (Nat.zero_lt_of_lt hfuel)
    rw [List.length_append] at hfuel
    have hfirst : x.ReadsBack style := members (key, x) List.mem_cons_self
    have hvalue := hfirst n ('\x7d' :: rest) (by omega) (stopsNumeral_mark (by decide))
    rw [readMembers_key legible, writeMembers, List.nil_append, hvalue, isReadable_member, isReadable_obj_nil,
      Bool.and_true]
    cases x.isReadable with
    | false => rfl
    | true =>
      show behindEntry '\x7d' (readMembers n) (key, x) (skipSpaces ('\x7d' :: rest)) = _
      rw [skipSpaces_cons (by decide)]
      rfl
  | cons m ms ih =>
    obtain ⟨key', y⟩ := m
    obtain ⟨n, rfl⟩ := Nat.exists_eq_add_of_le' (Nat.zero_lt_of_lt hfuel)
    have hfirst : x.ReadsBack style := members (key, x) List.mem_cons_self
    have hothers := (List.forall_mem_cons.mp members).2
    simp only [writeMembers, List.length_append] at hfuel
    have hlength := y.length_writeChars_pos style
    have hmark := legible.item.length_pos
    have hmore := ih hothers (show (y.writeChars style ++ writeMembers style ms).length < n by
      rw [List.length_append]
      omega)
    have hstops := legible.item.stops (stopsNumeral_mark (by decide))
      (writeString style.asciiOnly key'.toList ++ (style.keySeparator ++
        (y.writeChars style ++ (writeMembers style ms ++ '\x7d' :: rest))))
    have hvalue := hfirst n _ (by omega) hstops
    obtain ⟨after, hcomma, hafter⟩ := legible.item.skipSpaces (by decide)
      (writeString style.asciiOnly key'.toList ++ (style.keySeparator ++
        (y.writeChars style ++ (writeMembers style ms ++ '\x7d' :: rest))))
    simp only [writeMembers, List.append_assoc]
    rw [readMembers_key legible, hvalue, isReadable_member]
    cases x.isReadable with
    | false => rfl
    | true =>
      show behindEntry '\x7d' (readMembers n) (key, x) (skipSpaces _) = _
      rw [hcomma, behindEntry_comma (by decide), hafter, writeString, List.cons_append,
        skipSpaces_cons (by decide), ← List.cons_append, ← writeString, hmore, map_ite_none, Bool.true_and]

/-- **The text of a value is read as that value**, in every legible style. -/
theorem readsBack (legible : style.Legible) (distinct : v.Distinct) (finite : v.Finite) : v.ReadsBack style := by
  have hpositive : ∀ {w : Json} {fuel : Nat}, (w.writeChars style).length ≤ fuel → ∃ n, fuel = n + 1 :=
    fun h => Nat.exists_eq_add_of_le' ((length_writeChars_pos style _).trans_le h)
  induction v using induction_on_parts with
  | null =>
    intro fuel rest hfuel _
    obtain ⟨n, rfl⟩ := hpositive hfuel
    rfl
  | bool b =>
    intro fuel rest hfuel _
    obtain ⟨n, rfl⟩ := hpositive hfuel
    cases b <;> rfl
  | num n =>
    intro fuel rest hfuel hstops
    obtain ⟨fuel, rfl⟩ := hpositive hfuel
    obtain ⟨t, hchars, hnumber⟩ := Number.exists_numeral (finite n List.mem_cons_self) infinityWord
    have hreadable : (num n).isReadable = n.isReadable := Bool.and_true _
    have hread := readValue_numeral t hstops fuel
    rwa [hchars, hnumber, ← hreadable] at hread
  | str s =>
    intro fuel rest hfuel _
    obtain ⟨n, rfl⟩ := hpositive hfuel
    rw [writeChars, writeString, List.cons_append, List.append_assoc, List.singleton_append, readValue,
      readString_written]
    exact congrArg (fun text => some (Json.str text, rest)) String.ofList_toList
  | arr xs ih =>
    intro fuel rest hfuel _
    obtain ⟨n, rfl⟩ := hpositive hfuel
    cases xs with
    | nil => rfl
    | cons x xs =>
      have hitems : ∀ y ∈ x :: xs, y.ReadsBack style := fun y hy =>
        ih y hy (eachObject_arr.mp distinct y hy) (forall_numbers_arr.mp finite y hy)
      simp only [writeChars, List.length_cons, List.length_append] at hfuel
      have hlength : (x.writeChars style ++ writeItems style xs).length < n := by
        rw [List.length_append]
        omega
      rw [writeChars, List.cons_append, List.append_assoc, List.append_assoc, List.singleton_append,
        readValue_arr (head_written_ne (by decide)), skipSpaces_written, readItems_written legible hitems hlength,
        map_ite_none]
  | obj ms ih =>
    intro fuel rest hfuel _
    obtain ⟨n, rfl⟩ := hpositive hfuel
    rcases ms with _ | ⟨⟨key, x⟩, ms⟩
    · rfl
    · have hmembers : ∀ m ∈ (key, x) :: ms, m.2.ReadsBack style := fun m hm =>
        ih m hm ((eachObject_obj.mp distinct).2 m hm) (forall_numbers_obj.mp finite m hm)
      simp only [writeChars, List.length_cons, List.length_append] at hfuel
      have hlength : (x.writeChars style ++ writeMembers style ms).length < n := by
        rw [List.length_append]
        omega
      have hquote : ∀ text more, skipSpaces (writeString style.asciiOnly text ++ more) =
          writeString style.asciiOnly text ++ more := fun text more => skipSpaces_cons (by decide)
      have hpairs : collectMembers ((key, x) :: ms) = (key, x) :: ms := collectMembers_of_nodup distinct.keys
      simp only [writeChars, List.cons_append, List.append_assoc, List.nil_append]
      rw [readValue_obj (by rw [hquote]; exact fun h => absurd (Option.some.inj h) (by decide)), hquote,
        readMembers_written legible hmembers hlength, map_ite_none]
      dsimp only
      rw [hpairs]

/-! ## Whole texts -/

/-- **A text is parsed to the value that was written**, unless an integer has too many digits. -/
theorem parseChars?_written (legible : style.Legible) (distinct : v.Distinct) (finite : v.Finite) :
    parseChars? (v.writeChars style) = if v.isReadable then some v else none := by
  have hread := readsBack legible distinct finite ((v.writeChars style).length + 1) [] (by omega) (by rintro _ ⟨⟩)
  have hspaces := v.skipSpaces_written style []
  rw [List.append_nil] at hread hspaces
  rw [parseChars?, hspaces, hread]
  cases v.isReadable <;> rfl

end Json

end JsonMend
