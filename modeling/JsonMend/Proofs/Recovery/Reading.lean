import JsonMend.Proofs.Json.Reader
import JsonMend.Proofs.Recovery.Words
/-
  The strict reader on the texts of relaxed documents, at any stage of the corrections.

  It reads a text to its end exactly when the text takes no liberty and no integer has too many digits, and the
  value is then the one that is spelled (`Document.parseChars?_chars`).  Each liberty that is left stops it: no
  value starts with an apostrophe, a slash or a bracket that closes, and no key without its quote.

  1. **Keys and margins** — a comment is in the way of every token, and a trailing comma asks for another entry.
  2. **Documents** — by induction on the tree, with the length of its text for fuel.
-/
namespace JsonMend

open Relaxed

namespace Relaxed

variable {s : Stage} {rest : List Char} {fuel : Nat}

/-! ## Keys and margins -/

theorem skipSpaces_gap (g : Gap) : skipSpaces (g.chars ++ rest) = skipSpaces rest :=
  List.dropWhile_append_of_pos g.blank

/-- Behind a margin that takes a liberty, a slash is found. -/
theorem Stage.slash_of_margin {m : Margin} (h : s.strictMargin m = false) (rest : List Char) :
    ∃ cs, skipSpaces (s.margin m ++ rest) = '/' :: cs := by
  obtain ⟨gap, _ | ⟨_ | _, behind⟩⟩ := m
  · cases h
  · have hlines : s.lines = true := by simpa [strictMargin] using h
    simp only [margin, comment, if_pos hlines, List.append_assoc, skipSpaces_gap, List.cons_append]
    exact ⟨_, skipSpaces_cons (by decide)⟩
  · have hblocks : s.blocks = true := by simpa [strictMargin] using h
    simp only [margin, comment, if_pos hblocks, List.append_assoc, skipSpaces_gap, List.cons_append]
    exact ⟨_, skipSpaces_cons (by decide)⟩

theorem stopsNumeral_gap (g : Gap) (h : StopsNumeral rest) : StopsNumeral (g.chars ++ rest) := by
  cases hg : g.chars with
  | nil => exact h
  | cons c cs => exact stopsNumeral_space (g.blank c (by rw [hg]; exact List.mem_cons_self))

theorem Closing.stops (h : Closing rest) : StopsNumeral rest := by
  obtain ⟨g, tail, rfl, htail⟩ := h
  exact stopsNumeral_gap g htail.stops

theorem stopsNumeral_margin (s : Stage) (m : Margin) (h : Closing rest) : StopsNumeral (s.margin m ++ rest) := by
  obtain ⟨gap, _ | ⟨remarked, behind⟩⟩ := m
  · rw [Stage.margin, List.append_nil]
    exact stopsNumeral_gap gap h.stops
  · have hbehind := stopsNumeral_gap behind h.stops
    simp only [Stage.margin, List.append_assoc]
    refine stopsNumeral_gap gap ?_
    cases remarked with
    | line =>
      rw [Stage.comment]
      split <;> exact stopsNumeral_cons (by decide)
    | block =>
      rw [Stage.comment]
      split
      · exact stopsNumeral_cons (by decide)
      · exact hbehind

/-- What is read behind a margin: a comment is in the way. -/
theorem behindEntry_margin {α : Type} {close : Char} {read : List Char → Option (List α × List Char)} {entry : α}
    (hclose : close = ']' ∨ close = '\x7d') (m : Margin) :
    behindEntry close read entry (skipSpaces (s.margin m ++ rest)) =
      if s.strictMargin m then behindEntry close read entry (skipSpaces rest) else none := by
  cases hstrict : s.strictMargin m with
  | true =>
    obtain ⟨g, hg⟩ := Stage.gap_of_strictMargin hstrict
    rw [hg, skipSpaces_gap, if_pos rfl]
  | false =>
    obtain ⟨cs, hcs⟩ := Stage.slash_of_margin hstrict rest
    rw [hcs]
    rcases hclose with rfl | rfl <;> rfl

/-- What is read behind the last margin: a trailing comma asks for another entry. -/
theorem behindEntry_last {α : Type} {close : Char} {read : List Char → Option (List α × List Char)} {entry : α}
    (hclose : close = ']' ∨ close = '\x7d') (empty : ∀ rest, read (close :: rest) = none) (comma : Option Gap) :
    behindEntry close read entry (skipSpaces (s.comma comma ++ close :: rest)) =
      if s.strictComma comma then some ([entry], rest) else none := by
  have hspaces : skipSpaces (close :: rest) = close :: rest := by
    rcases hclose with rfl | rfl <;> exact skipSpaces_cons (by decide)
  have hends : behindEntry close read entry (close :: rest) = some ([entry], rest) := if_pos rfl
  have hcomma : ',' ≠ close := by rcases hclose with rfl | rfl <;> decide
  cases comma with
  | none => exact (congrArg _ hspaces).trans hends
  | some g =>
    cases hcommas : s.commas with
    | true =>
      have hshown : skipSpaces (',' :: (g.chars ++ close :: rest)) = ',' :: (g.chars ++ close :: rest) :=
        skipSpaces_cons (by decide)
      simp [Stage.comma, Stage.strictComma, hcommas, hshown, behindEntry, hcomma, skipSpaces_gap, hspaces, empty]
    | false =>
      simp [Stage.comma, Stage.strictComma, hcommas, skipSpaces_gap, hspaces, hends]

theorem readString_identifier (i : Identifier) (rest : List Char) :
    readString (i.chars ++ '"' :: rest) = some (i.chars, rest) := by
  refine readString_of_plain fun c hc => ?_
  have hkey := i.isKeyChar c hc
  have hbounds := bounds_of_keyChar hkey
  refine ⟨?_, ?_, by omega⟩ <;> rintro rfl <;> revert hkey <;> decide

theorem Stage.mark_of_strict {q : Quote} (h : s.strictQuote q = true) : s.mark q = '"' := by
  cases q with
  | single =>
    have hquotes : s.quotes = false := by simpa [strictQuote] using h
    simp [mark, hquotes]
  | double => rfl

theorem Stage.mark_of_loose {q : Quote} (h : s.strictQuote q = false) : s.mark q = '\x27' := by
  cases q with
  | single =>
    have hquotes : s.quotes = true := by simpa [strictQuote] using h
    simp [mark, hquotes]
  | double => simp [strictQuote] at h

/-- A name that stands in double quotes is read as it is meant. -/
theorem readMembers_name (lead trail : Gap) (name : KeyName) (strict : s.strictName name = true) :
    readMembers (fuel + 1) (skipSpaces (s.keyName lead trail name ++ rest)) =
      (readValue fuel (skipSpaces rest)).bind fun (value, after) =>
        behindEntry '\x7d' (readMembers fuel) (name.text, value) (skipSpaces after) := by
  have hcolon : ∀ g : Gap, skipSpaces (g.chars ++ ':' :: rest) = ':' :: rest := fun g => by
    rw [skipSpaces_gap, skipSpaces_cons (by decide)]
  cases name with
  | quoted q l =>
    have hshown : skipSpaces ('"' :: (l.body ++ '"' :: (trail.chars ++ ':' :: rest))) =
        '"' :: (l.body ++ '"' :: (trail.chars ++ ':' :: rest)) := skipSpaces_cons (by decide)
    have hmark : s.mark q = '"' := Stage.mark_of_strict strict
    simp only [Stage.keyName, Stage.literal, hmark, List.cons_append, List.append_assoc, List.nil_append,
      skipSpaces_gap, hshown]
    rw [readMembers_eq (l.reads _) (hcolon trail), String.ofList_toList, KeyName.text]
  | bare i =>
    have hkeys : s.keys = false := by simpa [Stage.strictName] using strict
    have hshown : skipSpaces ('"' :: (i.chars ++ '"' :: ':' :: rest)) = '"' :: (i.chars ++ '"' :: ':' :: rest) :=
      skipSpaces_cons (by decide)
    simp only [Stage.keyName, hkeys, Bool.false_eq_true, if_false, List.cons_append, List.append_assoc,
      List.nil_append, hshown]
    rw [readMembers_eq (readString_identifier i _) (skipSpaces_cons (by decide)), KeyName.text]

/-- A name that stands in no double quotes is not read. -/
theorem readMembers_loose (lead trail : Gap) (name : KeyName) (loose : s.strictName name = false) :
    readMembers fuel (skipSpaces (s.keyName lead trail name ++ rest)) = none := by
  cases name with
  | quoted q l =>
    have hmark : s.mark q = '\x27' := Stage.mark_of_loose loose
    simp only [Stage.keyName, Stage.literal, hmark, List.cons_append, List.append_assoc, skipSpaces_gap]
    rw [skipSpaces_cons (by decide), readMembers_of_noQuote (by decide)]
  | bare i =>
    have hkeys : s.keys = true := by simpa [Stage.strictName] using loose
    have hquote : i.first ≠ '"' := by
      intro h
      have hstarts := i.starts
      rw [h] at hstarts
      revert hstarts
      decide
    simp only [Stage.keyName, hkeys, if_true, Identifier.chars, List.cons_append, List.append_assoc, skipSpaces_gap]
    rw [skipSpaces_cons (isLead_of_start i.starts).noSpace, readMembers_of_noQuote hquote]

end Relaxed

/-! ## Documents -/

namespace Relaxed

variable {s : Stage}

theorem Node.length_pos (s : Stage) (x : Node) : 0 < (x.chars s).length := by
  obtain ⟨c, cs, hchars, -⟩ := x.lead s
  simp [hchars]

theorem skipSpaces_value (s : Stage) (lead : Gap) (x : Node) (rest : List Char) :
    skipSpaces (lead.chars ++ (x.chars s ++ rest)) = x.chars s ++ rest := by
  obtain ⟨c, cs, hchars, hlead⟩ := x.lead s
  rw [skipSpaces_gap, hchars, List.cons_append, skipSpaces_cons hlead.noSpace]

theorem Stage.word_of_strict {w : NullWord} (h : s.strictWord w = true) : s.word w = NullWord.null.chars := by
  cases hwords : s.words with
  | false => simp [word, hwords]
  | true =>
    have hw : w = .null := by simpa [strictWord, hwords] using h
    rw [word, hw, ite_self]

theorem Stage.word_of_loose {w : NullWord} (h : s.strictWord w = false) :
    ∃ c cs, s.word w = c :: cs ∧ startsNothing c = true := by
  obtain ⟨hw, hwords⟩ : w ≠ .null ∧ s.words = true := by simpa [strictWord] using h
  rw [word, if_pos hwords]
  cases w with
  | null => exact absurd rfl hw
  | undefined | nan => exact ⟨_, _, rfl, by decide⟩

theorem Items.head_ne (its : Items) (rest : List Char) :
    (skipSpaces (its.chars s ++ rest)).head? ≠ some ']' := by
  have hvalue : ∀ (lead : Gap) (x : Node) (more : List Char),
      (skipSpaces (lead.chars ++ (x.chars s ++ more))).head? ≠ some ']' := by
    intro lead x more
    obtain ⟨c, cs, hchars, hlead⟩ := x.lead s
    rw [skipSpaces_value, hchars]
    exact fun h => hlead.noBracket (Option.some.inj h)
  cases its <;> simp only [Items.chars, List.append_assoc] <;> exact hvalue _ _ _

theorem Fields.head_ne (fs : Fields) (rest : List Char) :
    (skipSpaces (fs.chars s ++ rest)).head? ≠ some '\x7d' := by
  have hkey : ∀ (lead trail : Gap) (name : KeyName) (more : List Char),
      (skipSpaces (s.keyName lead trail name ++ more)).head? ≠ some '\x7d' := by
    intro lead trail name more
    cases name with
    | quoted q l =>
      have hlead := s.isLead_mark q
      simp only [Stage.keyName, Stage.literal, List.cons_append, List.append_assoc, skipSpaces_gap]
      rw [skipSpaces_cons hlead.noSpace]
      exact fun h => hlead.noBrace (Option.some.inj h)
    | bare i =>
      have hlead := isLead_of_start i.starts
      cases hkeys : s.keys with
      | true =>
        simp only [Stage.keyName, hkeys, if_true, Identifier.chars, List.cons_append, List.append_assoc, skipSpaces_gap]
        rw [skipSpaces_cons hlead.noSpace]
        exact fun h => hlead.noBrace (Option.some.inj h)
      | false =>
        simp only [Stage.keyName, hkeys, Bool.false_eq_true, if_false, List.cons_append]
        rw [skipSpaces_cons (by decide)]
        exact fun h => absurd (Option.some.inj h) (by decide)
  cases fs <;> simp only [Fields.chars, Stage.key, List.append_assoc] <;> exact hkey _ _ _ _

/-- Reading an item and the margin behind it. -/
theorem readItems_entry {x : Node} {m : Margin} {behind : List Char} {fuel : Nat} {ok : Bool}
    (hvalue : readValue fuel (x.chars s ++ (s.margin m ++ behind)) =
      if ok then some (x.json, s.margin m ++ behind) else none) :
    readItems (fuel + 1) (x.chars s ++ (s.margin m ++ behind)) =
      if ok && s.strictMargin m then behindEntry ']' (readItems fuel) x.json (skipSpaces behind) else none := by
  rw [readItems_eq, hvalue]
  cases ok with
  | false => rfl
  | true => exact behindEntry_margin (.inl rfl) m

/-- Reading a member and the margin behind it. -/
theorem readMembers_entry {k : Key} {x : Node} {m : Margin} {behind : List Char} {fuel : Nat} {ok : Bool}
    (hvalue : readValue fuel (x.chars s ++ (s.margin m ++ behind)) =
      if ok then some (x.json, s.margin m ++ behind) else none) :
    readMembers (fuel + 1) (skipSpaces (s.key k ++ (x.chars s ++ (s.margin m ++ behind)))) =
      if s.strictKey k && ok && s.strictMargin m then
        behindEntry '\x7d' (readMembers fuel) (k.name.text, x.json) (skipSpaces behind) else none := by
  rw [Stage.key, List.append_assoc, Stage.strictKey]
  cases hname : s.strictName k.name with
  | false => rw [readMembers_loose _ _ _ hname]; rfl
  | true =>
    rw [readMembers_name _ _ _ hname]
    cases hmargin : s.strictMargin k.margin with
    | false =>
      obtain ⟨cs, hslash⟩ := Stage.slash_of_margin hmargin (x.chars s ++ (s.margin m ++ behind))
      rw [hslash, readValue_of_startsNothing (by decide)]
      rfl
    | true =>
      obtain ⟨g, hg⟩ := Stage.gap_of_strictMargin hmargin
      rw [hg, skipSpaces_value, hvalue]
      cases ok with
      | false => rfl
      | true => exact behindEntry_margin (.inr rfl) m

mutual
/-- A value is read to its end where its text takes no liberty. -/
theorem Node.readValue_chars (s : Stage) : ∀ (x : Node) (fuel : Nat) (rest : List Char), (x.chars s).length ≤ fuel →
    x.json.Distinct → StopsNumeral rest → readValue fuel (x.chars s ++ rest) =
      if x.isStrict s && x.json.isReadable then some (x.json, rest) else none
  | .null w, fuel, rest, hfuel, _, _ => by
    obtain ⟨n, rfl⟩ := Nat.exists_eq_add_of_le' ((Node.length_pos s _).trans_le hfuel)
    have hreadable : Json.null.isReadable = true := rfl
    rw [Node.isStrict, Node.json, hreadable, Bool.and_true, Node.chars]
    cases hword : s.strictWord w with
    | false =>
      obtain ⟨c, cs, hchars, hc⟩ := Stage.word_of_loose hword
      rw [hchars]
      exact readValue_of_startsNothing hc
    | true =>
      rw [Stage.word_of_strict hword]
      rfl
  | .bool b, fuel, rest, hfuel, _, _ => by
    obtain ⟨n, rfl⟩ := Nat.exists_eq_add_of_le' ((Node.length_pos s _).trans_le hfuel)
    cases b <;> rfl
  | .num t, fuel, rest, hfuel, _, stops => by
    obtain ⟨n, rfl⟩ := Nat.exists_eq_add_of_le' ((Node.length_pos s _).trans_le hfuel)
    have hnumber : (Json.num t.number).isReadable = t.number.isReadable := Bool.and_true _
    rw [Node.chars, readValue_numeral t stops, Node.json, Node.isStrict, hnumber]
    rfl
  | .str q l, fuel, rest, hfuel, _, _ => by
    obtain ⟨n, rfl⟩ := Nat.exists_eq_add_of_le' ((Node.length_pos s _).trans_le hfuel)
    have hreadable : (Json.str l.text).isReadable = true := rfl
    rw [Node.isStrict, Node.json, hreadable, Bool.and_true, Node.chars, Stage.literal]
    cases hquote : s.strictQuote q with
    | false =>
      rw [Stage.mark_of_loose hquote]
      exact readValue_of_startsNothing (by decide)
    | true =>
      rw [Stage.mark_of_strict hquote, List.cons_append, List.append_assoc, List.singleton_append, readValue,
        l.reads]
      exact congrArg (fun text => some (Json.str text, rest)) String.ofList_toList
  | .emptyArr g, fuel, rest, hfuel, _, _ => by
    obtain ⟨n, rfl⟩ := Nat.exists_eq_add_of_le' ((Node.length_pos s _).trans_le hfuel)
    rw [Node.chars, List.cons_append, List.append_assoc, List.singleton_append, readValue, skipSpaces_gap,
      skipSpaces_cons (by decide)]
    rfl
  | .emptyObj g, fuel, rest, hfuel, _, _ => by
    obtain ⟨n, rfl⟩ := Nat.exists_eq_add_of_le' ((Node.length_pos s _).trans_le hfuel)
    rw [Node.chars, List.cons_append, List.append_assoc, List.singleton_append, readValue, skipSpaces_gap,
      skipSpaces_cons (by decide)]
    rfl
  | .arr its, fuel, rest, hfuel, distinct, _ => by
    obtain ⟨n, rfl⟩ := Nat.exists_eq_add_of_le' ((Node.length_pos s _).trans_le hfuel)
    simp only [Node.chars, List.length_append, List.length_cons, List.length_nil] at hfuel
    have hitems := its.readItems_chars s n rest (by omega) (Json.eachObject_arr.mp distinct)
    rw [Node.chars, List.cons_append, List.append_assoc, List.singleton_append, readValue_arr (its.head_ne _),
      hitems, Node.isStrict, Node.json]
    split <;> rfl
  | .obj fs, fuel, rest, hfuel, distinct, _ => by
    obtain ⟨n, rfl⟩ := Nat.exists_eq_add_of_le' ((Node.length_pos s _).trans_le hfuel)
    simp only [Node.chars, List.length_append, List.length_cons, List.length_nil] at hfuel
    have hmembers := fs.readMembers_chars s n rest (by omega) (Json.eachObject_obj.mp distinct).2
    rw [Node.chars, List.cons_append, List.append_assoc, List.singleton_append, readValue_obj (fs.head_ne _),
      hmembers, Node.isStrict, Node.json]
    have hpairs : collectMembers fs.json = fs.json := collectMembers_of_nodup distinct.keys
    split
    · simp only [Option.map_some, hpairs]
    · rfl
theorem Items.readItems_chars (s : Stage) : ∀ (its : Items) (fuel : Nat) (rest : List Char), (its.chars s).length < fuel →
    (∀ v ∈ its.json, v.Distinct) → readItems fuel (skipSpaces (its.chars s ++ ']' :: rest)) =
      if its.isStrict s && (Json.arr its.json).isReadable then some (its.json, rest) else none
  | .last lead x m comma, fuel, rest, hfuel, distinct => by
    obtain ⟨n, rfl⟩ := Nat.exists_eq_add_of_le' (Nat.zero_lt_of_lt hfuel)
    simp only [Items.chars, List.length_append] at hfuel
    have hvalue := x.readValue_chars s n (s.margin m ++ (s.comma comma ++ ']' :: rest)) (by omega)
      (distinct _ List.mem_cons_self) (stopsNumeral_margin s m (closing_comma s comma (.inl rfl)))
    simp only [Items.chars, List.append_assoc]
    rw [skipSpaces_value, readItems_entry hvalue,
      behindEntry_last (.inl rfl) fun rest => readItems_of_startsNothing (by decide)]
    simp only [Items.isStrict, Items.json, Json.isReadable_cons, Json.isReadable_arr_nil, ite_and_none, Bool.true_and,
      Bool.and_assoc, Bool.and_comm, Bool.and_left_comm]
  | .cons lead x m more, fuel, rest, hfuel, distinct => by
    obtain ⟨n, rfl⟩ := Nat.exists_eq_add_of_le' (Nat.zero_lt_of_lt hfuel)
    simp only [Items.chars, List.length_append, List.length_cons] at hfuel
    obtain ⟨hfirst, hothers⟩ := List.forall_mem_cons.mp distinct
    have hvalue := x.readValue_chars s n (s.margin m ++ (',' :: (more.chars s ++ ']' :: rest))) (by omega)
      hfirst (stopsNumeral_margin s m (closing_cons (.inl rfl)))
    have hmore := more.readItems_chars s n rest (by omega) hothers
    simp only [Items.chars, List.append_assoc, List.cons_append]
    rw [skipSpaces_value, readItems_entry hvalue, skipSpaces_cons (by decide), behindEntry_comma (by decide), hmore]
    simp only [Items.isStrict, Items.json, Json.isReadable_cons, map_ite_none, ite_and_none,
      Bool.and_assoc, Bool.and_comm, Bool.and_left_comm]
theorem Fields.readMembers_chars (s : Stage) : ∀ (fs : Fields) (fuel : Nat) (rest : List Char), (fs.chars s).length < fuel →
    (∀ m ∈ fs.json, m.2.Distinct) → readMembers fuel (skipSpaces (fs.chars s ++ '\x7d' :: rest)) =
      if fs.isStrict s && (Json.obj fs.json).isReadable then some (fs.json, rest) else none
  | .last k x m comma, fuel, rest, hfuel, distinct => by
    obtain ⟨n, rfl⟩ := Nat.exists_eq_add_of_le' (Nat.zero_lt_of_lt hfuel)
    simp only [Fields.chars, List.length_append] at hfuel
    have hvalue := x.readValue_chars s n (s.margin m ++ (s.comma comma ++ '\x7d' :: rest)) (by omega)
      (distinct _ List.mem_cons_self) (stopsNumeral_margin s m (closing_comma s comma (.inr rfl)))
    simp only [Fields.chars, List.append_assoc]
    rw [readMembers_entry hvalue, behindEntry_last (.inr rfl) fun rest => readMembers_of_noQuote (by decide)]
    simp only [Fields.isStrict, Fields.json, Json.isReadable_member, Json.isReadable_obj_nil, ite_and_none, Bool.true_and,
      Bool.and_assoc, Bool.and_comm, Bool.and_left_comm]
  | .cons k x m more, fuel, rest, hfuel, distinct => by
    obtain ⟨n, rfl⟩ := Nat.exists_eq_add_of_le' (Nat.zero_lt_of_lt hfuel)
    simp only [Fields.chars, List.length_append, List.length_cons] at hfuel
    obtain ⟨hfirst, hothers⟩ := List.forall_mem_cons.mp distinct
    have hvalue := x.readValue_chars s n (s.margin m ++ (',' :: (more.chars s ++ '\x7d' :: rest)))
      (by omega) hfirst (stopsNumeral_margin s m (closing_cons (.inl rfl)))
    have hmore := more.readMembers_chars s n rest (by omega) hothers
    simp only [Fields.chars, List.append_assoc, List.cons_append]
    rw [readMembers_entry hvalue, skipSpaces_cons (by decide), behindEntry_comma (by decide), hmore]
    simp only [Fields.isStrict, Fields.json, Json.isReadable_member, map_ite_none, ite_and_none,
      Bool.and_assoc, Bool.and_comm, Bool.and_left_comm]
end

/-- **The strict reader takes a document exactly where its text takes no liberty**, long integers apart. -/
theorem Document.parseChars?_chars (s : Stage) (d : Document) (distinct : d.json.Distinct) :
    Json.parseChars? (d.chars s) = if d.isStrict s && d.json.isReadable then some d.json else none := by
  have hroot := d.root.readValue_chars s ((d.chars s).length + 1) (s.margin d.margin ++ [])
    (by simp only [Document.chars, List.length_append]; omega) distinct (stopsNumeral_margin s d.margin closing_nil)
  have hspaces : skipSpaces (d.chars s) = d.root.chars s ++ (s.margin d.margin ++ []) := by
    rw [Document.chars, skipSpaces_value, List.append_nil]
  have hend : (skipSpaces (s.margin d.margin ++ [])).isEmpty = s.strictMargin d.margin := by
    cases hmargin : s.strictMargin d.margin with
    | true =>
      obtain ⟨g, hg⟩ := Stage.gap_of_strictMargin hmargin
      rw [hg, skipSpaces_gap]
      rfl
    | false =>
      obtain ⟨cs, hslash⟩ := Stage.slash_of_margin hmargin []
      rw [hslash]
      rfl
  rw [Json.parseChars?, hspaces, hroot, Document.isStrict, Document.json, Bool.and_right_comm]
  cases d.root.isStrict s && d.root.json.isReadable with
  | false => rfl
  | true =>
    show (if (skipSpaces (s.margin d.margin ++ [])).isEmpty = true then some d.root.json else none) = _
    rw [hend, Bool.true_and]

end Relaxed

end JsonMend
