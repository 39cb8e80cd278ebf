import JsonMend.Proofs.Recovery.Reading
/-
  Strict texts, with nulls that may be spelled as bare tokens.

  A document is a tree that holds how a value is spelled: white space, escapes, numerals, repeated keys, and a word for
  each null.  Its plain text has `null` for all of them, its bare text has the words.  A string may hold anything; what
  stands between its quotes is the same in both texts.

  1. **Trees** (`Node`, `Items`, `Fields`, `Document`) — with their two texts and the value that is spelled.
  2. **First characters** (`Node.lead`) — the first character of a value is no white space and closes nothing.
  3. **Reading** (`Document.parseChars?_plain`) — the strict reader takes each plain text for the value.
-/
namespace JsonMend

open Relaxed

namespace Spelling

/-! ## Trees -/

/-- What stands between the quotes of a string, with escapes or without.  An escape that names half a pair on its own
spells the replacement character (`unitChar`). -/
structure Quoted where
  text : String
  body : List Char
  reads : ∀ rest, readString (body ++ '"' :: rest) = some (text.toList, rest)

/-- The key of a member with its colon and the white space around the two. -/
structure Label where
  lead : Gap
  key : Quoted
  trail : Gap
  behind : Gap

mutual
/-- A value as it is spelled. -/
inductive Node where
  | null (word : NullWord)
  | bool (b : Bool)
  | num (numeral : JsonNumeral) (readable : numeral.number.isReadable = true)
  | str (literal : Quoted)
  | emptyArr (inside : Gap)
  | arr (items : Items)
  | emptyObj (inside : Gap)
  | obj (fields : Fields)
/-- The items of an array, at least one. -/
inductive Items where
  | last (lead : Gap) (item : Node) (trail : Gap)
  | cons (lead : Gap) (item : Node) (trail : Gap) (rest : Items)
/-- The members of an object, at least one. -/
inductive Fields where
  | last (label : Label) (value : Node) (trail : Gap)
  | cons (label : Label) (value : Node) (trail : Gap) (rest : Fields)
end

/-- A value with the white space around it.  By itself, a null is spelled as such. -/
structure Document where
  lead : Gap
  root : Node
  trail : Gap
  strict : ∀ word, root = .null word → word = .null

/-! ### Texts -/

/-- Which of the two texts is meant. -/
inductive Style where
  | bare
  | plain

def Style.word : Style → NullWord → List Char
  | .bare, w => w.chars
  | .plain, _ => NullWord.null.chars

def Quoted.chars (q : Quoted) : List Char := '"' :: (q.body ++ ['"'])

def Label.chars (l : Label) : List Char :=
  l.lead.chars ++ (l.key.chars ++ (l.trail.chars ++ ':' :: l.behind.chars))

mutual
def Node.chars (s : Style) : Node → List Char
  | .null w => s.word w
  | .bool true => ['t', 'r', 'u', 'e']
  | .bool false => ['f', 'a', 'l', 's', 'e']
  | .num t _ => t.chars
  | .str q => q.chars
  | .emptyArr g => '[' :: (g.chars ++ [']'])
  | .arr items => '[' :: (items.chars s ++ [']'])
  | .emptyObj g => '\x7b' :: (g.chars ++ ['\x7d'])
  | .obj fields => '\x7b' :: (fields.chars s ++ ['\x7d'])
def Items.chars (s : Style) : Items → List Char
  | .last lead item trail => lead.chars ++ (item.chars s ++ trail.chars)
  | .cons lead item trail rest => lead.chars ++ (item.chars s ++ (trail.chars ++ ',' :: rest.chars s))
def Fields.chars (s : Style) : Fields → List Char
  | .last label value trail => label.chars ++ (value.chars s ++ trail.chars)
  | .cons label value trail rest => label.chars ++ (value.chars s ++ (trail.chars ++ ',' :: rest.chars s))
end

def Document.chars (s : Style) (d : Document) : List Char := d.lead.chars ++ (d.root.chars s ++ d.trail.chars)

/-! ### Values -/

mutual
/-- The value that is spelled.  A key that is written again has the last value, in the first place. -/
def Node.json : Node → Json
  | .null _ => .null
  | .bool b => .bool b
  | .num t _ => .num t.number
  | .str q => .str q.text
  | .emptyArr _ => .arr []
  | .arr items => .arr items.json
  | .emptyObj _ => .obj []
  | .obj fields => .obj (collectMembers fields.json)
def Items.json : Items → List Json
  | .last _ item _ => [item.json]
  | .cons _ item _ rest => item.json :: rest.json
def Fields.json : Fields → Members
  | .last label value _ => [(label.key.text, value.json)]
  | .cons label value _ rest => (label.key.text, value.json) :: rest.json
end

def Document.json (d : Document) : Json := d.root.json

variable {s : Style} {rest : List Char}

/-! ## First characters -/

theorem Node.lead (s : Style) (x : Node) : ∃ c cs, x.chars s = c :: cs ∧ IsLead c := by
  cases x with
  | null w => cases s <;> cases w <;> exact ⟨_, _, rfl, by decide⟩
  | bool b => cases b <;> exact ⟨_, _, by rw [chars], by decide⟩
  | num t =>
    obtain ⟨c, cs, hchars, rfl | hdigit⟩ := t.lead
    · exact ⟨'-', cs, hchars, by decide⟩
    · exact ⟨c, cs, hchars, isLead_of_digit hdigit⟩
  | str | emptyArr | arr | emptyObj | obj => exact ⟨_, _, rfl, by decide⟩

theorem Node.length_pos (s : Style) (x : Node) : 0 < (x.chars s).length := by
  obtain ⟨c, cs, hchars, -⟩ := x.lead s
  simp [hchars]

theorem skipSpaces_value (g : Gap) (x : Node) : skipSpaces (g.chars ++ (x.chars s ++ rest)) = x.chars s ++ rest := by
  obtain ⟨c, cs, hchars, hlead⟩ := x.lead s
  rw [skipSpaces_gap, hchars, List.cons_append, skipSpaces_cons hlead.noSpace]

theorem Items.head_ne (its : Items) (rest : List Char) : (skipSpaces (its.chars s ++ rest)).head? ≠ some ']' := by
  have hvalue : ∀ (lead : Gap) (x : Node) (more : List Char),
      (skipSpaces (lead.chars ++ (x.chars s ++ more))).head? ≠ some ']' := by
    intro lead x more
    obtain ⟨c, cs, hchars, hlead⟩ := x.lead s
    rw [skipSpaces_value, hchars]
    exact fun h => hlead.noBracket (Option.some.inj h)
  cases its <;> simp only [Items.chars, List.append_assoc] <;> exact hvalue _ _ _

/-- A label starts with the quote of its key. -/
theorem Label.skipSpaces_chars (l : Label) (rest : List Char) : skipSpaces (l.chars ++ rest) =
    '"' :: (l.key.body ++ '"' :: (l.trail.chars ++ ':' :: (l.behind.chars ++ rest))) := by
  simp only [chars, Quoted.chars, List.append_assoc, List.cons_append, List.nil_append]
  rw [skipSpaces_gap, skipSpaces_cons (by decide)]

theorem Fields.head_ne (fs : Fields) (rest : List Char) : (skipSpaces (fs.chars s ++ rest)).head? ≠ some '\x7d' := by
  cases fs <;> simp only [Fields.chars, List.append_assoc, Label.skipSpaces_chars] <;>
    exact fun h => absurd (Option.some.inj h) (by decide)

/-! ## Reading -/

section
variable {x : Node} {g : Gap} {behind : List Char} {fuel : Nat}

/-- An item and the white space behind it. -/
theorem readItems_entry
    (hvalue : readValue fuel (x.chars s ++ (g.chars ++ behind)) = some (x.json, g.chars ++ behind)) :
    readItems (fuel + 1) (x.chars s ++ (g.chars ++ behind)) =
      behindEntry ']' (readItems fuel) x.json (skipSpaces behind) := by
  rw [readItems_eq, hvalue]
  exact congrArg (behindEntry ']' (readItems fuel) x.json) (skipSpaces_gap g)

/-- A member and the white space behind it. -/
theorem readMembers_entry (l : Label)
    (hvalue : readValue fuel (x.chars s ++ (g.chars ++ behind)) = some (x.json, g.chars ++ behind)) :
    readMembers (fuel + 1) (skipSpaces (l.chars ++ (x.chars s ++ (g.chars ++ behind)))) =
      behindEntry '\x7d' (readMembers fuel) (l.key.text, x.json) (skipSpaces behind) := by
  have hcolon : skipSpaces (l.trail.chars ++ ':' :: (l.behind.chars ++ (x.chars s ++ (g.chars ++ behind)))) =
      ':' :: (l.behind.chars ++ (x.chars s ++ (g.chars ++ behind))) := by
    rw [skipSpaces_gap, skipSpaces_cons (by decide)]
  rw [Label.skipSpaces_chars, readMembers_eq (l.key.reads _) hcolon, skipSpaces_value, hvalue, String.ofList_toList]
  exact congrArg (behindEntry '\x7d' (readMembers fuel) (l.key.text, x.json)) (skipSpaces_gap g)

end

mutual
/-- A value is read to its end. -/
theorem Node.readValue_plain : ∀ (x : Node) (fuel : Nat) (rest : List Char), (x.chars .plain).length ≤ fuel →
    StopsNumeral rest → readValue fuel (x.chars .plain ++ rest) = some (x.json, rest)
  | .null w, fuel, rest, hfuel, _ => by
    obtain ⟨n, rfl⟩ := Nat.exists_eq_add_of_le' ((Node.length_pos .plain _).trans_le hfuel)
    rfl
  | .bool b, fuel, rest, hfuel, _ => by
    obtain ⟨n, rfl⟩ := Nat.exists_eq_add_of_le' ((Node.length_pos .plain _).trans_le hfuel)
    cases b <;> rfl
  | .num t readable, fuel, rest, hfuel, stops => by
    obtain ⟨n, rfl⟩ := Nat.exists_eq_add_of_le' ((Node.length_pos .plain _).trans_le hfuel)
    rw [Node.chars, readValue_numeral t stops, if_pos readable]
    rfl
  | .str q, fuel, rest, hfuel, _ => by
    obtain ⟨n, rfl⟩ := Nat.exists_eq_add_of_le' ((Node.length_pos .plain _).trans_le hfuel)
    rw [Node.chars, Quoted.chars, List.cons_append, List.append_assoc, List.singleton_append, readValue, q.reads]
    exact congrArg (fun text => some (Json.str text, rest)) String.ofList_toList
  | .emptyArr g, fuel, rest, hfuel, _ => by
    obtain ⟨n, rfl⟩ := Nat.exists_eq_add_of_le' ((Node.length_pos .plain _).trans_le hfuel)
    rw [Node.chars, List.cons_append, List.append_assoc, List.singleton_append, readValue, skipSpaces_gap,
      skipSpaces_cons (by decide)]
    rfl
  | .emptyObj g, fuel, rest, hfuel, _ => by
    obtain ⟨n, rfl⟩ := Nat.exists_eq_add_of_le' ((Node.length_pos .plain _).trans_le hfuel)
    rw [Node.chars, List.cons_append, List.append_assoc, List.singleton_append, readValue, skipSpaces_gap,
      skipSpaces_cons (by decide)]
    rfl
  | .arr its, fuel, rest, hfuel, _ => by
    obtain ⟨n, rfl⟩ := Nat.exists_eq_add_of_le' ((Node.length_pos .plain _).trans_le hfuel)
    simp only [Node.chars, List.length_append, List.length_cons, List.length_nil] at hfuel
    rw [Node.chars, List.cons_append, List.append_assoc, List.singleton_append, readValue_arr (its.head_ne _),
      its.readItems_plain n rest (by omega)]
    rfl
  | .obj fs, fuel, rest, hfuel, _ => by
    obtain ⟨n, rfl⟩ := Nat.exists_eq_add_of_le' ((Node.length_pos .plain _).trans_le hfuel)
    simp only [Node.chars, List.length_append, List.length_cons, List.length_nil] at hfuel
    rw [Node.chars, List.cons_append, List.append_assoc, List.singleton_append, readValue_obj (fs.head_ne _),
      fs.readMembers_plain n rest (by omega)]
    rfl
theorem Items.readItems_plain : ∀ (its : Items) (fuel : Nat) (rest : List Char), (its.chars .plain).length < fuel →
    readItems fuel (skipSpaces (its.chars .plain ++ ']' :: rest)) = some (its.json, rest)
  | .last lead x trail, fuel, rest, hfuel => by
    obtain ⟨n, rfl⟩ := Nat.exists_eq_add_of_le' (Nat.zero_lt_of_lt hfuel)
    simp only [Items.chars, List.length_append] at hfuel
    have hvalue := x.readValue_plain n (trail.chars ++ ']' :: rest) (by omega)
      (closing_gap trail (closing_cons (.inr (.inl rfl)))).stops
    simp only [Items.chars, List.append_assoc]
    rw [skipSpaces_value, readItems_entry hvalue, skipSpaces_cons (by decide)]
    rfl
  | .cons lead x trail more, fuel, rest, hfuel => by
    obtain ⟨n, rfl⟩ := Nat.exists_eq_add_of_le' (Nat.zero_lt_of_lt hfuel)
    simp only [Items.chars, List.length_append, List.length_cons] at hfuel
    have hvalue := x.readValue_plain n (trail.chars ++ ',' :: (more.chars .plain ++ ']' :: rest)) (by omega)
      (closing_gap trail (closing_cons (.inl rfl))).stops
    have hmore := more.readItems_plain n rest (by omega)
    simp only [Items.chars, List.append_assoc, List.cons_append]
    rw [skipSpaces_value, readItems_entry hvalue, skipSpaces_cons (by decide), behindEntry_comma (by decide), hmore]
    rfl
theorem Fields.readMembers_plain : ∀ (fs : Fields) (fuel : Nat) (rest : List Char), (fs.chars .plain).length < fuel →
    readMembers fuel (skipSpaces (fs.chars .plain ++ '\x7d' :: rest)) = some (fs.json, rest)
  | .last label x trail, fuel, rest, hfuel => by
    obtain ⟨n, rfl⟩ := Nat.exists_eq_add_of_le' (Nat.zero_lt_of_lt hfuel)
    simp only [Fields.chars, List.length_append] at hfuel
    have hvalue := x.readValue_plain n (trail.chars ++ '\x7d' :: rest) (by omega)
      (closing_gap trail (closing_cons (.inr (.inr rfl)))).stops
    simp only [Fields.chars, List.append_assoc]
    rw [readMembers_entry label hvalue, skipSpaces_cons (by decide)]
    rfl
  | .cons label x trail more, fuel, rest, hfuel => by
    obtain ⟨n, rfl⟩ := Nat.exists_eq_add_of_le' (Nat.zero_lt_of_lt hfuel)
    simp only [Fields.chars, List.length_append, List.length_cons] at hfuel
    have hvalue := x.readValue_plain n (trail.chars ++ ',' :: (more.chars .plain ++ '\x7d' :: rest)) (by omega)
      (closing_gap trail (closing_cons (.inl rfl))).stops
    have hmore := more.readMembers_plain n rest (by omega)
    simp only [Fields.chars, List.append_assoc, List.cons_append]
    rw [readMembers_entry label hvalue, skipSpaces_cons (by decide), behindEntry_comma (by decide), hmore]
    rfl
end

/-- **The plain text of a document is read as the value that it spells.** -/
theorem Document.parseChars?_plain (d : Document) : Json.parseChars? (d.chars .plain) = some d.json := by
  have hroot := d.root.readValue_plain ((d.chars .plain).length + 1) (d.trail.chars ++ [])
    (by simp only [Document.chars, List.length_append]; omega) (closing_gap d.trail closing_nil).stops
  rw [List.append_nil] at hroot
  have hspaces : skipSpaces (d.chars .plain) = d.root.chars .plain ++ d.trail.chars := skipSpaces_value d.lead d.root
  have hend : skipSpaces d.trail.chars = [] := by
    have hnil : skipSpaces (d.trail.chars ++ []) = [] := skipSpaces_gap d.trail
    rwa [List.append_nil] at hnil
  rw [Json.parseChars?, hspaces, hroot, Option.bind_eq_bind, Option.bind_some]
  dsimp only
  rw [hend]
  rfl

end Spelling

end JsonMend
