import JsonMend.Recovery.Correction
import JsonMend.Proofs.Number.Text
/-
  The relaxed syntax that texts are recovered from.

  A document in this syntax is a tree that holds, token by token, how a value is spelled: the white space, the
  comments, which quotes a string stands in, whether a comma trails.  Each liberty that the strict syntax does
  not allow can be written out or as its correction leaves it, so there is one text for each stage of the
  corrections (`Stage`), and the tree is the same at all stages.

  1. **Tokens** — each carries the proof that it can be told from what stands around it.
  2. **Trees** (`Node`, `Items`, `Fields`, `Document`) — with their texts, their values, and whether they are
     strict at a stage.
  3. **Lead characters** (`Node.lead`) — the first character of a value is no white space, closes nothing and
     starts no comment.
-/
namespace JsonMend

namespace Relaxed

/-! ## Stages -/

/-- Which liberties stand in the text as they were taken; the others are corrected. -/
structure Stage where
  commas : Bool
  quotes : Bool
  keys : Bool
  lines : Bool
  blocks : Bool
  words : Bool

/-- Nothing is corrected. -/
def Stage.relaxed : Stage := ⟨true, true, true, true, true, true⟩

def Stage.afterCommas : Stage := ⟨false, true, true, true, true, true⟩
def Stage.afterQuotes : Stage := ⟨false, false, true, true, true, true⟩
def Stage.afterKeys : Stage := ⟨false, false, false, true, true, true⟩
def Stage.afterLines : Stage := ⟨false, false, false, false, true, true⟩
def Stage.afterBlocks : Stage := ⟨false, false, false, false, false, true⟩

/-- Everything is corrected. -/
def Stage.strict : Stage := ⟨false, false, false, false, false, false⟩

/-! ## Tokens -/

/-- White space between tokens. -/
structure Gap where
  chars : List Char
  blank : ∀ c ∈ chars, isJsonSpace c = true

/-- What a comment may say. -/
def IsRemark (text : List Char) : Prop := ∀ c ∈ text, c ≠ '/' ∧ c ≠ '*' ∧ c ≠ ',' ∧ c ≠ '\x7b'

inductive Comment where
  /-- Two slashes and the rest of the line, with its end. -/
  | line (text : List Char) (remark : IsRemark text) (oneLine : '\n' ∉ text)
  | block (text : List Char) (remark : IsRemark text)

/-- White space with at most one comment in it. -/
structure Margin where
  gap : Gap
  comment : Option (Comment × Gap)

inductive Quote where
  | single
  | double
  deriving DecidableEq

/-- Characters between quotes that each correction leaves alone, wherever they stand. -/
structure Untouched (body : List Char) : Prop where
  commas : Correction.dropTrailingCommas body = body
  quotes : '\x27' ∉ body
  keys : Correction.quoteBareKeys body = body
  lines : ¬['/', '/'] <:+: body
  blocks : ¬['/', '*'] <:+: body

/-- What stands between the quotes of a string: a strict spelling of its text, by escapes or without.  An escape may name
half a pair on its own, which is no character: it spells the replacement character (`unitChar`), so keys that differ only
in such halves spell one key. -/
structure Literal where
  text : String
  body : List Char
  reads : ∀ rest, readString (body ++ '"' :: rest) = some (text.toList, rest)
  untouched : Untouched body

/-- An ASCII identifier. -/
structure Identifier where
  first : Char
  others : List Char
  starts : Correction.isKeyStart first = true
  goesOn : ∀ c ∈ others, Correction.isKeyChar c = true

/-- How the key of a member is spelled. -/
inductive KeyName where
  | quoted (quote : Quote) (literal : Literal)
  | bare (identifier : Identifier)

/-- The key of a member with the white space around it, and what stands behind its colon. -/
structure Key where
  lead : Gap
  name : KeyName
  trail : Gap
  margin : Margin

/-- How a null is spelled. -/
inductive NullWord where
  | null
  | undefined
  | nan
  deriving DecidableEq

namespace Stage

variable (s : Stage)

/-- A comment's text at a stage: quotes are corrected in it too. -/
def remark (text : List Char) : List Char := if s.quotes then text else Correction.doubleQuotes text

/-- The mark of a quote at a stage. -/
def mark : Quote → Char
  | .single => if s.quotes then '\x27' else '"'
  | .double => '"'

def comment : Comment → List Char
  | .line text _ _ => if s.lines then '/' :: '/' :: (s.remark text ++ ['\n']) else ['\n']
  | .block text _ => if s.blocks then '/' :: '*' :: (s.remark text ++ ['*', '/']) else []

def margin (m : Margin) : List Char :=
  m.gap.chars ++ match m.comment with
    | none => []
    | some (c, g) => s.comment c ++ g.chars

def literal (q : Quote) (l : Literal) : List Char := s.mark q :: (l.body ++ [s.mark q])

end Stage

def Identifier.chars (i : Identifier) : List Char := i.first :: i.others

def NullWord.chars : NullWord → List Char
  | .null => ['n', 'u', 'l', 'l']
  | .undefined => ['u', 'n', 'd', 'e', 'f', 'i', 'n', 'e', 'd']
  | .nan => ['N', 'a', 'N']

def KeyName.text : KeyName → String
  | .quoted _ l => l.text
  | .bare i => String.ofList i.chars

namespace Stage

variable (s : Stage)

/-- A key with its colon.  A bare key that is quoted loses the white space around it. -/
def keyName (lead trail : Gap) : KeyName → List Char
  | .quoted q l => lead.chars ++ s.literal q l ++ trail.chars ++ [':']
  | .bare i =>
    if s.keys then lead.chars ++ i.chars ++ trail.chars ++ [':'] else '"' :: (i.chars ++ ['"', ':'])

def key (k : Key) : List Char := s.keyName k.lead k.trail k.name ++ s.margin k.margin

/-- A comma in front of a closing bracket; the white space behind it stays. -/
def comma : Option Gap → List Char
  | none => []
  | some g => if s.commas then ',' :: g.chars else g.chars

def word (w : NullWord) : List Char := if s.words then w.chars else NullWord.null.chars

end Stage

/-! ## Trees -/

mutual
/-- A value as it is spelled. -/
inductive Node where
  | null (word : NullWord)
  | bool (b : Bool)
  | num (numeral : JsonNumeral)
  | str (quote : Quote) (literal : Literal)
  | emptyArr (inside : Gap)
  | arr (items : Items)
  | emptyObj (inside : Gap)
  | obj (fields : Fields)
/-- The items of an array, at least one. -/
inductive Items where
  | last (lead : Gap) (item : Node) (margin : Margin) (comma : Option Gap)
  | cons (lead : Gap) (item : Node) (margin : Margin) (rest : Items)
/-- The members of an object, at least one. -/
inductive Fields where
  | last (key : Key) (value : Node) (margin : Margin) (comma : Option Gap)
  | cons (key : Key) (value : Node) (margin : Margin) (rest : Fields)
end

/-- A value with what stands around it.  By itself, a null is spelled as such. -/
structure Document where
  lead : Gap
  root : Node
  margin : Margin
  plain : ∀ word, root = .null word → word = .null

/-! ### Texts -/

mutual
/-- The text of a value at a stage. -/
def Node.chars (s : Stage) : Node → List Char
  | .null w => s.word w
  | .bool true => ['t', 'r', 'u', 'e']
  | .bool false => ['f', 'a', 'l', 's', 'e']
  | .num t => t.chars
  | .str q l => s.literal q l
  | .emptyArr g => '[' :: (g.chars ++ [']'])
  | .arr items => '[' :: (items.chars s ++ [']'])
  | .emptyObj g => '\x7b' :: (g.chars ++ ['\x7d'])
  | .obj fields => '\x7b' :: (fields.chars s ++ ['\x7d'])
def Items.chars (s : Stage) : Items → List Char
  | .last lead item m comma => lead.chars ++ (item.chars s ++ (s.margin m ++ s.comma comma))
  | .cons lead item m rest => lead.chars ++ (item.chars s ++ (s.margin m ++ ',' :: rest.chars s))
def Fields.chars (s : Stage) : Fields → List Char
  | .last key value m comma => s.key key ++ (value.chars s ++ (s.margin m ++ s.comma comma))
  | .cons key value m rest => s.key key ++ (value.chars s ++ (s.margin m ++ ',' :: rest.chars s))
end

def Document.chars (s : Stage) (d : Document) : List Char :=
  d.lead.chars ++ (d.root.chars s ++ s.margin d.margin)

/-! ### Values -/

mutual
/-- The value that is spelled. -/
def Node.json : Node → Json
  | .null _ => .null
  | .bool b => .bool b
  | .num t => .num t.number
  | .str _ l => .str l.text
  | .emptyArr _ => .arr []
  | .arr items => .arr items.json
  | .emptyObj _ => .obj []
  | .obj fields => .obj fields.json
def Items.json : Items → List Json
  | .last _ item _ _ => [item.json]
  | .cons _ item _ rest => item.json :: rest.json
def Fields.json : Fields → Members
  | .last key value _ _ => [(key.name.text, value.json)]
  | .cons key value _ rest => (key.name.text, value.json) :: rest.json
end

def Document.json (d : Document) : Json := d.root.json

/-! ### Strictness -/

namespace Stage

variable (s : Stage)

def strictMargin (m : Margin) : Bool :=
  match m.comment with
  | none => true
  | some (.line .., _) => !s.lines
  | some (.block .., _) => !s.blocks

def strictQuote (q : Quote) : Bool := q = .double || !s.quotes

def strictName : KeyName → Bool
  | .quoted q _ => s.strictQuote q
  | .bare _ => !s.keys

def strictKey (k : Key) : Bool := s.strictName k.name && s.strictMargin k.margin

def strictComma (comma : Option Gap) : Bool := comma.isNone || !s.commas

def strictWord (w : NullWord) : Bool := w = .null || !s.words

end Stage

mutual
/-- Whether the text of a value at a stage takes no liberty. -/
def Node.isStrict (s : Stage) : Node → Bool
  | .null w => s.strictWord w
  | .str q _ => s.strictQuote q
  | .arr items => items.isStrict s
  | .obj fields => fields.isStrict s
  | .bool _ | .num _ | .emptyArr _ | .emptyObj _ => true
def Items.isStrict (s : Stage) : Items → Bool
  | .last _ item m comma => item.isStrict s && s.strictMargin m && s.strictComma comma
  | .cons _ item m rest => item.isStrict s && s.strictMargin m && rest.isStrict s
def Fields.isStrict (s : Stage) : Fields → Bool
  | .last key value m comma =>
    s.strictKey key && value.isStrict s && s.strictMargin m && s.strictComma comma
  | .cons key value m rest => s.strictKey key && value.isStrict s && s.strictMargin m && rest.isStrict s
end

/-- Whether the text of a document at a stage takes no liberty, so that nothing is to be corrected. -/
def Document.isStrict (s : Stage) (d : Document) : Bool := d.root.isStrict s && s.strictMargin d.margin

/-- A margin that takes no liberty is white space. -/
theorem Stage.gap_of_strictMargin {s : Stage} {m : Margin} (h : s.strictMargin m = true) :
    ∃ g : Gap, s.margin m = g.chars := by
  obtain ⟨gap, _ | ⟨_ | _, behind⟩⟩ := m
  · exact ⟨gap, List.append_nil _⟩
  · have hlines : s.lines = false := by simpa [strictMargin] using h
    refine ⟨⟨gap.chars ++ '\n' :: behind.chars, ?_⟩, by simp [margin, comment, hlines]⟩
    exact List.forall_mem_append.mpr ⟨gap.blank, List.forall_mem_cons.mpr ⟨by decide, behind.blank⟩⟩
  · have hblocks : s.blocks = false := by simpa [strictMargin] using h
    refine ⟨⟨gap.chars ++ behind.chars, ?_⟩, by simp [margin, comment, hblocks]⟩
    exact List.forall_mem_append.mpr ⟨gap.blank, behind.blank⟩

/-! ## Lead characters -/

/-- What the first character of a value is not. -/
structure IsLead (c : Char) : Prop where
  shown : isBlank c = false
  noBracket : c ≠ ']'
  noBrace : c ≠ '\x7d'
  noComma : c ≠ ','
  noSlash : c ≠ '/'

instance (c : Char) : Decidable (IsLead c) :=
  decidable_of_iff (isBlank c = false ∧ c ≠ ']' ∧ c ≠ '\x7d' ∧ c ≠ ',' ∧ c ≠ '/')
    ⟨fun ⟨shown, bracket, brace, comma, slash⟩ => ⟨shown, bracket, brace, comma, slash⟩,
      fun h => ⟨h.shown, h.noBracket, h.noBrace, h.noComma, h.noSlash⟩⟩

theorem isBlank_of_isJsonSpace {c : Char} (h : isJsonSpace c = true) : isBlank c = true := by
  have hcases : c = ' ' ∨ c = '\t' ∨ c = '\n' ∨ c = '\r' := by
    simpa [isJsonSpace, or_assoc] using h
  rcases hcases with rfl | rfl | rfl | rfl <;> decide

theorem IsLead.noSpace {c : Char} (h : IsLead c) : isJsonSpace c = false := by
  cases hspace : isJsonSpace c with
  | false => rfl
  | true =>
    have hblank := isBlank_of_isJsonSpace hspace
    rw [h.shown] at hblank
    cases hblank

/-- Between the space and the control characters behind ASCII there is no blank. -/
theorem isBlank_of_shown {c : Char} (above : 32 < c.toNat) (below : c.toNat < 133) : isBlank c = false := by
  have hgap : ¬c.toNat < 9 ∧ ¬c.toNat ≤ 13 ∧ ¬c.toNat < 28 ∧ ¬c.toNat ≤ 32 := by omega
  simp only [isBlank, blankTable, inTable, hgap, if_false, below, if_true]

theorem isLead_of_digit {c : Char} (h : isAsciiDigit c = true) : IsLead c := by
  have hbounds := bounds_of_digit h
  refine ⟨isBlank_of_shown (by omega) (by omega), ?_, ?_, ?_, ?_⟩ <;>
  · rintro rfl
    revert hbounds
    decide

theorem Stage.isLead_mark (s : Stage) (q : Quote) : IsLead (s.mark q) := by
  have hmark : s.mark q = '\x27' ∨ s.mark q = '"' := by
    cases q with
    | single => cases h : s.quotes <;> simp [mark, h]
    | double => exact .inr rfl
  rcases hmark with h | h <;> rw [h] <;> decide

/-- The first character of a value. -/
theorem Node.lead (s : Stage) (x : Node) : ∃ c cs, x.chars s = c :: cs ∧ IsLead c := by
  cases x with
  | null w =>
    rw [chars, Stage.word]
    split
    · cases w <;> exact ⟨_, _, rfl, by decide⟩
    · exact ⟨_, _, rfl, by decide⟩
  | bool b => cases b <;> exact ⟨_, _, by rw [chars], by decide⟩
  | num t =>
    obtain ⟨c, cs, hchars, rfl | hdigit⟩ := t.lead
    · exact ⟨'-', cs, hchars, by decide⟩
    · exact ⟨c, cs, hchars, isLead_of_digit hdigit⟩
  | str q l =>
    rw [chars, Stage.literal]
    exact ⟨_, _, rfl, s.isLead_mark q⟩
  | emptyArr | arr | emptyObj | obj => exact ⟨_, _, by rw [chars], by decide⟩

end Relaxed

end JsonMend
