import Stepwise.Proofs.Lexemes

/-!
# Spelling expressions

The words of an expression in the order in which they are written. An operand stands in parentheses exactly when it
binds looser than its place asks for: the conditional binds loosest, then come the operators between two operands in the
tiers of a table, then the operators in front of an operand, and last what needs no operator.
-/

namespace Stepwise

/-- A word or sign of the source without its place. -/
structure Word where
  kind : TokenKind
  text : Text

def Token.word (t : Token) : Word := ⟨t.kind, t.text⟩

namespace Word

abbrev mark (s : Text) : Word := ⟨.punctuation, s⟩

abbrev sign (s : Text) : Word := ⟨.operator, s⟩

abbrev name (s : Text) : Word := ⟨.name, s⟩

/-- The lists of words with commas between them. -/
def commas (lists : List (List Word)) : List Word := [mark ",".codes].intercalate lists

/-- The words, in parentheses when their tier is below the least one that the place takes. -/
def within (least tier : Nat) (words : List Word) : List Word :=
  if tier < least then mark "(".codes :: (words ++ [mark ")".codes]) else words

end Word

def UnaryOp.word : UnaryOp → Word
  | .not => .sign "!".codes
  | .minus => .sign "-".codes
  | .plus => .sign "+".codes
  | .typeof => .name "typeof".codes

namespace Connective

def sign : Connective → Text
  | .logical .nullish => "??".codes
  | .logical .or => "||".codes
  | .logical .and => "&&".codes
  | .binary (.equal false false) => "==".codes
  | .binary (.equal false true) => "!=".codes
  | .binary (.equal true false) => "===".codes
  | .binary (.equal true true) => "!==".codes
  | .binary (.compare .lt) => "<".codes
  | .binary (.compare .gt) => ">".codes
  | .binary (.compare .le) => "<=".codes
  | .binary (.compare .ge) => ">=".codes
  | .binary (.arith .add) => "+".codes
  | .binary (.arith .sub) => "-".codes
  | .binary (.arith .mul) => "*".codes
  | .binary (.arith .div) => "/".codes
  | .binary (.arith .rem) => "%".codes
  | .binary (.arith .pow) => "**".codes

theorem mem_spellings (c : Connective) : (c.sign, c) ∈ spellings := by
  rcases c with (op | op | ⟨strict, negated⟩) | op
  · cases op <;> decide
  · cases op <;> decide
  · cases strict <;> cases negated <;> decide
  · cases op <;> decide

/-- The operators, loosest first. -/
def tiers : List (List Text) :=
  [["??"], ["||"], ["&&"], ["==", "!=", "===", "!=="], ["<", ">", "<=", ">="], ["+", "-"], ["*", "/", "%"], ["**"]].map
    (·.map String.codes)

/-- The place of the operator in the table, counted from one. -/
def tier (c : Connective) : Nat := tiers.findIdx (·.contains c.sign) + 1

def associatesRight (c : Connective) : Bool := c.sign == "**".codes

/-- The least tier of a left operand without parentheses. -/
def leftTier (c : Connective) : Nat := if c.associatesRight then c.tier + 1 else c.tier

/-- The least tier of a right operand without parentheses. -/
def rightTier (c : Connective) : Nat := if c.associatesRight then c.tier else c.tier + 1

end Connective

namespace Expr

/-- How tightly the outermost operator binds. -/
def tier : Expr → Nat
  | .cond _ _ _ => 0
  | .logical op _ _ => (Connective.logical op).tier
  | .binary op _ _ => (Connective.binary op).tier
  | .unary _ _ => 9
  | _ => 10

mutual

/-- The words of an expression; there are none for templates and for numbers that are not exact. -/
def words : Expr → List Word
  | .num (.int n) => [⟨.number, Text.ofInt n⟩]
  | .num (.float _) => []
  | .text s => [⟨.string, s.text.quoted⟩]
  | .template _ => []
  | .bool b => [.name (if b then "true".codes else "false".codes)]
  | .null => [.name "null".codes]
  | .undefined => [.name "undefined".codes]
  | .name x => [.name x]
  | .array items => .mark "[".codes :: (Word.commas (itemWords items) ++ [.mark "]".codes])
  | .object entries => .mark "\x7b".codes :: (Word.commas (entryWords entries) ++ [.mark "\x7d".codes])
  | .member e property => Word.within 10 e.tier e.words ++ [.mark ".".codes, .name property]
  | .index e key => Word.within 10 e.tier e.words ++ .mark "[".codes :: (key.words ++ [.mark "]".codes])
  | .call e args => Word.within 10 e.tier e.words ++ .mark "(".codes :: (Word.commas (itemWords args) ++ [.mark ")".codes])
  | .unary op e => op.word :: Word.within 9 e.tier e.words
  | .binary op left right =>
    Word.within (Connective.binary op).leftTier left.tier left.words ++
      .sign (Connective.binary op).sign :: Word.within (Connective.binary op).rightTier right.tier right.words
  | .logical op left right =>
    Word.within (Connective.logical op).leftTier left.tier left.words ++
      .sign (Connective.logical op).sign :: Word.within (Connective.logical op).rightTier right.tier right.words
  | .cond test yes no =>
    Word.within 1 test.tier test.words ++ .sign "?".codes :: (yes.words ++ .mark ":".codes :: no.words)

def itemWords : List Item → List (List Word)
  | [] => []
  | .single e :: rest => e.words :: itemWords rest
  | .spread e :: rest => (.sign "...".codes :: e.words) :: itemWords rest

def entryWords : List Entry → List (List Word)
  | [] => []
  | .property key e :: rest => (⟨.string, key.quoted⟩ :: .mark ":".codes :: e.words) :: entryWords rest
  | .computed key e :: rest =>
    (.mark "[".codes :: (key.words ++ .mark "]".codes :: .mark ":".codes :: e.words)) :: entryWords rest
  | .spread e :: rest => (.sign "...".codes :: e.words) :: entryWords rest

end

/-- The text of an expression: its words with a blank between them. -/
def spelled (e : Expr) : Text := Text.join " ".codes (e.words.map Word.text)

end Expr

def Item.words : Item → List Word
  | .single e => e.words
  | .spread e => .sign "...".codes :: e.words

def Entry.words : Entry → List Word
  | .property key e => ⟨.string, key.quoted⟩ :: .mark ":".codes :: e.words
  | .computed key e => .mark "[".codes :: (key.words ++ .mark "]".codes :: .mark ":".codes :: e.words)
  | .spread e => .sign "...".codes :: e.words

theorem Expr.itemWords_eq_map (items : List Item) : itemWords items = items.map Item.words := by
  induction items with
  | nil => rfl
  | cons i items ih => cases i <;> rw [itemWords, ih] <;> rfl

theorem Expr.entryWords_eq_map (entries : List Entry) : entryWords entries = entries.map Entry.words := by
  induction entries with
  | nil => rfl
  | cons f entries ih => cases f <;> rw [entryWords, ih] <;> rfl

def Item.value : Item → Expr
  | .single e => e
  | .spread e => e

def Entry.parts : Entry → List Expr
  | .property _ e => [e]
  | .computed key e => [key, e]
  | .spread e => [e]

/-- The expressions that have a spelling: without templates, with natural numbers that are short enough to be read, and
with names that are not reserved. A property may have any name. -/
inductive Expr.Spellable : Expr → Prop
  | num {n : Nat} (short : (Text.ofNat n).length ≤ digitLimit) : Spellable (.num (.int n))
  | text (s : Literal) : Spellable (.text s)
  | bool (b : Bool) : Spellable (.bool b)
  | null : Spellable .null
  | undefined : Spellable .undefined
  | name {x : Text} (isName : Lexeme.isName x) (free : isReserved x = false) : Spellable (.name x)
  | array {items : List Item} (parts : ∀ i ∈ items, Spellable i.value) : Spellable (.array items)
  | object {entries : List Entry} (parts : ∀ f ∈ entries, ∀ e ∈ f.parts, Spellable e) : Spellable (.object entries)
  | member {e : Expr} {property : Text} (object : Spellable e) (isName : Lexeme.isName property) :
      Spellable (.member e property)
  | index {e k : Expr} (object : Spellable e) (key : Spellable k) : Spellable (.index e k)
  | call {e : Expr} {args : List Item} (callee : Spellable e) (parts : ∀ i ∈ args, Spellable i.value) :
      Spellable (.call e args)
  | unary (op : UnaryOp) {e : Expr} (operand : Spellable e) : Spellable (.unary op e)
  | connected (c : Connective) {l r : Expr} (left : Spellable l) (right : Spellable r) : Spellable (c.apply l r)
  | cond {t y n : Expr} (test : Spellable t) (yes : Spellable y) (no : Spellable n) : Spellable (.cond t y n)

theorem Expr.words_apply (c : Connective) (l r : Expr) :
    (c.apply l r).words =
      Word.within c.leftTier l.tier l.words ++ .sign c.sign :: Word.within c.rightTier r.tier r.words := by
  cases c <;> rw [Connective.apply, words]

theorem Expr.tier_apply (c : Connective) (l r : Expr) : (c.apply l r).tier = c.tier := by
  cases c <;> rfl

end Stepwise
