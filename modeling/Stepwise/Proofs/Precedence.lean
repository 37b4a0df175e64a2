import Stepwise.Proofs.Phrases
import Stepwise.Proofs.Scanning

/-!
# Precedence

The parser climbs the tiers of the operators in loops. What it does on the words of an expression is said with a
continuation: after the words of `t`, the loop goes on as if it had been given `t` as its left operand
(`ReadsLevel`, `ReadsSuffixed`). So an operator in front of which the loop stops, and one at which it resumes, are dealt
with in one place each.
-/

namespace Stepwise

open List

/-! ### The table -/

namespace Connective

theorem ofSpelling?_sign (c : Connective) : ofSpelling? c.sign = some c := by
  have hall : ∀ p ∈ spellings, ofSpelling? p.1 = some p.2 := by decide
  exact hall _ c.mem_spellings

theorem tier_eq_level (c : Connective) : c.tier = c.level := by
  have hall : ∀ p ∈ spellings, p.2.tier = p.2.level := by decide
  exact hall _ c.mem_spellings

theorem rightTier_eq_rightLevel (c : Connective) : c.rightTier = c.rightLevel := by
  have hall : ∀ p ∈ spellings, p.2.rightTier = p.2.rightLevel := by decide
  exact hall _ c.mem_spellings

theorem tier_bounds (c : Connective) : 1 ≤ c.tier ∧ c.tier ≤ 8 := by
  have hall : ∀ p ∈ spellings, 1 ≤ p.2.tier ∧ p.2.tier ≤ 8 := by decide
  exact hall _ c.mem_spellings

theorem leftTier_bounds (c : Connective) : c.tier ≤ c.leftTier ∧ c.leftTier ≤ 9 ∧ c.leftTier ≠ 8 := by
  have hall : ∀ p ∈ spellings, p.2.tier ≤ p.2.leftTier ∧ p.2.leftTier ≤ 9 ∧ p.2.leftTier ≠ 8 := by decide
  exact hall _ c.mem_spellings

theorem rightTier_bounds (c : Connective) : 1 ≤ c.rightTier ∧ c.rightTier ≤ 8 := by
  have hall : ∀ p ∈ spellings, 1 ≤ p.2.rightTier ∧ p.2.rightTier ≤ 8 := by decide
  exact hall _ c.mem_spellings

end Connective

/-! ### What may follow, and what comes first -/

namespace Word

variable {rest : List Word} {w : Word} {s : Text} {k : Nat} {l : List Word}

/-- What may follow an operand up to the given level: the end of an expression, a question mark, or an operator that
binds looser. -/
inductive Follows (level : Nat) : List Word → Prop
  | closes {rest : List Word} (h : Closes rest) : Follows level rest
  | question (rest : List Word) : Follows level (sign "?".codes :: rest)
  | connective {c : Connective} (loose : c.level < level) (rest : List Word) : Follows level (sign c.sign :: rest)

/-- What may follow goes on with no operand and is no arrow. -/
theorem Follows.heads (h : Follows k rest) (hs : s ∈ [".", "[", "(", "=>"].map String.codes) : heads rest s = false := by
  cases h with
  | closes h =>
    have hother : ∀ s ∈ [".", "[", "(", "=>"].map String.codes, s ∉ closers := by decide
    exact h.heads (hother s hs)
  | question rest =>
    have hother : ∀ s ∈ [".", "[", "(", "=>"].map String.codes, (sign "?".codes).spells s = false := by decide
    exact hother s hs
  | @connective c loose rest =>
    have hother : ∀ p ∈ Connective.spellings, ∀ s ∈ [".", "[", "(", "=>"].map String.codes, (sign p.1).spells s = false := by
      decide
    exact hother _ c.mem_spellings s hs

theorem Follows.of_le {j : Nat} (h : Follows k rest) (hk : k ≤ j) : Follows j rest := by
  cases h with
  | closes h => exact .closes h
  | question rest => exact .question rest
  | connective loose rest => exact .connective (by omega) rest

/-- The word begins an expression without an operator in front. -/
inductive Opens : Word → Prop
  | number (s : Text) : Opens ⟨.number, s⟩
  | string (s : Text) : Opens ⟨.string, s⟩
  | name {x : Text} (isName : Lexeme.isName x) (plain : x ≠ "typeof".codes) : Opens (name x)
  | mark {s : Text} (bracket : s ∈ ["(", "[", "\x7b"].map String.codes) : Opens (mark s)

theorem Opens.unaryOf? (h : w.Opens) (line col : Nat) : Expr.unaryOf? ⟨w.kind, w.text, line, col⟩ = none := by
  cases h with
  | number s => rfl
  | string s => rfl
  | name isName plain => exact if_neg plain
  | mark bracket => rfl

/-- The words begin an expression without an operator in front. -/
def Starts (l : List Word) : Prop := ∃ w l', l = w :: l' ∧ w.Opens

/-- The words begin an expression. -/
def Begins (l : List Word) : Prop := ∃ w l', l = w :: l' ∧ (w.Opens ∨ ∃ op, w = UnaryOp.word op)

theorem Begins.heads (h : Begins l) (hs : s ∈ [")", "]", "\x7d", "..."].map String.codes) : Word.heads l s = false := by
  obtain ⟨w, l, rfl, hw⟩ := h
  rcases hw with hw | ⟨op, rfl⟩
  · cases hw with
    | number t => rfl
    | string t => rfl
    | @name x isName plain =>
      have hsigns : ∀ s ∈ [")", "]", "\x7d", "..."].map String.codes, Lexeme.isName s = false := by decide
      refine beq_eq_false_iff_ne.mpr fun heq => ?_
      subst heq
      rw [hsigns _ hs] at isName
      cases isName
    | @mark t bracket =>
      have hmarks : ∀ t ∈ ["(", "[", "\x7b"].map String.codes, ∀ s ∈ [")", "]", "\x7d", "..."].map String.codes,
          (Word.mark t).spells s = false := by
        decide
      exact hmarks t bracket s hs
  · have hsigns : ∀ s ∈ [")", "]", "\x7d", "..."].map String.codes, ∀ op ∈ [UnaryOp.not, .minus, .plus, .typeof],
        op.word.spells s = false := by
      decide
    exact hsigns s hs op (by cases op <;> decide)

theorem Begins.length_pos (h : Begins l) : 0 < l.length := by
  obtain ⟨w, l, rfl, -⟩ := h
  exact Nat.succ_pos _

theorem Starts.begins (h : Starts l) : Begins l := by
  obtain ⟨w, l, rfl, hw⟩ := h
  exact ⟨w, l, rfl, .inl hw⟩

theorem Starts.append (h : Starts l) (r : List Word) : Starts (l ++ r) := by
  obtain ⟨w, l, rfl, hw⟩ := h
  exact ⟨w, l ++ r, rfl, hw⟩

theorem Begins.append (h : Begins l) (r : List Word) : Begins (l ++ r) := by
  obtain ⟨w, l, rfl, hw⟩ := h
  exact ⟨w, l ++ r, rfl, hw⟩

end Word

namespace Expr

open Reader Word

variable {k m n fuel : Nat} {l r rest : List Word} {t e : Expr} {j i : Nat} {x closer s : Text} {entries : List Entry}

/-! ### The loops stop -/

theorem consumes_connected (h : Follows k rest) (hk : k ≤ m) (e : Expr) (fuel : Nat) :
    Consumes (parseConnected (fuel + 1) m e) [] e rest := by
  cases h with
  | closes h =>
    cases rest with
    | nil => exact .peekEnd (.done e [])
    | cons w rest =>
      obtain ⟨s, hs, rfl⟩ := h w rfl
      exact .peekWord rfl fun line col => .done e _
  | question rest => exact .peekWord rfl fun line col => .done e _
  | @connective c loose rest =>
    refine .peekWord rfl fun line col => ?_
    have hc : connectiveOf? ⟨.operator, c.sign, line, col⟩ = some c := c.ofSpelling?_sign
    dsimp only [Option.bind_some]
    rw [hc]
    dsimp only
    rw [if_pos (by omega)]
    exact .done e _

theorem consumes_suffixes (h : Follows k rest) (e : Expr) (fuel : Nat) : Consumes (parseSuffixes (fuel + 1) e) [] e rest :=
  .declineIf (h.heads (by decide)) <| .declineIf (h.heads (by decide)) <| .declineIf (h.heads (by decide)) (.done e rest)

/-! ### Reading the words of an expression -/

/-- A whole expression is read. -/
def ReadsWhole (l : List Word) (t : Expr) : Prop :=
  ∀ fuel rest, Closes rest → 8 * l.length ≤ fuel → Consumes (parseWhole fuel) l t rest

/-- The operators that follow an expression of the given tier bind looser than this. -/
def above (k : Nat) : Nat := if k = 8 then k else k + 1

theorem le_above (k : Nat) : k ≤ above k := by
  unfold above
  split <;> omega

theorem above_tier (c : Connective) : above c.tier = c.rightLevel := by
  have hall : ∀ p ∈ Connective.spellings, above p.2.tier = p.2.rightLevel := by decide
  exact hall _ c.mem_spellings

/-- An operator may follow what may stand to its left. -/
theorem level_lt_above (c : Connective) (h : c.leftTier ≤ k) : c.level < above k := by
  obtain ⟨hle, -, hne⟩ := c.leftTier_bounds
  have hlevel := c.tier_eq_level
  unfold above
  split <;> omega

/-- After the words, operands are joined as if the expression had been read. -/
def ReadsLevel (k : Nat) (l : List Word) (t : Expr) : Prop :=
  ∀ m n fuel r e rest, m ≤ k → Follows (above k) (r ++ rest) →
    (∀ fuel, n ≤ fuel → Consumes (parseConnected fuel m t) r e rest) →
    n + 8 * l.length ≤ fuel + 3 → Consumes (parseLevel fuel m) (l ++ r) e rest

/-- An operand is read. -/
def ReadsOperand (l : List Word) (t : Expr) : Prop :=
  ∀ k fuel rest, Follows k rest → 8 * l.length ≤ fuel + 4 → Consumes (parseUnary fuel) l t rest

/-- After the words, members, indexes and calls are read as if the expression had been read. -/
def ReadsSuffixed (l : List Word) (t : Expr) : Prop :=
  ∀ n fuel r e rest, heads (r ++ rest) "=>".codes = false →
    (∀ fuel, n ≤ fuel → Consumes (parseSuffixes fuel t) r e rest) →
    n + 8 * l.length ≤ fuel + 6 → Consumes (parsePostfix fuel) (l ++ r) e rest

/-- A primary expression is read. -/
def ReadsPrimary (l : List Word) (t : Expr) : Prop :=
  ∀ fuel rest, heads rest "=>".codes = false → 8 * l.length ≤ fuel + 8 → Consumes (parsePrimary (fuel + 1)) l t rest

/-- The words of an expression are read as the expression wherever its tier may stand. -/
structure Readable (k : Nat) (l : List Word) (t : Expr) : Prop where
  begins : Begins l
  starts : 10 ≤ k → Starts l
  whole : ReadsWhole l t
  level : 1 ≤ k → ReadsLevel k l t
  operand : 9 ≤ k → ReadsOperand l t
  suffixed : 10 ≤ k → ReadsSuffixed l t

theorem ReadsPrimary.suffixed (hl : Begins l) (h : ReadsPrimary l t) : ReadsSuffixed l t := by
  intro n fuel r e rest harrow hmore hfuel
  have hpos := hl.length_pos
  obtain ⟨fuel, rfl⟩ : ∃ f, fuel = f + 2 := ⟨fuel - 2, by omega⟩
  exact .bind (h fuel (r ++ rest) harrow (by omega)) (hmore (fuel + 1) (by omega))

theorem ReadsSuffixed.operand (hl : Starts l) (h : ReadsSuffixed l t) : ReadsOperand l t := by
  obtain ⟨w, l, rfl, hw⟩ := hl
  intro k fuel rest hrest hfuel
  rw [length_cons] at hfuel
  obtain ⟨fuel, rfl⟩ : ∃ f, fuel = f + 1 := ⟨fuel - 1, by omega⟩
  refine .peekWord rfl fun line col => ?_
  have hstop : ∀ fuel, 1 ≤ fuel → Consumes (parseSuffixes fuel t) [] t rest := by
    intro fuel hfuel
    obtain ⟨fuel, rfl⟩ : ∃ f, fuel = f + 1 := ⟨fuel - 1, by omega⟩
    exact consumes_suffixes hrest t fuel
  have hread := h 1 fuel [] t rest (hrest.heads (by decide)) hstop (by rw [length_cons]; omega)
  rw [append_nil] at hread
  rw [Option.bind_some, hw.unaryOf?]
  exact hread

theorem ReadsOperand.level (hl : Begins l) (h : ReadsOperand l t) (k : Nat) : ReadsLevel k l t := by
  intro m n fuel r e rest hm hrest hmore hfuel
  have hpos := hl.length_pos
  obtain ⟨fuel, rfl⟩ : ∃ f, fuel = f + 1 := ⟨fuel - 1, by omega⟩
  exact .bind (h _ fuel (r ++ rest) hrest (by omega)) (hmore fuel (by omega))

/-- Without a continuation, the operators that follow are left where they are. -/
theorem ReadsLevel.alone (h : ReadsLevel k l t) (hm : m ≤ k) (fuel : Nat) (hrest : Follows m rest)
    (hfuel : 8 * l.length ≤ fuel + 2) : Consumes (parseLevel fuel m) l t rest := by
  have hstop : ∀ fuel, 1 ≤ fuel → Consumes (parseConnected fuel m t) [] t rest := by
    intro fuel hfuel
    obtain ⟨fuel, rfl⟩ : ∃ f, fuel = f + 1 := ⟨fuel - 1, by omega⟩
    exact consumes_connected hrest (Nat.le_refl m) t fuel
  have hread := h m 1 fuel [] t rest hm (hrest.of_le (Nat.le_trans hm (le_above k))) hstop (by omega)
  rwa [append_nil] at hread

theorem ReadsLevel.whole (hk : 1 ≤ k) (hl : Begins l) (h : ReadsLevel k l t) : ReadsWhole l t := by
  intro fuel rest hrest hfuel
  have hpos := hl.length_pos
  obtain ⟨fuel, rfl⟩ : ∃ f, fuel = f + 1 := ⟨fuel - 1, by omega⟩
  have hlevel := h.alone hk fuel (.closes hrest) (by omega)
  exact .last hlevel (.declineIf (hrest.heads (by decide)) (.done t rest))

theorem Readable.of_whole (hl : Begins l) (h : ReadsWhole l t) : Readable 0 l t where
  begins := hl
  starts := by omega
  whole := h
  level := by omega
  operand := by omega
  suffixed := by omega

theorem Readable.of_level (hk : 1 ≤ k) (hk' : k ≤ 8) (hl : Begins l) (h : ReadsLevel k l t) : Readable k l t where
  begins := hl
  starts := by omega
  whole := h.whole hk hl
  level _ := h
  operand := by omega
  suffixed := by omega

theorem Readable.of_operand (hl : Begins l) (h : ReadsOperand l t) : Readable 9 l t where
  begins := hl
  starts := by omega
  whole := (h.level hl 9).whole (by omega) hl
  level _ := h.level hl 9
  operand _ := h
  suffixed := by omega

theorem Readable.of_suffixed (hl : Starts l) (h : ReadsSuffixed l t) : Readable 10 l t where
  begins := hl.begins
  starts _ := hl
  whole := ((h.operand hl).level hl.begins 10).whole (by omega) hl.begins
  level _ := (h.operand hl).level hl.begins 10
  operand _ := h.operand hl
  suffixed _ := h

theorem Readable.of_primary {w : Word} (hw : w.Opens) (h : ReadsPrimary (w :: l) t) : Readable 10 (w :: l) t := by
  have hl : Starts (w :: l) := ⟨w, l, rfl, hw⟩
  exact .of_suffixed hl (h.suffixed hl.begins)

/-! ### One lemma for each kind of expression -/

theorem Readable.paren (h : Readable k l t) : Readable 10 (mark "(".codes :: (l ++ [mark ")".codes])) t := by
  refine .of_primary (.mark (by decide)) fun fuel rest harrow hfuel => ?_
  simp only [length_cons, length_append, length_nil] at hfuel
  refine .peekWord rfl fun line col => .acceptIf rfl ?_
  have hinner := h.whole fuel (mark ")".codes :: rest) (closes_cons (by decide) rest) (by omega)
  refine .bind hinner (.bind (l := [mark ")".codes]) (m := []) (.expect rfl) ?_)
  have hnext := Consumes.nextIs "=>".codes rest
  rw [harrow] at hnext
  exact .first hnext (.done t rest)

/-- In parentheses if need be, an expression can stand where the least tier is `j`. -/
theorem Readable.within (h : Readable k l t) (hj : j ≤ 10) : ∃ k', j ≤ k' ∧ Readable k' (Word.within j k l) t := by
  unfold Word.within
  split
  case isTrue => exact ⟨10, hj, h.paren⟩
  case isFalse hk => exact ⟨k, by omega, h⟩

theorem readable_number (h : (Text.ofNat n).length ≤ digitLimit) :
    Readable 10 [⟨.number, Text.ofNat n⟩] (.num (.int n)) := by
  have hvalue : numeralValue (Text.ofNat n) = .ok (.int n) := by
    rw [numeralValue, Num.ofLiteral_ofNat, Numeral.checkDigits_of_le h]
    rfl
  refine .of_primary (.number _) fun fuel rest harrow hfuel => ?_
  exact .peekWord rfl fun line col => .advance fun _ _ => .first (.lift hvalue _) (.done _ rest)

theorem unescape_body_quoted (s : Text) (line col : Nat) : (⟨.string, s.quoted, line, col⟩ : Token).body.unescape = s := by
  have hbody : (⟨.string, s.quoted, line, col⟩ : Token).body = s.flatMap Text.quotedCode := by
    simp [Token.body, Text.quoted]
  rw [hbody, Text.unescape_flatMap_quotedCode]

theorem readable_text (s : Literal) : Readable 10 [⟨.string, s.text.quoted⟩] (.text s) := by
  refine .of_primary (.string _) fun fuel rest harrow hfuel => ?_
  refine .peekWord rfl fun line col => .advance fun _ _ => ?_
  rw [unescape_body_quoted, s.ofText_text]
  exact .done _ rest

theorem readable_literal (hname : Lexeme.isName x) (hplain : x ≠ "typeof".codes) (h : literal? x = some t) :
    Readable 10 [.name x] t := by
  refine .of_primary (.name hname hplain) fun fuel rest harrow hfuel => ?_
  refine .peekWord rfl fun line col => ?_
  dsimp only
  rw [h]
  exact .advance fun _ _ => .done t rest

theorem literal?_of_free (h : isReserved x = false) : literal? x = none := by
  have hreserved : ∀ s ∈ ["true", "false", "null", "undefined"].map String.codes, isReserved s := by decide
  have hne : ∀ s ∈ ["true", "false", "null", "undefined"].map String.codes, x ≠ s := by
    rintro s hs rfl
    rw [hreserved x hs] at h
    cases h
  rw [literal?, if_neg (hne _ (by decide)), if_neg (hne _ (by decide)), if_neg (hne _ (by decide)),
    if_neg (hne _ (by decide))]

theorem readable_name (hname : Lexeme.isName x) (h : isReserved x = false) : Readable 10 [.name x] (.name x) := by
  have hplain : x ≠ "typeof".codes := by
    rintro rfl
    exact absurd h (by decide)
  refine .of_primary (.name hname hplain) fun fuel rest harrow hfuel => ?_
  refine .peekWord rfl fun line col => ?_
  dsimp only
  rw [literal?_of_free h, h]
  have hnext := Consumes.nextIs "=>".codes rest
  rw [harrow] at hnext
  exact .advance fun _ _ => .first hnext (.done _ rest)

theorem readable_unary (op : UnaryOp) (hk : 9 ≤ k) (h : Readable k l t) : Readable 9 (op.word :: l) (.unary op t) := by
  refine .of_operand ⟨op.word, l, rfl, .inr ⟨op, rfl⟩⟩ fun j fuel rest hrest hfuel => ?_
  rw [length_cons] at hfuel
  obtain ⟨fuel, rfl⟩ : ∃ f, fuel = f + 1 := ⟨fuel - 1, by omega⟩
  have hoperand := h.operand hk j fuel rest hrest (by omega)
  refine .peekWord rfl fun line col => ?_
  have hop : unaryOf? ⟨op.word.kind, op.word.text, line, col⟩ = some op := by cases op <;> rfl
  rw [Option.bind_some, hop]
  exact .advance fun _ _ => .last hoperand (.done _ rest)

theorem readable_cond {lt ly ln : List Word} {y n : Expr} (hk : 1 ≤ k) (ht : Readable k lt t)
    (hy : Readable i ly y) (hn : Readable j ln n) :
    Readable 0 (lt ++ .sign "?".codes :: (ly ++ .mark ":".codes :: ln)) (.cond t y n) := by
  refine .of_whole (ht.begins.append _) fun fuel rest hrest hfuel => ?_
  simp only [length_append, length_cons] at hfuel
  obtain ⟨fuel, rfl⟩ : ∃ f, fuel = f + 1 := ⟨fuel - 1, by omega⟩
  refine .bind ((ht.level hk).alone hk fuel (.question _) (by omega)) (.acceptIf rfl ?_)
  have hyes := hy.whole fuel (.mark ":".codes :: (ln ++ rest)) (closes_cons (by decide) _) (by omega)
  have hno := hn.whole fuel rest hrest (by omega)
  exact .bind hyes (.bind (l := [.mark ":".codes]) (.expect rfl) (.last hno (.done _ rest)))

/-- The left operand hands over to the loop, which takes the operator and its right operand and goes on. -/
theorem readable_connected (c : Connective) {ll lr : List Word} {left right : Expr} (hi : c.leftTier ≤ i)
    (hj : c.rightTier ≤ j) (hl : Readable i ll left) (hr : Readable j lr right) :
    Readable c.tier (ll ++ .sign c.sign :: lr) (c.apply left right) := by
  obtain ⟨hlow, hhigh⟩ := c.tier_bounds
  have hleft := c.leftTier_bounds.1
  have hright := c.rightTier_bounds.1
  refine .of_level hlow hhigh (hl.begins.append _) fun m n fuel r e rest hm hrest hmore hfuel => ?_
  simp only [length_append, length_cons] at hfuel
  rw [append_assoc, cons_append]
  have hpos := hr.begins.length_pos
  refine hl.level (by omega) m (n + 8 * lr.length) fuel _ e rest (by omega) (.connective (level_lt_above c hi) _)
    (fun fuel hfuel => ?_) (by omega)
  obtain ⟨fuel, rfl⟩ : ∃ f, fuel = f + 1 := ⟨fuel - 1, by omega⟩
  rw [above_tier] at hrest
  have hoperand := (hr.level (by omega)).alone (c.rightTier_eq_rightLevel ▸ hj) fuel hrest (by omega)
  have hc (line col : Nat) : connectiveOf? ⟨.operator, c.sign, line, col⟩ = some c := c.ofSpelling?_sign
  have hstay : ¬ c.level < m := by rw [← c.tier_eq_level]; omega
  refine .peekWord rfl fun line col => ?_
  dsimp only [Option.bind_some]
  rw [hc]
  dsimp only
  rw [if_neg hstay]
  exact .advance fun _ _ => .bind hoperand (hmore fuel (by omega))

theorem readable_member {property : Text} (hk : 10 ≤ k) (h : Readable k l t) :
    Readable 10 (l ++ [.mark ".".codes, .name property]) (.member t property) := by
  refine .of_suffixed ((h.starts hk).append _) fun n fuel r e rest harrow hmore hfuel => ?_
  simp only [length_append, length_cons] at hfuel
  rw [append_assoc]
  refine h.suffixed hk (n + 1) fuel _ e rest rfl (fun fuel hfuel => ?_) (by omega)
  obtain ⟨fuel, rfl⟩ : ∃ f, fuel = f + 1 := ⟨fuel - 1, by omega⟩
  exact .acceptIf rfl (.advance fun _ _ => hmore fuel (by omega))

theorem readable_index {lk : List Word} {key : Expr} (hk : 10 ≤ k) (h : Readable k l t) (hkey : Readable j lk key) :
    Readable 10 (l ++ .mark "[".codes :: (lk ++ [.mark "]".codes])) (.index t key) := by
  refine .of_suffixed ((h.starts hk).append _) fun n fuel r e rest harrow hmore hfuel => ?_
  simp only [length_append, length_cons, length_nil] at hfuel
  rw [append_assoc, cons_append, append_assoc]
  refine h.suffixed hk (n + 8 * lk.length + 1) fuel _ e rest rfl (fun fuel hfuel => ?_) (by omega)
  obtain ⟨fuel, rfl⟩ : ∃ f, fuel = f + 1 := ⟨fuel - 1, by omega⟩
  have hinner := hkey.whole fuel (.mark "]".codes :: (r ++ rest)) (closes_cons (by decide) _) (by omega)
  refine .declineIf rfl (.acceptIf rfl (.bind hinner ?_))
  exact .bind (l := [.mark "]".codes]) (.expect rfl) (hmore fuel (by omega))

theorem consumes_item (hcloser : closer ∈ [")", "]"].map String.codes) {i : Item}
    (h : Readable i.value.tier i.value.words i.value) {as : List Item} (hlength : 8 * i.words.length ≤ fuel)
    (hends : Closes (r ++ rest)) (hothers : Consumes (others closer (parseItems fuel closer) i) r as rest) :
    Consumes (parseItems (fuel + 1) closer) (i.words ++ r) as rest := by
  have hmarks : ∀ s ∈ [")", "]"].map String.codes, s ∈ [")", "]", "\x7d", "..."].map String.codes ∧ s ≠ "...".codes := by
    decide
  obtain ⟨hbegin, hspread⟩ := hmarks closer hcloser
  cases i with
  | single e =>
    have hbegins : Begins (e.words ++ r ++ rest) := (h.begins.append r).append rest
    refine .declineIf (hbegins.heads hbegin) (.first (.decline (hbegins.heads (by decide))) ?_)
    exact .bind (h.whole fuel (r ++ rest) hends hlength) hothers
  | spread e =>
    have hother : (sign "...".codes).spells closer = false := beq_eq_false_iff_ne.mpr hspread.symm
    have h : Readable e.tier e.words e := h
    have hlength : 8 * (e.words.length + 1) ≤ fuel := hlength
    refine .declineIf hother (.bind (l := [sign "...".codes]) (.accept rfl) ?_)
    exact .bind (h.whole fuel (r ++ rest) hends (by omega)) hothers

theorem consumes_items (hcloser : closer ∈ [")", "]"].map String.codes) {items : List Item}
    (h : ∀ i ∈ items, Readable i.value.tier i.value.words i.value) (fuel : Nat) (rest : List Word)
    (hfuel : 8 * (commas (items.map Item.words)).length + 2 ≤ fuel) :
    Consumes (parseItems fuel closer) (commas (items.map Item.words) ++ [mark closer]) items rest := by
  have hmarks : ∀ s ∈ [")", "]"].map String.codes, s ∈ [")", "]", "\x7d"].map String.codes := by decide
  have hparts := Consumes.separated (fun fuel => parseItems fuel closer) (hmarks closer hcloser)
    (items.map fun i => (i.words, i)) (fun fuel rest => .acceptIf (beq_self_eq_true closer) (.done [] rest)) ?_ fuel rest
  · simp only [List.map_map, Function.comp_def, List.map_id'] at hparts
    exact hparts hfuel
  · intro p hp fuel l as rest hlength hends hothers
    obtain ⟨i, hi, rfl⟩ := List.mem_map.mp hp
    exact consumes_item hcloser (h i hi) hlength hends hothers

theorem consumes_entry {f : Entry} (h : ∀ e ∈ f.parts, Readable e.tier e.words e) (fuel : Nat) (hrest : Closes rest)
    (hfuel : 8 * f.words.length ≤ fuel) : Consumes (parseEntry fuel) f.words f rest := by
  cases f with
  | property key e =>
    have he := h e mem_cons_self
    have hfuel : 8 * (e.words.length + 2) ≤ fuel := hfuel
    obtain ⟨fuel, rfl⟩ : ∃ n, fuel = n + 1 := ⟨fuel - 1, by omega⟩
    refine .declineIf rfl (.advance fun line col => .first (.done _ _) ?_)
    rw [unescape_body_quoted]
    exact .acceptIf rfl (.last (he.whole fuel rest hrest (by omega)) (.done _ rest))
  | computed key e =>
    have hkey := h key mem_cons_self
    have he := h e (mem_cons_of_mem _ mem_cons_self)
    have hlength : (Entry.computed key e).words.length = key.words.length + e.words.length + 3 := by
      simp [Entry.words]
      omega
    obtain ⟨fuel, rfl⟩ : ∃ n, fuel = n + 1 := ⟨fuel - 1, by omega⟩
    have hinner := hkey.whole fuel (.mark "]".codes :: .mark ":".codes :: (e.words ++ rest)) (closes_cons (by decide) _)
      (by omega)
    refine .declineIf rfl (.advance fun line col => .bind hinner ?_)
    refine .bind (l := [.mark "]".codes]) (.expect rfl) (.bind (l := [.mark ":".codes]) (.expect rfl) ?_)
    exact .last (he.whole fuel rest hrest (by omega)) (.done _ rest)
  | spread e =>
    have he := h e mem_cons_self
    have hfuel : 8 * (e.words.length + 1) ≤ fuel := hfuel
    obtain ⟨fuel, rfl⟩ : ∃ n, fuel = n + 1 := ⟨fuel - 1, by omega⟩
    exact .acceptIf rfl (.last (he.whole fuel rest hrest (by omega)) (.done _ rest))

theorem consumes_entries (h : ∀ f ∈ entries, ∀ e ∈ f.parts, Readable e.tier e.words e) (fuel : Nat)
    (rest : List Word) (hfuel : 8 * (commas (entries.map Entry.words)).length + 2 ≤ fuel) :
    Consumes (parseEntries fuel) (commas (entries.map Entry.words) ++ [mark "\x7d".codes]) entries rest := by
  have hparts := Consumes.separated parseEntries (by decide : "\x7d".codes ∈ [")", "]", "\x7d"].map String.codes)
    (entries.map fun f => (f.words, f)) (fun fuel rest => .acceptIf rfl (.done [] rest)) ?_ fuel rest
  · simp only [map_map, Function.comp_def, map_id'] at hparts
    exact hparts hfuel
  · intro p hp fuel l as rest hlength hends hothers
    obtain ⟨f, hf, rfl⟩ := mem_map.mp hp
    have hother : heads (f.words ++ l ++ rest) "\x7d".codes = false := by cases f <;> rfl
    exact .declineIf hother (.bind (consumes_entry (h f hf) fuel hends hlength) hothers)

theorem readable_array {items : List Item} (h : ∀ i ∈ items, Readable i.value.tier i.value.words i.value) :
    Readable 10 (.mark "[".codes :: (commas (items.map Item.words) ++ [.mark "]".codes])) (.array items) := by
  refine .of_primary (.mark (by decide)) fun fuel rest harrow hfuel => ?_
  simp only [length_cons, length_append, length_nil] at hfuel
  refine .peekWord rfl fun line col => .declineIf rfl (.acceptIf rfl ?_)
  exact .last (consumes_items (by decide) h fuel rest (by omega)) (.done _ rest)

theorem readable_object (h : ∀ f ∈ entries, ∀ e ∈ f.parts, Readable e.tier e.words e) :
    Readable 10 (.mark "\x7b".codes :: (commas (entries.map Entry.words) ++ [.mark "\x7d".codes])) (.object entries) := by
  refine .of_primary (.mark (by decide)) fun fuel rest harrow hfuel => ?_
  simp only [length_cons, length_append, length_nil] at hfuel
  refine .peekWord rfl fun line col => .declineIf rfl (.declineIf rfl (.acceptIf rfl ?_))
  exact .last (consumes_entries h fuel rest (by omega)) (.done _ rest)

theorem readable_call {args : List Item} (hk : 10 ≤ k) (h : Readable k l t)
    (hargs : ∀ i ∈ args, Readable i.value.tier i.value.words i.value) :
    Readable 10 (l ++ .mark "(".codes :: (commas (args.map Item.words) ++ [.mark ")".codes])) (.call t args) := by
  refine .of_suffixed ((h.starts hk).append _) fun n fuel r e rest harrow hmore hfuel => ?_
  simp only [length_append, length_cons, length_nil] at hfuel
  rw [append_assoc, cons_append]
  refine h.suffixed hk (n + 8 * (commas (args.map Item.words)).length + 3) fuel _ e rest rfl (fun fuel hfuel => ?_) (by omega)
  obtain ⟨fuel, rfl⟩ : ∃ f, fuel = f + 1 := ⟨fuel - 1, by omega⟩
  have hitems := consumes_items (by decide : ")".codes ∈ [")", "]"].map String.codes) hargs fuel (r ++ rest) (by omega)
  exact .declineIf rfl (.declineIf rfl (.acceptIf rfl (.bind hitems (hmore fuel (by omega)))))

theorem Spellable.readable (h : t.Spellable) : Readable t.tier t.words t := by
  induction h with
  | num short => exact readable_number short
  | text s => exact readable_text s
  | bool b =>
    cases b with
    | true => exact readable_literal (by decide) (by decide) rfl
    | false => exact readable_literal (by decide) (by decide) rfl
  | null => exact readable_literal (by decide) (by decide) rfl
  | undefined => exact readable_literal (by decide) (by decide) rfl
  | name isName free => exact readable_name isName free
  | array parts ih =>
    rw [words, itemWords_eq_map]
    exact readable_array ih
  | object parts ih =>
    rw [words, entryWords_eq_map]
    exact readable_object ih
  | member object isName ih =>
    obtain ⟨k, hk, h⟩ := ih.within (Nat.le_refl 10)
    exact readable_member hk h
  | index object key ih ihkey =>
    obtain ⟨k, hk, h⟩ := ih.within (Nat.le_refl 10)
    exact readable_index hk h ihkey
  | call callee parts ih ihparts =>
    obtain ⟨k, hk, h⟩ := ih.within (Nat.le_refl 10)
    rw [words, itemWords_eq_map]
    exact readable_call hk h ihparts
  | unary op operand ih =>
    obtain ⟨k, hk, h⟩ := ih.within (j := 9) (by omega)
    exact readable_unary op hk h
  | connected c left right ihleft ihright =>
    have hleft := c.leftTier_bounds
    have hright := c.rightTier_bounds
    obtain ⟨i, hi, hl⟩ := ihleft.within (j := c.leftTier) (by omega)
    obtain ⟨j, hj, hr⟩ := ihright.within (j := c.rightTier) (by omega)
    rw [tier_apply, words_apply]
    exact readable_connected c hi hj hl hr
  | cond test yes no ihtest ihyes ihno =>
    obtain ⟨k, hk, h⟩ := ihtest.within (j := 1) (by omega)
    exact readable_cond hk h ihyes ihno

theorem parse_of_seen (h : Token.seenFrom s 0 0 ≠ []) :
    Expr.parse s = (parseWhole (16 * s.length + 31)).run (Token.seenFrom s 0 0) >>= fun r =>
      expectEnd.run r.2 >>= fun _ => pure r.1 := by
  have hsome : (Token.seenFrom s 0 0).isEmpty = false := isEmpty_eq_false_iff.mpr h
  change (if (Token.seenFrom s 0 0).isEmpty then _ else _) = _
  rw [hsome]
  rfl

theorem Spellable.parse_of_scans (h : t.Spellable) (hs : Token.Scans s t.words) : Expr.parse s = .ok t := by
  have hlength := hs.length_le
  have hwords := hs.words_seenFrom 0 0
  have hsome : Token.seenFrom s 0 0 ≠ [] := by
    intro hempty
    have hpos := h.readable.begins.length_pos
    rw [← hwords, hempty] at hpos
    exact absurd hpos (Nat.lt_irrefl 0)
  obtain ⟨left, hleft, hrun⟩ := h.readable.whole (16 * s.length + 31) [] closes_nil (by omega) (Token.seenFrom s 0 0)
    (by rw [hwords, append_nil])
  obtain rfl := map_eq_nil_iff.mp hleft
  rw [parse_of_seen hsome, hrun]
  rfl

/-- The parser follows the table of tiers: the text of an expression, with parentheses only where its tier asks for them,
is parsed as the expression. -/
theorem parse_spelled (t : Expr) (h : t.Spellable) : Expr.parse t.spelled = .ok t := h.parse_of_scans h.scans

/-- Tiers on both sides of a conditional, a power in a power, and every kind of part in brackets. -/
def specimen : Expr :=
  .cond (.logical .or (.name "a".codes)
      (.binary (.arith .pow) (.unary .minus (.name "b".codes)) (.binary (.arith .pow) (.num (.int 2)) (.num (.int 3)))))
    (.call (.member (.binary (.arith .sub) (.name "a".codes) (.binary (.arith .sub) (.name "b".codes) .undefined))
      "typeof".codes) [.spread (.name "xs".codes), .single (.array [])])
    (.object [.property "\"".codes .null, .computed (.text (.ofText "k".codes)) (.bool true), .spread (.name "o".codes)])

theorem spellable_specimen : specimen.Spellable := by
  have hnames : ∀ x ∈ ["a", "b", "xs", "o"].map String.codes, Lexeme.isName x ∧ isReserved x = false := by decide
  have hname (x : Text) (hx : x ∈ ["a", "b", "xs", "o"].map String.codes) : Spellable (.name x) :=
    .name (hnames x hx).1 (hnames x hx).2
  have hpower : Spellable (.binary (.arith .pow) (.num (.int 2)) (.num (.int 3))) :=
    .connected (.binary (.arith .pow)) (.num (n := 2) (by decide)) (.num (n := 3) (by decide))
  have hdifference : Spellable (.binary (.arith .sub) (.name "b".codes) .undefined) :=
    .connected (.binary (.arith .sub)) (hname _ (by decide)) .undefined
  refine .cond (.connected (.logical .or) (hname _ (by decide)) ?_) (.call (.member ?_ (by decide)) ?_) (.object ?_)
  · exact .connected (.binary (.arith .pow)) (.unary .minus (hname _ (by decide))) hpower
  · exact .connected (.binary (.arith .sub)) (hname _ (by decide)) hdifference
  · simp only [forall_mem_cons]
    exact ⟨hname _ (by decide), .array nofun, nofun⟩
  · simp only [forall_mem_cons, Entry.parts]
    exact ⟨⟨.null, nofun⟩, ⟨.text _, .bool true, nofun⟩, ⟨hname _ (by decide), nofun⟩, nofun⟩

theorem parse_spelled_specimen :
    specimen.Spellable ∧
    specimen.spelled = "a || - b ** 2 ** 3 ? ( a - ( b - undefined ) ) . typeof ( ... xs , [ ] ) : \x7b \"\\\"\" : null , [ \"k\" ] : true , ... o \x7d".codes ∧
    Expr.parse specimen.spelled = .ok specimen :=
  ⟨spellable_specimen, by decide +kernel, parse_spelled specimen spellable_specimen⟩

theorem run_parseWhole_of_long (h : digitLimit < (Text.ofNat n).length) (fuel : Nat) :
    (parseWhole (fuel + 5)).run [⟨.number, Text.ofNat n, 0, 0⟩] =
      .error (.numeral (.tooManyDigits (Text.ofNat n).length)) := by
  have hvalue : numeralValue (Text.ofNat n) = .error (.numeral (.tooManyDigits (Text.ofNat n).length)) := by
    have hcheck : Numeral.checkDigits (Text.ofNat n).length = .error (.tooManyDigits (Text.ofNat n).length) := if_pos h
    rw [numeralValue, Num.ofLiteral_ofNat, hcheck]
    rfl
  have hprimary : (parsePrimary (fuel + 1)).run [⟨.number, Text.ofNat n, 0, 0⟩] =
      .error (.numeral (.tooManyDigits (Text.ofNat n).length)) := by
    change ((liftM (numeralValue (Text.ofNat n)) : Reader Num) >>= fun v => pure (Expr.num v)).run [] = _
    rw [hvalue]
    rfl
  have htrailed : (parsePostfix (fuel + 2)).run [⟨.number, Text.ofNat n, 0, 0⟩] =
      .error (.numeral (.tooManyDigits (Text.ofNat n).length)) := by
    change ((parsePrimary (fuel + 1)).run [⟨.number, Text.ofNat n, 0, 0⟩] >>= _) = _
    rw [hprimary]
    rfl
  have hlevel : (parseLevel (fuel + 4) 1).run [⟨.number, Text.ofNat n, 0, 0⟩] =
      .error (.numeral (.tooManyDigits (Text.ofNat n).length)) := by
    change ((parsePostfix (fuel + 2)).run [⟨.number, Text.ofNat n, 0, 0⟩] >>= _) = _
    rw [htrailed]
    rfl
  change ((parseLevel (fuel + 4) 1).run [⟨.number, Text.ofNat n, 0, 0⟩] >>= _) = _
  rw [hlevel]
  rfl

theorem parse_ofNat_of_long (h : digitLimit < (Text.ofNat n).length) :
    Expr.parse (Text.ofNat n) = .error (.numeral (.tooManyDigits (Text.ofNat n).length)) := by
  have hstands : Lexeme.Stands .number (Text.ofNat n) [] := Lexeme.stands_number n fun c hc => by cases hc
  have hseen : Token.seenFrom (Text.ofNat n) 0 0 = [⟨.number, Text.ofNat n, 0, 0⟩] := by
    have hfirst := Token.seenFrom_append hstands 0 0
    rwa [append_nil] at hfirst
  have hsome : Token.seenFrom (Text.ofNat n) 0 0 ≠ [] := by
    rw [hseen]
    exact cons_ne_nil _ _
  rw [parse_of_seen hsome, hseen, run_parseWhole_of_long h (16 * (Text.ofNat n).length + 26)]
  rfl

theorem spelled_num (n : Nat) : spelled (.num (.int n)) = Text.ofNat n := by
  rw [spelled, words, map_singleton, Text.join, intercalate_singleton]
  rfl

theorem length_ofNat_pow (hk : 0 < k) : (Text.ofNat (Nat.pow 10 k)).length = k + 1 := by
  have hmore : ¬ (Nat.toDigits 10 (Nat.pow 10 k)).length ≤ k := by
    rw [Nat.length_toDigits_le_iff (by decide) hk]
    exact Nat.lt_irrefl _
  have hless : (Nat.toDigits 10 (Nat.pow 10 k)).length ≤ k + 1 := by
    rw [Nat.length_toDigits_le_iff (by decide) (Nat.succ_pos k)]
    exact Nat.pow_lt_pow_succ (by decide)
  rw [Text.ofNat, length_map]
  omega

/-- The least number with a decimal spelling that is not read back: it has one digit more than are read. -/
theorem parse_spelled_fails :
    Expr.parse (spelled (.num (.int (Nat.pow 10 digitLimit)))) = .error (.numeral (.tooManyDigits (digitLimit + 1))) := by
  have hlength := length_ofNat_pow (k := digitLimit) (by decide)
  have hfails := parse_ofNat_of_long (n := Nat.pow 10 digitLimit) (by omega)
  rw [hlength] at hfails
  exact (congrArg Expr.parse (spelled_num (Nat.pow 10 digitLimit))).trans hfails

end Expr

end Stepwise
