import Stepwise.Proofs.Settling

/-!
# The parser comes to an end

Every few calls of the parser consume a token, and the code inside a template is shorter than the template. So the fuel
that `Expr.fuelFor` gives is enough for any tokens of a source: the parser settles, and more fuel changes nothing. The
loops over names and declarators consume a token in each round. Hence a segment is parsed, or there is something wrong
with it.
-/

namespace Stepwise

open List

/-! ### The pieces of a template -/

namespace TemplatePiece

variable {s : Text} {collected body : Text}

/-- What a piece takes up in a template, at least. -/
def weight : List TemplatePiece → Nat
  | [] => 0
  | .code source :: pieces => source.length + 1 + weight pieces
  | _ :: pieces => 1 + weight pieces

theorem weight_flush_le (collected : Text) (rest : List TemplatePiece) :
    weight (flush collected rest) ≤ collected.length + weight rest := by
  cases collected with
  | nil => simp [flush]
  | cons c collected => simp [flush, weight]

/-- The mark that closes an interpolation is not part of its code. -/
def Place.marks : Place → Nat
  | .text => 0
  | .code _ => 1

theorem weight_splitFrom_le (s : Text) (place : Place) (collected : Text) :
    weight (splitFrom s place collected) ≤ s.length + collected.length + place.marks := by
  fun_induction splitFrom s place collected with
  | case1 collected =>
    have hflush := weight_flush_le collected []
    simp only [weight, Place.marks, length_nil] at hflush ⊢
    omega
  | case2 collected depth => simp [weight, Place.marks]
  | case3 c collected =>
    have hflush := weight_flush_le (c :: collected) []
    simp only [weight, Place.marks, length_cons, length_nil] at hflush ⊢
    omega
  | case5 c collected d rest' _ _ ih =>
    have hflush := weight_flush_le collected (splitFrom rest' (.code 0) [])
    simp only [Place.marks, length_cons, length_nil] at ih ⊢
    omega
  | case8 rest collected _ ih =>
    simp only [weight, Place.marks, length_cons, length_nil, length_reverse] at ih ⊢
    omega
  | case4 | case6 | case7 | case9 | case10 =>
    simp only [Place.marks, length_cons] at *
    omega

theorem weight_split_le (body : Text) : weight (split body) ≤ body.length := weight_splitFrom_le body .text []

theorem code_of_mem_flush {rest : List TemplatePiece} (h : .code s ∈ flush collected rest) : .code s ∈ rest := by
  unfold flush at h
  split at h
  · exact h
  · rcases mem_cons.mp h with h | h
    · cases h
    · exact h

theorem code_infix_splitFrom {place : Place}
    (h : .code s ∈ splitFrom body place collected) : s <:+: collected.reverse ++ body := by
  fun_induction splitFrom body place collected with
  | case1 collected => cases code_of_mem_flush h
  | case2 collected depth => simp at h
  | case3 c collected => cases code_of_mem_flush h
  | case5 c collected d rest' _ _ ih =>
    refine (ih (code_of_mem_flush h)).trans (List.IsSuffix.isInfix ?_)
    exact ⟨collected.reverse ++ [c, d], by simp⟩
  | case8 rest collected _ ih =>
    rcases mem_cons.mp h with h | h
    · cases h
      exact (prefix_append _ _).isInfix
    · refine (ih h).trans (List.IsSuffix.isInfix ?_)
      exact ⟨collected.reverse ++ [125], by simp⟩
  | case4 _ _ _ ih | case6 _ _ _ _ _ _ ih | case7 _ _ _ ih | case9 _ _ _ _ ih | case10 _ _ _ _ _ _ ih =>
    simpa using ih h

theorem code_infix_split (h : .code s ∈ split body) : s <:+: body := code_infix_splitFrom h

end TemplatePiece

namespace Token

theorem body_infix (t : Token) : t.body <:+: t.text := ( dropLast_prefix _).isInfix.trans (tail_suffix _).isInfix

theorem length_body_lt (t : Token) (h : t.text ≠ []) : t.body.length < t.text.length := by
  have hpos := length_pos_of_ne_nil h
  rw [body, length_dropLast, length_tail]
  omega

end Token

/-! ### Expressions -/

namespace Expr

open Reader Token

variable {source closer : Text} {a b d n c c' : Nat} {ts rest : List Token}

/-- Sound tokens, with fuel for all their code points and some calls more. -/
structure Affords (source : Text) (ts : List Token) (calls fuel : Nat) : Prop where
  sound : ∀ t ∈ ts, t.Sound source
  enough : 16 * weight ts + calls ≤ fuel

theorem Affords.keep (h : Affords source ts c (n + 1)) (hrest : Left a b ts rest) (hc : c' < c) :
    Affords source rest c' n := by
  have hle := weight_le_of_suffix hrest.suffix
  have henough := h.enough
  exact ⟨hrest.forall_mem h.sound, by omega⟩

/-- A token pays for many calls. -/
theorem Affords.spend (h : Affords source ts c (n + 1)) (hrest : Shorter a b ts rest) (hc : c' < c + 16) :
    Affords source rest c' n := by
  have hlt := hrest.weight_lt h.sound
  have henough := h.enough
  exact ⟨hrest.left.forall_mem h.sound, by omega⟩

theorem arises_of_numeralValue {t : Token} {e : SyntaxError} (ht : t.Sound source) (hkind : t.kind = .number)
    (he : numeralValue t.text = .error e) : e.Arises source := by
  rw [numeralValue] at he
  rcases Num.ofLiteral_of_number (ht.number hkind) with ⟨x, hx⟩ | ⟨hdigits, hmany, hx⟩
  · rw [hx] at he
    cases he
  · rw [hx] at he
    cases he
    exact ⟨t.text, ⟨ht.within, hdigits, hmany⟩, rfl⟩

/-- With this fuel and with more, the readers of expressions settle on the tokens that afford it. The calls of a reader
are those down to the one that consumes a token; a reader that goes on after another one has been paid for. Each closes
what it opens; those of items and entries close the bracket before them. -/
structure Suffices (source : Text) (d n : Nat) : Prop where
  whole (a : Nat) {ts : List Token} : Affords source ts 5 n →
    Settles source (parseWhole n) (parseWhole (d + n)) ts fun _ => Shorter a a ts
  level (a k : Nat) {ts : List Token} : Affords source ts 4 n →
    Settles source (parseLevel n k) (parseLevel (d + n) k) ts fun _ => Shorter a a ts
  connected (a k : Nat) (e : Expr) {ts : List Token} : Affords source ts 1 n →
    Settles source (parseConnected n k e) (parseConnected (d + n) k e) ts fun _ => Left a a ts
  unary (a : Nat) {ts : List Token} : Affords source ts 3 n →
    Settles source (parseUnary n) (parseUnary (d + n)) ts fun _ => Shorter a a ts
  trailed (a : Nat) {ts : List Token} : Affords source ts 2 n →
    Settles source (parsePostfix n) (parsePostfix (d + n)) ts fun _ => Shorter a a ts
  suffixes (a : Nat) (e : Expr) {ts : List Token} : Affords source ts 1 n →
    Settles source (parseSuffixes n e) (parseSuffixes (d + n) e) ts fun _ => Left a a ts
  items (a : Nat) {closer : Text} {ts : List Token} : Shift closer (a + 1) a → Affords source ts 6 n →
    Settles source (parseItems n closer) (parseItems (d + n) closer) ts fun _ => Left (a + 1) a ts
  primary (a : Nat) {ts : List Token} : Affords source ts 1 n →
    Settles source (parsePrimary n) (parsePrimary (d + n)) ts fun _ => Shorter a a ts
  entries (a : Nat) {ts : List Token} : Affords source ts 2 n →
    Settles source (parseEntries n) (parseEntries (d + n)) ts fun _ => Left (a + 1) a ts
  entry (a : Nat) {ts : List Token} : Affords source ts 1 n →
    Settles source (parseEntry n) (parseEntry (d + n)) ts fun _ => Shorter a a ts
  parts {ts : List Token} {pieces : List TemplatePiece} : (∀ s, .code s ∈ pieces → s <:+: source) →
    16 * TemplatePiece.weight pieces + 1 ≤ n →
    Settles source (parseParts n pieces) (parseParts (d + n) pieces) ts fun _ rest => rest = ts
  inner {s : Text} : s <:+: source → 16 * s.length + 6 ≤ n → parseSource n s = parseSource (d + n) s ∧
    ∀ e, parseSource n s = .error e → e.Arises source

namespace Suffices

theorem zero : Suffices source d 0 := by
  constructor <;> intros
  case parts => omega
  case inner => omega
  all_goals
    rename_i h
    have henough := h.enough
    omega

variable (ih : Suffices source d n)

include ih

theorem whole_succ (a : Nat) (h : Affords source ts 5 (n + 1)) :
    Settles source (parseWhole (n + 1)) (parseWhole (d + (n + 1))) ts fun _ => Shorter a a ts := by
  refine (ih.level a 1 (h.keep (a := a) .refl (by decide))).bind fun test rest hrest => ?_
  refine .acceptIf (shift_other (by decide) a) (fun left hleft => ?_) (.done hrest)
  have hleft := hrest.trans hleft.left
  refine (ih.whole a (h.spend hleft (by decide))).bind fun yes rest hrest => ?_
  refine (Settles.expectShift (shift_other (by decide) a)).bind fun _ left' hleft' => ?_
  have hleft' := hleft.trans (hrest.trans hleft'.left).left
  exact (ih.whole a (h.spend hleft' (by decide))).bind fun no rest hrest => .done (hleft'.trans hrest.left)

theorem level_succ (a k : Nat) (h : Affords source ts 4 (n + 1)) :
    Settles source (parseLevel (n + 1) k) (parseLevel (d + (n + 1)) k) ts fun _ => Shorter a a ts := by
  refine (ih.unary a (h.keep (a := a) .refl (by decide))).bind fun left rest hrest => ?_
  exact (ih.connected a k left (h.spend hrest (by decide))).imp fun _ _ => hrest.trans

theorem connected_succ (a k : Nat) (e : Expr) (h : Affords source ts 1 (n + 1)) :
    Settles source (parseConnected (n + 1) k e) (parseConnected (d + (n + 1)) k e) ts fun _ => Left a a ts := by
  refine .peek ?_
  cases ts with
  | nil => exact .done .refl
  | cons t after =>
    split
    case h_1 => exact .done .refl
    case h_2 op hop =>
      have hkind : t.kind ≠ .punctuation := by
        replace hop : connectiveOf? t = some op := hop
        unfold connectiveOf? at hop
        split at hop <;> simp_all
      have hafter : Shorter a a (t :: after) after := .cons (shifts_of_kind hkind)
      refine .ite (fun _ => .done .refl) fun _ => .advance ?_
      refine (ih.level a _ (h.spend hafter (by decide))).bind fun right rest hrest => ?_
      have hrest := hafter.trans hrest.left
      exact (ih.connected a k _ (h.spend hrest (by decide))).imp fun _ _ hleft => hrest.left.trans hleft

theorem unary_succ (a : Nat) (h : Affords source ts 3 (n + 1)) :
    Settles source (parseUnary (n + 1)) (parseUnary (d + (n + 1))) ts fun _ => Shorter a a ts := by
  refine .peek ?_
  split
  case h_1 op hop =>
    cases ts with
    | nil => cases hop
    | cons t after =>
      have hkind : t.kind ≠ .punctuation := by
        replace hop : unaryOf? t = some op := hop
        unfold unaryOf? at hop
        split at hop <;> simp_all
      have hafter : Shorter a a (t :: after) after := .cons (shifts_of_kind hkind)
      exact .advance ((ih.unary a (h.spend hafter (by decide))).bind fun e rest hrest => .done (hafter.trans hrest.left))
  case h_2 => exact ih.trailed a (h.keep (a := a) .refl (by decide))

theorem trailed_succ (a : Nat) (h : Affords source ts 2 (n + 1)) :
    Settles source (parsePostfix (n + 1)) (parsePostfix (d + (n + 1))) ts fun _ => Shorter a a ts := by
  refine (ih.primary a (h.keep (a := a) .refl (by decide))).bind fun e rest hrest => ?_
  exact (ih.suffixes a e (h.spend hrest (by decide))).imp fun _ _ => hrest.trans

theorem suffixes_succ (a : Nat) (e : Expr) (h : Affords source ts 1 (n + 1)) :
    Settles source (parseSuffixes (n + 1) e) (parseSuffixes (d + (n + 1)) e) ts fun _ => Left a a ts := by
  have hmore (e : Expr) {rest : List Token} (hrest : Shorter a a ts rest) :
      Settles source (parseSuffixes n e) (parseSuffixes (d + n) e) rest fun _ => Left a a ts :=
    (ih.suffixes a e (h.spend hrest (by decide))).imp fun _ _ hleft => hrest.left.trans hleft
  refine .acceptIf (shift_other (by decide) a) (fun rest hrest => ?_) (.acceptIf (shift_open (by decide) a) (fun rest hrest => ?_)
    (.acceptIf (shift_open (by decide) a) (fun rest hrest => ?_) (.done .refl)))
  · cases rest with
    | nil => exact .advance .fail
    | cons t after =>
      refine .advance (.ite (fun hname => hmore _ (hrest.trans ?_)) fun _ => .fail)
      exact (Shorter.cons (shifts_of_kind (by simp [hname]))).left
  · refine (ih.whole (a + 1) (h.spend hrest (by decide))).bind fun key left hleft => ?_
    refine (Settles.expectShift (shift_close (by decide) a)).bind fun _ left' hleft' => ?_
    exact hmore _ (hrest.trans (hleft.trans hleft'.left).left)
  · refine (ih.items a (shift_close (by decide) a) (h.spend hrest (by decide))).bind fun args left hleft => ?_
    exact hmore _ (hrest.trans hleft)

theorem items_succ (a : Nat) (hcloser : Shift closer (a + 1) a) (h : Affords source ts 6 (n + 1)) :
    Settles source (parseItems (n + 1) closer) (parseItems (d + (n + 1)) closer) ts fun _ => Left (a + 1) a ts := by
  have hitem (item : Expr → Item) {rest : List Token} (hrest : Left (a + 1) (a + 1) ts rest) :
      Settles source (do
        let value ← parseWhole n
        if !(← nextIs closer) then expect ",".codes
        let rest ← parseItems n closer
        return item value :: rest) (do
        let value ← parseWhole (d + n)
        if !(← nextIs closer) then expect ",".codes
        let rest ← parseItems (d + n) closer
        return item value :: rest) rest fun _ => Left (a + 1) a ts := by
    refine (ih.whole (a + 1) (h.keep hrest (by decide))).bind fun value left hleft => .nextIs ?_
    refine .expectIf (shift_other (by decide) (a + 1)) fun left' hleft' => ?_
    have hleft' := Shorter.of_left hrest (hleft.trans hleft')
    refine (ih.items a hcloser (h.spend hleft' (by decide))).bind fun items _ hitems => ?_
    exact .done (hleft'.left.trans hitems)
  refine .acceptIf hcloser (fun rest hrest => .done hrest.left) (.accept (fun rest hrest => ?_) fun _ => ?_)
  · exact hitem .spread (hrest.shorter (shift_other (by decide) (a + 1))).left
  · exact hitem .single .refl

theorem primary_succ (a : Nat) (h : Affords source ts 1 (n + 1)) :
    Settles source (parsePrimary (n + 1)) (parsePrimary (d + (n + 1))) ts fun _ => Shorter a a ts := by
  refine .peek ?_
  cases ts with
  | nil => exact .fail
  | cons t after =>
    have hafter (hkind : t.kind ≠ .punctuation) : Shorter a a (t :: after) after := .cons (shifts_of_kind hkind)
    have ht := h.sound t mem_cons_self
    dsimp only [head?_cons]
    split
    case h_1 hkind =>
      refine .advance (.bind (.lift rfl fun e he => ?_) ?_)
      · exact arises_of_numeralValue ht hkind he
      · rintro _ _ rfl
        exact .done (hafter (by simp [hkind]))
    case h_2 hkind => exact .advance (.done (hafter (by simp [hkind])))
    case h_3 hkind =>
      refine .advance (.bind (ih.parts (fun s hs => ?_) ?_) ?_)
      · exact ((TemplatePiece.code_infix_split hs).trans t.body_infix).trans ht.within
      · -- the template has its quotes besides the pieces
        have hbody : t.body.length < t.text.length := t.length_body_lt ht.nonempty
        have hpieces := TemplatePiece.weight_split_le t.body
        have henough := h.enough
        rw [weight] at henough
        omega
      · rintro _ _ rfl
        exact .done (hafter (by simp [hkind]))
    case h_4 hkind =>
      have hafter := hafter (by simp [hkind])
      split
      · exact .advance (.done hafter)
      · exact .ite (fun _ => .fail_bind) fun _ => .advance (.nextIs (.ite (fun _ => .fail_bind) fun _ => .done hafter))
    case h_5 => exact .fault trivial
    case h_6 =>
      refine .acceptIf (shift_open (by decide) a) (fun rest hrest => ?_) (.acceptIf (shift_open (by decide) a) (fun rest hrest => ?_)
        (.acceptIf (shift_open (by decide) a) (fun rest hrest => ?_) .fail))
      · refine (ih.whole (a + 1) (h.spend hrest (by decide))).bind fun e left hleft => ?_
        refine (Settles.expectShift (shift_close (by decide) a)).bind fun _ left' hleft' => ?_
        exact .nextIs (.ite (fun _ => .fail_bind) fun _ => .done (hrest.trans (hleft.trans hleft'.left).left))
      · exact (ih.items a (shift_close (by decide) a) (h.spend hrest (by decide))).bind fun _ _ hleft =>
          .done (hrest.trans hleft)
      · exact (ih.entries a (h.spend hrest (by decide))).bind fun _ _ hleft => .done (hrest.trans hleft)

theorem entries_succ (a : Nat) (h : Affords source ts 2 (n + 1)) :
    Settles source (parseEntries (n + 1)) (parseEntries (d + (n + 1))) ts fun _ => Left (a + 1) a ts := by
  refine .acceptIf (shift_close (by decide) a) (fun rest hrest => .done hrest.left) ?_
  refine (ih.entry (a + 1) (h.keep (a := a) .refl (by decide))).bind fun entry rest hrest => .nextIs ?_
  refine .expectIf (shift_other (by decide) (a + 1)) fun left hleft => ?_
  have hleft := hrest.trans hleft
  exact (ih.entries a (h.spend hleft (by decide))).bind fun _ _ hmore => .done (hleft.left.trans hmore)

theorem entry_succ (a : Nat) (h : Affords source ts 1 (n + 1)) :
    Settles source (parseEntry (n + 1)) (parseEntry (d + (n + 1))) ts fun _ => Shorter a a ts := by
  have hvalue {b : Nat} {rest : List Token} (hrest : Shorter a b ts rest) :
      Settles source (parseWhole n) (parseWhole (d + n)) rest fun _ => Shorter a b ts :=
    (ih.whole b (h.spend hrest (by decide))).imp fun _ _ hleft => hrest.trans hleft.left
  refine .acceptIf (shift_other (by decide) a) (fun rest hrest => (hvalue hrest).bind fun _ _ hleft => .done hleft) ?_
  cases ts with
  | nil => exact .advance .fail
  | cons t after =>
    refine .advance (.ite (fun hmark => ?_) fun _ => ?_)
    · have hopen : t.isWord "[".codes := by
        simp only [isMark, Bool.and_eq_true, beq_iff_eq] at hmark
        simp only [isWord, hmark]
        rfl
      refine (hvalue (.cons (shift_open (by decide) a t hopen))).bind fun key left hleft => ?_
      refine (Settles.expectShift (shift_close (by decide) a)).bind fun _ left' hleft' => ?_
      refine (Settles.expectShift (shift_other (by decide) a)).bind fun _ left'' hleft'' => ?_
      exact (hvalue (hleft.trans (hleft'.trans hleft''.left).left)).bind fun _ _ hrest => .done hrest
    · have hproperty (key : Text) (hkind : t.kind ≠ .punctuation) : Settles source (do
          if ← accept ":".codes then return .property key (← parseWhole n)
          if t.kind = .name ∧ !isReserved t.text then return .property key (.name key)
          fail (.expected ":".codes) : Reader Entry) (do
          if ← accept ":".codes then return .property key (← parseWhole (d + n))
          if t.kind = .name ∧ !isReserved t.text then return .property key (.name key)
          fail (.expected ":".codes)) after fun _ => Shorter a a (t :: after) := by
        have hafter : Shorter a a (t :: after) after := .cons (shifts_of_kind hkind)
        refine .acceptIf (shift_other (by decide) a) (fun rest hrest => ?_) (.ite (fun _ => .done hafter) fun _ => .fail)
        exact (hvalue (hafter.trans hrest.left)).bind fun _ _ hleft => .done hleft
      dsimp only
      split
      case h_4 => exact .fail_bind
      all_goals
        rename_i hkind
        exact .pass rfl rfl (hproperty _ (by simp [hkind]))

theorem parts_succ {pieces : List TemplatePiece} (hcode : ∀ s, .code s ∈ pieces → s <:+: source)
    (h : 16 * TemplatePiece.weight pieces + 1 ≤ n + 1) :
    Settles source (parseParts (n + 1) pieces) (parseParts (d + (n + 1)) pieces) ts fun _ rest => rest = ts := by
  cases pieces with
  | nil => exact .done rfl
  | cons piece pieces =>
    have hcodes : ∀ s, .code s ∈ pieces → s <:+: source := fun s hs => hcode s (mem_cons_of_mem _ hs)
    have hmore (hle : 16 * TemplatePiece.weight pieces + 1 ≤ n) (part : Part) : Settles source (do
        let rest ← parseParts n pieces
        return part :: rest) (do
        let rest ← parseParts (d + n) pieces
        return part :: rest) ts fun _ rest => rest = ts :=
      (ih.parts hcodes hle).bind fun _ _ hrest => .done hrest
    cases piece with
    | text raw => exact .pass rfl rfl (hmore (by simp only [TemplatePiece.weight] at h; omega) _)
    | code s =>
      simp only [TemplatePiece.weight] at h
      obtain ⟨hsame, herror⟩ := ih.inner (hcode s mem_cons_self) (by omega)
      refine .bind (.lift hsame herror) ?_
      rintro e _ rfl
      exact hmore (by omega) _
    | unclosed => exact .stop trivial

theorem inner_succ {s : Text} (hs : s <:+: source) (h : 16 * s.length + 6 ≤ n + 1) :
    parseSource (n + 1) s = parseSource (d + (n + 1)) s ∧ ∀ e, parseSource (n + 1) s = .error e → e.Arises source := by
  have hafford : Affords source (significant (scan s)) 5 n :=
    ⟨fun t ht => (sound_of_mem_significant ht).mono hs, by have := weight_significant_le s; omega⟩
  have hsucc (m : Nat) : parseSource (m + 1) s = if (significant (scan s)).isEmpty then .error .emptyExpression else
      (parseWhole m).run (significant (scan s)) >>= fun r => expectEnd.run r.2 >>= fun _ => pure r.1 := by
    rw [parseSource]
    split <;> rfl
  rw [← Nat.add_assoc, hsucc, hsucc]
  split
  · exact ⟨rfl, fun e he => by cases he; trivial⟩
  · have hwhole := ih.whole 0 hafford
    refine ⟨by rw [hwhole.same], fun e he => ?_⟩
    cases hwhole with
    | fails hx hy harises =>
      rw [hx] at he
      cases he
      exact harises
    | @returns r rest hx hy =>
      rw [hx] at he
      change (expectEnd.run rest >>= fun _ => pure r) = .error e at he
      cases @Settles.expectEnd source rest with
      | returns hend _ =>
        rw [hend] at he
        cases he
      | fails hend _ harises =>
        rw [hend] at he
        cases he
        exact harises

theorem succ : Suffices source d (n + 1) where
  whole a _ := ih.whole_succ a
  level a k _ := ih.level_succ a k
  connected a k e _ := ih.connected_succ a k e
  unary a _ := ih.unary_succ a
  trailed a _ := ih.trailed_succ a
  suffixes a e _ := ih.suffixes_succ a e
  items a _ _ := ih.items_succ a
  primary a _ := ih.primary_succ a
  entries a _ := ih.entries_succ a
  entry a _ := ih.entry_succ a
  parts := ih.parts_succ
  inner := ih.inner_succ

end Suffices

theorem suffices_fuel (source : Text) (d n : Nat) : Suffices source d n := by
  induction n with
  | zero => exact .zero
  | succ n ih => exact ih.succ

theorem affords_fuelFor (h : ∀ t ∈ ts, t.Sound source) : Affords source ts 16 (fuelFor ts) := by
  have hfold : ∀ (ts : List Token) (start : Nat),
      start + weight ts ≤ ts.foldl (fun n t => n + t.text.length + 1) start := by
    intro ts
    induction ts with
    | nil => exact fun start => Nat.le_refl _
    | cons t ts ih =>
      intro start
      have htail := ih (start + t.text.length + 1)
      rw [weight, foldl_cons]
      omega
  have htotal := hfold ts 0
  exact ⟨h, by rw [fuelFor]; omega⟩

theorem Affords.of_le (h : Affords source ts c n) (hc : c' ≤ c) : Affords source ts c' n :=
  ⟨h.sound, Nat.le_trans (Nat.add_le_add_left hc _) h.enough⟩

theorem takes_read : Takes source a a read := fun _ hts =>
  .state (((suffices_fuel source 0 _).whole a ((affords_fuelFor hts).of_le (by decide))).self.imp fun _ _ => Shorter.left)

theorem takes_readPostfix : Takes source a a readPostfix := fun _ hts =>
  .state (((suffices_fuel source 0 _).trailed a ((affords_fuelFor hts).of_le (by decide))).self.imp fun _ _ => Shorter.left)

theorem parse_settles {code : Text} (h : code <:+: source) :
    (∃ e, parse code = .ok e) ∨ ∃ e, parse code = .error e ∧ e.Arises source := by
  have hinner := (suffices_fuel source 0 (16 * code.length + 32)).inner h (by omega)
  cases hparse : parse code with
  | ok e => exact .inl ⟨e, rfl⟩
  | error e => exact .inr ⟨e, rfl, hinner.2 e hparse⟩

end Expr

/-! ### Parts of statements -/

namespace Stmt

open Reader Token Stepwise.Expr

variable {source : Text} {a fuel : Nat} {ts rest : List Token}

theorem takes_toTarget (e : Expr) : Takes source a a (toTarget e) := by
  unfold toTarget
  split
  · exact .done _
  · exact .fault trivial

theorem takes_toTargets (items : List Item) : Takes source a a (toTargets items) := by
  induction items with
  | nil => exact .done _
  | cons item items ih =>
    cases item with
    | single e => exact (takes_toTarget e).bind fun _ => ih.bind fun _ => .done _
    | spread e => exact .fault trivial

theorem takes_acceptUpdate : Takes source a a acceptUpdate := by
  intro ts hts
  refine .peek ?_
  split
  case h_1 increment hupdate =>
    exact Takes.sorted (fun t ht => shifts_of_kind (by split at ht <;> simp_all)) (fun _ => .done _) hts hupdate
  case h_2 => exact .done .refl

theorem takes_readAction : Takes source a a readAction := by
  refine takes_acceptUpdate.bind fun update => ?_
  split
  case h_1 => exact takes_readPostfix.bind fun e => (takes_toTarget e).bind fun _ => .done _
  refine takes_read.bind fun e => .acceptIf (shift_other (by decide) a) (takes_read.bind fun value => ?_) fun ts hts => ?_
  · split
    · exact (takes_toTargets _).bind fun _ => .done _
    · exact (takes_toTarget _).bind fun _ => .done _
  · refine .peek ?_
    split
    case h_1 op hop =>
      refine Takes.sorted (b := a) (fun t ht => shifts_of_kind (by split at ht <;> simp_all)) (fun _ => ?_) hts hop
      exact (takes_toTarget e).bind fun _ => takes_read.bind fun _ => .done _
    case h_2 =>
      refine Takes.bind takes_acceptUpdate (fun update => ?_) ts hts
      split
      · exact (takes_toTarget e).bind fun _ => .done _
      · exact .done _

theorem settles_readPatternNames (h : ts.length < fuel) :
    Settles source (readPatternNames fuel) (readPatternNames fuel) ts fun _ => Left (a + 1) a ts := by
  induction fuel generalizing ts with
  | zero => exact absurd h (Nat.not_lt_zero _)
  | succ fuel ih =>
    have hmore {rest : List Token} (hrest : Shorter (a + 1) (a + 1) ts rest) :
        Settles source (readPatternNames fuel) (readPatternNames fuel) rest fun _ => Left (a + 1) a ts :=
      (ih (Nat.lt_of_lt_of_le hrest.length_lt (Nat.le_of_lt_succ h))).imp fun _ _ hleft => hrest.left.trans hleft
    refine .acceptIf (shift_close (by decide) a) (fun rest hrest => .done hrest.left)
      (.acceptIf (shift_other (by decide) (a + 1)) (fun rest hrest => ?_) ?_)
    · exact (hmore hrest).bind fun _ _ hleft => .done hleft
    · refine Settles.bindingName.bind fun name rest hrest => .nextIs ?_
      refine .expectIf (shift_other (by decide) (a + 1)) fun left hleft => ?_
      exact (hmore (hrest.shorter.trans hleft)).bind fun _ _ hleft => .done hleft

theorem settles_readBinder (a : Nat) : Settles source readBinder readBinder ts fun _ => Shorter a a ts := by
  refine .acceptIf (shift_open (by decide) a) (fun rest hrest => .state ?_)
    (Settles.bindingName.bind fun _ _ hrest => .done hrest.shorter)
  exact (settles_readPatternNames (Nat.lt_succ_self _)).bind fun _ _ hleft => .done (hrest.trans hleft)

theorem settles_readDeclarators (kind : DeclKind) (hts : ∀ t ∈ ts, t.Sound source) (h : ts.length < fuel) :
    Settles source (readDeclarators kind fuel) (readDeclarators kind fuel) ts fun _ => Left a a ts := by
  induction fuel generalizing ts with
  | zero => exact absurd h (Nat.not_lt_zero _)
  | succ fuel ih =>
    refine (settles_readBinder a).bind fun binder rest hrest => ?_
    have hmore {left : List Token} (hleft : Left a a rest left) (init : Option Expr) : Settles source (do
        let rest ← if ← accept ",".codes then readDeclarators kind fuel else pure []
        return ⟨binder, init⟩ :: rest) (do
        let rest ← if ← accept ",".codes then readDeclarators kind fuel else pure []
        return ⟨binder, init⟩ :: rest) left fun _ => Left a a ts := by
      have hleft := hrest.trans hleft
      refine .acceptIf (shift_other (by decide) a) (fun after hafter => ?_) (.done hleft.left)
      have hafter := hleft.trans hafter.left
      refine (ih (hafter.left.forall_mem hts) (Nat.lt_of_lt_of_le hafter.length_lt (Nat.le_of_lt_succ h))).bind
        fun _ _ hlast => ?_
      exact .done (hafter.left.trans hlast)
    refine .acceptIf (shift_other (by decide) a) (fun left hleft => ?_) ?_
    · refine (takes_read (a := a) left ((hrest.trans hleft.left).left.forall_mem hts)).bind fun e _ hlast => ?_
      exact hmore (hleft.left.trans hlast) _
    · cases binder with
      | pattern names => exact .fail_bind
      | name x => exact .ite (fun _ => .fail_bind) fun _ => hmore .refl _

theorem takes_readDeclaration (kind : DeclKind) : Takes source a a (readDeclaration kind) := fun _ hts =>
  .state (settles_readDeclarators kind hts (Nat.lt_succ_self _))

theorem shifts_declaration {t : Token} {kind : DeclKind} (h : declarationOf? t = some kind) : Shifts a a [t] := by
  have htext : t.text = "let".codes ∨ t.text = "const".codes ∨ t.text = "var".codes := by
    unfold declarationOf? declKind? at h
    split at h
    · exact .inl ‹_›
    split at h
    · exact .inr (.inl ‹_›)
    split at h
    · exact .inr (.inr ‹_›)
    · cases h
  refine shifts_text ?_
  rcases htext with htext | htext | htext <;> rw [htext] <;> decide

theorem takes_readForInit : Takes source a a readForInit := by
  refine .nextIs fun ended => .ite (.done _) fun ts hts => .peek ?_
  split
  case h_1 kind hkind =>
    refine Takes.sorted (fun t ht => shifts_declaration ht) (fun _ => ?_) hts hkind
    exact (takes_readDeclaration kind).bind fun _ => .done _
  case h_2 => exact (takes_readAction.bind fun _ => .done _) ts hts

theorem takes_readReturned : Takes source a a readReturned :=
  .atEnd fun _ => .ite (.done _) (takes_read.bind fun _ => .done _)

end Stmt

end Stepwise
