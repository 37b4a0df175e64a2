import Stepwise.Proofs.Sufficiency

/-!
# What statements are read from

A statement is read from the tokens of a segment, or there is something wrong with them (`Stmt.settles_readWhole`). One
that begins with a closing brace is that brace alone or an `else` clause. What an expression is read from closes as many
brackets as it opens. So the brace at the end of a header stands outside of all brackets, and the segment that it ends
opens a block.
-/

namespace Stepwise

namespace Stmt

open Reader Token List

variable {source : Text} {a b fuel : Nat} {ts rest last : List Token} {P : Stmt → Prop} {α : Type} {x : Reader α}
  {f : α → Stmt}

/-! ### Headers -/

/-- What is read is the rest of a header, inside of `a` brackets, and the brace after it. -/
def Completes (a : Nat) (ts rest : List Token) : Prop :=
  ∃ used last brace, ts = used ++ last :: brace :: rest ∧ Shifts a 0 (used ++ [last]) ∧
    (last.text = ")".codes ∨ last.text = "else".codes) ∧ brace.isWord "\x7b".codes

/-- What is read ends with the parenthesis that closes a header, inside of `a` brackets. -/
def Closes (a : Nat) (ts rest : List Token) : Prop :=
  ∃ used last, ts = used ++ last :: rest ∧ Shifts a 0 (used ++ [last]) ∧ last.text = ")".codes

theorem Closes.of_left (h : Closes b rest last) (hrest : Left a b ts rest) : Closes a ts last := by
  obtain ⟨used, rfl, hused⟩ := hrest
  obtain ⟨mid, t, rfl, hmid, ht⟩ := h
  refine ⟨used ++ mid, t, (append_assoc ..).symm, ?_, ht⟩
  rw [append_assoc]
  exact hused.append hmid

theorem Closes.left (h : Closes a ts rest) : Left a 0 ts rest := by
  obtain ⟨used, t, rfl, hused, -⟩ := h
  exact ⟨used ++ [t], by simp, hused⟩

theorem Closes.completes (h : Closes a ts rest) (hbrace : Next "\x7b".codes rest last) : Completes a ts last := by
  obtain ⟨used, t, rfl, hused, ht⟩ := h
  obtain ⟨brace, rfl, hbrace⟩ := hbrace
  exact ⟨used, t, brace, rfl, hused, .inl ht, hbrace⟩

theorem Completes.of_left (h : Completes b rest last) (hrest : Left a b ts rest) : Completes a ts last := by
  obtain ⟨used, rfl, hused⟩ := hrest
  obtain ⟨mid, t, brace, rfl, hmid, ht, hbrace⟩ := h
  refine ⟨used ++ mid, t, brace, (append_assoc ..).symm, ?_, ht, hbrace⟩
  rw [append_assoc]
  exact hused.append hmid

theorem closes_of_next (h : Next ")".codes ts rest) : Closes 1 ts rest := by
  obtain ⟨t, rfl, ht⟩ := h
  exact ⟨[], t, rfl, shift_close (by decide) 0 t ht, text_of_isWord ht⟩

theorem settles_readTest (hts : ∀ t ∈ ts, t.Sound source) : Settles source readTest readTest ts fun _ => Closes 0 ts := by
  refine (Settles.expectShift (shift_open (by decide) 0)).bind fun _ rest hrest => ?_
  refine (Expr.takes_read (a := 1) rest (hrest.left.forall_mem hts)).bind fun test left hleft => ?_
  exact Settles.expect.bind fun _ _ h => .done ((closes_of_next h).of_left (hrest.left.trans hleft))

/-- The reader reads the rest of a header, inside of `a` brackets, and the brace after it, and returns a statement as
described. -/
def Heads (source : Text) (P : Stmt → Prop) (a : Nat) (x : Reader Stmt) : Prop :=
  ∀ ts, (∀ t ∈ ts, t.Sound source) → Settles source x x ts fun s rest => P s ∧ Completes a ts rest

theorem Heads.bind {f : α → Reader Stmt} (hx : Takes source a b x)
    (hf : ∀ r, Heads source P b (f r)) : Heads source P a (x >>= f) := by
  intro ts hts
  refine (hx ts hts).bind fun r rest hrest => ?_
  exact (hf r rest (hrest.forall_mem hts)).imp fun _ _ h => ⟨h.1, h.2.of_left hrest⟩

theorem heads_brace (hf : ∀ r, P (f r))
    (hx : ∀ ts, (∀ t ∈ ts, t.Sound source) → Settles source x x ts fun _ => Closes a ts) :
    Heads source P a (do let r ← x; expect "\x7b".codes; return f r) := fun ts hts =>
  (hx ts hts).bind fun r _ h => Settles.expect.bind fun _ _ hbrace => .done ⟨hf r, h.completes hbrace⟩

theorem heads_close {s : Stmt} (hs : P s) : Heads source P 1 (do expect ")".codes; expect "\x7b".codes; return s) :=
  heads_brace (fun _ => hs) fun _ _ => Settles.expect.imp fun _ _ => closes_of_next

theorem Heads.ite {p : Prop} [Decidable p] {x y : Reader Stmt} (yes : Heads source P a x) (no : Heads source P a y) :
    Heads source P a (if p then x else y) := fun ts hts => .ite (fun _ => yes ts hts) fun _ => no ts hts

theorem Heads.nextIs {word : Text} {f : Bool → Reader Stmt} (h : ∀ r, Heads source P a (f r)) :
    Heads source P a (Reader.nextIs word >>= f) := fun ts hts => .nextIs (h _ ts hts)

/-- A statement that does something, neither closes a block nor is an `else` clause. -/
def IsFresh (s : Stmt) : Prop := s ≠ .noop ∧ s ≠ .close ∧ ∀ test closes, s ≠ .otherwise test closes

theorem settles_readEach (heach : looksLikeEach ts) (hts : ∀ t ∈ ts, t.Sound source) :
    Settles source readEach readEach ts fun s rest => s.IsFresh ∧ Completes 1 ts rest := by
  -- from the name on
  have hnamed {t u : Token} {rest : List Token} (decl : Option DeclKind) {mode : Option Token → EachMode}
      (hnamed : Left 1 1 ts (t :: u :: rest)) (hu : u.text = "of".codes ∨ u.text = "in".codes) {x : Reader Stmt}
      (hx : x = do
        let name ← bindingName
        let word ← advance
        let collection ← Expr.read
        expect ")".codes
        expect "\x7b".codes
        return .loopEach decl name (mode word) collection) :
      Settles source x x (t :: u :: rest) fun s rest => s.IsFresh ∧ Completes 1 ts rest := by
    subst hx
    refine Settles.bindingName.bind fun name left hname => ?_
    have hfirst : Left 1 1 ts left := hnamed.trans hname.shorter.left
    obtain ⟨t', heq, -⟩ := hname
    obtain ⟨rfl, rfl⟩ := cons.inj heq
    have hword : Shifts 1 1 [u] := shifts_text (by rcases hu with hu | hu <;> rw [hu] <;> decide)
    have hrest : Left 1 1 ts rest := hfirst.trans (Shorter.cons hword).left
    refine .advance ((Heads.bind Expr.takes_read (fun collection => heads_close ?_) rest (hrest.forall_mem hts)).imp
      fun _ _ h => ⟨h.1, h.2.of_left hrest⟩)
    exact ⟨nofun, nofun, nofun⟩
  unfold looksLikeEach at heach
  refine .peek ?_
  cases hdecl : ts.head?.bind declarationOf? with
  | none =>
    simp only [hdecl, Option.isSome_none, Bool.false_eq_true, if_false] at heach ⊢
    split at heach
    case h_1 t u rest =>
      simp only [Bool.and_eq_true, Bool.or_eq_true, decide_eq_true_eq, beq_iff_eq] at heach
      exact hnamed none .refl heach.2 rfl
    case h_2 => cases heach
  | some kind =>
    simp only [hdecl, Option.isSome_some, if_true] at heach ⊢
    split at heach
    case h_1 t u rest htail =>
      simp only [Bool.and_eq_true, Bool.or_eq_true, decide_eq_true_eq, beq_iff_eq] at heach
      cases ts with
      | nil => cases htail
      | cons first named =>
        obtain rfl : named = t :: u :: rest := htail
        exact .advance (hnamed (some kind) (Shorter.cons (shifts_declaration hdecl)).left heach.2 rfl)
    case h_2 => cases heach

theorem heads_readFor : Heads source IsFresh 0 readFor := by
  refine .bind (.expect (shift_open (by decide) 0)) fun _ ts hts => .state (.ite (fun heach => ?_) fun _ => ?_)
  · exact settles_readEach heach hts
  · have hsemicolon : Takes source 1 1 (expect ";".codes) := .expect (shift_other (by decide) 1)
    have hupdate (init : Option ForInit) (test : Option Expr) : Heads source IsFresh 1 (do
        expect ";".codes
        let update ← if ← nextIs ")".codes then pure none else pure (some (← readAction))
        expect ")".codes
        expect "\x7b".codes
        return .loopFor init test update) := by
      refine .bind hsemicolon fun _ => .nextIs fun r => .ite (heads_close ⟨nofun, nofun, nofun⟩) ?_
      exact .bind takes_readAction fun update => heads_close ⟨nofun, nofun, nofun⟩
    refine Heads.bind takes_readForInit (fun init => .bind hsemicolon fun _ => .nextIs fun r => ?_) ts hts
    exact .ite (hupdate init none) (.bind Expr.takes_read fun test => hupdate init (some test))

theorem settles_readParams (h : ts.length < fuel) :
    Settles source (readParams fuel) (readParams fuel) ts fun _ => Closes 1 ts := by
  induction fuel generalizing ts with
  | zero => exact absurd h (Nat.not_lt_zero _)
  | succ fuel ih =>
    refine .accept (fun rest hrest => .done (closes_of_next hrest)) fun _ => ?_
    refine Settles.bindingName.bind fun name rest hrest => .nextIs ?_
    refine .expectIf (shift_other (by decide) 1) fun left hleft => ?_
    have hleft := hrest.shorter.trans hleft
    refine (ih (Nat.lt_of_lt_of_le hleft.length_lt (Nat.le_of_lt_succ h))).bind fun _ _ hlast => ?_
    exact .done (hlast.of_left hleft.left)

theorem heads_readFunction : Heads source IsFresh 0 readFunction := by
  refine .bind .bindingName fun name => .bind (.expect (shift_open (by decide) 0)) fun _ ts hts => .state ?_
  refine (settles_readParams (Nat.lt_succ_self _)).bind fun params rest hrest => ?_
  exact Settles.expect.bind fun _ _ hbrace => .done ⟨⟨nofun, nofun, nofun⟩, hrest.completes hbrace⟩

theorem heads_test {f : Expr → Stmt} (hf : ∀ test, P (f test)) :
    Heads source P 0 (do let test ← readTest; expect "\x7b".codes; return f test) :=
  heads_brace hf fun _ => settles_readTest

theorem settles_return {Q : Stmt → List Token → Prop} (hx : Takes source 0 0 x)
    (hts : ∀ t ∈ ts, t.Sound source) (hf : ∀ r rest, Q (f r) rest) :
    Settles source (do return f (← x)) (do return f (← x)) ts Q :=
  (hx ts hts).bind fun r rest _ => .done (hf r rest)

/-- Only the form with a brace is a header. -/
theorem settles_readBranch (hts : ∀ t ∈ ts, t.Sound source) :
    Settles source readBranch readBranch ts fun s rest => s.IsFresh ∧ (s.isHeader → Completes 0 ts rest) := by
  refine (settles_readTest hts).bind fun test rest hrest => .accept (fun left hleft => ?_) fun _ => .peek ?_
  · exact .done ⟨⟨nofun, nofun, nofun⟩, fun _ => hrest.completes hleft⟩
  have hts : ∀ t ∈ rest, t.Sound source := hrest.left.forall_mem hts
  refine .ite (fun _ => .advance (settles_return takes_readReturned (fun t ht => hts t (mem_of_mem_tail ht)) ?_))
    fun _ => ?_
  · exact fun _ _ => ⟨⟨nofun, nofun, nofun⟩, nofun⟩
  split
  · exact .advance (.done ⟨⟨nofun, nofun, nofun⟩, nofun⟩)
  · exact settles_return takes_readAction hts fun _ _ => ⟨⟨nofun, nofun, nofun⟩, nofun⟩

theorem heads_readOtherwise (closes : Bool) :
    Heads source (fun s => ∃ test, s = .otherwise test closes) 0 (readOtherwise closes) := by
  intro ts hts
  refine Settles.expect.bind fun _ rest hrest => ?_
  have helse : Left 0 0 ts rest := (hrest.shorter (shift_other (by decide) 0)).left
  refine .acceptIf (shift_other (by decide) 0) (fun left hleft => ?_) ?_
  · have hleft := helse.trans hleft.left
    refine (heads_test (f := fun test => .otherwise (some test) closes) (fun test => ⟨_, rfl⟩) left
      (hleft.forall_mem hts)).imp fun _ _ h => ⟨h.1, h.2.of_left hleft⟩
  · refine .pass rfl rfl (Settles.expect.bind fun _ _ hbrace => .done ⟨⟨_, rfl⟩, ?_⟩)
    obtain ⟨first, rfl, hfirst⟩ := hrest
    obtain ⟨brace, rfl, hbrace⟩ := hbrace
    exact ⟨[], first, brace, rfl, shift_other (by decide) 0 first hfirst, .inr (text_of_isWord hfirst), hbrace⟩

/-! ### Statements -/

/-- What is read opens a block. -/
def Opens (ts rest : List Token) : Prop :=
  ∃ used brace, ts = used ++ brace :: rest ∧ ((∀ t ∈ used, t.Plain) → Segment.Opening used) ∧ brace.isWord "\x7b".codes

theorem Completes.opens {first : Token} (h : Completes 0 ts rest) (front : List Token)
    (hhead : (front ++ ts).head? = some first) (hfirst : Segment.headerWords.contains first.text)
    (hdepth : (∀ t ∈ front, t.Plain) → depth front = 0) : Opens (front ++ ts) rest := by
  obtain ⟨used, last, brace, rfl, hused, hlast, hbrace⟩ := h
  refine ⟨front ++ (used ++ [last]), brace, by simp, fun hplain => ⟨?_, ?_⟩, hbrace⟩
  · obtain ⟨hfront, hrest⟩ := forall_mem_append.mp hplain
    rw [depth_append, hdepth hfront]
    exact hused hrest 0
  · have hends : (front ++ (used ++ [last])).head? = some first := by
      rw [← hhead]
      cases front <;> cases used <;> rfl
    have hlast' : (front ++ (used ++ [last])).getLast? = some last := by simp
    rw [Segment.isHeader, getLast?_reverse, head?_reverse, hends, hlast']
    simp only [hfirst, Bool.true_and, Bool.or_eq_true, beq_iff_eq]
    exact hlast

theorem settles_keyword? {t : Token} {x : Reader Stmt} (hkind : t.kind = .name) (h : keyword? t.text = some x)
    (hts : ∀ u ∈ rest, u.Sound source) :
    Settles source x x rest fun s last => s.IsFresh ∧ (s.isHeader → Opens (t :: rest) last) := by
  -- a header word in front of what completes a header
  have hopens {word : Text} (hword : t.text = word) (hheader : Segment.headerWords.contains word) {last : List Token}
      (hcompletes : Completes 0 rest last) : Opens (t :: rest) last :=
    hcompletes.opens [t] rfl (hword ▸ hheader) fun _ => if_neg (by rw [hkind]; exact nofun)
  unfold keyword? at h
  split at h
  case isTrue hword =>
    obtain rfl := Option.some.inj h
    exact (heads_readFunction rest hts).imp fun s _ hc => ⟨hc.1, fun _ => hopens hword (by decide) hc.2⟩
  split at h
  · obtain rfl := Option.some.inj h
    exact settles_return takes_readReturned hts fun _ _ => ⟨⟨nofun, nofun, nofun⟩, nofun⟩
  split at h
  case isTrue hword =>
    obtain rfl := Option.some.inj h
    exact (heads_readFor rest hts).imp fun s _ hc => ⟨hc.1, fun _ => hopens hword (by decide) hc.2⟩
  split at h
  case isTrue hword =>
    obtain rfl := Option.some.inj h
    exact (heads_test (fun _ => ⟨nofun, nofun, nofun⟩) rest hts).imp fun s _ hc => ⟨hc.1, fun _ => hopens hword (by decide) hc.2⟩
  split at h
  case isTrue hword =>
    obtain rfl := Option.some.inj h
    exact (settles_readBranch hts).imp fun s _ hc => ⟨hc.1, fun hheader => hopens hword (by decide) (hc.2 hheader)⟩
  split at h
  · obtain rfl := Option.some.inj h
    exact settles_return (takes_readDeclaration _) hts fun _ _ => ⟨⟨nofun, nofun, nofun⟩, nofun⟩
  · obtain rfl := Option.some.inj h
    exact .done ⟨⟨nofun, nofun, nofun⟩, nofun⟩
  · cases h

/-- A statement that does something and closes no block. -/
def IsOpen (s : Stmt) : Prop := s ≠ .noop ∧ s ≠ .close ∧ ∀ test, s ≠ .otherwise test true

theorem settles_readOpen (hts : ∀ t ∈ ts, t.Sound source) :
    Settles source readOpen readOpen ts fun s rest => s.IsOpen ∧ (s.isHeader → Opens ts rest) := by
  refine .peek (.ite (fun helse => ?_) fun _ => ?_)
  · obtain ⟨first, hfirst, htext⟩ := Option.map_eq_some_iff.mp helse
    obtain ⟨hhead, -⟩ := Option.filter_eq_some_iff.mp hfirst
    refine (heads_readOtherwise false ts hts).imp ?_
    rintro _ rest ⟨⟨test, rfl⟩, hcompletes⟩
    exact ⟨⟨nofun, nofun, nofun⟩, fun _ => hcompletes.opens [] hhead (by rw [htext]; decide) fun _ => rfl⟩
  · split
    case h_1 x hkeyword =>
      obtain ⟨word, hword, hx⟩ := Option.bind_eq_some_iff.mp hkeyword
      obtain ⟨t, ht, rfl⟩ := Option.map_eq_some_iff.mp hword
      obtain ⟨hhead, hkind⟩ := Option.filter_eq_some_iff.mp ht
      obtain ⟨rest, rfl⟩ : ∃ rest, ts = t :: rest := by cases ts <;> simp_all
      refine .advance ((settles_keyword? (by simpa using hkind) hx fun u hu => hts u (mem_cons_of_mem t hu)).imp ?_)
      exact fun s rest h => ⟨⟨h.1.1, h.1.2.1, fun test => h.1.2.2 test true⟩, h.2⟩
    case h_2 =>
      split
      · exact .fault trivial
      · refine .accept (fun rest hrest => .done ⟨⟨nofun, nofun, nofun⟩, fun _ => ?_⟩) fun _ => ?_
        · obtain ⟨brace, rfl, hbrace⟩ := hrest
          exact ⟨[], brace, rfl, fun _ => ⟨rfl, rfl⟩, hbrace⟩
        · exact settles_return takes_readAction hts fun _ _ => ⟨⟨nofun, nofun, nofun⟩, nofun⟩

/-- What a statement is, by the tokens it is read from. All tokens of a header but the last one come before the brace that
opens its block. -/
structure Fits (ts : List Token) (s : Stmt) : Prop where
  closing : ts.head?.any (·.isWord "\x7d".codes) → s = .close ∨ ∃ test, s = .otherwise test true
  opening : ts ≠ [] → ts.head?.any (·.isWord "\x7d".codes) = false → s.IsOpen
  opens : s.isHeader → Opens ts []

theorem settles_readWhole (hts : ∀ t ∈ ts, t.Sound source) :
    Settles source readWhole readWhole ts fun s _ => s.Fits ts := by
  refine .atEnd (.ite (fun hend => ?_) fun hend => .accept (fun rest hrest => ?_) fun hnext => ?_)
  · obtain rfl : ts = [] := by simpa using hend
    exact .done ⟨fun h => (by cases h), fun h => absurd rfl h, fun h => by cases h⟩
  · obtain ⟨first, rfl, hfirst⟩ := hrest
    have hopening : (first :: rest).head?.any (·.isWord "\x7d".codes) ≠ false := by simpa using hfirst
    have hdepth (hplain : ∀ t ∈ [first], t.Plain) : depth [first] = 0 := by
      have hmark := hplain first mem_cons_self 125 (by decide) hfirst
      simp only [isMark, Bool.and_eq_true, beq_iff_eq] at hmark
      exact depthAfter_close hmark.1 (.inr (.inr hmark.2)) 0
    refine .atEnd (.ite (fun _ => .done ⟨fun _ => .inl rfl, fun _ h => absurd h hopening, fun h => by cases h⟩)
      fun _ => .nextIs ?_)
    refine .ite (fun _ => ?_) fun _ => .fail
    refine (heads_readOtherwise true rest fun t ht => hts t (mem_cons_of_mem first ht)).bind ?_
    rintro _ left ⟨⟨test, rfl⟩, hcompletes⟩
    refine Settles.expectEnd.bind ?_
    rintro _ _ ⟨rfl, -⟩
    refine .done ⟨fun _ => .inr ⟨test, rfl⟩, fun _ h => absurd h hopening, fun _ => ?_⟩
    exact hcompletes.opens [first] rfl (by rw [text_of_isWord hfirst]; decide) hdepth
  · refine (settles_readOpen hts).bind fun s rest h => Settles.expectEnd.bind ?_
    rintro _ _ ⟨rfl, -⟩
    exact .done ⟨fun h' => absurd (hnext.symm.trans h') Bool.false_ne_true, fun _ _ => h.1, h.2⟩

theorem parse_settles (h : ∀ t ∈ significant ts, t.Sound source) :
    (∃ s, parse ts = .ok s ∧ s.Fits (significant ts)) ∨ ∃ e, parse ts = .error e ∧ e.Arises source := by
  unfold parse
  cases settles_readWhole h with
  | returns hx _ h => exact .inl ⟨_, by rw [hx], h⟩
  | fails hx _ harises => exact .inr ⟨_, by rw [hx], harises⟩

end Stmt

end Stepwise
