import Stepwise.Proofs.Spelling

/-!
# Readers and words

`Reader.Consumes x l a rest` says that the reader `x` takes the words `l` in front of `rest` and returns `a`, wherever the
words stand in the source. There is one rule for each way in which readers are put together.
-/

namespace Stepwise

/-- Whether the grammar may look for the word under the given spelling, and finds it. -/
def Word.spells (w : Word) (s : Text) : Bool := (⟨w.kind, w.text, 0, 0⟩ : Token).isWord s

namespace Word

variable {rest : List Word} {s : Text}

/-- Whether the first of the words has the given spelling. -/
def heads (l : List Word) (s : Text) : Bool := l.head?.any (·.spells s)

/-- The marks that end an expression. -/
def closers : List Text := [")", "]", "\x7d", ",", ":"].map String.codes

/-- Nothing follows, or a mark that ends an expression. -/
def Closes (rest : List Word) : Prop := ∀ w ∈ rest.head?, ∃ s ∈ closers, w = mark s

theorem closes_nil : Closes [] := fun w hw => by cases hw

theorem closes_cons (h : s ∈ closers) (rest : List Word) : Closes (mark s :: rest) := by
  intro w hw
  obtain rfl : mark s = w := Option.some.inj hw
  exact ⟨s, h, rfl⟩

theorem Closes.heads (h : Closes rest) (hs : s ∉ closers) : heads rest s = false := by
  cases rest with
  | nil => rfl
  | cons w rest =>
    obtain ⟨t, ht, rfl⟩ := h w rfl
    exact beq_eq_false_iff_ne.mpr fun heq => hs (heq ▸ ht)

end Word

namespace Reader

open Word

variable {α β : Type} {x : Reader α} {f : α → Reader β} {a : α} {b : β} {w : Word} {l m rest : List Word} {s : Text}

def Consumes (x : Reader α) (l : List Word) (a : α) (rest : List Word) : Prop :=
  ∀ tokens : List Token, tokens.map Token.word = l ++ rest →
    ∃ left : List Token, left.map Token.word = rest ∧ x.run tokens = .ok (a, left)

namespace Consumes

variable {g : Option Token → Reader α} {y z : Reader β}

theorem done (a : α) (rest : List Word) : Consumes (pure a) [] a rest := fun tokens htokens => ⟨tokens, htokens, rfl⟩

theorem bind (hx : Consumes x l a (m ++ rest)) (hf : Consumes (f a) m b rest) : Consumes (x >>= f) (l ++ m) b rest := by
  intro tokens htokens
  rw [List.append_assoc] at htokens
  obtain ⟨middle, hmiddle, hrun⟩ := hx tokens htokens
  obtain ⟨left, hleft, hrun'⟩ := hf middle hmiddle
  refine ⟨left, hleft, ?_⟩
  rw [StateT.run_bind, hrun]
  exact hrun'

theorem last (hx : Consumes x l a rest) (hf : Consumes (f a) [] b rest) : Consumes (x >>= f) l b rest := by
  have h := bind (m := []) hx hf
  rwa [List.append_nil] at h

theorem first (hx : Consumes x [] a (l ++ rest)) (hf : Consumes (f a) l b rest) : Consumes (x >>= f) l b rest := bind hx hf

theorem lift {e : Except SyntaxError α} (h : e = .ok a) (rest : List Word) : Consumes (liftM e) [] a rest := by
  intro tokens htokens
  rw [h]
  exact ⟨tokens, htokens, rfl⟩

theorem peek (h : ∀ t : Option Token, t.map Token.word = (l ++ rest).head? → Consumes (g t) l a rest) :
    Consumes (Reader.peek >>= g) l a rest := by
  intro tokens htokens
  have hhead : tokens.head?.map Token.word = (l ++ rest).head? := by rw [← htokens, List.head?_map]
  exact h tokens.head? hhead tokens htokens

theorem peekWord (hw : (l ++ rest).head? = some w)
    (h : ∀ line col, Consumes (g (some ⟨w.kind, w.text, line, col⟩)) l a rest) : Consumes (Reader.peek >>= g) l a rest := by
  refine peek fun t ht => ?_
  obtain ⟨⟨kind, text, line, col⟩, rfl, rfl⟩ := Option.map_eq_some_iff.mp (ht.trans hw)
  exact h line col

theorem peekEnd (h : Consumes (g none) [] a []) : Consumes (Reader.peek >>= g) [] a [] := by
  refine peek fun t ht => ?_
  obtain rfl := Option.map_eq_none_iff.mp ht
  exact h

theorem advance (h : ∀ line col, Consumes (g (some ⟨w.kind, w.text, line, col⟩)) l a rest) :
    Consumes (Reader.advance >>= g) (w :: l) a rest := by
  intro tokens htokens
  obtain ⟨⟨kind, text, line, col⟩, left, rfl, rfl, hleft⟩ := List.map_eq_cons_iff.mp htokens
  exact h line col left hleft

theorem nextIs (s : Text) (rest : List Word) : Consumes (Reader.nextIs s) [] (heads rest s) rest := by
  refine peek fun t ht => ?_
  have hanswer : t.any (·.isWord s) = heads rest s := by
    rw [heads, ← List.nil_append rest, ← ht, Option.any_map]
    rfl
  rw [hanswer]
  exact .done _ rest

theorem accept (h : w.spells s) : Consumes (Reader.accept s) [w] true rest := by
  have hnext := nextIs s (w :: rest)
  have hhead : heads (w :: rest) s = true := h
  rw [hhead] at hnext
  exact first hnext (advance fun _ _ => .done true rest)

theorem decline (h : heads rest s = false) : Consumes (Reader.accept s) [] false rest := by
  have hnext := nextIs s rest
  rw [h] at hnext
  exact first hnext (.done false rest)

theorem expect (h : w.spells s) : Consumes (Reader.expect s) [w] () rest := by
  have hnext := nextIs s (w :: rest)
  have hhead : heads (w :: rest) s = true := h
  rw [hhead] at hnext
  exact first hnext (advance fun _ _ => .done () rest)

theorem acceptIf (h : w.spells s) (hy : Consumes y l b rest) :
    Consumes (Reader.accept s >>= fun accepted => if accepted then y else z) (w :: l) b rest := bind (accept h) hy

theorem declineIf (h : heads (l ++ rest) s = false) (hz : Consumes z l b rest) :
    Consumes (Reader.accept s >>= fun accepted => if accepted then y else z) l b rest := first (decline h) hz

end Consumes

/-- What comes after the first of several parts: a comma unless the closing mark is next, and the other parts. -/
def others (closer : Text) (loop : Reader (List α)) (a : α) : Reader (List α) := do
  if !(← nextIs closer) then expect ",".codes
  let more ← loop
  return a :: more

namespace Consumes

variable {loop : Reader (List α)} {as : List α} {closer : Text}

theorem othersNone (hloop : Consumes loop [mark closer] [] rest) :
    Consumes (others closer loop a) [mark closer] [a] rest := by
  have hnext := nextIs closer (mark closer :: rest)
  have hhead : heads (mark closer :: rest) closer = true := beq_self_eq_true closer
  rw [hhead] at hnext
  exact first hnext (last hloop (.done _ rest))

theorem othersSome (hcloser : closer ≠ ",".codes) (hloop : Consumes loop m as rest) :
    Consumes (others closer loop a) (mark ",".codes :: m) (a :: as) rest := by
  have hnext := nextIs closer (mark ",".codes :: (m ++ rest))
  have hhead : heads (mark ",".codes :: (m ++ rest)) closer = false := beq_eq_false_iff_ne.mpr hcloser.symm
  rw [hhead] at hnext
  exact first hnext (bind (l := [mark ",".codes]) (expect rfl) (last hloop (.done _ rest)))

theorem separated (loop : Nat → Reader (List α)) (hcloser : closer ∈ [")", "]", "\x7d"].map String.codes)
    (parts : List (List Word × α)) (hclose : ∀ fuel rest, Consumes (loop (fuel + 1)) [mark closer] [] rest)
    (hpart : ∀ p ∈ parts, ∀ fuel m as rest, 8 * p.1.length ≤ fuel → Closes (m ++ rest) →
      Consumes (others closer (loop fuel) p.2) m as rest → Consumes (loop (fuel + 1)) (p.1 ++ m) as rest)
    (fuel : Nat) (rest : List Word) (hfuel : 8 * (commas (parts.map Prod.fst)).length + 2 ≤ fuel) :
    Consumes (loop fuel) (commas (parts.map Prod.fst) ++ [mark closer]) (parts.map Prod.snd) rest := by
  have hmarks : ∀ s ∈ [")", "]", "\x7d"].map String.codes, s ∈ closers ∧ s ≠ ",".codes := by decide
  obtain ⟨hends, hcomma⟩ := hmarks closer hcloser
  induction parts generalizing fuel with
  | nil =>
    obtain ⟨fuel, rfl⟩ : ∃ k, fuel = k + 1 := ⟨fuel - 1, by omega⟩
    exact hclose fuel rest
  | cons p parts ih =>
    have ih := ih fun q hq => hpart q (List.mem_cons_of_mem p hq)
    obtain ⟨fuel, rfl⟩ : ∃ k, fuel = k + 2 := ⟨fuel - 2, by omega⟩
    cases parts with
    | nil =>
      simp only [commas, List.map_cons, List.map_nil, List.intercalate_singleton] at hfuel ⊢
      refine hpart p List.mem_cons_self (fuel + 1) _ _ rest (by omega) (closes_cons hends _) ?_
      exact othersNone (hclose fuel rest)
    | cons q parts =>
      simp only [commas, List.map_cons, List.intercalate_cons_cons, List.append_assoc, List.length_append,
        List.length_singleton] at hfuel ⊢
      refine hpart p List.mem_cons_self (fuel + 1) _ _ rest (by omega) (closes_cons (by decide) _) ?_
      refine othersSome hcomma (ih (fuel + 1) ?_)
      simp only [commas, List.map_cons]
      omega

end Consumes

end Reader

end Stepwise
