import Stepwise.OrderedMap
import Stepwise.Program.Instruction

/-!
# Blocks

Every instruction that opens a block is paired with the one that closes it, in the way of brackets. Clauses of a
conditional are linked to the `else` clause that follows them.
-/

namespace Stepwise

/-- An opened block: the index of its header, and whether it is the body of a function. -/
structure OpenBlock where
  header : Nat
  isFunction : Bool

structure BlockScan where
  /-- the blocks that are open, innermost first -/
  opened : List OpenBlock
  /-- header and closing index of each closed block, in the order of closing, latest first -/
  closed : List (Nat × Nat)
  /-- closing instructions without a block to close -/
  unmatched : List Nat
  /-- the first header of each function that is not inside another function -/
  functions : OrderedMap Nat

namespace BlockScan

def empty : BlockScan := ⟨[], [], [], .empty⟩

def insideFunction (s : BlockScan) : Bool := s.opened.any (·.isFunction)

def opening (s : BlockScan) (i : Nat) (instr : Instruction) : BlockScan :=
  match instr.stmt with
  | .function name _ =>
    { s with
      opened := ⟨i, true⟩ :: s.opened
      functions := if s.insideFunction || s.functions.has name then s.functions else s.functions.put name i }
  | _ => { s with opened := ⟨i, false⟩ :: s.opened }

def step (s : BlockScan) (i : Nat) (instr : Instruction) : BlockScan :=
  if instr.closes then
    match s.opened with
    | [] => { s with unmatched := i :: s.unmatched }
    | b :: outer =>
      let s := { s with opened := outer, closed := (b.header, i) :: s.closed }
      if instr.opens then s.opening i instr else s
  else if instr.opens then s.opening i instr
  else s

def scanFrom : Nat → List Instruction → BlockScan → BlockScan
  | _, [], s => s
  | i, instr :: rest, s => scanFrom (i + 1) rest (s.step i instr)

def scan (instrs : List Instruction) : BlockScan := scanFrom 0 instrs empty

end BlockScan

/-- The index of the first instruction that is not a no-op, from index `i` on and at most `fuel` further. -/
def firstActive (instrs : Array Instruction) : (fuel i : Nat) → Nat
  | 0, i => i
  | fuel + 1, i => if instrs[i]?.any (·.stmt.isNoop) then firstActive instrs fuel (i + 1) else i

/-- The `else` clause that follows the clause opened at `header` and closed at `closer`: the closing instruction
itself, or the next one that is not a no-op. -/
def nextClause? (instrs : Array Instruction) (header closer : Nat) : Option Nat :=
  if (instrs[header]?.any (·.stmt.isClause)) then
    if (instrs[closer]?.any (·.stmt.isOtherwise)) then some closer
    else
      let j := firstActive instrs instrs.size (closer + 1)
      match instrs[j]?.map Instruction.stmt with
      | some (Stmt.otherwise _ false) => some j
      | _ => none
  else none

/-- The links from clauses to the `else` clauses that follow them. -/
def clauseLinks (instrs : Array Instruction) (closed : List (Nat × Nat)) : List (Nat × Nat) :=
  closed.filterMap fun (header, closer) => (nextClause? instrs header closer).map (header, ·)

end Stepwise
