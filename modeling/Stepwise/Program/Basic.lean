import Std.Data.TreeMap
import Std.Data.TreeSet
import Stepwise.Program.Blocks

/-!
# Programs

A program is a flat list of instructions with an index of its blocks, the links between the clauses of conditionals,
and its functions. What is wrong with a program is found out when it is executed; loading breaks down only on a number
with too many digits.
-/

namespace Stepwise

/-- A function of the program: the instructions strictly between `start` and `stop` are its body. -/
structure Function where
  name : Text
  params : List Text
  start : Nat
  stop : Nat
  startLine : Nat
  stopLine : Nat
  source : Text

structure Program where
  lines : List Text
  instructions : Array Instruction
  /-- the closing instruction of each block, by the index of its header -/
  closerOf : Std.TreeMap Nat Nat
  /-- the header of each block, by the index of its closing instruction -/
  openerOf : Std.TreeMap Nat Nat
  /-- the `else` clause after each clause -/
  nextClause : Std.TreeMap Nat Nat
  /-- the clause before each `else` clause -/
  prevClause : Std.TreeMap Nat Nat
  /-- the functions by their names, in the order of their headers -/
  functions : OrderedMap Function

/-- A block that is never closed, by the line of its header, counted from one. -/
structure UnclosedBlock where
  line : Nat

namespace UnclosedBlock

def message (_ : UnclosedBlock) : Text := "Missing closing '\x7d'".codes

def hint (b : UnclosedBlock) : Text :=
  "the block opened on line ".codes ++ Text.ofNat b.line ++ " is never closed".codes

end UnclosedBlock

namespace Program

def size (p : Program) : Nat := p.instructions.size

def lineCount (p : Program) : Nat := p.lines.length

/-- The line of an instruction, or the number of lines past the end. -/
def lineOf (p : Program) (i : Nat) : Nat := (p.instructions[i]?.map (·.line)).getD p.lineCount

def blockEnd (p : Program) (i : Nat) : Except UnclosedBlock Nat :=
  match p.closerOf[i]? with
  | some c => .ok c
  | none => .error ⟨p.lineOf i + 1⟩

def lastClause (p : Program) : Nat → Nat → Nat
  | 0, i => i
  | fuel + 1, i => match p.nextClause[i]? with
    | some j => p.lastClause fuel j
    | none => i

/-- The index of the brace that closes the last clause of the conditional that `i` belongs to. -/
def chainEnd (p : Program) (i : Nat) : Except UnclosedBlock Nat := p.blockEnd (p.lastClause p.size i)

def function? (p : Program) (name : Text) : Option Function := p.functions.get? name

/-- A closing instruction without a block to close becomes an error. -/
def markUnmatched (instrs : List Instruction) (unmatched : Std.TreeSet Nat) : List Instruction :=
  instrs.mapIdx fun i instr =>
    if unmatched.contains i then
      { instr with stmt := .invalid (.misplaced "\x7d".codes), opens := false, closes := true }
    else instr

def functionAt? (lines : Array Text) (instrs : Array Instruction) (closerOf : Std.TreeMap Nat Nat) (name : Text)
    (start : Nat) : Option Function := do
  let stop ← closerOf[start]?
  let header ← instrs[start]?
  let closer ← instrs[stop]?
  let params := match header.stmt with
    | .function _ params => params
    | _ => []
  let source := Text.join [10] (lines.extract header.line (closer.line + 1)).toList
  return ⟨name, params, start, stop, header.line, closer.line, source⟩

def splitLines (source : Text) : List Text := source.splitOn [10]

def ofInstructions (lines : List Text) (instrs : List Instruction) : Program :=
  let scan := BlockScan.scan instrs
  let instrs := (markUnmatched instrs (.ofList scan.unmatched)).toArray
  let closed := scan.closed.reverse
  let closerOf := .ofList closed
  let lineTable := lines.toArray
  let links := clauseLinks instrs closed
  { lines
    instructions := instrs
    closerOf
    openerOf := .ofList (closed.map fun (o, c) => (c, o))
    nextClause := .ofList links
    prevClause := .ofList (links.map fun (o, c) => (c, o))
    functions := .ofList (scan.functions.toList.filterMap fun (name, start) =>
      (functionAt? lineTable instrs closerOf name start).map (name, ·)) }

def load (source : Text) : Except Breakdown Program := do
  let lines := splitLines source
  return ofInstructions lines (← Instruction.ofSegments lines (Segment.cut (Token.scan source)))

end Program

end Stepwise
