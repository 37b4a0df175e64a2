import Stepwise.Program.Segment
import Stepwise.Syntax.StmtParser

/-!
# Instructions

An instruction is a statement with its place in the source. Every line owns at least one instruction or is spanned by
one from an earlier line; a line with nothing to run owns a no-op, so that stepping walks the source line by line.
A number that cannot be read breaks the whole source down.
-/

namespace Stepwise

structure Instruction where
  /-- the line on which it starts, counted from zero -/
  line : Nat
  stmt : Stmt
  text : Text
  opens : Bool
  closes : Bool

namespace Instruction

/-- The statement of a segment. What cannot be parsed is unsupported, unless it has to do with a closing brace or a
stray character. -/
def classify (s : Segment) : Except Breakdown Stmt :=
  if s.tokens.any (·.kind == .stray) then .ok (.invalid .invalidToken)
  else match Stmt.parse s.tokens with
    | .ok stmt => .ok stmt
    | .error (.numeral why) => .error why
    | .error e => .ok (if s.closes then .invalid e else .unsupported e)

def ofSegment (lines : Array (Array CodePoint)) (s : Segment) : Except Breakdown Instruction := do
  return ⟨s.firstLine, ← classify s, s.text lines, s.opens, s.closes⟩

def noop (line : Nat) : Instruction := ⟨line, .noop, [], false, false⟩

/-- No-ops on the lines from `first` up to, not including, `stop`. -/
def noops (first stop : Nat) : List Instruction := (List.range' first (stop - first)).map noop

/-- The instructions of the remaining segments, after those collected so far, last first. A line below `stop` gets a no-op
when no segment starts on it or spans it; those before `free` have been dealt with. -/
def collect (lines : Array (Array CodePoint)) (stop : Nat) :
    (free : Nat) → (collected : List Instruction) → List Segment → Except Breakdown (List Instruction)
  | free, collected, [] => .ok (collected.reverse ++ noops free stop)
  | free, collected, s :: rest => do
    let instr ← ofSegment lines s
    collect lines stop (max free (s.lastLine + 1)) (instr :: (noops free s.firstLine).reverse ++ collected) rest

def ofSegments (lines : List Text) (segments : List Segment) : Except Breakdown (List Instruction) :=
  collect (lines.map List.toArray).toArray lines.length 0 [] segments

end Instruction

end Stepwise
