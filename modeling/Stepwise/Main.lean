import Stepwise.Demo
import Stepwise.Json.Writer

/-!
# The command line

`stepwise [PATH] [--limit N]` steps through the program in a file, or through a sample, and prints each state as a line
of JSON. It ends with status 1 when the program ends in an error.
-/

namespace Stepwise.Main

structure Options where
  path : Option String
  limit : Nat

def parse (options : Options) : List String → Options
  | "--limit" :: n :: rest => parse { options with limit := n.toNat?.getD options.limit } rest
  | path :: rest => parse { options with path := some path } rest
  | [] => options

end Stepwise.Main

open Stepwise in
def main (args : List String) : IO UInt32 := do
  let options := Main.parse ⟨none, Demo.standardLimit⟩ args
  let code ← match options.path with
    | some path => do pure (← IO.FS.readFile path).codes
    | none => pure Demo.sample
  match Demo.shown code options.limit with
  | .error b =>
    IO.eprintln b.message.toString
    return 1
  | .ok (states, ok) =>
    for s in states do
      IO.println ((s.toJson .plain).line.toString)
    return if ok then 0 else 1
