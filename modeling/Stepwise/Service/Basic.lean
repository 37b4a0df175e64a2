import Stepwise.Service.Cap
import Stepwise.Service.Registry
import Stepwise.Service.Request

/-!
# The service

Requests to run programs and to work with sessions. A body is checked before a session is looked for; looking for a
session counts as using it.
-/

namespace Stepwise

inductive Request
  /-- run a program to its end, without keeping a session -/
  | run (body : Json)
  | create (body : Json)
  | list
  | get (id : Text)
  | step (id : Text)
  | stepBack (id : Text)
  | runToEnd (id : Text)
  | reset (id : Text)
  | replaceCode (id : Text) (body : Json)
  | delete (id : Text)

inductive Response
  | ok (body : Json)
  | invalid (errors : List BodyError)
  | unknownSession (id : Text)
  | broken (why : Breakdown)

def Response.unknownMessage (id : Text) : Text := "Unknown session '".codes ++ id ++ "'".codes

namespace Service

def stateBody (s : State) : Json := s.toJson .camel

def brokenRunBody (b : Breakdown) : Json :=
  .obj [("variables", .array []), ("currentLine", .nat 0), ("callStack", .array []), ("output", .array []),
    ("isComplete", .bool false),
    ("error", .obj [("name", .str "ServerError"), ("message", .text b.message), ("line", .nat 0)]),
    ("warnings", .array []), ("steps", .nat 0)]

def newSession (r : RunRequest) : Except Breakdown Session := do
  Session.create (← Caps.ofEntries r.settings).toSettings r.code

def runOnce (r : RunRequest) : Except Breakdown State := do
  let s ← newSession r
  match s.run Session.runToEnd with
  | (.ok (), s) => return s.published
  | (.error b, _) => throw b

def rowBody (id : Text) (s : Session) : Json :=
  .obj [("session_id", .text id), ("line_count", .nat s.program.lineCount), ("is_complete", .bool s.complete),
    ("has_error", .bool s.error.isSome)]

/-- Give a command to a session and answer with the state it has published. -/
def command {α : Type} (r : Registry) (id : Text) (c : Command α) : Response × Registry :=
  match r.find? id with
  | none => (.unknownSession id, r)
  | some s =>
    match s.run c with
    | (.ok _, s) => (.ok (stateBody s.published), r.place id s)
    | (.error b, s) => (.broken b, r.place id s)

/-- Create a session. It may be too much for the registry, and is unknown then. -/
def create (r : Registry) (request : RunRequest) : Response × Registry :=
  match newSession request with
  | .error b => (.broken b, r)
  | .ok s =>
    let (id, r) := r.add s
    match r.find? id with
    | some s => (.ok (.obj [("session_id", .text id), ("state", stateBody s.published)]), r)
    | none => (.unknownSession id, r)

def handle (r : Registry) : Request → Response × Registry
  | .run body => match RunRequest.ofBody body with
    | .error errors => (.invalid errors, r)
    | .ok request => match runOnce request with
      | .ok s => (.ok (stateBody s), r)
      | .error b => (.ok (brokenRunBody b), r)
  | .create body => match RunRequest.ofBody body with
    | .error errors => (.invalid errors, r)
    | .ok request => create r request
  | .list => (.ok (.array (r.entries.map fun (id, s) => rowBody id s)), r)
  | .get id => command r id (pure ())
  | .step id => command r id Session.step
  | .stepBack id => command r id Session.stepBack
  | .runToEnd id => command r id Session.runToEnd
  | .reset id => command r id Session.reset
  | .replaceCode id body => match RunRequest.codeOfBody body with
    | .error errors => (.invalid errors, r)
    | .ok code => command r id (Session.load code)
  | .delete id => match r.find? id with
    | none => (.unknownSession id, r)
    | some _ => (.ok (.obj [("deleted", .text id)]), r.drop id)

end Service

end Stepwise
