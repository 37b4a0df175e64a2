import Stepwise.Number.Basic

/-!
# JSON

JSON data as it is exchanged: exact integers and doubles are told apart, and objects keep the order of their keys.
-/

namespace Stepwise

inductive Json
  | null
  | bool (value : Bool)
  | num (value : Num)
  | text (value : Text)
  | array (items : List Json)
  | object (entries : List (Text × Json))

instance : Inhabited Json := ⟨.null⟩

namespace Json

def str (s : String) : Json := .text s.codes

def nat (n : Nat) : Json := .num (.int n)

def obj (entries : List (String × Json)) : Json := .object (entries.map fun e => (e.1.codes, e.2))

def typeName : Json → Text
  | .null => "NoneType".codes
  | .bool _ => "bool".codes
  | .num (.int _) => "int".codes
  | .num (.float _) => "float".codes
  | .text _ => "str".codes
  | .array _ => "list".codes
  | .object _ => "dict".codes

end Json

end Stepwise
