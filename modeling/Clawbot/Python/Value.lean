import Clawbot.Python.Builtins

/-!
# Python values decoded from JSON

`json.loads` builds `None`, `bool`, `int`, `float`, `str`, `list` and `dict`. A `dict` value
keeps the members of its JSON object in document order; as in `json.loads`, a key given twice
keeps its first place and its last value.

The operations the HTTP handler applies to such values are written as CPython evaluates them:
a method the type lacks raises `AttributeError`, `reversed` of a value that is no sequence
raises `TypeError`, and `str.join` of a part that is no `str` raises `TypeError`, each with
CPython's message.
-/

namespace Clawbot.Python

inductive PyVal
  | none
  | bool (b : Bool)
  | int (i : Int)
  | float (f : Float)
  | str (s : String)
  | list (xs : List PyVal)
  | dict (members : List (String × PyVal))

/-- A raised exception: its class and message. -/
structure PyExc where
  cls : String
  msg : String
  deriving DecidableEq, Repr

namespace PyVal

/-- `type(v).__name__` -/
def typeName : PyVal → String
  | .none => "NoneType"
  | .bool _ => "bool"
  | .int _ => "int"
  | .float _ => "float"
  | .str _ => "str"
  | .list _ => "list"
  | .dict _ => "dict"

/-- `bool(v)` -/
def truthy : PyVal → Bool
  | .none => false
  | .bool b => b
  | .int i => i != 0
  | .float f => !(f == 0)
  | .str s => s != ""
  | .list xs => !xs.isEmpty
  | .dict members => !members.isEmpty

/-- `v == s` for a `str` literal `s`. -/
def eqStr : PyVal → String → Bool
  | .str t, s => t == s
  | _, _ => false

/-- `d.get(key, default)` on the `dict` of `members`: the last value given for `key`. -/
def lookup (members : List (String × PyVal)) (key : String) (default : PyVal) : PyVal :=
  ((members.reverse.find? (·.1 = key)).map Prod.snd).getD default

/-- `v.get(key, default)` -/
def get (v : PyVal) (key : String) (default : PyVal) : Except PyExc PyVal :=
  match v with
  | .dict members => .ok (lookup members key default)
  | v => .error ⟨"AttributeError", "'" ++ v.typeName ++ "' object has no attribute 'get'"⟩

/-- `reversed(v)`, as the items it yields: a `str` yields its characters, a `dict` its keys. -/
def reversed : PyVal → Except PyExc (List PyVal)
  | .list xs => .ok xs.reverse
  | .str s => .ok (s.data.reverse.map fun c => .str (String.singleton c))
  | .dict members => .ok ((members.map Prod.fst).eraseDups.reverse.map .str)
  | v => .error ⟨"TypeError", "'" ++ v.typeName ++ "' object is not reversible"⟩

end PyVal

/-- The texts of `parts` for `sep.join(parts)`, or the `TypeError` of the first part, at
`index`, that is no `str`. -/
def strParts (index : Nat) : List PyVal → Except PyExc (List String)
  | [] => .ok []
  | .str s :: parts => (s :: ·) <$> strParts (index + 1) parts
  | v :: _ => .error ⟨"TypeError",
    "sequence item " ++ toString index ++ ": expected str instance, " ++ v.typeName ++ " found"⟩

/-- `sep.join(parts)` -/
def joinStrs (sep : String) (parts : List PyVal) : Except PyExc String :=
  join sep <$> strParts 0 parts

end Clawbot.Python
