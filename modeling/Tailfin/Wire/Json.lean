import Mathlib.Data.List.Basic

/-!
# JSON values

`serde_json::Value` as far as the meters read it. The parser itself is a parameter: nothing here
depends on what it accepts. Texts are lists of characters, and an object is the list of its
members, whose keys are distinct.
-/

namespace Tailfin

inductive JsonNumber where
  | posInt (n : UInt64)
  /-- Less than zero. -/
  | negInt (n : Int64)
  /-- The bits of an `f64`. -/
  | float (bits : UInt64)
  deriving DecidableEq, Repr

inductive Json where
  | null
  | bool (b : Bool)
  | number (n : JsonNumber)
  | string (s : List Char)
  | array (items : List Json)
  | object (members : List (List Char × Json))

/-- The parser, `serde_json::from_str::<Value>`. -/
class JsonParser where
  fromStr : List Char → Option Json

namespace Json

def get (v : Json) (key : String) : Option Json :=
  match v with
  | object members => members.lookup key.toList
  | _ => none

/-- Look up a path of keys, none of which is a number. -/
def pointer (v : Json) (path : List String) : Option Json :=
  path.foldlM get v

def asU64 : Json → Option UInt64
  | number (.posInt n) => some n
  | _ => none

def asStr : Json → Option (List Char)
  | string s => some s
  | _ => none

def isNull : Json → Bool
  | null => true
  | _ => false

/-- The closure `g` of the meters: a missing count is zero. -/
def count (v : Json) (key : String) : UInt64 := ((v.get key).bind asU64).getD 0

/-- The count at the end of a path, if there is one. -/
def countAt (v : Json) (path : List String) : Option UInt64 := (v.pointer path).bind asU64

end Json

end Tailfin
