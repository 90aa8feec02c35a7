import Mathlib.Data.List.Basic

/-! Parsed JSON texts, over the numbers a reader makes of them. -/

namespace ProjectOS.Lib

inductive Json (ν : Type) where
  | null
  | bool (b : Bool)
  | number (n : ν)
  | string (text : String)
  | array (items : List (Json ν))
  | object (fields : List (String × Json ν))

namespace Json
variable {ν : Type}

def isNull : Json ν → Bool
  | .null => true
  | _ => false

def asStr : Json ν → Option String
  | .string text => some text
  | _ => none

def asNumber : Json ν → Option ν
  | .number n => some n
  | _ => none

def asArray : Json ν → Option (List (Json ν))
  | .array items => some items
  | _ => none

/-- Of fields of one name the last one stands. -/
def get (value : Json ν) (key : String) : Option (Json ν) :=
  match value with
  | .object fields => (fields.reverse.find? fun field => field.1 = key).map Prod.snd
  | _ => none

def pointer (value : Json ν) (path : List String) : Option (Json ν) := path.foldlM get value

end Json

inductive Number where
  | posInt (n : Nat)
  | negInt (n : Int)
  | float (bits : UInt64)

abbrev Value := Json Number

def Json.asU64 : Value → Option Nat
  | .number (.posInt n) => some n
  | _ => none

end ProjectOS.Lib
