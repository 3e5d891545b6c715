import ElioP2P.Library.Bytes

/-!
# JSON values

Parsed JSON documents with the accessors of a library that reports a wrong type
by an exception: `none` is the exception.  An object lists its fields in the
order of their keys.
-/

namespace ElioP2P.Library

/-- Numbers are kept by how they are stored.  All that is asked of a float is
what it is cast to. -/
inductive Json where
  | null
  | boolean (value : Bool)
  | unsigned (value : UInt64)
  | integer (value : Int64)
  | float (truncated : UInt64)
  | string (value : Bytes)
  | array (items : List Json)
  | object (fields : List (Bytes × Json))

namespace Json

/-- `j.get<std::string>()` -/
def getString : Json → Option Bytes
  | .string value => some value
  | _ => none

/-- `j.get<uint64_t>()` -/
def getUInt64 : Json → Option UInt64
  | .unsigned value => some value
  | .integer value => some value.toUInt64
  | .float truncated => some truncated
  | _ => none

/-- `j.get<int>()`, by `static_cast`; a boolean is a number to it. -/
def getInt : Json → Option Int32
  | .boolean value => some (if value then 1 else 0)
  | .unsigned value => some value.toUInt32.toInt32
  | .integer value => some value.toInt32
  | .float truncated => some truncated.toUInt32.toInt32
  | _ => none

/-- `j.at(key)` -/
def at? (j : Json) (key : Bytes) : Option Json :=
  match j with
  | .object fields => fields.lookup key
  | _ => none

/-- `j.value(key, default)` -/
def value {α : Type} (get : Json → Option α) (j : Json) (key : Bytes) (default : α) : Option α :=
  match j with
  | .object fields =>
      match fields.lookup key with
      | some field => get field
      | none => some default
  | _ => none

/-- What a loop over a value sees: a scalar is one item. -/
def items : Json → List Json
  | .null => []
  | .array items => items
  | .object fields => fields.map Prod.snd
  | j => [j]

end Json

/-- The two directions between values and texts; `dump` and `parse` can throw. -/
structure JsonText where
  dump : Json → Option Bytes
  parse : Bytes → Option Json

def JsonText.Lossless (text : JsonText) (j : Json) : Prop :=
  (text.dump j).bind text.parse = some j

end ElioP2P.Library
