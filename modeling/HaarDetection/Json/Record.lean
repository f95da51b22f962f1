import HaarDetection.Json.Value

/-!
# Records in JSON

A record with known fields is written as an object, whose members come in any order, or as an
array of the values in the order of the fields. Fields with a default may be left out: in an
object anywhere, in an array at the end.

* `Json.record?`: the values of the fields of a record.
* `Json.toSingle?`, `Json.toDouble?`, `Json.toWord?`, `Json.toLink?`: values of single fields.
-/

namespace HaarDetection

/-- What becomes of a member of an object that is no field of the record. -/
inductive UnknownField
  | refused
  | ignored
deriving DecidableEq, Repr

namespace Json

/-- Is a member of an object, with the keys of the members before it, one that a record may have?
No field may be given twice, and all keys have to be texts. -/
def memberAllowed (fields : List String) (unknown : UnknownField) (before : List (Option String))
    (key : Option String) : Bool :=
  match key with
  | none => false
  | some name =>
    if name ∈ fields then !before.contains key else unknown == .ignored

/-- Are all members, behind some with the keys in `before`, ones that a record may have? -/
def membersAllowed (fields : List String) (unknown : UnknownField) :
    (before : List (Option String)) → List (Option String × Json) → Bool
  | _, [] => true
  | before, (key, _) :: rest =>
    memberAllowed fields unknown before key && membersAllowed fields unknown (key :: before) rest

/-- The value of the first member with a key. -/
def member? (members : List (Option String × Json)) (name : String) : Option Json :=
  (members.find? fun m => m.1 == some name).map (·.2)

/-- **The values of the fields of a record**, in the order of the fields, none for those that are
left out. -/
def record? (fields : List String) (unknown : UnknownField) : Json → Option (List (Option Json))
  | .object members =>
    if membersAllowed fields unknown [] members then some (fields.map (member? members)) else none
  | .array values =>
    if values.length ≤ fields.length then
      some (values.map some ++ List.replicate (fields.length - values.length) none)
    else none
  | _ => none

/-- The value of a field that may be left out: none if it is there but not of the right form. -/
def orDefault {β : Type} (read : Json → Option β) (fallback : β) : Option Json → Option β
  | none => some fallback
  | some value => read value

/-- The value of a field that has to be there. -/
def required {β : Type} (read : Json → Option β) : Option Json → Option β
  | none => none
  | some value => read value

/-- The elements of an array. -/
def toList? {β : Type} (read : Json → Option β) : Json → Option (List β)
  | .array elements => elements.mapM read
  | _ => none

/-- A truth value. -/
def toBool? : Json → Option Bool
  | .bool value => some value
  | _ => none

/-- A natural number of 32 bits. -/
def toWord? : Json → Option UInt32
  | .number numeral => do
    let value ← numeral.toNat?
    if value < UInt32.size then some (.ofNat value) else none
  | _ => none

/-- An integer of 64 bits. -/
def toLink? : Json → Option Int
  | .number numeral => numeral.toInt?
  | _ => none

/-- A number in double precision. -/
def toDouble? : Json → Option Float
  | .number numeral => numeral.toFloat?
  | _ => none

/-- A number in single precision. -/
def toSingle? : Json → Option Float32
  | .number numeral => numeral.toSingle?
  | _ => none

/-- One of some names, as a string or as the only key of an object whose value is null. -/
def toChoice? {β : Type} (choice? : String → Option β) : Json → Option β
  | .string (some name) => choice? name
  | .object [(some name, .null)] => choice? name
  | _ => none

end Json

end HaarDetection
