/-!
Values of a strict data notation with named fields.

Integers without sign, fraction and exponent are kept as numbers; every other numeral is kept as it
is written. A text holds nothing when its escapes do not spell characters: such a text may stand
where it is not read.
-/
namespace CodeIndex

inductive Json where
  | null
  | bool (value : Bool)
  | natural (value : Nat)
  | numeral (literal : String)
  | text (content : Option String)
  | list (items : List Json)
  | record (fields : List (Option String × Json))
  deriving Inhabited

namespace Json

def ofString (s : String) : Json := .text (some s)

def ofFields (fields : List (String × Json)) : Json :=
  .record (fields.map fun (name,value) => (some name,value))

def bool? : Json → Option Bool
  | .bool value => some value
  | _ => none

def string? : Json → Option String
  | .text content => content
  | _ => none

def list? : Json → Option (List Json)
  | .list items => some items
  | _ => none

def below? (bound : Nat) : Json → Option Nat
  | .natural value => if value < bound then some value else none
  | _ => none

def word32? (j : Json) : Option UInt32 := (j.below? UInt32.size).map UInt32.ofNat

def single (fields : List (String × Json)) (name : String) : Option (Option Json) :=
  match fields.filter fun field => field.1 = name with
  | [] => some none
  | [field] => some (some field.2)
  | _ => none

/-- What stands for each of the named parts, in their order. A list gives them by place and may end
early; a record gives them by name, and its other fields are not looked at. -/
def parts? (names : List String) : Json → Option (List (Option Json))
  | .list items =>
    if items.length ≤ names.length then
      some (items.map some ++ List.replicate (names.length - items.length) none)
    else none
  | .record fields => do
    let named ← fields.mapM fun (key,value) => key.map fun name => (name,value)
    names.mapM (single named)
  | _ => none

end Json
end CodeIndex
