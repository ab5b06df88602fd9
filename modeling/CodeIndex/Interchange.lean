import CodeIndex.Json.Basic
import CodeIndex.SymbolKind
import CodeIndex.TypeExpr

/-!
The written form of spans, positions, kinds and type expressions, for other programs.

A structure is written as a record of its parts. It is read from a record or from a list of its
parts in order; a type expression may leave out its span. Reading opens at most
`deepestNesting` lists and records inside one another.
-/
namespace CodeIndex

def deepestNesting : Nat := 127

namespace Span

def toJson (s : Span) : Json :=
  .ofFields [("start",.natural s.start.toNat),("end",.natural s.stop.toNat)]

def ofJson? (j : Json) : Option Span := do
  match ← j.parts? ["start","end"] with
  | [some start,some stop] => return ⟨← start.word32?,← stop.word32?⟩
  | _ => none

end Span

namespace Position

def ofJson? (j : Json) : Option Position := do
  match ← j.parts? ["line","col"] with
  | [some line,some column] => return ⟨← line.word32?,← column.word32?⟩
  | _ => none

end Position

namespace SymbolKind

def toJson (kind : SymbolKind) : Json := .ofString kind.name

def ofJson? : Json → Option SymbolKind
  | .text (some name) => ofName? name
  | .record [(some name,.null)] => ofName? name
  | _ => none

end SymbolKind

namespace TypeExpr

mutual

def toJson : TypeExpr → Json
  | ⟨segments,isArray,arguments,span⟩ =>
    .ofFields [
      ("segments",.list (segments.map Json.ofString)),
      ("is_array",.bool isArray),
      ("type_arguments",.list (listToJson arguments)),
      ("range",span.toJson)]

def listToJson : List TypeExpr → List Json
  | [] => []
  | e :: rest => toJson e :: listToJson rest

end

def partNames : List String := ["segments","is_array","type_arguments","range"]

def spanOrDefault : Option Json → Option Span
  | none => some {}
  | some j => Span.ofJson? j

/-- Read a type expression inside at most `depth` further lists and records. The expression takes
one of them and its segments and arguments another. -/
def readWithin : Nat → Json → Option TypeExpr
  | depth + 2, j => do
    match ← j.parts? partNames with
    | [some segments,some isArray,some arguments,span] =>
      let segments ← (← segments.list?).mapM Json.string?
      let isArray ← isArray.bool?
      let arguments ← (← arguments.list?).mapM fun argument => readWithin depth argument
      return { segments, isArray, arguments, span := ← spanOrDefault span }
    | _ => none
  | _, _ => none

def ofJson? (j : Json) : Option TypeExpr := readWithin deepestNesting j

end TypeExpr
end CodeIndex
