import CodeIndex.Text.Path
import CodeIndex.Text.Span

/-!
Types as they are written, such as `Outer.Inner<String>[]`, before any name is looked up.
-/
namespace CodeIndex

structure TypeExpr where
  segments : List String
  isArray : Bool := false
  arguments : List TypeExpr := []
  span : Span := {}
  deriving Inhabited

namespace TypeExpr

def named (dotted : String) : TypeExpr := { segments := Text.segments dotted }

def simple (name : String) : TypeExpr := { segments := [name] }

def isQualified (e : TypeExpr) : Bool := 1 < e.segments.length

def element (e : TypeExpr) : TypeExpr := { e with isArray := false }

def array (e : TypeExpr) : TypeExpr := { e with isArray := true }

mutual

def text : TypeExpr → String
  | ⟨segments,isArray,arguments,_⟩ =>
    Text.dotted segments ++ argumentsText arguments ++ (if isArray then "[]" else "")

def argumentsText : List TypeExpr → String
  | [] => ""
  | first :: rest => "<" ++ first.text ++ furtherText rest ++ ">"

def furtherText : List TypeExpr → String
  | [] => ""
  | next :: rest => ", " ++ next.text ++ furtherText rest

end

mutual

def same : TypeExpr → TypeExpr → Bool
  | ⟨segments,isArray,arguments,span⟩, ⟨segments',isArray',arguments',span'⟩ =>
    segments = segments' && isArray = isArray' && sameAll arguments arguments' && span = span'

def sameAll : List TypeExpr → List TypeExpr → Bool
  | [], [] => true
  | a :: as, b :: bs => same a b && sameAll as bs
  | _, _ => false

end

def inspected (e : TypeExpr) : String := "TypeReference(" ++ e.text ++ ")"

end TypeExpr
end CodeIndex
