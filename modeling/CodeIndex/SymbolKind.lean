import CodeIndex.Text.LetterCase

/-!
Kinds of declared symbols.

A kind is read from text without regard to letter case, and written in lowercase.
-/
namespace CodeIndex

inductive TypeKind where
  | classType
  | interfaceType
  | enumType
  | annotationType
  deriving DecidableEq, Inhabited

inductive VariableRole where
  | field
  | localVariable
  | parameter
  deriving DecidableEq, Inhabited

inductive SymbolKind where
  | package
  | file
  | type (kind : TypeKind)
  | method
  | value (role : VariableRole)
  | primitive
  deriving DecidableEq, Inhabited

namespace SymbolKind

def all : List SymbolKind :=
  [.package,.file,.type .classType,.type .interfaceType,.type .enumType,.type .annotationType,
   .method,.value .field,.value .localVariable,.value .parameter,.primitive]

def name : SymbolKind → String
  | .package => "package"
  | .file => "file"
  | .type .classType => "class"
  | .type .interfaceType => "interface"
  | .type .enumType => "enum"
  | .type .annotationType => "annotation"
  | .method => "method"
  | .value .field => "field"
  | .value .localVariable => "variable"
  | .value .parameter => "parameter"
  | .primitive => "primitive"

def ofName? (name : String) : Option SymbolKind := all.find? (·.name = name)

def parse (text : String) : Except String SymbolKind :=
  let lowered := LetterCase.lower text
  match ofName? lowered with
  | some kind => .ok kind
  | none => .error ("unknown entity kind: " ++ lowered)

def isTypeDecl : SymbolKind → Bool
  | .type _ => true
  | _ => false

def isVariable : SymbolKind → Bool
  | .value _ => true
  | _ => false

def isType (kind : SymbolKind) : Bool := kind.isTypeDecl || kind = .primitive

end SymbolKind
end CodeIndex
