import CodeIndex.SymbolKind
import CodeIndex.Text.LineTable
import CodeIndex.TypeExpr

/-!
Declaration trees of source files, as a reader of source text delivers them.
-/
namespace CodeIndex

structure Import where
  path : List String
  isStatic : Bool
  isOnDemand : Bool
  deriving DecidableEq, Inhabited

namespace Import

def ofDotted (dotted : String) (isStatic isOnDemand : Bool) : Import where
  path := (Text.segments dotted).filter (· ≠ "*")
  isStatic := isStatic
  isOnDemand := isOnDemand

def simpleName? (i : Import) : Option String := i.path.getLast?

end Import

structure TypeParameter where
  name : String
  bounds : List TypeExpr := []
  deriving Inhabited

structure VariableDecl where
  name : String
  type : TypeExpr
  isStatic : Bool := false
  span : Span := {}
  deriving Inhabited

structure TypeHeader where
  superclass : Option TypeExpr := none
  interfaces : List TypeExpr := []
  typeParameters : List TypeParameter := []
  deriving Inhabited

structure MethodHeader where
  returnType : Option TypeExpr := none
  typeParameters : List TypeParameter := []
  isVariadic : Bool := false
  deriving Inhabited

structure MethodDecl where
  name : String
  isStatic : Bool := false
  span : Span := {}
  header : MethodHeader := {}
  parameters : List VariableDecl := []
  locals : List VariableDecl := []
  deriving Inhabited

def MethodDecl.withVariadic (m : MethodDecl) (name : String) (element : TypeExpr) : MethodDecl :=
  { m with
    header := { m.header with isVariadic := true }
    parameters := m.parameters ++ [{ name, type := element.array }] }

/-- A type declaration without its members. The kind is as delivered; indexing refuses one that is
not the kind of a type. -/
structure TypeOutline where
  name : String
  kind : SymbolKind
  isStatic : Bool := false
  span : Span := {}
  header : TypeHeader := {}
  deriving Inhabited

inductive MemberDecl where
  | field (decl : VariableDecl)
  | method (decl : MethodDecl)
  | type (outline : TypeOutline) (members : List MemberDecl)

structure TypeDecl where
  outline : TypeOutline
  members : List MemberDecl := []

structure FileDecl where
  path : String
  package : List String := []
  imports : List Import := []
  span : Span := {}
  lines : LineTable := {}
  types : List TypeDecl := []

def FileDecl.withText (file : FileDecl) (text : String) : FileDecl :=
  { file with
    span := ⟨0,UInt32.ofNat text.utf8ByteSize⟩
    lines := LineTable.ofText text }

end CodeIndex
