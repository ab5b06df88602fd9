import CodeIndex.Data.Arena
import CodeIndex.Data.OrderedMap
import CodeIndex.Declaration
import CodeIndex.Failure
import CodeIndex.Text.SpanMap

/-!
Declared symbols and the scopes inside them.

What a symbol is follows from its body, so a symbol's kind and its contents always agree. Packages,
files, types and methods own members; variables and primitives do not. A draft is a symbol that is
yet to be attached to a scope, and need not make sense.
-/
namespace CodeIndex

abbrev Members := OrderedMap String (List Handle)

namespace Members

def under (m : Members) (name : String) : List Handle := (m.get? name).getD []

def handles (m : Members) : List Handle := m.values.flatten

def push (m : Members) (name : String) (h : Handle) : Members :=
  m.alter name fun declared => declared.getD [] ++ [h]

def drop (m : Members) (name : String) (h : Handle) : Members :=
  match m.get? name with
  | none => m
  | some declared =>
    match declared.filter (· ≠ h) with
    | [] => m.erase name
    | kept => m.insert name kept

end Members

structure SourceFile where
  path : String
  package : List String
  imports : List Import
  lines : LineTable
  deriving Inhabited

inductive Body where
  | package (subpackages : OrderedMap String Handle) (files : List Handle) (members : Members)
  | file (source : SourceFile) (members : Members) (scopes : SpanMap Handle)
  | type (kind : TypeKind) (header : TypeHeader) (members : Members)
  | method (header : MethodHeader) (parameters : List Handle) (members : Members)
  | value (role : VariableRole) (type : TypeExpr)
  | primitive
  deriving Inhabited

structure Symbol where
  name : String
  qualifiers : List String := []
  isStatic : Bool := false
  span : Span := {}
  parent : Option Handle := none
  body : Body
  deriving Inhabited

namespace Body

def kind : Body → SymbolKind
  | .package .. => .package
  | .file .. => .file
  | .type kind .. => .type kind
  | .method .. => .method
  | .value role _ => .value role
  | .primitive => .primitive

def members? : Body → Option Members
  | .package _ _ members => some members
  | .file _ members _ => some members
  | .type _ _ members => some members
  | .method _ _ members => some members
  | .value .. => none
  | .primitive => none

def mapMembers (f : Members → Members) : Body → Body
  | .package subpackages files members => .package subpackages files (f members)
  | .file source members scopes => .file source (f members) scopes
  | .type kind header members => .type kind header (f members)
  | .method header parameters members => .method header parameters (f members)
  | body => body

def mapParameters (f : List Handle → List Handle) : Body → Body
  | .method header parameters members => .method header (f parameters) members
  | body => body

def mapFiles (f : List Handle → List Handle) : Body → Body
  | .package subpackages files members => .package subpackages (f files) members
  | body => body

def mapSubpackages (f : OrderedMap String Handle → OrderedMap String Handle) : Body → Body
  | .package subpackages files members => .package (f subpackages) files members
  | body => body

def withScopes (scopes : SpanMap Handle) : Body → Body
  | .file source members _ => .file source members scopes
  | body => body

/-- Symbols that go when this one goes. The members of a package belong to its files. -/
def owned : Body → List Handle
  | .package subpackages files _ => subpackages.values ++ files
  | body => match body.members? with
    | some members => members.handles
    | none => []

end Body

namespace Symbol

def kind (s : Symbol) : SymbolKind := s.body.kind

def members? (s : Symbol) : Option Members := s.body.members?

def isScope (s : Symbol) : Bool := s.members?.isSome

def mapBody (f : Body → Body) (s : Symbol) : Symbol := { s with body := f s.body }

def subpackages (s : Symbol) : OrderedMap String Handle :=
  match s.body with
  | .package subpackages _ _ => subpackages
  | _ => {}

def source? (s : Symbol) : Option SourceFile :=
  match s.body with
  | .file source _ _ => some source
  | _ => none

def typeParameters (s : Symbol) : List TypeParameter :=
  match s.body with
  | .type _ header _ => header.typeParameters
  | .method header _ _ => header.typeParameters
  | _ => []

def childQualifiers (s : Symbol) : List String :=
  match s.body with
  | .file source _ _ => source.package
  | .package .. => if s.name = "" then [] else s.qualifiers ++ [s.name]
  | _ => s.qualifiers ++ [s.name]

def qualifiedName (s : Symbol) : String :=
  match s.body with
  | .file source _ _ => source.path
  | _ => Text.dotted (s.qualifiers ++ (if s.name = "" then [] else [s.name]))

end Symbol

inductive Draft.Content where
  | type (header : TypeHeader)
  | method (header : MethodHeader)
  | value (type : TypeExpr)
  | primitive
  | container
  deriving Inhabited

structure Draft where
  name : String
  kind : SymbolKind
  isStatic : Bool := false
  span : Span := {}
  isAttached : Bool := false
  ownsMembers : Bool := false
  content : Draft.Content
  deriving Inhabited

namespace Draft

def body? (d : Draft) : Option Body :=
  match d.kind, d.content with
  | .type kind, .type header => some (.type kind header {})
  | .method, .method header => some (.method header [] {})
  | .value role, .value type => some (.value role type)
  | .primitive, .primitive => some .primitive
  | _, _ => none

/-- A draft must be unowned, of one kind with its contents, without members, and its span must not
be inverted. -/
def check (d : Draft) : Except Failure Body :=
  if d.isAttached then .error (.violation (.alreadyAttached d.kind d.name))
  else match d.body? with
    | none => .error (.violation (.notAMember d.kind d.name))
    | some body =>
      if d.ownsMembers then .error (.violation (.ownsMembers d.kind d.name))
      else if d.span.isInverted then .error (.invertedSpan d.span.start d.span.stop)
      else .ok body

def ofType (outline : TypeOutline) : Draft where
  name := outline.name
  kind := outline.kind
  isStatic := outline.isStatic
  span := outline.span
  content := .type outline.header

def ofMethod (decl : MethodDecl) : Draft where
  name := decl.name
  kind := .method
  isStatic := decl.isStatic
  span := decl.span
  content := .method decl.header

def ofField (decl : VariableDecl) : Draft where
  name := decl.name
  kind := .value .field
  isStatic := decl.isStatic
  span := decl.span
  content := .value decl.type

def ofVariable (role : VariableRole) (decl : VariableDecl) : Draft where
  name := decl.name
  kind := .value role
  span := decl.span
  content := .value decl.type

def ofSymbol (s : Symbol) : Draft where
  name := s.name
  kind := s.kind
  isStatic := s.isStatic
  span := s.span
  isAttached := s.parent.isSome
  ownsMembers := match s.body with
    | .method _ parameters members => !members.isEmpty || !parameters.isEmpty
    | body => match body.members? with
      | some members => !members.isEmpty
      | none => false
  content := match s.body with
    | .type _ header _ => .type header
    | .method header _ _ => .method header
    | .value _ type => .value type
    | .primitive => .primitive
    | _ => .container

end Draft
end CodeIndex
