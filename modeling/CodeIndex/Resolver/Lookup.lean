import CodeIndex.Resolver.Inheritance

/-!
Looking up the names of a type expression.

The first name is sought among the type parameters of all enclosing scopes, then scope by scope
outward, types with what they inherit; then in the file: its own types, imports of single types,
imports on demand, static imports, the package and the implicit packages; and last among the
top-level names of the whole chain. Each later name is a member of what came before it. A name before
the last is read as a package or a type first, and as a variable only if that leads nowhere.
-/
namespace CodeIndex

inductive Step where
  | package (path : List String)
  | type (t : ResolvedType)
  | value (ref : SymbolRef) (bindings : Bindings)

def Symbol.isStep (typeOnly : Bool) (s : Symbol) : Bool :=
  s.kind.isTypeDecl || (!typeOnly && s.kind.isVariable)

namespace Answers

variable (home : Codebase) (below : Answers)

def stepTo (ref : SymbolRef) (bindings : Bindings) : Option Step := do
  let (_,s) ← home.resolve? ref
  if s.kind.isTypeDecl then return .type { ResolvedType.ofSymbol ref with bindings }
  else if s.kind.isVariable then return .value ref bindings
  else none

def memberStep? (t : ResolvedType) (name : String) (accept : Symbol → Bool) : Option (Option Step) :=
  (membersWhere home below t name accept).head?.map fun (ref,bindings) => stepTo home ref bindings

def typeParameter? (codebase : Codebase) (levels : List (Handle × Symbol)) (bindings : Bindings)
    (name : String) : Option ResolvedType :=
  levels.findSome? fun (h,s) =>
    if s.typeParameters.any (·.name = name) then
      let v : TypeVar := ⟨codebase.ref h,name⟩
      some ((bindings.get? v).getD (.ofTypeVar v))
    else none

def typeStep? (codebase : Codebase) (path : List String) : Option Step :=
  (codebase.type? path).map fun ref => .type (.ofSymbol ref)

/-- A static member of the type at a path. The outer `none` means that there is none. -/
def staticStep? (codebase : Codebase) (owner : List String) (name : String) (typeOnly : Bool) :
    Option (Option Step) := do
  let ref ← codebase.type? owner
  memberStep? home below (.ofSymbol ref) name fun s => s.isStatic && s.isStep typeOnly

def singleImports (source : SourceFile) (name : String) : List Import :=
  source.imports.filter fun i => !i.isStatic && !i.isOnDemand && i.simpleName? = some name

def staticSingleImports (source : SourceFile) (name : String) : List Import :=
  source.imports.filter fun i => i.isStatic && !i.isOnDemand && i.simpleName? = some name

def onDemandImports (source : SourceFile) : List Import :=
  source.imports.filter fun i => !i.isStatic && i.isOnDemand

def staticOnDemandImports (source : SourceFile) : List Import :=
  source.imports.filter fun i => i.isStatic && i.isOnDemand

def staticallyImported? (codebase : Codebase) (source : SourceFile) (name : String)
    (typeOnly : Bool) : Option (Option Step) :=
  ((staticSingleImports source name).findSome? fun i =>
      staticStep? home below codebase i.path.dropLast name typeOnly) <|>
  (staticOnDemandImports source).findSome? fun i =>
    staticStep? home below codebase i.path name typeOnly

def importedStep? (codebase : Codebase) (source : SourceFile) (name : String) (typeOnly : Bool) :
    Option Step :=
  ((singleImports source name).findSome? fun i => typeStep? codebase i.path) <|>
  ((onDemandImports source).findSome? fun i => typeStep? codebase (i.path ++ [name])) <|>
  match staticallyImported? home below codebase source name typeOnly with
  | some step => step
  | none =>
    typeStep? codebase (source.package ++ [name]) <|>
    home.language.implicitPackages.findSome? fun package =>
      typeStep? codebase (Text.segments package ++ [name])

def fileStep? (codebase : Codebase) (source : SourceFile) (members : Members) (name : String)
    (typeOnly : Bool) : Option Step :=
  match members.under name with
  | own :: _ => stepTo home (codebase.ref own) {}
  | [] => importedStep? home below codebase source name typeOnly

def topLevelType? (codebase : Codebase) (name : String) : Option SymbolRef :=
  codebase.chain.findSome? fun c =>
    ((c.table.declared c.table.root name).find? fun h =>
      match c.table.symbol? h with
      | some s => s.kind.isTypeDecl
      | none => false).map c.ref

def topLevelStep? (codebase : Codebase) (name : String) : Option Step :=
  match topLevelType? codebase name with
  | some ref => some (.type (.ofSymbol ref))
  | none => if codebase.hasPackage name then some (.package [name]) else none

/-- What one enclosing level says about a name: `none` to go on outward, otherwise the answer. -/
def levelStep? (site : Site) (name : String) (typeOnly : Bool) (h : Handle) (s : Symbol) :
    Option (Option Step) :=
  match s.body with
  | .type .. =>
    if site.standpoint = .body ∨ h ≠ site.scope then
      memberStep? home below
        { ResolvedType.ofSymbol (site.codebase.ref h) with bindings := site.bindings }
        name (Symbol.isStep typeOnly)
    else none
  | .file source members _ =>
    some (fileStep? home below site.codebase source members name typeOnly <|>
      topLevelStep? site.codebase name)
  | .method .. | .package .. =>
    ((site.codebase.table.declared h name).find? fun c =>
      match site.codebase.table.symbol? c with
      | some s => s.isStep typeOnly
      | none => false).map fun c => stepTo home (site.codebase.ref c) site.bindings
  | .value .. | .primitive => none

def firstStep? (site : Site) (name : String) (typeOnly : Bool) : Option Step :=
  let scopes := site.codebase.table.scopeChain site.scope
  match typeParameter? site.codebase scopes.levels site.bindings name with
  | some t => some (.type t)
  | none =>
    match scopes.levels.findSome? fun (h,s) => levelStep? home below site name typeOnly h s with
    | some answer => answer
    | none => if scopes.isComplete then topLevelStep? site.codebase name else none

def typeMember? (t : ResolvedType) (name : String) (isLast : Bool) : Option Step := do
  let owner ← below.owner t
  if owner.isArray || owner.primitive?.isSome then none
  else (memberStep? home below owner name (Symbol.isStep isLast)).join

def nextStep? (codebase : Codebase) (step : Step) (name : String) (isLast : Bool) : Option Step :=
  match step with
  | .package path =>
    let path := path ++ [name]
    match codebase.type? path with
    | some ref => some (.type (.ofSymbol ref))
    | none => if codebase.hasPackage (Text.dotted path) then some (.package path) else none
  | .type t => typeMember? home below t name isLast
  | .value ref bindings => do
    let t ← typeOf home below ref bindings
    typeMember? home below t name isLast

def follow? (codebase : Codebase) (step : Step) : List String → Option Step
  | [] => some step
  | name :: rest => do
    let next ← nextStep? home below codebase step name rest.isEmpty
    follow? codebase next rest

def namedType? (site : Site) (first : String) (rest : List String) (typeOnly : Bool) :
    Option ResolvedType := do
  let start ← firstStep? home below site first typeOnly
  match ← follow? home below site.codebase start rest with
  | .type t => return t
  | _ => none

def bindArguments (site : Site) (ref : SymbolRef) :
    List (TypeParameter × TypeExpr) → Bindings → Bindings
  | [], bindings => bindings
  | (parameter,argument) :: rest, bindings =>
    let v : TypeVar := ⟨ref,parameter.name⟩
    let bound := (below.resolve site argument).getD (.ofTypeVar v)
    bindArguments site ref rest (bindings.insert v bound)

def applyArguments (site : Site) (e : TypeExpr) (t : ResolvedType) : ResolvedType :=
  let t := { t with isArray := t.isArray || e.isArray }
  match t.class?.bind fun ref => (home.resolve? ref).map fun found => (ref,found.2) with
  | some (ref,s) =>
    { t with bindings := bindArguments below site ref (s.typeParameters.zip e.arguments) t.bindings }
  | none => t

def resolveStep (site : Site) (e : TypeExpr) : Option ResolvedType :=
  match e.segments with
  | [] => none
  | first :: rest =>
    let primitive :=
      if rest.isEmpty && e.arguments.isEmpty then home.language.primitive? first else none
    match primitive with
    | some p => some { ResolvedType.ofPrimitive p with isArray := e.isArray }
    | none =>
      (namedType? home below site first rest true <|>
        if rest.isEmpty then none else namedType? home below site first rest false).map
      (applyArguments home below site e)

/-- The superclass, then the interfaces, of a class under bindings. A class whose superclass does not
resolve has the root type. -/
def superclassesStep (ref : SymbolRef) (bindings : Bindings) : List ResolvedType :=
  match home.resolve? ref with
  | none => []
  | some (codebase,s) =>
    match s.body with
    | .type _ header _ =>
      let resolve := fun (e : TypeExpr) =>
        (below.resolve ⟨codebase,ref.handle,bindings,.header⟩ e).filter fun (t : ResolvedType) =>
          t.class?.isSome && t.class? ≠ some ref
      let superclass := header.superclass.bind resolve
      let root := match superclass with
        | some _ => none
        | none => (home.rootType? codebase).filter fun (t : ResolvedType) => t.class? ≠ some ref
      superclass.toList ++ header.interfaces.filterMap resolve ++ root.toList
    | _ => []

def ownerStep (t : ResolvedType) : Option ResolvedType :=
  if t.isTypeVar then (upperBound home below t).bind below.owner else some t

def atDepth (home : Codebase) : Nat → Answers
  | 0 => deepest
  | depth + 1 =>
    { resolve := fun site e => resolveStep home (atDepth home depth) site e
      superclasses := fun ref bindings => superclassesStep home (atDepth home depth) ref bindings
      owner := fun t => ownerStep home (atDepth home depth) t }

end Answers
end CodeIndex
