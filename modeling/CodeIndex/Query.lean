import CodeIndex.Completion.Rank
import CodeIndex.Resolver

/-!
Questions asked at a place in a file: what an expression means there, and which names can be written.

Everything visible is offered from the innermost scope outward. A name hides what is offered under it
later; methods hide nothing and are not hidden, but each is offered once.
-/
namespace CodeIndex

namespace Completion

structure Item where
  name : String
  kind : SymbolKind
  symbol : SymbolRef
  deriving DecidableEq, Inhabited

def Item.ofSymbol (ref : SymbolRef) (s : Symbol) : Item := ⟨s.name,s.kind,ref⟩

def unhidden (names : List String) (methods : List SymbolRef) : List Item → List Item
  | [] => []
  | item :: rest =>
    if item.kind = .method then
      if item.symbol ∈ methods then unhidden names methods rest
      else item :: unhidden names (item.symbol :: methods) rest
    else if item.name ∈ names then unhidden names methods rest
    else item :: unhidden (item.name :: names) methods rest

variable (r : Resolver)

def itemsOf (codebase : Codebase) (keep : Symbol → Bool) (handles : List Handle) : List Item :=
  handles.filterMap fun h => do
    let s ← codebase.table.symbol? h
    if keep s then return .ofSymbol (codebase.ref h) s else none

def itemsOfRefs (keep : Symbol → Bool) (members : List (SymbolRef × Bindings)) : List Item :=
  members.filterMap fun (ref,_) => do
    let (_,s) ← r.home.resolve? ref
    if keep s then return .ofSymbol ref s else none

def memberOffers (t : ResolvedType) : List Item := itemsOfRefs r (fun _ => true) (r.membersOf t)

def packageOffers (dotted : String) : List Item :=
  r.home.chain.flatMap fun c =>
    match c.table.package? dotted with
    | some package =>
      itemsOf c (fun s => s.kind.isTypeDecl) (c.table.membersOf package).handles
    | none => []

def singleImportOffers (i : Import) : List Item :=
  if i.isStatic then
    match r.type? (Text.dotted i.path.dropLast), i.simpleName? with
    | some owner, some name => itemsOfRefs r (·.isStatic) (r.members owner name)
    | _, _ => []
  else
    match r.type? (Text.dotted i.path) with
    | some t => itemsOfRefs r (fun _ => true) (t.class?.toList.map fun ref => (ref,{}))
    | none => []

def onDemandImportOffers (i : Import) : List Item :=
  if i.isStatic then
    match r.type? (Text.dotted i.path) with
    | some owner => itemsOfRefs r (·.isStatic) (r.membersOf owner)
    | none => []
  else packageOffers r (Text.dotted i.path)

def fileOffers (source : SourceFile) (members : Members) : List Item :=
  itemsOf r.home (fun _ => true) members.handles ++
  (source.imports.filter (!·.isOnDemand)).flatMap (singleImportOffers r) ++
  (source.imports.filter (·.isOnDemand)).flatMap (onDemandImportOffers r) ++
  packageOffers r (Text.dotted source.package) ++
  r.home.language.implicitPackages.flatMap (packageOffers r)

def isDeclared (cursor : Option UInt32) (s : Symbol) : Bool :=
  s.kind ≠ .value .localVariable ||
    match cursor with
    | some offset => s.span.start ≤ offset
    | none => true

def levelOffers (cursor : Option UInt32) (h : Handle) (s : Symbol) : List Item :=
  match s.body with
  | .method _ _ members => itemsOf r.home (isDeclared cursor) members.handles
  | .type .. =>
    memberOffers r (.ofSymbol (r.home.ref h)) ++ [.ofSymbol (r.home.ref h) s]
  | .file source members _ => fileOffers r source members
  | _ => []

def topLevelOffers : List Item :=
  packageOffers r "" ++
  r.home.chain.flatMap fun c =>
    match c.table.symbol? c.table.root with
    | some root => root.subpackages.entries.map fun (name,h) => ⟨name,.package,c.ref h⟩
    | none => []

def visible (cursor : Option UInt32) (scope : Handle) : List Item :=
  unhidden [] []
    ((r.home.table.scopeChain scope).levels.flatMap (fun (h,s) => levelOffers r cursor h s) ++
      topLevelOffers r)

def memberItems (t : ResolvedType) : List Item := unhidden [] [] (memberOffers r t)

end Completion

namespace Codebase

def resolveAt? (c : Codebase) (path : String) (offset : UInt32) (e : TypeExpr) :
    Option ResolvedType := do
  let scope ← c.table.scopeAt? path offset
  (Resolver.ofCodebase c).resolve e scope {}

def complete (c : Codebase) (path : String) (offset : UInt32) (typed : String) :
    List Completion.Item :=
  match c.table.scopeAt? path offset with
  | none => []
  | some scope =>
    Completion.rank typed c.settings.maxResults (·.name)
      (Completion.visible (.ofCodebase c) (some offset) scope)

end Codebase
end CodeIndex
