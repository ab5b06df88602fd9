import CodeIndex.ResolvedType

/-!
What resolution at one depth may ask of the depth below it.

Resolving an expression, finding the supertypes of a class and finding the bound of a type parameter
each go one level deeper. The rules are written against the answers of the level below; which level
that is, is decided in one place.
-/
namespace CodeIndex

/-- Whether an expression stands inside a declaration or in its header, where the declaration's own
members are not visible. -/
inductive Standpoint where
  | body
  | header
  deriving DecidableEq

structure Site where
  codebase : Codebase
  scope : Handle
  bindings : Bindings
  standpoint : Standpoint

structure Answers where
  resolve : Site → TypeExpr → Option ResolvedType
  superclasses : SymbolRef → Bindings → List ResolvedType
  owner : ResolvedType → Option ResolvedType

def Answers.deepest : Answers where
  resolve := fun _ _ => none
  superclasses := fun _ _ => []
  owner := fun t => if t.isTypeVar then none else some t

namespace Codebase

def rootType? (home seenFrom : Codebase) : Option ResolvedType := do
  let name ← home.language.rootType
  let ref ← seenFrom.type? (Text.segments name)
  return .ofSymbol ref

end Codebase

namespace Answers

variable (home : Codebase) (below : Answers)

def upperBound (t : ResolvedType) : Option ResolvedType :=
  match t.denoted with
  | .typeVar v => do
    let (codebase,s) ← home.resolve? v.owner
    let bound := (s.typeParameters.find? (·.name = v.name)).bind (·.bounds.head?)
    let resolved ← match bound with
      | some bound => below.resolve ⟨codebase,v.owner.handle,t.bindings,.header⟩ bound
      | none => home.rootType? codebase
    return { resolved with isArray := t.isArray }
  | _ => some t

def supertypes (t : ResolvedType) : List ResolvedType :=
  if t.isArray then (home.rootType? home).toList
  else match t.denoted with
    | .symbol ref => below.superclasses ref t.bindings
    | .typeVar _ => (upperBound home below t).toList
    | .primitive _ => []

def typeOf (ref : SymbolRef) (bindings : Bindings) : Option ResolvedType := do
  let (codebase,s) ← home.resolve? ref
  match s.body with
  | .value _ type => below.resolve ⟨codebase,← s.parent,bindings,.body⟩ type
  | .method header _ _ => below.resolve ⟨codebase,ref.handle,bindings,.body⟩ (← header.returnType)
  | .type .. => return { ResolvedType.ofSymbol ref with bindings }
  | _ => none

end Answers
end CodeIndex
