import CodeIndex.Resolver.Lookup

/-!
Resolving types from the point of view of one codebase.
-/
namespace CodeIndex

structure Resolver where
  home : Codebase
  depth : Nat

namespace Resolver

def ofCodebase (home : Codebase) : Resolver := ⟨home,home.settings.maxDepth.toNat⟩

def answers (r : Resolver) : Answers := .atDepth r.home r.depth

def resolve (r : Resolver) (e : TypeExpr) (scope : Handle) (bindings : Bindings) :
    Option ResolvedType :=
  r.answers.resolve ⟨r.home,scope,bindings,.body⟩ e

def supertypes (r : Resolver) (t : ResolvedType) : List ResolvedType := r.answers.supertypes r.home t

def ancestors (r : Resolver) (t : ResolvedType) : List ResolvedType := r.answers.ancestors r.home t

def isSubclass (r : Resolver) (t u : ResolvedType) : Bool := r.answers.isSubclass r.home t u

def upperBound (r : Resolver) (t : ResolvedType) : Option ResolvedType :=
  r.answers.upperBound r.home t

def typeOf (r : Resolver) (ref : SymbolRef) (bindings : Bindings) : Option ResolvedType :=
  r.answers.typeOf r.home ref bindings

def members (r : Resolver) (t : ResolvedType) (name : String) : List (SymbolRef × Bindings) :=
  r.answers.membersWhere r.home t name fun _ => true

def allMembers (r : Resolver) (t : ResolvedType) (name : String) : List (SymbolRef × Bindings) :=
  r.answers.allMembers r.home t name

def membersOf (r : Resolver) (t : ResolvedType) : List (SymbolRef × Bindings) :=
  r.answers.membersOf r.home t

def type? (r : Resolver) (dotted : String) : Option ResolvedType :=
  (r.home.type? (Text.segments dotted)).map .ofSymbol

def nameOf? (r : Resolver) (t : ResolvedType) : Option String :=
  match t.denoted with
  | .primitive p => some p.keyword
  | .typeVar v => some v.name
  | .symbol ref => (r.home.resolve? ref).map fun (_,s) => s.qualifiedName

mutual

def write? (r : Resolver) : ResolvedType → Option TypeExpr
  | ⟨.primitive p,isArray,_⟩ => some { TypeExpr.simple p.keyword with isArray }
  | ⟨.typeVar v,isArray,_⟩ => some { TypeExpr.simple v.name with isArray }
  | ⟨.symbol ref,isArray,⟨entries⟩⟩ =>
    (r.home.resolve? ref).map fun (_,s) =>
      let arguments := s.typeParameters.mapM fun p => r.writeBound? ⟨ref,p.name⟩ entries
      { TypeExpr.named s.qualifiedName with arguments := arguments.getD [], isArray }

def writeBound? (r : Resolver) (v : TypeVar) : List (TypeVar × ResolvedType) → Option TypeExpr
  | [] => none
  | (w,t) :: rest => if w = v then r.write? t else r.writeBound? v rest

end

end Resolver
end CodeIndex
