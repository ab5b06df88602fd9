import CodeIndex.Codebase

/-!
Types after their names have been looked up.

Bindings say what the type parameters of generic declarations stand for. Two sets of bindings are
equal when they bind the same parameters to equal types, in whatever order.
-/
namespace CodeIndex

structure TypeVar where
  owner : SymbolRef
  name : String
  deriving DecidableEq, Inhabited

inductive Denoted where
  | symbol (ref : SymbolRef)
  | primitive (p : Primitive)
  | typeVar (v : TypeVar)
  deriving DecidableEq, Inhabited

structure ResolvedType where
  denoted : Denoted
  isArray : Bool := false
  bindings : OrderedMap TypeVar ResolvedType := {}
  deriving Inhabited

abbrev Bindings := OrderedMap TypeVar ResolvedType

namespace ResolvedType

def ofSymbol (ref : SymbolRef) : ResolvedType := { denoted := .symbol ref }

def ofPrimitive (p : Primitive) : ResolvedType := { denoted := .primitive p }

def ofTypeVar (v : TypeVar) : ResolvedType := { denoted := .typeVar v }

def element (t : ResolvedType) : ResolvedType := { t with isArray := false }

def class? (t : ResolvedType) : Option SymbolRef :=
  match t.denoted with
  | .symbol ref => some ref
  | _ => none

def primitive? (t : ResolvedType) : Option Primitive :=
  match t.denoted with
  | .primitive p => if t.isArray then none else some p
  | _ => none

def isTypeVar (t : ResolvedType) : Bool :=
  match t.denoted with
  | .typeVar _ => true
  | _ => false

def isReference (t : ResolvedType) : Bool := t.primitive?.isNone

def sameType (t u : ResolvedType) : Bool := t.denoted = u.denoted && t.isArray = u.isArray

mutual

def equal : ResolvedType → ResolvedType → Bool
  | ⟨denoted,isArray,⟨entries⟩⟩, u =>
    denoted = u.denoted && isArray = u.isArray && entries.length = u.bindings.size &&
      boundIn u.bindings entries

def boundIn (other : OrderedMap TypeVar ResolvedType) : List (TypeVar × ResolvedType) → Bool
  | [] => true
  | (v,t) :: rest =>
    (match other.get? v with
      | some u => equal t u
      | none => false) && boundIn other rest

end

mutual

def mentions : ResolvedType → Nat
  | ⟨_,_,⟨entries⟩⟩ => 1 + mentionsIn entries

def mentionsIn : List (TypeVar × ResolvedType) → Nat
  | [] => 0
  | (_,t) :: rest => mentions t + mentionsIn rest

end

mutual

def decideEq : (t u : ResolvedType) → Decidable (t = u)
  | ⟨denoted,isArray,⟨entries⟩⟩, ⟨denoted',isArray',⟨entries'⟩⟩ =>
    have := decideEntries entries entries'
    decidable_of_iff (denoted = denoted' ∧ isArray = isArray' ∧ entries = entries') (by simp)

def decideEntries : (entries others : List (TypeVar × ResolvedType)) → Decidable (entries = others)
  | [], [] => .isTrue rfl
  | [], _ :: _ => .isFalse (by simp)
  | _ :: _, [] => .isFalse (by simp)
  | (v,t) :: rest, (w,u) :: others =>
    have := decideEq t u
    have := decideEntries rest others
    decidable_of_iff (v = w ∧ t = u ∧ rest = others) (by simp [and_assoc])

end

instance : DecidableEq ResolvedType := decideEq

end ResolvedType
end CodeIndex
