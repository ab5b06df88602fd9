import CodeIndex.Assignability

/-!
Choosing among methods of one name.

There are three phases: strict conversions only, loose conversions, and methods that take any number
of trailing arguments. The first phase in which a candidate applies decides. Among its candidates the
one that is more specific than all others is chosen, and the first one if there is none such.
-/
namespace CodeIndex

structure Signature where
  method : SymbolRef
  parameters : List (Option ResolvedType)
  isVariadic : Bool

namespace Signature

def expanded? (s : Signature) (arity : Nat) : Option (List ResolvedType) := do
  let parameters ← s.parameters.mapM id
  if !s.isVariadic then
    if parameters.length = arity then return parameters else none
  else
    let last ← parameters.getLast?
    let fixed := parameters.dropLast
    if arity < fixed.length then none
    else return fixed ++ List.replicate (arity - fixed.length) last.element

end Signature

namespace Resolver

variable (r : Resolver)

def signature? (name : String) (receiver : Bindings) (method : SymbolRef) : Option Signature := do
  let (codebase,s) ← r.home.resolve? method
  match s.body with
  | .method header parameters _ =>
    if s.name = name then
      return {
        method
        parameters := parameters.map fun p => r.typeOf (codebase.ref p) receiver
        isVariadic := header.isVariadic }
    else none
  | _ => none

def accepts (assignable : ResolvedType → ResolvedType → Bool) (param : Option ResolvedType)
    (arg : ResolvedType) : Bool :=
  match param with
  | some param => assignable arg param
  | none => false

def acceptsEach (assignable : ResolvedType → ResolvedType → Bool)
    (params : List (Option ResolvedType)) (args : List ResolvedType) : Bool :=
  (params.zip args).all fun (param,arg) => accepts assignable param arg

def appliesFixed (assignable : ResolvedType → ResolvedType → Bool) (args : List ResolvedType)
    (s : Signature) : Bool :=
  !s.isVariadic && s.parameters.length = args.length && acceptsEach assignable s.parameters args

/-- A method with trailing arguments applies: there are none, or one that goes to the array itself, or
all go to its element. -/
def appliesVariadic (args : List ResolvedType) (s : Signature) : Bool :=
  s.isVariadic &&
    match s.parameters.getLast? with
    | none => false
    | some last =>
      let fixed := s.parameters.dropLast
      let trailing := args.drop fixed.length
      let loosely := r.isLooselyAssignable
      fixed.length ≤ args.length && acceptsEach loosely fixed args &&
        (trailing.isEmpty ||
          (match trailing with
            | [only] => accepts loosely last only
            | _ => false) ||
          trailing.all (accepts loosely (last.map (·.element))))

def allAssignable (sources targets : List ResolvedType) : Bool :=
  (sources.zip targets).all fun (s,t) => r.isLooselyAssignable s t

def isMoreSpecific (left right : Option (List ResolvedType)) : Bool :=
  match left, right with
  | some left, some right =>
    left.length = right.length && r.allAssignable left right && !r.allAssignable right left
  | _, _ => false

def isMostSpecificAt (expanded : List (Option (List ResolvedType))) (i : Nat) : Bool :=
  match expanded[i]? with
  | none => false
  | some own =>
    expanded.zipIdx.all fun (other,j) => i = j || r.isMoreSpecific own other

def selectMostSpecific (arity : Nat) (applicable : List Signature) : Option SymbolRef :=
  match applicable with
  | [] => none
  | [only] => some only.method
  | first :: _ =>
    let expanded := applicable.map (·.expanded? arity)
    match (applicable.zipIdx.find? fun (_,i) => r.isMostSpecificAt expanded i) with
    | some (winner,_) => some winner.method
    | none => some first.method

def chooseOverload (name : String) (candidates : List SymbolRef) (args : List ResolvedType)
    (receiver : Bindings) : Option SymbolRef :=
  let signatures := candidates.filterMap (r.signature? name receiver)
  let strict := signatures.filter (appliesFixed r.isStrictlyAssignable args)
  if !strict.isEmpty then r.selectMostSpecific args.length strict
  else
    let loose := signatures.filter (appliesFixed r.isLooselyAssignable args)
    if !loose.isEmpty then r.selectMostSpecific args.length loose
    else
      let variadic := signatures.filter (r.appliesVariadic args)
      let declared := (variadic.map (·.parameters.length)).foldl max 0
      r.selectMostSpecific (max declared args.length) variadic

end Resolver
end CodeIndex
