import CodeIndex.Resolver.Answers

/-!
Walks up the type hierarchy, level by level.

A walk visits each class once, in the order in which it was first reached. Every class reached is a
symbol of the chain or is mentioned by the type the walk started from, which bounds the walk.
-/
namespace CodeIndex.Answers

def nextClass (visited : List SymbolRef) :
    List ResolvedType → Option (SymbolRef × ResolvedType × List ResolvedType)
  | [] => none
  | t :: rest =>
    match t.class? with
    | some c => if c ∈ visited then nextClass visited rest else some (c,t,rest)
    | none => nextClass visited rest

def closure (next : ResolvedType → List ResolvedType) :
    Nat → List SymbolRef → List ResolvedType → List ResolvedType
  | 0, _, _ => []
  | fuel + 1, visited, queue =>
    match nextClass visited queue with
    | none => []
    | some (c,t,rest) => t :: closure next fuel (c :: visited) (rest ++ next t)

def firstFound (next : ResolvedType → List ResolvedType) (found : ResolvedType → List β) :
    Nat → List SymbolRef → List ResolvedType → List β
  | 0, _, _ => []
  | fuel + 1, visited, queue =>
    match nextClass visited queue with
    | none => []
    | some (c,t,rest) =>
      match found t with
      | [] => firstFound next found fuel (c :: visited) (rest ++ next t)
      | hits => hits

variable (home : Codebase) (below : Answers)

/-- More classes than any walk from a type can visit. -/
def reach (t : ResolvedType) : Nat := home.slotCount + t.mentions + 1

def ancestors (t : ResolvedType) : List ResolvedType :=
  closure (supertypes home below) (reach home t) t.class?.toList (supertypes home below t)

def isSubclass (t u : ResolvedType) : Bool :=
  match t.class?, u.class? with
  | some c, some d => c = d || (ancestors home below t.element).any (·.class? = some d)
  | _, _ => false

def declaringCodebase? (t : ResolvedType) : Option Codebase := do
  home.member? (← t.class?).codebase

/-- Supertypes of a type whose codebase is in the chain; a foreign type leads nowhere. -/
def homeSupertypes (t : ResolvedType) : List ResolvedType :=
  match declaringCodebase? home t with
  | some _ => supertypes home below t
  | none => []

def declaredMembers (name : String) (accept : Symbol → Bool) (t : ResolvedType) :
    List (SymbolRef × Bindings) :=
  match t.class?, declaringCodebase? home t with
  | some c, some codebase =>
    ((codebase.table.declared c.handle name).filter fun h =>
        match codebase.table.symbol? h with
        | some s => accept s
        | none => false).map fun h => (codebase.ref h,t.bindings)
  | _, _ => []

def walkStart? (t : ResolvedType) : Option ResolvedType := do
  let start ← below.owner t
  if start.isArray then none else return start

def memberLevels (t : ResolvedType) : List ResolvedType :=
  match walkStart? below t with
  | none => []
  | some start => closure (homeSupertypes home below) (reach home t) [] [start]

def membersWhere (t : ResolvedType) (name : String) (accept : Symbol → Bool) :
    List (SymbolRef × Bindings) :=
  match walkStart? below t with
  | none => []
  | some start =>
    firstFound (homeSupertypes home below) (declaredMembers home name accept) (reach home t) [] [start]

def allMembers (t : ResolvedType) (name : String) : List (SymbolRef × Bindings) :=
  (memberLevels home below t).flatMap fun level =>
    match level.class?, declaringCodebase? home level with
    | some c, some codebase =>
      (codebase.table.declared c.handle name).map fun h => (codebase.ref h,level.bindings)
    | _, _ => []

def membersOf (t : ResolvedType) : List (SymbolRef × Bindings) :=
  (memberLevels home below t).flatMap fun level =>
    match level.class?, declaringCodebase? home level with
    | some c, some codebase =>
      (codebase.table.membersOf c.handle).handles.map fun h => (codebase.ref h,level.bindings)
    | _, _ => []

end CodeIndex.Answers
