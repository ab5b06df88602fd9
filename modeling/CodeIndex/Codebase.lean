import CodeIndex.Language
import CodeIndex.Settings
import CodeIndex.SymbolTable.Files

/-!
Codebases and the codebases they depend on.

Names are searched in a codebase and then in its dependencies, depth first in the order in which they
were added, each codebase once.
-/
namespace CodeIndex

structure Codebase where
  id : Nat
  name : String
  language : Language
  settings : Settings
  table : SymbolTable := .empty
  dependencies : List Codebase := []
  deriving Inhabited

structure SymbolRef where
  codebase : Nat
  handle : Handle
  deriving DecidableEq, Inhabited

namespace Codebase

mutual

def visit (listed : List Codebase) : Codebase → List Codebase
  | ⟨id,name,language,settings,table,dependencies⟩ =>
    if listed.any (·.id = id) then listed
    else visitAll (listed ++ [⟨id,name,language,settings,table,dependencies⟩]) dependencies

def visitAll (listed : List Codebase) : List Codebase → List Codebase
  | [] => listed
  | c :: rest => visitAll (visit listed c) rest

end

def chain (c : Codebase) : List Codebase := visit [] c

def member? (c : Codebase) (id : Nat) : Option Codebase := c.chain.find? (·.id = id)

def resolve? (c : Codebase) (ref : SymbolRef) : Option (Codebase × Symbol) := do
  let home ← c.member? ref.codebase
  let s ← home.table.symbol? ref.handle
  return (home,s)

def ref (c : Codebase) (h : Handle) : SymbolRef := ⟨c.id,h⟩

def addDependency (c dependency : Codebase) : Codebase :=
  if c.chain.any (·.id = dependency.id) then c
  else { c with dependencies := c.dependencies ++ [dependency] }

def ownType? (c : Codebase) (path : List String) : Option SymbolRef := do
  let h ← c.table.along? path
  let s ← c.table.symbol? h
  if s.kind.isTypeDecl then return c.ref h else none

/-- The type of a path of names in the first codebase of the chain that has one. Names may themselves
be dotted. -/
def type? (c : Codebase) (path : List String) : Option SymbolRef :=
  if path.isEmpty then none
  else
    let names := path.flatMap Text.segments
    c.chain.findSome? (·.ownType? names)

def hasPackage (c : Codebase) (dotted : String) : Bool :=
  c.chain.any fun d => (d.table.package? dotted).isSome

def slotCount (c : Codebase) : Nat :=
  c.chain.foldl (fun total d => total + d.table.symbols.slots.size) 0

def putFile (c : Codebase) (decl : FileDecl) : Except Failure SymbolRef × Codebase :=
  let (result,table) := c.table.putFile decl
  (result.map c.ref,{ c with table })

def dropFile (c : Codebase) (path : String) : Bool × Codebase :=
  let (dropped,table) := c.table.dropFile path
  (dropped,{ c with table })

def attach (c : Codebase) (scope : Handle) (d : Draft) : Except Failure (SymbolRef × Codebase) := do
  let (h,table) ← c.table.attach scope d
  return (c.ref h,{ c with table })

end Codebase
end CodeIndex
