import CodeIndex.Symbol
import CodeIndex.Text.Path

/-!
The symbols of one codebase: a package tree with files hanging off it, and an index of files by path.

Questions never fail; a handle that no longer holds a symbol finds nothing.
-/
namespace CodeIndex

structure SymbolTable where
  symbols : Arena Symbol
  root : Handle
  files : OrderedMap String Handle := {}
  deriving Inhabited

structure ScopeChain where
  levels : List (Handle × Symbol)
  isComplete : Bool

namespace SymbolTable

def empty : SymbolTable :=
  let (root,symbols) := (default : Arena Symbol).insert { name := "", body := .package {} [] {} }
  { symbols, root }

def symbol? (t : SymbolTable) (h : Handle) : Option Symbol := t.symbols.get? h

def isLive (t : SymbolTable) (h : Handle) : Bool := t.symbols.contains h

def count (t : SymbolTable) : Nat := t.symbols.count

def membersOf (t : SymbolTable) (scope : Handle) : Members :=
  match t.symbol? scope with
  | some s => s.members?.getD {}
  | none => {}

def declared (t : SymbolTable) (scope : Handle) (name : String) : List Handle :=
  (t.membersOf scope).under name

def file? (t : SymbolTable) (path : String) : Option Handle := t.files.get? (Path.normalize path)

def subpackage? (t : SymbolTable) (package : Handle) (name : String) : Option Handle := do
  (← t.symbol? package).subpackages.get? name

def package? (t : SymbolTable) (dotted : String) : Option Handle :=
  (Text.segments dotted).foldlM t.subpackage? t.root

/-- One step down from a scope; a member comes before a subpackage of its name. -/
def child? (t : SymbolTable) (scope : Handle) (name : String) : Option Handle :=
  match t.declared scope name with
  | h :: _ => some h
  | [] => t.subpackage? scope name

def along? (t : SymbolTable) (path : List String) : Option Handle := path.foldlM t.child? t.root

def qualified? (t : SymbolTable) (dotted : String) : Option Handle := t.along? (Text.segments dotted)

def qualifiedName? (t : SymbolTable) (h : Handle) : Option String :=
  (t.symbol? h).map (·.qualifiedName)

def enclosing? (t : SymbolTable) (h : Handle) : Option Handle := do (← t.symbol? h).parent

def climb (t : SymbolTable) : Nat → Handle → ScopeChain
  | 0, _ => ⟨[],false⟩
  | fuel + 1, h =>
    match t.symbol? h with
    | none => ⟨[],false⟩
    | some s =>
      match s.parent with
      | none => ⟨[(h,s)],true⟩
      | some parent =>
        let outer := t.climb fuel parent
        ⟨(h,s) :: outer.levels,outer.isComplete⟩

/-- A scope and its owners. Every level is another slot, so the slots bound the climb. -/
def scopeChain (t : SymbolTable) (scope : Handle) : ScopeChain :=
  t.climb t.symbols.slots.size scope

def fileOf? (t : SymbolTable) (h : Handle) : Option Handle :=
  ((t.scopeChain h).levels.find? fun (_,s) => s.kind = .file).map (·.1)

def scopeAt? (t : SymbolTable) (path : String) (offset : UInt32) : Option Handle := do
  let file ← t.file? path
  match (← t.symbol? file).body with
  | .file _ _ scopes =>
    match scopes.at? offset with
    | some scope => if t.isLive scope then some scope else some file
    | none => some file
  | _ => none

def scopeAtPosition? (t : SymbolTable) (path : String) (p : Position) :
    Except Overflow (Option Handle) :=
  match t.file? path with
  | none => .ok none
  | some file =>
    match (t.symbol? file).bind (·.source?) with
    | none => .ok none
    | some source =>
      match source.lines.offset? p with
      | .error e => .error e
      | .ok (some offset) => .ok (t.scopeAt? path offset)
      | .ok none => .ok (some file)

end SymbolTable
end CodeIndex
