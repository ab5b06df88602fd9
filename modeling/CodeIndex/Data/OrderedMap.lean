/-!
Finite maps that remember the order in which keys were first bound.

Binding a key again keeps its place; erasing closes the gap.
-/
namespace CodeIndex

structure OrderedMap (κ : Type u) (α : Type v) where
  entries : List (κ × α) := []
  deriving DecidableEq, Inhabited

namespace OrderedMap

variable {κ : Type u} {α : Type v}

def keys (m : OrderedMap κ α) : List κ := m.entries.map Prod.fst

def values (m : OrderedMap κ α) : List α := m.entries.map Prod.snd

def size (m : OrderedMap κ α) : Nat := m.entries.length

def isEmpty (m : OrderedMap κ α) : Bool := m.entries.isEmpty

section
variable [DecidableEq κ]

def lookup (key : κ) : List (κ × α) → Option α
  | [] => none
  | (k,a) :: rest => if k = key then some a else lookup key rest

def get? (m : OrderedMap κ α) (key : κ) : Option α := lookup key m.entries

def put (key : κ) (f : Option α → α) : List (κ × α) → List (κ × α)
  | [] => [(key,f none)]
  | (k,a) :: rest => if k = key then (k,f (some a)) :: rest else (k,a) :: put key f rest

def alter (m : OrderedMap κ α) (key : κ) (f : Option α → α) : OrderedMap κ α :=
  ⟨put key f m.entries⟩

def insert (m : OrderedMap κ α) (key : κ) (a : α) : OrderedMap κ α := m.alter key fun _ => a

def erase (m : OrderedMap κ α) (key : κ) : OrderedMap κ α :=
  ⟨m.entries.filter fun entry => entry.1 ≠ key⟩

end
end OrderedMap
end CodeIndex
