/-!
Half-open spans of byte offsets, and zero-based positions.

A span may be written with its start after its stop; such a span is empty, and is refused where a
declaration is indexed.
-/
namespace CodeIndex

structure Span where
  start : UInt32 := 0
  stop : UInt32 := 0
  deriving DecidableEq, Inhabited

structure Position where
  line : UInt32 := 0
  column : UInt32 := 0
  deriving DecidableEq, Inhabited

namespace Span

def isEmpty (s : Span) : Bool := s.stop ≤ s.start

def isInverted (s : Span) : Bool := s.stop < s.start

def length (s : Span) : UInt32 := if s.isEmpty then 0 else s.stop - s.start

def contains (s : Span) (offset : UInt32) : Bool := s.start ≤ offset && offset < s.stop

def covers (s other : Span) : Bool := s.start ≤ other.start && other.stop ≤ s.stop

def overlaps (s other : Span) : Bool := s.start < other.stop && other.start < s.stop

def compare (s other : Span) : Ordering :=
  (Ord.compare s.start other.start).then (Ord.compare s.stop other.stop)

def text (s : Span) : String :=
  "[" ++ toString s.start.toNat ++ "," ++ toString s.stop.toNat ++ ")"

end Span
end CodeIndex
