import CodeIndex.Failure

/-!
Values of the innermost span at an offset.

The map is a row of disjoint pieces, each cut from one inserted span, its origin. A new span takes
over the parts of pieces whose origin covers it, leaves the parts of all other pieces, and fills the
gaps. When spans are nested or disjoint the innermost one therefore wins, in whatever order they are
inserted; of equal spans the last one wins.
-/
namespace CodeIndex

structure SpanMap.Piece (α : Type u) where
  start : UInt32
  stop : UInt32
  origin : Span
  value : α

structure SpanMap (α : Type u) where
  pieces : List (SpanMap.Piece α) := []

namespace SpanMap

variable {α : Type u}

instance : Inhabited (SpanMap α) := ⟨{}⟩

def Piece.between (start stop : UInt32) (origin : Span) (value : α) : List (Piece α) :=
  if start < stop then [⟨start,stop,origin,value⟩] else []

def Piece.contains (p : Piece α) (offset : UInt32) : Bool := p.start ≤ offset && offset < p.stop

/-- Lay `span` over a row of pieces. Everything of the span before `cursor` is already placed. -/
def overlay (span : Span) (value : α) (cursor : UInt32) : List (Piece α) → List (Piece α)
  | [] => Piece.between cursor span.stop span value
  | p :: rest =>
    if p.stop ≤ span.start then p :: overlay span value cursor rest
    else if span.stop ≤ p.start then Piece.between cursor span.stop span value ++ p :: rest
    else
      let innerStart := max p.start span.start
      let innerStop := min p.stop span.stop
      Piece.between p.start span.start p.origin p.value ++
      Piece.between cursor innerStart span value ++
      (if p.origin.covers span then Piece.between innerStart innerStop span value
       else Piece.between innerStart innerStop p.origin p.value) ++
      Piece.between span.stop p.stop p.origin p.value ++
      overlay span value innerStop rest

def join (p : Piece α) : List (Piece α) → List (Piece α)
  | [] => [p]
  | q :: rest =>
    if p.stop = q.start ∧ p.origin = q.origin then { p with stop := q.stop } :: rest
    else p :: q :: rest

def insert (m : SpanMap α) (span : Span) (value : α) : Except Failure (SpanMap α) :=
  if span.isInverted then .error (.invertedSpan span.start span.stop)
  else if span.isEmpty then .ok m
  else .ok ⟨(overlay span value span.start m.pieces).foldr join []⟩

def ofList (spans : List (Span × α)) : Except Failure (SpanMap α) :=
  spans.foldlM (fun m (span,value) => m.insert span value) {}

def at? (m : SpanMap α) (offset : UInt32) : Option α :=
  (m.pieces.find? (·.contains offset)).map (·.value)

def isEmpty (m : SpanMap α) : Bool := m.pieces.isEmpty

def toList (m : SpanMap α) : List (Span × α) :=
  m.pieces.map fun p => (⟨p.start,p.stop⟩,p.value)

end SpanMap
end CodeIndex
