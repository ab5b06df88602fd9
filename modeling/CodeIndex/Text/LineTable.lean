import CodeIndex.Text.Span

/-!
Conversion between byte offsets and positions.

Columns count bytes from the start of the line. The first line starts at offset zero; the table
lists where the others start.
-/
namespace CodeIndex

inductive Overflow where
  | addition
  | subtraction
  deriving DecidableEq

def Overflow.message : Overflow → String
  | .addition => "attempt to add with overflow"
  | .subtraction => "attempt to subtract with overflow"

structure LineTable where
  laterStarts : List UInt32 := []
  length : UInt32 := 0
  deriving DecidableEq, Inhabited

namespace LineTable

def startsAfter (offset : Nat) : List Char → List UInt32
  | [] => []
  | c :: rest =>
    let next := offset + c.utf8Size
    if c = '\n' then UInt32.ofNat next :: startsAfter next rest else startsAfter next rest

def ofText (text : String) : LineTable where
  laterStarts := startsAfter 0 text.toList
  length := UInt32.ofNat text.utf8ByteSize

def insertStart (start : UInt32) : List UInt32 → List UInt32
  | [] => [start]
  | first :: rest =>
    if start < first then start :: first :: rest
    else if start = first then first :: rest
    else first :: insertStart start rest

def ofStarts (starts : List UInt32) (length : UInt32) : LineTable where
  laterStarts := (starts.filter (· ≠ 0)).foldl (fun kept start => insertStart start kept) []
  length := length

def starts (table : LineTable) : List UInt32 := 0 :: table.laterStarts

def lineCount (table : LineTable) : Nat := table.starts.length

def lineEnd? (table : LineTable) (line : Nat) : Except Overflow UInt32 :=
  match table.starts[line + 1]? with
  | some next => if next = 0 then .error .subtraction else .ok (next - 1)
  | none => .ok table.length

/-- Offset of a position, `none` when there is no such line. A column past the end of its line is
moved back to the end. -/
def offset? (table : LineTable) (p : Position) : Except Overflow (Option UInt32) :=
  match table.starts[p.line.toNat]? with
  | none => .ok none
  | some start => do
    let lineEnd ← table.lineEnd? p.line.toNat
    if start.toNat + p.column.toNat < UInt32.size then
      return some (min (start + p.column) lineEnd)
    else throw .addition

def position (table : LineTable) (offset : UInt32) : Position :=
  let offset := min offset table.length
  let before := table.laterStarts.takeWhile (· ≤ offset)
  { line := UInt32.ofNat before.length, column := offset - before.getLastD 0 }

end LineTable
end CodeIndex
