import CodeIndex.Text.LetterCase.Tables

/-!
Lowercase of a text, over the whole character set.

Every letter is mapped on its own except one: a capital sigma that ends a word becomes `ς`. A
capital `İ` becomes two characters, so the lowercase of a text can be longer than the text.
-/
namespace CodeIndex.LetterCase

def within (intervals : List (Nat × Nat)) (c : Char) : Bool :=
  intervals.any fun (first,last) => first ≤ c.toNat && c.toNat ≤ last

def isSkipped (c : Char) : Bool := within skippedIntervals c

def isCased (c : Char) : Bool := within casedIntervals c

def Run.covers (run : Run) (code : Nat) : Bool :=
  run.first ≤ code && code ≤ run.last && (code - run.first) % run.step = 0

def lowerChar (c : Char) : List Char :=
  if c.toNat < 0x80 then [c.toLower]
  else if c = 'İ' then ['i','\u0307']
  else match lowercaseRuns.find? (·.covers c.toNat) with
    | some run => [Char.ofNat (Int.toNat (c.toNat + run.shift))]
    | none => [c]

def startsCased (cs : List Char) : Bool :=
  match cs.dropWhile isSkipped with
  | [] => false
  | c :: _ => isCased c

/-- Lowercase of the rest of a text; `afterCased` says whether the nearest earlier character that is
not skipped is cased. -/
def lowerFrom (afterCased : Bool) : List Char → List Char
  | [] => []
  | c :: rest =>
    let lowered :=
      if c = 'Σ' then [if afterCased && !startsCased rest then 'ς' else 'σ'] else lowerChar c
    lowered ++ lowerFrom (if isSkipped c then afterCased else isCased c) rest

def lower (text : String) : String :=
  String.ofList (lowerFrom false text.toList)

end CodeIndex.LetterCase
