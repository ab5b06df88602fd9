import CodeIndex.Json.Basic

/-!
Reading a value from text.

The notation is strict: four blank characters, no leading zeros, no control characters inside quotes,
nothing but blanks after the value. Nesting is not limited here.
-/
namespace CodeIndex.Json

inductive Atom where
  | char (c : Char)
  | unit (code : Nat)

def isBlank (c : Char) : Bool := c = ' ' || c = '\t' || c = '\n' || c = '\r'

def skipBlanks (cs : List Char) : List Char := cs.dropWhile isBlank

def expect : List Char → List Char → Option (List Char)
  | [], cs => some cs
  | w :: word, c :: cs => if w = c then expect word cs else none
  | _ :: _, [] => none

def hexDigit? (c : Char) : Option Nat :=
  if '0' ≤ c ∧ c ≤ '9' then some (c.toNat - 48)
  else if 'a' ≤ c ∧ c ≤ 'f' then some (c.toNat - 87)
  else if 'A' ≤ c ∧ c ≤ 'F' then some (c.toNat - 55)
  else none

def hex4? (a b c d : Char) : Option Nat := do
  let a ← hexDigit? a
  let b ← hexDigit? b
  let c ← hexDigit? c
  let d ← hexDigit? d
  return ((a * 16 + b) * 16 + c) * 16 + d

def escape? : Char → Option Char
  | '"' => some '"'
  | '\\' => some '\\'
  | '/' => some '/'
  | 'b' => some '\x08'
  | 'f' => some '\x0c'
  | 'n' => some '\n'
  | 'r' => some '\r'
  | 't' => some '\t'
  | _ => none

def atoms : List Char → Option (List Atom × List Char)
  | [] => none
  | '"' :: rest => some ([],rest)
  | '\\' :: 'u' :: a :: b :: c :: d :: rest => do
    let code ← hex4? a b c d
    let (more,rest) ← atoms rest
    return (.unit code :: more,rest)
  | '\\' :: e :: rest => do
    let c ← escape? e
    let (more,rest) ← atoms rest
    return (.char c :: more,rest)
  | c :: rest =>
    if c.toNat < 0x20 then none
    else if c = '\\' then none
    else do
      let (more,rest) ← atoms rest
      return (.char c :: more,rest)

def isHighSurrogate (code : Nat) : Bool := 0xD800 ≤ code && code < 0xDC00

def isLowSurrogate (code : Nat) : Bool := 0xDC00 ≤ code && code < 0xE000

def spell : List Atom → Option (List Char)
  | [] => some []
  | .char c :: rest => (spell rest).map (c :: ·)
  | .unit high :: .unit low :: rest =>
    if isHighSurrogate high then
      if isLowSurrogate low then
        (spell rest).map (Char.ofNat (0x10000 + (high - 0xD800) * 0x400 + (low - 0xDC00)) :: ·)
      else none
    else if isLowSurrogate high then none
    else (spell (.unit low :: rest)).map (Char.ofNat high :: ·)
  | .unit code :: rest =>
    if isHighSurrogate code || isLowSurrogate code then none
    else (spell rest).map (Char.ofNat code :: ·)

def quoted (cs : List Char) : Option (Option String × List Char) := do
  let (steps,rest) ← atoms cs
  return ((spell steps).map String.ofList,rest)

def digits (cs : List Char) : List Char × List Char :=
  (cs.takeWhile Char.isDigit,cs.dropWhile Char.isDigit)

def digits1 (cs : List Char) : Option (List Char × List Char) :=
  match digits cs with
  | ([],_) => none
  | found => some found

def wholePart (cs : List Char) : Option (List Char × List Char) := do
  let (found,rest) ← digits1 cs
  match found with
  | '0' :: _ :: _ => none
  | _ => return (found,rest)

def fraction : List Char → Option (List Char × List Char)
  | '.' :: rest => (digits1 rest).map fun (found,rest) => ('.' :: found,rest)
  | rest => some ([],rest)

def exponent : List Char → Option (List Char × List Char)
  | e :: rest =>
    if e = 'e' || e = 'E' then
      match rest with
      | s :: more =>
        if s = '+' || s = '-' then
          (digits1 more).map fun (found,rest) => (e :: s :: found,rest)
        else (digits1 rest).map fun (found,rest) => (e :: found,rest)
      | [] => none
    else some ([],e :: rest)
  | [] => some ([],[])

def decimalValue (ds : List Char) : Nat :=
  ds.foldl (fun n d => n * 10 + (d.toNat - 48)) 0

def unsigned (sign : List Char) (cs : List Char) : Option (Json × List Char) := do
  let (whole,rest) ← wholePart cs
  let (frac,rest) ← fraction rest
  let (exp,rest) ← exponent rest
  if sign.isEmpty && frac.isEmpty && exp.isEmpty then
    return (.natural (decimalValue whole),rest)
  else return (.numeral (String.ofList (sign ++ whole ++ frac ++ exp)),rest)

mutual

def value : Nat → List Char → Option (Json × List Char)
  | 0, _ => none
  | fuel + 1, cs =>
    match skipBlanks cs with
    | [] => none
    | '"' :: rest => (quoted rest).map fun (content,rest) => (.text content,rest)
    | '[' :: rest =>
      match skipBlanks rest with
      | ']' :: rest => some (.list [],rest)
      | rest => (items fuel rest).map fun (found,rest) => (.list found,rest)
    | '\x7b' :: rest =>
      match skipBlanks rest with
      | '\x7d' :: rest => some (.record [],rest)
      | rest => (fields fuel rest).map fun (found,rest) => (.record found,rest)
    | '-' :: rest => unsigned ['-'] rest
    | 'n' :: rest => (expect "ull".toList rest).map fun rest => (.null,rest)
    | 't' :: rest => (expect "rue".toList rest).map fun rest => (.bool true,rest)
    | 'f' :: rest => (expect "alse".toList rest).map fun rest => (.bool false,rest)
    | rest => unsigned [] rest

def items : Nat → List Char → Option (List Json × List Char)
  | 0, _ => none
  | fuel + 1, cs => do
    let (first,rest) ← value fuel cs
    match skipBlanks rest with
    | ',' :: rest =>
      let (more,rest) ← items fuel rest
      return (first :: more,rest)
    | ']' :: rest => return ([first],rest)
    | _ => none

def fields : Nat → List Char → Option (List (Option String × Json) × List Char)
  | 0, _ => none
  | fuel + 1, cs =>
    match skipBlanks cs with
    | '"' :: rest => do
      let (key,rest) ← quoted rest
      let rest ← expect [':'] (skipBlanks rest)
      let (first,rest) ← value fuel rest
      match skipBlanks rest with
      | ',' :: rest =>
        let (more,rest) ← fields fuel rest
        return ((key,first) :: more,rest)
      | '\x7d' :: rest => return ([(key,first)],rest)
      | _ => none
    | _ => none

end

/-- The value a text spells. Each bracket takes one character and at most two steps, so twice the
length of the text is enough steps for every text. -/
def parse? (text : String) : Option Json :=
  let cs := text.toList
  match value (2 * cs.length + 2) cs with
  | some (found,rest) => if (skipBlanks rest).isEmpty then some found else none
  | none => none

end CodeIndex.Json
