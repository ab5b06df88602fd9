import CodeIndex.Json.Reader

/-!
Writing a value as text.

No blanks stand between the parts. Inside quotes only the quote, the backslash and control characters
are escaped, each by its letter where it has one. A text that holds nothing is written as a surrogate
without its partner.
-/
namespace CodeIndex.Json

def letter? : Char → Option Char
  | '"' => some '"'
  | '\\' => some '\\'
  | '\x08' => some 'b'
  | '\x0c' => some 'f'
  | '\n' => some 'n'
  | '\r' => some 'r'
  | '\t' => some 't'
  | _ => none

def escaped (c : Char) : List Char :=
  match letter? c with
  | some letter => ['\\',letter]
  | none =>
    if c.toNat < 0x20 then
      ['\\','u','0','0',Nat.digitChar (c.toNat / 16),Nat.digitChar (c.toNat % 16)]
    else [c]

def quote : Option String → List Char
  | some content => '"' :: (content.toList.flatMap escaped ++ ['"'])
  | none => ['"','\\','u','d','8','0','0','"']

mutual

def chars : Json → List Char
  | .null => ['n','u','l','l']
  | .bool true => ['t','r','u','e']
  | .bool false => ['f','a','l','s','e']
  | .natural value => Nat.toDigits 10 value
  | .numeral literal => literal.toList
  | .text content => quote content
  | .list items => '[' :: itemsChars items
  | .record fields => '\x7b' :: fieldsChars fields

def itemsChars : List Json → List Char
  | [] => [']']
  | first :: rest => first.chars ++ furtherItems rest

def furtherItems : List Json → List Char
  | [] => [']']
  | next :: rest => ',' :: (next.chars ++ furtherItems rest)

def fieldsChars : List (Option String × Json) → List Char
  | [] => ['\x7d']
  | (name,value) :: rest => quote name ++ ':' :: (value.chars ++ furtherFields rest)

def furtherFields : List (Option String × Json) → List Char
  | [] => ['\x7d']
  | (name,value) :: rest => ',' :: (quote name ++ ':' :: (value.chars ++ furtherFields rest))

end

def write (j : Json) : String := String.ofList j.chars

end CodeIndex.Json
