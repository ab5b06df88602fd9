/-!
Texts cut at separators: dotted names, and canonical file paths.

Slash and backslash both separate. Empty and `.` segments vanish, and `..` cancels the segment
before it; where there is none it stays in a relative path and vanishes in an absolute one.
-/
namespace CodeIndex.Text

def cut (isSeparator : Char → Bool) : List Char → List (List Char)
  | [] => [[]]
  | c :: rest =>
    if isSeparator c then [] :: cut isSeparator rest
    else match cut isSeparator rest with
      | [] => [[c]]
      | piece :: pieces => (c :: piece) :: pieces

def segments (dotted : String) : List String :=
  ((cut (· = '.') dotted.toList).filter (!·.isEmpty)).map String.ofList

def dotted (segments : List String) : String := String.intercalate "." segments

end CodeIndex.Text

namespace CodeIndex.Path

def isSeparator (c : Char) : Bool := c = '/' || c = '\\'

def isAbsolute : List Char → Bool
  | [] => false
  | c :: _ => isSeparator c

def fold (absolute : Bool) (kept : List (List Char)) (segment : List Char) : List (List Char) :=
  if segment = [] || segment = ['.'] then kept
  else if segment = ['.','.'] then
    match kept with
    | [] => if absolute then [] else [segment]
    | last :: earlier =>
      if last ≠ ['.','.'] then earlier
      else if absolute then kept
      else segment :: kept
  else segment :: kept

def keptSegments (path : List Char) : List (List Char) :=
  ((Text.cut isSeparator path).foldl (fold (isAbsolute path)) []).reverse

def normalize (path : String) : String :=
  let chars := path.toList
  let joined := ['/'].intercalate (keptSegments chars)
  String.ofList (if isAbsolute chars then '/' :: joined else joined)

end CodeIndex.Path
