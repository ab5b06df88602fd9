/-!
Conventions of a programming language that declarations do not state: primitive types, how they
widen and box, packages imported into every file, and the type above all others.
-/
namespace CodeIndex

inductive Primitive where
  | boolean
  | byte
  | short
  | char
  | int
  | long
  | float
  | double
  | void
  deriving DecidableEq, Inhabited

namespace Primitive

def all : List Primitive := [.boolean,.byte,.short,.char,.int,.long,.float,.double,.void]

def keyword : Primitive → String
  | .boolean => "boolean"
  | .byte => "byte"
  | .short => "short"
  | .char => "char"
  | .int => "int"
  | .long => "long"
  | .float => "float"
  | .double => "double"
  | .void => "void"

def ofKeyword? (word : String) : Option Primitive := all.find? (·.keyword = word)

end Primitive

structure Language where
  name : String
  typeNames : List (String × Primitive) := []
  widenings : List (Primitive × Primitive) := []
  boxes : List (Primitive × String) := []
  implicitPackages : List String := []
  rootType : Option String := none
  deriving Inhabited

namespace Language

def primitive? (l : Language) (name : String) : Option Primitive :=
  (l.typeNames.find? (·.1 = name)).map (·.2)

def widens (l : Language) (source target : Primitive) : Bool :=
  l.widenings.contains (source,target)

def box? (l : Language) (p : Primitive) : Option String :=
  (l.boxes.find? (·.1 = p)).map (·.2)

def unbox? (l : Language) (qualified : String) : Option Primitive :=
  Primitive.all.find? fun p => l.box? p = some qualified

def bare : Language := { name := "bare" }

def java : Language where
  name := "java"
  typeNames := Primitive.all.map fun p => (p.keyword,p)
  widenings := [
    (.byte,.short),(.byte,.int),(.byte,.long),(.byte,.float),(.byte,.double),
    (.short,.int),(.short,.long),(.short,.float),(.short,.double),
    (.char,.int),(.char,.long),(.char,.float),(.char,.double),
    (.int,.long),(.int,.float),(.int,.double),
    (.long,.float),(.long,.double),
    (.float,.double)]
  boxes := [
    (.boolean,"java.lang.Boolean"),(.byte,"java.lang.Byte"),(.short,"java.lang.Short"),
    (.char,"java.lang.Character"),(.int,"java.lang.Integer"),(.long,"java.lang.Long"),
    (.float,"java.lang.Float"),(.double,"java.lang.Double")]
  implicitPackages := ["java.lang"]
  rootType := some "java.lang.Object"

end Language
end CodeIndex
