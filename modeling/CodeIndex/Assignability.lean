import CodeIndex.Resolver

/-!
When a value of one type may be passed where another type is expected.

Strictly, a type goes to itself and to what it inherits from. Loosely, primitives also widen, a
primitive may be boxed and a box unboxed.
-/
namespace CodeIndex.Resolver

variable (r : Resolver)

def isRoot (t : ResolvedType) : Bool :=
  match r.home.language.rootType with
  | some root => t.class?.isSome && r.nameOf? t = some root
  | none => false

def takesAnyReference (param : ResolvedType) : Bool := param.isTypeVar || r.isRoot param

def widensElement (arg param : ResolvedType) : Bool :=
  arg.isReference && param.isReference &&
    (r.takesAnyReference param ||
      match r.upperBound arg with
      | some bound => r.isSubclass bound param
      | none => false)

def widensReference (arg param : ResolvedType) : Bool :=
  if param.isArray then
    arg.isArray &&
      (arg.element.sameType param.element || r.widensElement arg.element param.element)
  else if arg.isArray then param.isReference && r.takesAnyReference param
  else r.widensElement arg param

def isStrictlyAssignable (arg param : ResolvedType) : Bool :=
  arg.sameType param || r.widensReference arg param

def widensPrimitive (arg param : ResolvedType) : Bool :=
  match arg.primitive?, param.primitive? with
  | some source, some target => r.home.language.widens source target
  | _, _ => false

/-- Box a primitive, then widen the box. A box that is not declared goes only to its own name, to type
parameters and to the root type. -/
def boxes (arg param : ResolvedType) : Bool :=
  match arg.primitive?.bind r.home.language.box? with
  | none => false
  | some box =>
    param.isReference &&
      match r.type? box with
      | some boxed => r.isStrictlyAssignable boxed param
      | none => !param.isArray && (r.takesAnyReference param || r.nameOf? param = some box)

def unboxes (arg param : ResolvedType) : Bool :=
  match param.primitive? with
  | none => false
  | some target =>
    !arg.isArray && arg.class?.isSome &&
      match (r.nameOf? arg).bind r.home.language.unbox? with
      | some unboxed => unboxed = target || r.home.language.widens unboxed target
      | none => false

def isLooselyAssignable (arg param : ResolvedType) : Bool :=
  r.isStrictlyAssignable arg param || r.widensPrimitive arg param || r.boxes arg param ||
    r.unboxes arg param

end CodeIndex.Resolver
