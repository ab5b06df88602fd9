import CodeIndex.SymbolTable.Basic

/-!
Attaching symbols to scopes and taking them off again.

Methods of one name stand side by side; any other symbol replaces what is not a method under its
name, and what it replaces is freed with all it owns. A type of a file is also listed in the file's
package.
-/
namespace CodeIndex.SymbolTable

def nextLive (symbols : Arena Symbol) : List Handle → Option (Handle × Symbol × List Handle)
  | [] => none
  | h :: rest =>
    match symbols.get? h with
    | some s => some (h,s,rest)
    | none => nextLive symbols rest

theorem nextLiveGet {symbols : Arena Symbol} {stack rest : List Handle} {h : Handle} {s : Symbol}
    (found : nextLive symbols stack = some (h,s,rest)) : symbols.get? h = some s := by
  induction stack with
  | nil => simp [nextLive] at found
  | cons first below ih =>
    simp only [nextLive] at found
    split at found
    · rename_i held
      cases Option.some.inj found
      exact held
    · exact ih found

/-- Free the symbols on a stack and all they own. What a symbol owns is freed before the rest of the
stack, last owned first; the order shows in which slots are used again first. -/
def release (symbols : Arena Symbol) (stack : List Handle) : Arena Symbol :=
  match found : nextLive symbols stack with
  | none => symbols
  | some (h,s,rest) =>
    have _fewer := Arena.liveEraseLt (nextLiveGet found)
    release (symbols.erase h) (s.body.owned.reverse ++ rest)
termination_by symbols.live

def modify (t : SymbolTable) (h : Handle) (f : Body → Body) : SymbolTable :=
  { t with symbols := t.symbols.modify h (Symbol.mapBody f) }

def modify? (t : SymbolTable) (h : Option Handle) (f : Body → Body) : SymbolTable :=
  match h with
  | some h => t.modify h f
  | none => t

/-- The package that also lists what a scope owns: that of a file, for types. -/
def listingPackage? (owner : Symbol) (kind : SymbolKind) : Option Handle :=
  if owner.kind = .file ∧ kind.isTypeDecl then owner.parent else none

def unlink (t : SymbolTable) (h : Handle) : SymbolTable :=
  match t.symbol? h with
  | none => t
  | some s =>
    match s.parent with
    | none => t
    | some parent =>
      let package := (t.symbol? parent).bind fun owner => listingPackage? owner s.kind
      let unlisted := t.modify parent fun body =>
        ((body.mapMembers (·.drop s.name h)).mapParameters (·.filter (· ≠ h))).mapFiles
          (·.filter (· ≠ h))
      unlisted.modify? package (·.mapMembers (·.drop s.name h))

def free (t : SymbolTable) (h : Handle) : SymbolTable :=
  { t with symbols := release t.symbols [h] }

def remove (t : SymbolTable) (h : Handle) : SymbolTable := (t.unlink h).free h

def replacedBy (t : SymbolTable) (members : Members) (kind : SymbolKind) (name : String) :
    List Handle :=
  if kind = .method then []
  else (members.under name).filter fun h =>
    match t.symbol? h with
    | some s => s.kind ≠ .method
    | none => false

def link (t : SymbolTable) (scope : Handle) (package : Option Handle) (s : Symbol) :
    Handle × SymbolTable :=
  let (h,symbols) := t.symbols.insert s
  let listed := { t with symbols }.modify scope fun body =>
    let body := body.mapMembers (·.push s.name h)
    if s.kind = SymbolKind.value .parameter then body.mapParameters (· ++ [h]) else body
  (h,listed.modify? package (·.mapMembers (·.push s.name h)))

def attach (t : SymbolTable) (scope : Handle) (d : Draft) : Except Failure (Handle × SymbolTable) := do
  let body ← d.check
  match t.symbol? scope with
  | none => .error (.unknownScope scope)
  | some owner =>
    match owner.members? with
    | none => .error (.violation (.cannotOwnMembers owner.kind owner.name))
    | some members =>
      let cleared := (t.replacedBy members d.kind d.name).foldl remove t
      return cleared.link scope (listingPackage? owner d.kind)
        { name := d.name
          qualifiers := owner.childQualifiers
          isStatic := d.isStatic
          span := d.span
          parent := some scope
          body }

end CodeIndex.SymbolTable
