import CodeIndex.SymbolTable.Attach

/-!
Indexing files.

Indexing a file again replaces it. When a declaration of the file is refused, nothing of the file
stays behind except the packages on its way; the version before it is gone all the same.
-/
namespace CodeIndex.SymbolTable

/-- A change of the table that keeps what it did before it failed. -/
abbrev Edit := EStateM Failure SymbolTable

namespace Edit

def attach (scope : Handle) (d : Draft) : Edit Handle := fun t =>
  match t.attach scope d with
  | .ok (h,t) => .ok h t
  | .error e => .error e t

def attachAll (scope : Handle) : List Draft → Edit Unit
  | [] => pure ()
  | d :: rest => do
    let _ ← attach scope d
    attachAll scope rest

def addMethod (scope : Handle) (decl : MethodDecl) : Edit (Span × Handle) := do
  let method ← attach scope (.ofMethod decl)
  attachAll method (decl.parameters.map (.ofVariable .parameter))
  attachAll method (decl.locals.map (.ofVariable .localVariable))
  return (decl.span,method)

def addOutline (scope : Handle) (outline : TypeOutline) : Edit Handle :=
  if outline.kind.isTypeDecl then attach scope (.ofType outline)
  else throw (.violation (.notATypeDeclaration outline.name outline.kind))

mutual

def addMember (scope : Handle) : MemberDecl → Edit (List (Span × Handle))
  | .field decl => do
    let _ ← attach scope (.ofField decl)
    return []
  | .method decl => do
    let added ← addMethod scope decl
    return [added]
  | .type outline members => do
    let type ← addOutline scope outline
    let inner ← addMembers type members
    return (outline.span,type) :: inner

def addMembers (scope : Handle) : List MemberDecl → Edit (List (Span × Handle))
  | [] => pure []
  | m :: rest => do
    let first ← addMember scope m
    let others ← addMembers scope rest
    return first ++ others

end

def addTypes (file : Handle) (span : Span) (types : List TypeDecl) : Edit (SpanMap Handle) := do
  let inner ← addMembers file (types.map fun type => .type type.outline type.members)
  match SpanMap.ofList ((span,file) :: inner) with
  | .ok scopes => return scopes
  | .error e => throw e

end Edit

def makePackage (t : SymbolTable) (current : Handle) : List String → Handle × SymbolTable
  | [] => (current,t)
  | name :: rest =>
    match t.symbol? current with
    | none => (current,t)
    | some parent =>
      match parent.subpackages.get? name with
      | some found => t.makePackage found rest
      | none =>
        let (h,symbols) := t.symbols.insert
          { name, qualifiers := parent.childQualifiers, parent := some current
            body := .package {} [] {} }
        let listed := { t with symbols }.modify current (·.mapSubpackages (·.insert name h))
        listed.makePackage h rest

def unlistAll (package : Handle) (t : SymbolTable) (members : Members) : SymbolTable :=
  t.modify package (·.mapMembers fun listed =>
    members.entries.foldl
      (fun listed (name,handles) => handles.foldl (fun listed h => listed.drop name h) listed)
      listed)

def dropFile (t : SymbolTable) (path : String) : Bool × SymbolTable :=
  let path := Path.normalize path
  match t.files.get? path with
  | none => (false,t)
  | some file =>
    let unindexed := { t with files := t.files.erase path }
    let unlisted := match unindexed.enclosing? file with
      | some package => unlistAll package unindexed (unindexed.membersOf file)
      | none => unindexed
    (true,unlisted.remove file)

def startFile (t : SymbolTable) (path : String) (decl : FileDecl) : Handle × SymbolTable :=
  let (package,t) := t.makePackage t.root decl.package
  let qualifiers := match t.symbol? package with
    | some s => s.childQualifiers
    | none => []
  let source : SourceFile :=
    { path, package := decl.package, imports := decl.imports, lines := decl.lines }
  let (file,symbols) := t.symbols.insert
    { name := path, qualifiers, span := decl.span, parent := some package
      body := .file source {} {} }
  let listed := { t with symbols }.modify package (·.mapFiles (· ++ [file]))
  (file,{ listed with files := listed.files.insert path file })

def putFile (t : SymbolTable) (decl : FileDecl) : Except Failure Handle × SymbolTable :=
  if decl.span.isInverted then (.error (.invertedSpan decl.span.start decl.span.stop),t)
  else
    let path := Path.normalize decl.path
    let (_,cleared) := t.dropFile path
    let (file,started) := cleared.startFile path decl
    match Edit.addTypes file decl.span decl.types started with
    | .ok scopes t => (.ok file,t.modify file (·.withScopes scopes))
    | .error e t => (.error e,(t.dropFile path).2)

end CodeIndex.SymbolTable
