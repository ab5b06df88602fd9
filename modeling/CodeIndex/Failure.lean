import CodeIndex.Data.Arena
import CodeIndex.SymbolKind
import CodeIndex.Text.Span

/-!
What can go wrong when an index is changed or asked.

A name that does not resolve is no failure; it is an absent answer.
-/
namespace CodeIndex

inductive Violation where
  | alreadyAttached (kind : SymbolKind) (name : String)
  | notAMember (kind : SymbolKind) (name : String)
  | ownsMembers (kind : SymbolKind) (name : String)
  | cannotOwnMembers (kind : SymbolKind) (name : String)
  | notATypeDeclaration (name : String) (kind : SymbolKind)
  deriving DecidableEq

namespace Violation

def quoted (name : String) : String := "`" ++ name ++ "`"

def message : Violation → String
  | .alreadyAttached kind name => kind.name ++ " " ++ quoted name ++ " is already attached to a scope"
  | .notAMember kind name => kind.name ++ " " ++ quoted name ++ " cannot be added as a member"
  | .ownsMembers kind name => kind.name ++ " " ++ quoted name ++ " already owns members"
  | .cannotOwnMembers kind name => kind.name ++ " " ++ quoted name ++ " cannot own members"
  | .notATypeDeclaration name kind =>
    "type declaration " ++ quoted name ++ " has kind " ++ kind.name

end Violation

inductive Failure where
  | invertedSpan (start stop : UInt32)
  | violation (rule : Violation)
  | unknownScope (scope : Handle)
  | workerStopped
  | badSettings
  | unreadableFile
  deriving DecidableEq

namespace Failure

def message : Failure → String
  | .invertedSpan start stop =>
    "invalid range: start " ++ toString start.toNat ++ " is after end " ++ toString stop.toNat
  | .violation rule => "invariant violated: " ++ rule.message
  | .unknownScope scope => "unknown or stale scope handle: EntityId(" ++ scope.text ++ ")"
  | .workerStopped => "engine worker has stopped"
  | .badSettings => "configuration error"
  | .unreadableFile => "I/O error"

end Failure

end CodeIndex
