import CodeIndex.Interchange
import CodeIndex.Overload
import CodeIndex.Query
import CodeIndex.Worker
import CodeIndex.Proofs.Guard
import CodeIndex.Proofs.Fidelity
import CodeIndex.Proofs.Handles
import CodeIndex.Proofs.SpanMap
import CodeIndex.Proofs.Vantage
import CodeIndex.Proofs.WellFormed
import CodeIndex.Proofs.Scopes
import CodeIndex.Proofs.Serial
import CodeIndex.Proofs.Unqualified
import CodeIndex.Proofs.Lineage
import CodeIndex.Proofs.Inheritance
import CodeIndex.Proofs.Offers
import CodeIndex.Proofs.Imports
import CodeIndex.Proofs.Agreement
import CodeIndex.Proofs.QualifiedTypes
import CodeIndex.Proofs.SearchOrder
import CodeIndex.Proofs.Acceptance
import CodeIndex.Proofs.Catalogue
import CodeIndex.Proofs.IndexOrder
import CodeIndex.Proofs.ScopeLookup
import CodeIndex.Proofs.Reindexing
import CodeIndex.Proofs.InnermostScope
import CodeIndex.Proofs.Specificity
import CodeIndex.Proofs.Signatures
import CodeIndex.Proofs.HiddenScopes
import CodeIndex.Proofs.Overrides
import CodeIndex.Proofs.ResolvedParameters
import CodeIndex.Proofs.AssignabilityOrder
import CodeIndex.Proofs.Bounds
import CodeIndex.Proofs.BreadthFirst
import CodeIndex.Proofs.MemberLevels
import CodeIndex.Proofs.Overlaps
import CodeIndex.Proofs.Shadowing
import CodeIndex.Proofs.Narrowing
import CodeIndex.Proofs.Columns
import CodeIndex.Proofs.PathSpellings
import CodeIndex.Proofs.ArenaRuns
import CodeIndex.Proofs.TypeEncodings
