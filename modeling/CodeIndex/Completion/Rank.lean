import CodeIndex.Text.LetterCase

/-!
Ranking names against what has been typed.

A name that starts with the typed text as it stands is in tier 0, one that does so only without
regard to letter case in tier 1, and any other is dropped. Shorter names come first, then the lower
tier, then the order of code points; equal names keep their order.
-/
namespace CodeIndex.Completion

def startsWith (name typed : String) : Bool := typed.toList.isPrefixOf name.toList

def tier? (fold : String → String) (typed name : String) : Option Nat :=
  if startsWith name typed then some 0
  else if startsWith (fold name) (fold typed) then some 1
  else none

structure Ranked (α : Type u) where
  length : Nat
  tier : Nat
  name : String
  candidate : α

namespace Ranked

def le (a b : Ranked α) : Bool :=
  if a.length ≠ b.length then a.length < b.length
  else if a.tier ≠ b.tier then a.tier < b.tier
  else a.name ≤ b.name

def of? (fold : String → String) (typed : String) (nameOf : α → String) (candidate : α) :
    Option (Ranked α) :=
  let name := nameOf candidate
  (tier? fold typed name).map fun tier => ⟨name.length,tier,name,candidate⟩

end Ranked

def rankBy (fold : String → String) (typed : String) (limit : Option Nat) (nameOf : α → String)
    (candidates : List α) : List α :=
  let ranked := ((candidates.filterMap (Ranked.of? fold typed nameOf)).mergeSort Ranked.le).map
    (·.candidate)
  match limit with
  | some n => ranked.take n
  | none => ranked

def rank (typed : String) (limit : Option Nat) (nameOf : α → String) (candidates : List α) :
    List α :=
  rankBy LetterCase.lower typed limit nameOf candidates

end CodeIndex.Completion
