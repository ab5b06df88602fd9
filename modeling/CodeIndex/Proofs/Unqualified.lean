import CodeIndex.Proofs.Scopes
import CodeIndex.Proofs.Provenance

/-! Names that stand alone. A name that is no primitive's means what the scopes around it say first: a type
parameter of any of them, otherwise what the levels from the inside outward find, up to the file, which
always has the last word. -/
namespace CodeIndex

def Step.type? : Step → Option ResolvedType
  | .type t => some t
  | _ => none

def Step.class? (step : Step) : Option SymbolRef := step.type?.bind ResolvedType.class?

namespace Answers

variable {home : Codebase} {below : Answers} {site : Site} {name : String}

theorem namedAlone (typeOnly : Bool) : namedType? home below site name [] typeOnly =
    (firstStep? home below site name typeOnly).bind Step.type? := by
  simp only [namedType?,bind,follow?]
  cases firstStep? home below site name typeOnly with
  | none => rfl
  | some step => cases step <;> rfl

theorem resolveAlone {e : TypeExpr} (alone : e.segments = [name])
    (plain : home.language.primitive? name = none) :
    resolveStep home below site e =
      ((firstStep? home below site name true).bind Step.type?).map (applyArguments home below site e) := by
  simp only [resolveStep,alone,List.isEmpty_nil,Bool.true_and,plain,ite_self,if_true,namedAlone]
  cases (firstStep? home below site name true).bind Step.type? <;> rfl

theorem applyNone {e : TypeExpr} (none : e.arguments = []) (t : ResolvedType) :
    applyArguments home below site e t = { t with isArray := t.isArray || e.isArray } := by
  unfold applyArguments
  simp only [none,List.zip_nil_right,bindArguments]
  split <;> rfl

theorem applyNothing {e : TypeExpr} (none : e.arguments = []) (scalar : e.isArray = false)
    (t : ResolvedType) : applyArguments home below site e t = t := by
  rw [applyNone none,scalar,Bool.or_false]
  cases t
  rfl

theorem applyClass {d : Codebase} {h : Handle} {s : Symbol} (inside : d ∈ home.chain)
    (live : d.table.symbol? h = some s) (e : TypeExpr) :
    applyArguments home below site e (.ofSymbol (d.ref h)) =
      ⟨.symbol (d.ref h),e.isArray,bindArguments below site (d.ref h) (s.typeParameters.zip e.arguments) {}⟩ := by
  simp [applyArguments,ResolvedType.class?,ResolvedType.ofSymbol,Codebase.resolveRef inside live]

section

variable {levels : List (Handle × Symbol)} (outward : site.codebase.table.Outward site.scope levels)
include outward

theorem firstParameter {h : Handle} {s : Symbol} {outer : List (Handle × Symbol)}
    (inner : levels = (h,s) :: outer) {p : TypeParameter} (declares : p ∈ s.typeParameters)
    (typeOnly : Bool) : firstStep? home below site p.name typeOnly =
      some (.type ((site.bindings.get? ⟨site.codebase.ref h,p.name⟩).getD
        (.ofTypeVar ⟨site.codebase.ref h,p.name⟩))) := by
  have declared : s.typeParameters.any (·.name = p.name) = true :=
    List.any_eq_true.mpr ⟨p,declares,by simp⟩
  have found : typeParameter? site.codebase levels site.bindings p.name = some
      ((site.bindings.get? ⟨site.codebase.ref h,p.name⟩).getD
        (.ofTypeVar ⟨site.codebase.ref h,p.name⟩)) := by
    simp only [typeParameter?,inner,List.findSome?_cons,declared,if_true]
  simp only [firstStep?,outward.chain,found]

theorem firstLevels (free : ∀ level ∈ levels, ∀ p ∈ level.2.typeParameters, p.name ≠ name)
    (typeOnly : Bool) : firstStep? home below site name typeOnly =
      (levels.findSome? fun (h,s) => levelStep? home below site name typeOnly h s).getD
        (topLevelStep? site.codebase name) := by
  have none : typeParameter? site.codebase levels site.bindings name = none := by
    refine List.findSome?_eq_none_iff.mpr fun level inside => ?_
    have undeclared : level.2.typeParameters.any (·.name = name) = false := by
      simpa using free level inside
    simp [undeclared]
  simp only [firstStep?,outward.chain,none]
  cases levels.findSome? _ <;> rfl

end

end Answers
end CodeIndex
