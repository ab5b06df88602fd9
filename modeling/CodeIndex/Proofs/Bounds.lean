import CodeIndex.Assignability
import CodeIndex.Proofs.Hierarchy

/-! Type parameters as values. The members of a type parameter are those of its bound, and where that is a type
parameter again, of the bound of that one. Passing goes one step only: a type parameter may be passed where its
bound is expected if that is a class, and for all that the class inherits from; if it is another type parameter,
for the root type alone. -/
namespace CodeIndex

namespace ResolvedType

theorem typeVarParts {v : ResolvedType} (typeVar : v.isTypeVar) : ∃ x, v.denoted = .typeVar x := by
  unfold isTypeVar at typeVar
  split at typeVar
  · exact ⟨_,by assumption⟩
  · cases typeVar

theorem classParts {t : ResolvedType} (denotes : t.class?.isSome) : ∃ c, t.denoted = .symbol c := by
  unfold class? at denotes
  split at denotes
  · exact ⟨_,by assumption⟩
  · cases denotes

end ResolvedType

namespace Resolver

variable {r : Resolver}

theorem boundFlat {v w : ResolvedType} (typeVar : v.isTypeVar) (bound : r.upperBound v = some w) :
    w.isArray = v.isArray := by
  obtain ⟨x,denotes⟩ := v.typeVarParts typeVar
  simp only [upperBound,Answers.upperBound,denotes,bind,Option.bind_eq_some_iff] at bound
  obtain ⟨⟨_,_⟩,_,rest⟩ := bound
  split at rest <;>
    obtain ⟨_,_,last⟩ := Option.bind_eq_some_iff.mp rest <;>
    cases Option.some.inj last <;>
    rfl

theorem ownerBound {v b : ResolvedType} (typeVar : v.isTypeVar) (exposes : r.answers.owner v = some b) :
    ∃ w, Resolver.upperBound ⟨r.home,r.depth - 1⟩ v = some w ∧ (w.isTypeVar = false → w = b) := by
  obtain ⟨home,depth⟩ := r
  cases depth with
  | zero => simp [answers,Answers.atDepth,Answers.deepest,typeVar] at exposes
  | succ depth =>
    change Answers.ownerStep home (Answers.atDepth home depth) v = some b at exposes
    simp only [Answers.ownerStep,typeVar,if_true] at exposes
    obtain ⟨w,bound,owner⟩ := Option.bind_eq_some_iff.mp exposes
    refine ⟨w,bound,fun fixed => ?_⟩
    cases depth <;>
      simpa [Answers.atDepth,Answers.deepest,Answers.ownerStep,fixed] using owner

theorem strictBound {v a : ResolvedType} (typeVar : v.isTypeVar) (flat : v.isArray = false)
    (denotes : a.class?.isSome) : r.isStrictlyAssignable v a ↔
      a.isArray = false ∧ (r.isRoot a ∨ ∃ w, r.upperBound v = some w ∧ r.isSubclass w a) := by
  obtain ⟨x,var⟩ := v.typeVarParts typeVar
  obtain ⟨c,symbol⟩ := a.classParts denotes
  have differs : v.sameType a = false := by simp [ResolvedType.sameType,var,symbol]
  have reference : v.isReference := by simp [ResolvedType.isReference,ResolvedType.primitive?,var]
  have reference' : a.isReference := by simp [ResolvedType.isReference,ResolvedType.primitive?,symbol]
  have fixed : a.isTypeVar = false := by simp [ResolvedType.isTypeVar,symbol]
  cases array : a.isArray with
  | true => simp [isStrictlyAssignable,widensReference,differs,array,flat]
  | false =>
    cases bound : r.upperBound v <;>
      simp [isStrictlyAssignable,widensReference,widensElement,takesAnyReference,differs,array,flat,reference,
        reference',fixed,bound]

theorem ancestorsDenote {b a : ResolvedType} (above : a ∈ r.ancestors b) : a.class?.isSome :=
  (Answers.closureAll (P := fun _ => True) (fun _ _ _ => trivial) (fun _ _ => trivial) a above).2

theorem subclassSelf {b : ResolvedType} (denotes : b.class?.isSome) : r.isSubclass b b := by
  obtain ⟨c,denotes⟩ := Option.isSome_iff_exists.mp denotes
  exact (subclassMeets denotes denotes).mpr (.inl rfl)

theorem subclassAncestor {b a : ResolvedType} (denotes : b.class?.isSome) (flat : b.isArray = false)
    (above : a ∈ r.ancestors b) : r.isSubclass b a := by
  obtain ⟨c,denotes⟩ := Option.isSome_iff_exists.mp denotes
  obtain ⟨d,denotes'⟩ := Option.isSome_iff_exists.mp (ancestorsDenote above)
  have element : b.element = b := by
    obtain ⟨_,_,_⟩ := b
    cases flat
    rfl
  exact (subclassMeets denotes denotes').mpr (.inr ⟨a,element.symm ▸ above,denotes'⟩)

/-- A type parameter whose bound is the class it has its members from may be passed for that class and for all
that the class inherits from, arrays apart. One whose bound is a type parameter may be passed for no class but
the root type, whatever class it has its members from. -/
theorem boundAccepted (r : Resolver) (v b : ResolvedType) (typeVar : v.isTypeVar) (flat : v.isArray = false)
    (exposes : r.answers.owner v = some b) (denotes : b.class?.isSome)
    (settled : r.upperBound v = Resolver.upperBound ⟨r.home,r.depth - 1⟩ v) :
    ∃ w, r.upperBound v = some w ∧
      (w.isTypeVar = false → w = b ∧ r.isStrictlyAssignable v b ∧
        ∀ a ∈ r.ancestors b, r.isStrictlyAssignable v a ↔ a.isArray = false) ∧
      (w.isTypeVar → ∀ a : ResolvedType, a.class?.isSome →
        (r.isStrictlyAssignable v a ↔ a.isArray = false ∧ r.isRoot a)) := by
  obtain ⟨w,bound,last⟩ := ownerBound typeVar exposes
  rw [← settled] at bound
  refine ⟨w,bound,fun fixed => ?_,fun typeVar' a denotes' => ?_⟩
  · cases last fixed
    have flat' := (boundFlat typeVar bound).trans flat
    refine ⟨rfl,?_,fun a above => ?_⟩
    · exact (strictBound typeVar flat denotes).mpr ⟨flat',.inr ⟨_,bound,subclassSelf denotes⟩⟩
    · rw [strictBound typeVar flat (ancestorsDenote above)]
      exact ⟨And.left,fun flat'' => ⟨flat'',.inr ⟨_,bound,subclassAncestor denotes flat' above⟩⟩⟩
  · rw [strictBound typeVar flat denotes']
    obtain ⟨x,var⟩ := w.typeVarParts typeVar'
    simp [bound,isSubclass,Answers.isSubclass,ResolvedType.class?,var]

def shelfFile : FileDecl where
  path := "lib/Shelf.java"
  package := ["lib"]
  types :=
    [{ outline := { name := "Item", kind := .type .classType } },
     { outline := { name := "Book", kind := .type .classType, header := { superclass := some (.simple "Item") } } },
     { outline := { name := "Shelf", kind := .type .classType
                    header := { typeParameters := [{ name := "T", bounds := [.simple "Book"] },
                      { name := "U", bounds := [.simple "T"] }] } } }]

@[irreducible]
def shelfApp : Codebase :=
  let empty : Codebase := { id := 0, name := "app", language := .java, settings := default }
  (empty.putFile shelfFile).2

def shelfVar (name : String) : ResolvedType := .ofTypeVar ⟨⟨0,⟨5,0⟩⟩,name⟩

def book : ResolvedType := .ofSymbol ⟨0,⟨4,0⟩⟩

theorem shelfAppFacts :
    let r : Resolver := ⟨shelfApp,5⟩
    (r.answers.owner (shelfVar "T") = some book ∧ r.upperBound (shelfVar "T") = some book ∧
      r.upperBound (shelfVar "T") = Resolver.upperBound ⟨shelfApp,4⟩ (shelfVar "T") ∧
      .ofSymbol ⟨0,⟨3,0⟩⟩ ∈ r.ancestors book) ∧
    r.answers.owner (shelfVar "U") = some book ∧ ¬r.isStrictlyAssignable (shelfVar "U") book := by
  decide +kernel

theorem bookAccepted :
    let r : Resolver := ⟨shelfApp,5⟩
    r.answers.owner (shelfVar "T") = some book ∧ r.isStrictlyAssignable (shelfVar "T") book ∧
    r.isStrictlyAssignable (shelfVar "T") (.ofSymbol ⟨0,⟨3,0⟩⟩) := by
  intro r
  obtain ⟨exposes,direct,settled,item⟩ := shelfAppFacts.1
  obtain ⟨w,bound,class_,_⟩ := boundAccepted ⟨shelfApp,5⟩ (shelfVar "T") book rfl rfl exposes rfl settled
  cases Option.some.inj (direct.symm.trans bound)
  obtain ⟨_,own,above⟩ := class_ rfl
  exact ⟨exposes,own,(above _ item).mpr rfl⟩

theorem bookRefused :
    let r : Resolver := ⟨shelfApp,5⟩
    r.answers.owner (shelfVar "U") = some book ∧ ¬r.isStrictlyAssignable (shelfVar "U") book :=
  shelfAppFacts.2

end Resolver
end CodeIndex
