import CodeIndex.Assignability
import CodeIndex.Proofs.Hierarchy
import CodeIndex.Proofs.PackagePaths

/-! Strict assignability as an order. Between classes it is to inherit, or to bear the name of the root type;
arrays follow their elements and go to the root type besides. Where the classes that bear that name lead to none
but such classes, one passing after another comes to one passing. -/
namespace CodeIndex

def Language.RootProper (l : Language) : Prop :=
  ∀ root ∈ l.rootType, Text.dotted (Text.segments root) = root

def Codebase.RootsBare (home : Codebase) : Prop :=
  ∀ d ∈ home.chain, ∀ entry ∈ d.table.symbols.toList,
    home.language.rootType = some entry.2.qualifiedName → entry.2.inherits = []

instance (l : Language) : Decidable l.RootProper := by
  unfold Language.RootProper
  infer_instance

instance (home : Codebase) : Decidable home.RootsBare := by
  unfold Codebase.RootsBare
  infer_instance

namespace Resolver

variable {r : Resolver}

def RootNamed (r : Resolver) (c : SymbolRef) : Prop :=
  ∃ d s, r.home.resolve? c = some (d,s) ∧ r.home.language.rootType = some s.qualifiedName

theorem rootIff {t : ResolvedType} {c : SymbolRef} (denotes : t.class? = some c) :
    r.isRoot t ↔ r.RootNamed c := by
  have name : r.nameOf? t = (r.home.resolve? c).map fun found => found.2.qualifiedName := by
    obtain ⟨denoted,_,_⟩ := t
    cases denoted with
    | symbol ref =>
      cases Option.some.inj denotes
      rfl
    | primitive | typeVar => cases denotes
  unfold isRoot RootNamed
  cases r.home.language.rootType with
  | none => simp
  | some root =>
    simp only [denotes,name,Option.isSome_some,Bool.true_and,decide_eq_true_eq]
    constructor
    · intro named
      obtain ⟨⟨d,s⟩,found,rfl⟩ := Option.map_eq_some_iff.mp named
      exact ⟨d,s,found,rfl⟩
    · rintro ⟨d,s,found,named⟩
      rw [found,named]
      rfl

def Passes (r : Resolver) (c d : SymbolRef) : Prop := r.RootNamed d ∨ Relation.ReflTransGen r.Extends c d

section

variable (distinct : r.home.Distinct) (reached : r.home.Reached) (proper : r.home.language.RootProper)
  (bare : r.home.RootsBare)
include distinct reached proper bare

omit bare in
theorem rootFound {d : Codebase} (inside : d ∈ r.home.chain) {t : ResolvedType}
    (found : r.home.rootType? d = some t) : ∃ c, t.class? = some c ∧ r.RootNamed c := by
  simp only [Codebase.rootType?,bind,Option.bind_eq_some_iff] at found
  obtain ⟨root,language,ref,type,last⟩ := found
  cases Option.some.inj last
  obtain ⟨e,s,resolved,named⟩ := Codebase.typeBears distinct reached inside type
  rw [proper root language] at named
  exact ⟨ref,rfl,e,s,resolved,named ▸ language⟩

theorem rootExtends {c d : SymbolRef} (root : r.RootNamed c) (above : r.Extends c d) : r.RootNamed d := by
  obtain ⟨e,s,found,named⟩ := root
  obtain ⟨u,listed,denotes⟩ := above
  obtain ⟨e',s',found',cases'⟩ := supertypeCases rfl rfl listed
  cases Option.some.inj (found.symm.trans found')
  obtain ⟨inside,_,live⟩ := Codebase.resolveChain.mp found
  rcases cases' with ⟨x,written,_⟩ | up
  · have entry := (Arena.memToList e.table.symbols c.handle s).mpr live
    rw [bare e inside _ entry named] at written
    cases written
  · obtain ⟨d',denotes',root⟩ := rootFound distinct reached proper inside up
    exact Option.some.inj (denotes'.symm.trans denotes) ▸ root

theorem rootLeads {c d : SymbolRef} (root : r.RootNamed c) (follows : Relation.ReflTransGen r.Extends c d) :
    r.RootNamed d := by
  induction follows with
  | refl => exact root
  | tail _ last ih => exact rootExtends distinct reached proper bare ih last

theorem Passes.root {c d : SymbolRef} (passes : r.Passes c d) (root : r.RootNamed c) : r.RootNamed d :=
  passes.elim id (rootLeads distinct reached proper bare root)

theorem Passes.trans {c d e : SymbolRef} (first : r.Passes c d) (second : r.Passes d e) : r.Passes c e := by
  rcases second with root | further
  · exact .inl root
  · rcases first with root | follows
    · exact .inl (rootLeads distinct reached proper bare root further)
    · exact .inr (follows.trans further)

end

theorem classDenoted {t u : ResolvedType} (same : t.denoted = u.denoted) : t.class? = u.class? := by
  simp only [ResolvedType.class?,same]

def Suits (r : Resolver) (t u : ResolvedType) : Prop :=
  t.denoted = u.denoted ∨ ∃ c d, t.class? = some c ∧ u.class? = some d ∧ r.Passes c d

section

variable (distinct : r.home.Distinct) (reached : r.home.Reached) (proper : r.home.language.RootProper)
  (bare : r.home.RootsBare)
include distinct reached proper bare

theorem Suits.trans {t u v : ResolvedType} (first : r.Suits t u) (second : r.Suits u v) : r.Suits t v := by
  rcases first with same | ⟨c,d,denotes,denotes',passes⟩
  · unfold Suits
    rw [same,classDenoted same]
    exact second
  · rcases second with same | ⟨d',e,again,last,passes'⟩
    · exact .inr ⟨c,d,denotes,(classDenoted same).symm.trans denotes',passes⟩
    · cases Option.some.inj (denotes'.symm.trans again)
      exact .inr ⟨c,e,denotes,last,passes.trans distinct reached proper bare passes'⟩

theorem Suits.root {t u : ResolvedType} (suits : r.Suits t u)
    (root : ∃ c, t.class? = some c ∧ r.RootNamed c) : ∃ d, u.class? = some d ∧ r.RootNamed d := by
  obtain ⟨c,denotes,root⟩ := root
  rcases suits with same | ⟨c',d,denotes',denotes'',passes⟩
  · exact ⟨c,(classDenoted same).symm.trans denotes,root⟩
  · cases Option.some.inj (denotes.symm.trans denotes')
    exact ⟨d,denotes'',passes.root distinct reached proper bare root⟩

end

section

variable (distinct : r.home.Distinct) (classwise : r.Classwise)
include distinct classwise

theorem widensIff {t u : ResolvedType} (fixed : t.isTypeVar = false) (fixed' : u.isTypeVar = false) :
    r.widensElement t.element u.element ↔ ∃ c d, t.class? = some c ∧ u.class? = some d ∧ r.Passes c d := by
  obtain ⟨denoted,isArray,bindings⟩ := t
  obtain ⟨denoted',isArray',bindings'⟩ := u
  cases denoted with
  | typeVar => cases fixed
  | primitive => simp [widensElement,ResolvedType.element,ResolvedType.isReference,ResolvedType.primitive?,
      ResolvedType.class?]
  | symbol c =>
    cases denoted' with
    | typeVar => cases fixed'
    | primitive => simp [widensElement,ResolvedType.element,ResolvedType.isReference,ResolvedType.primitive?,
        ResolvedType.class?]
    | symbol d =>
      have root := rootIff (r := r) (t := ⟨.symbol d,false,bindings'⟩) rfl
      have subclass := classwise.subclassIff distinct (t := ⟨.symbol c,false,bindings⟩)
        (u := ⟨.symbol d,false,bindings'⟩) rfl rfl
      simp [widensElement,ResolvedType.element,ResolvedType.isReference,ResolvedType.primitive?,
        ResolvedType.class?,takesAnyReference,ResolvedType.isTypeVar,upperBound,Answers.upperBound,root,subclass,
        Passes]

omit distinct classwise in
theorem sameIff {t u : ResolvedType} : t.sameType u ↔ t.denoted = u.denoted ∧ t.isArray = u.isArray := by
  simp [ResolvedType.sameType]

theorem strictIff {t u : ResolvedType} (fixed : t.isTypeVar = false) (fixed' : u.isTypeVar = false) :
    r.isStrictlyAssignable t u ↔ t.isArray = u.isArray ∧ r.Suits t u ∨
      t.isArray = true ∧ u.isArray = false ∧ ∃ d, u.class? = some d ∧ r.RootNamed d := by
  rw [Suits,← widensIff distinct classwise fixed fixed']
  obtain ⟨denoted,isArray,bindings⟩ := t
  obtain ⟨denoted',isArray',bindings'⟩ := u
  cases isArray <;> cases isArray'
  · simp [isStrictlyAssignable,widensReference,ResolvedType.element,sameIff]
  · simp [isStrictlyAssignable,widensReference,sameIff]
  · cases denoted' with
    | typeVar => cases fixed'
    | primitive => simp [isStrictlyAssignable,widensReference,sameIff,ResolvedType.isReference,
        ResolvedType.primitive?,ResolvedType.class?]
    | symbol d =>
      have root := rootIff (r := r) (t := ⟨.symbol d,false,bindings'⟩) rfl
      simp [isStrictlyAssignable,widensReference,sameIff,ResolvedType.isReference,ResolvedType.primitive?,
        ResolvedType.class?,takesAnyReference,ResolvedType.isTypeVar,root]
  · simp [isStrictlyAssignable,widensReference,ResolvedType.element,sameIff]

end

/-- Among types without type parameters, every type may be passed where it is expected, and what may be passed
for a type may be passed for all that the type may be passed for. -/
theorem strictPreorder (r : Resolver) (distinct : r.home.Distinct) (reached : r.home.Reached) (classwise : r.Classwise)
    (proper : r.home.language.RootProper) (bare : r.home.RootsBare) :
    (∀ t : ResolvedType, t.isTypeVar = false → r.isStrictlyAssignable t t) ∧
    ∀ t u v : ResolvedType, t.isTypeVar = false → u.isTypeVar = false → v.isTypeVar = false →
      r.isStrictlyAssignable t u → r.isStrictlyAssignable u v → r.isStrictlyAssignable t v := by
  constructor
  · intro t fixed
    exact (strictIff distinct classwise fixed fixed).mpr (.inl ⟨rfl,.inl rfl⟩)
  · intro t u v fixed fixed' fixed'' first second
    rw [strictIff distinct classwise fixed fixed'] at first
    rw [strictIff distinct classwise fixed' fixed''] at second
    rw [strictIff distinct classwise fixed fixed'']
    rcases first with ⟨level,first⟩ | ⟨array,plain,root⟩
    · rcases second with ⟨level',second⟩ | ⟨array,plain,root⟩
      · exact .inl ⟨level.trans level',first.trans distinct reached proper bare second⟩
      · exact .inr ⟨level.trans array,plain,root⟩
    · rcases second with ⟨level',second⟩ | ⟨array',_⟩
      · exact .inr ⟨array,level'.symm.trans plain,second.root distinct reached proper bare root⟩
      · cases plain.symm.trans array'

def ringFile : FileDecl where
  path := "geo/Ring.java"
  package := ["geo"]
  types :=
    [{ outline := { name := "Shape", kind := .type .classType, header := { superclass := some (.simple "Ring") } } },
     { outline := { name := "Ring", kind := .type .classType, header := { superclass := some (.simple "Shape") } } },
     { outline := { name := "Disk", kind := .type .classType
                    header := { superclass := some (.simple "Ring"), typeParameters := [{ name := "T" }] } } }]

def dottedFile : FileDecl where
  path := "Object.java"
  package := ["java.lang"]
  types := [{ outline := { name := "Object", kind := .type .classType } }]

@[irreducible]
def ringApp : Codebase :=
  let empty : Codebase := { id := 0, name := "app", language := .java, settings := default }
  (((empty.putFile rootFile).2.putFile dottedFile).2.putFile ringFile).2

theorem ringAppReached : ringApp.Reached := by
  unfold ringApp
  exact .putFile (.putFile (.putFile (.new ..) rootFile) dottedFile) ringFile

def disks : ResolvedType :=
  { denoted := .symbol ⟨0,⟨12,0⟩⟩, isArray := true, bindings := ⟨[(⟨⟨0,⟨12,0⟩⟩,"T"⟩,.ofPrimitive .int)]⟩ }

def shapes : ResolvedType := { denoted := .symbol ⟨0,⟨10,0⟩⟩, isArray := true }

theorem disksPassed :
    let r : Resolver := ⟨ringApp,5⟩
    let root := ResolvedType.ofSymbol ⟨0,⟨4,0⟩⟩
    let dotted := ResolvedType.ofSymbol ⟨0,⟨7,0⟩⟩
    r.isStrictlyAssignable disks shapes ∧ r.isStrictlyAssignable shapes dotted ∧
    r.isStrictlyAssignable dotted root ∧ r.isStrictlyAssignable disks root := by
  intro r root dotted
  have distinct : ringApp.Distinct := Codebase.distinctAlone (by decide +kernel)
  have facts : (ringApp.PlainHeaders ∧ ringApp.language.RootProper ∧ ringApp.RootsBare) ∧
      r.isStrictlyAssignable disks shapes ∧ r.isStrictlyAssignable shapes dotted ∧
      r.isStrictlyAssignable dotted root := by decide +kernel
  obtain ⟨⟨plain,proper,bare⟩,first,second,third⟩ := facts
  have classwise : Resolver.Classwise ⟨ringApp,5⟩ := plainClasswise distinct ringAppReached plain
  obtain ⟨_,passing⟩ := strictPreorder ⟨ringApp,5⟩ distinct ringAppReached classwise proper bare
  have early := passing disks shapes dotted rfl rfl rfl first second
  exact ⟨first,second,third,passing disks dotted root rfl rfl rfl early third⟩

def emptyPartFile (package : List String) (path : String) : FileDecl where
  path := path
  package := package
  types := [{ outline := { name := "Root", kind := .type .classType } }]

@[irreducible]
def gapApp : Codebase :=
  let gap : Language := { name := "gap", rootType := some "p..Root" }
  let empty : Codebase := { id := 0, name := "app", language := gap, settings := default }
  ((empty.putFile (emptyPartFile ["p",""] "Bears.java")).2.putFile (emptyPartFile ["p"] "Found.java")).2

theorem gapPassing :
    let r : Resolver := ⟨gapApp,5⟩
    let bears := ResolvedType.ofSymbol ⟨0,⟨4,0⟩⟩
    let found := ResolvedType.ofSymbol ⟨0,⟨6,0⟩⟩
    let arrays := { found with isArray := true }
    r.Classwise ∧ r.home.RootsBare ∧ r.isStrictlyAssignable arrays bears ∧ r.isStrictlyAssignable bears found ∧
    ¬r.isStrictlyAssignable arrays found := by
  intro r bears found arrays
  have distinct : gapApp.Distinct := Codebase.distinctAlone (by decide +kernel)
  have reached : gapApp.Reached := by
    unfold gapApp
    exact .putFile (.putFile (.new ..) _) _
  have facts : gapApp.PlainHeaders ∧ gapApp.RootsBare ∧ r.isStrictlyAssignable arrays bears ∧
      r.isStrictlyAssignable bears found ∧ ¬r.isStrictlyAssignable arrays found := by decide +kernel
  obtain ⟨plain,rest⟩ := facts
  exact ⟨plainClasswise distinct reached plain,rest⟩

end Resolver
end CodeIndex
