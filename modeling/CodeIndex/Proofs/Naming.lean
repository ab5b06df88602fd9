import CodeIndex.Proofs.Runs
import Mathlib.Data.List.Induction

/-! Names and where they lead. In a table that was filled from files only, the names of a symbol spell the
way from the root to it: packages one inside another, then a type of one of their files, then the
types inside that one. -/
namespace CodeIndex
namespace SymbolTable

structure Declared (s o : Symbol) : Prop where
  type : s.kind.isTypeDecl → Text.IsSegment s.name ∧ IsBody o.kind
  package : s.kind = .package → Text.IsSegment s.name
  file : s.kind = .file → s.childQualifiers = o.childQualifiers
  packaged : o.kind = .package → s.kind = .package ∨ s.kind = .file

theorem Declared.transfer {s s' o o' : Symbol} (declared : Declared s o) (same : s.outline = s'.outline)
    (same' : o.outline = o'.outline) : Declared s' o' where
  type := by
    rw [← Symbol.kindOutline same,← Symbol.kindOutline same',← Symbol.nameOutline same]
    exact declared.type
  package := by
    rw [← Symbol.kindOutline same,← Symbol.nameOutline same]
    exact declared.package
  file := by
    rw [← Symbol.kindOutline same,← Symbol.childQualifiersOutline same,
      ← Symbol.childQualifiersOutline same']
    exact declared.file
  packaged := by
    rw [← Symbol.kindOutline same,← Symbol.kindOutline same']
    exact declared.packaged

structure Orderly (t : SymbolTable) : Prop extends t.Consistent where
  declared : ∀ {h s p o}, t.symbol? h = some s → s.parent = some p → t.symbol? p = some o →
    Declared s o

def Ruled (rule : Symbol → Symbol → Prop) (t : SymbolTable) : Prop :=
  ∀ {h s p o}, t.symbol? h = some s → s.parent = some p → t.symbol? p = some o → rule s o

section

variable {rule : Symbol → Symbol → Prop}
  (outlined : ∀ {s s' o o'}, rule s o → s.outline = s'.outline → o.outline = o'.outline → rule s' o')
include outlined

theorem Step.ruled {t t' : SymbolTable} (step : Step rule t t') (c : t.Consistent)
    (ruled : t.Ruled rule) : t'.Ruled rule := by
  intro h s p o live parent owner
  cases step with
  | prune prunes =>
    obtain ⟨_,s₀,live₀,same⟩ := prunes.live live
    obtain ⟨_,o₀,owner₀,same'⟩ := prunes.live owner
    exact outlined (ruled live₀ (Symbol.parentOutline same ▸ parent) owner₀) same same'
  | grow grows admitted =>
    rcases grows.live live with ⟨rfl,rfl⟩ | ⟨s₀,live₀,same⟩
    · cases Option.some.inj (parent.symm.trans grows.parent)
      obtain ⟨o',owner',same'⟩ := grows.stays grows.owner
      cases Option.some.inj (owner.symm.trans owner')
      exact outlined admitted rfl same'.symm
    · have parent₀ := Symbol.parentOutline same ▸ parent
      obtain ⟨o₀,owner₀,_⟩ := c.parentLive live₀ parent₀
      obtain ⟨o',owner',same'⟩ := grows.stays owner₀
      cases Option.some.inj (owner.symm.trans owner')
      exact outlined (ruled live₀ parent₀ owner₀) same same'.symm

theorem Steps.ruled {t t' : SymbolTable} (steps : Steps rule t t') (c : t.Consistent)
    (ruled : t.Ruled rule) : t'.Ruled rule := by
  induction steps with
  | done => exact ruled
  | more first _ ih => exact ih (first.consistent c) (first.ruled outlined c ruled)

end

theorem emptyRuled (rule : Symbol → Symbol → Prop) : empty.Ruled rule := by
  intro h s p o live parent
  rw [(emptyLive live).2] at parent
  cases parent

theorem Steps.orderly {t t' : SymbolTable} (steps : Steps Declared t t') (orderly : t.Orderly) :
    t'.Orderly :=
  ⟨steps.consistent orderly.toConsistent,
    steps.ruled Declared.transfer orderly.toConsistent orderly.declared⟩

theorem emptyOrderly : empty.Orderly := ⟨emptyConsistent,emptyRuled _⟩

theorem declaredLicence {decl : FileDecl} (named : decl.Named Text.IsSegment) :
    FileLicence Text.IsSegment decl Declared where
  type := by
    intro s o type segment body
    refine ⟨fun _ => ⟨segment,body⟩,?_,?_,?_⟩
    · intro package
      simp [package,SymbolKind.isTypeDecl] at type
    · intro file
      simp [file,SymbolKind.isTypeDecl] at type
    · intro package
      simp [IsBody,package,SymbolKind.isTypeDecl] at body
  inner := by
    intro s o inner outside
    refine ⟨?_,?_,?_,fun package => absurd package outside⟩
    · intro type
      cases kind : s.kind <;> simp_all [SymbolKind.isTypeDecl,SymbolKind.isVariable]
    · intro package
      simp [package,SymbolKind.isVariable] at inner
    · intro file
      simp [file,SymbolKind.isVariable] at inner
  package := by
    intro s o package segment _
    refine ⟨?_,fun _ => segment,?_,fun _ => .inl package⟩
    · intro type
      simp [package,SymbolKind.isTypeDecl] at type
    · intro file
      simp [package] at file
  file := by
    intro s o source found same _ names
    have kind : s.kind = .file ∧ s.childQualifiers = source.package := by
      obtain ⟨_,_,_,_,_,body⟩ := s
      cases body with
      | file => cases Option.some.inj found; exact ⟨rfl,rfl⟩
      | _ => cases found
    refine ⟨?_,?_,?_,fun _ => .inr kind.1⟩
    · intro type
      simp [kind.1,SymbolKind.isTypeDecl] at type
    · intro package
      simp [kind.1] at package
    · intro _
      rw [kind.2,same,names fun name inside => (named.package name inside).1]

theorem putFileOrderly {t : SymbolTable} (orderly : t.Orderly) {decl : FileDecl}
    (named : decl.Named Text.IsSegment) : (t.putFile decl).2.Orderly :=
  (putFileSteps (declaredLicence named) orderly.toConsistent named).orderly orderly

theorem dropFileOrderly {t : SymbolTable} (orderly : t.Orderly) (path : String) :
    (t.dropFile path).2.Orderly :=
  (dropFileSteps _ orderly.toConsistent path).orderly orderly

theorem declaredShelf {t : SymbolTable} {p : Handle} {o : Symbol} (owner : t.symbol? p = some o)
    (name : String) : t.declared p name = o.shelf (.member name) := by
  simp only [declared,membersOf,owner]
  rfl

theorem subpackageBound {t : SymbolTable} {p : Handle} {o : Symbol} (owner : t.symbol? p = some o)
    (name : String) : t.subpackage? p name = o.body.subpackages.get? name := by
  simp [subpackage?,owner,Symbol.subpackagesBody]

theorem Consistent.subpackageOf {t : SymbolTable} (c : t.Consistent) {h s p o}
    (live : t.symbol? h = some s) (package : s.kind = .package) (parent : s.parent = some p)
    (owner : t.symbol? p = some o) : t.subpackage? p s.name = some h := by
  have shelved := c.onShelf live parent owner
  simp only [Symbol.home,package] at shelved
  rw [subpackageBound owner]
  simpa [Symbol.shelf,Body.shelf] using shelved

theorem ownNames {s : Symbol} (package : s.kind ≠ .package) (file : s.kind ≠ .file) :
    s.childQualifiers = s.qualifiers ++ [s.name] := by
  obtain ⟨_,_,_,_,_,body⟩ := s
  cases body with
  | package => exact absurd rfl package
  | file => exact absurd rfl file
  | _ => rfl

theorem typeKind {s : Symbol} (type : s.kind.isTypeDecl) : s.kind ≠ .package ∧ s.kind ≠ .file := by
  constructor <;> intro same <;> simp [same,SymbolKind.isTypeDecl] at type

theorem rootNames {s : Symbol} (package : s.kind = .package) (unnamed : s.name = "") :
    s.childQualifiers = [] := by
  obtain ⟨_,_,_,_,_,body⟩ := s
  cases body with
  | package => exact if_pos unnamed
  | _ => cases package

theorem Consistent.rootChain {t : SymbolTable} (c : t.Consistent) : ∃ s, t.symbol? t.root = some s ∧
    s.kind = .package ∧ s.childQualifiers = [] ∧ t.scopeChain t.root = ⟨[(t.root,s)],true⟩ := by
  obtain ⟨s,live,package,parent,unnamed⟩ := c.root
  refine ⟨s,live,package,rootNames package unnamed,?_⟩
  obtain ⟨slot,held,_⟩ := Arena.getSlot.mp live
  obtain ⟨bound,_⟩ := Array.getElem?_eq_some_iff.mp held
  obtain ⟨fuel,size⟩ := Nat.exists_eq_add_one_of_ne_zero (Nat.ne_zero_of_lt bound)
  simp [scopeChain,size,climb,live,parent]

theorem alongConcat (t : SymbolTable) (path : List String) (name : String) :
    t.along? (path ++ [name]) = (t.along? path).bind (t.child? · name) := by
  simp [along?,List.foldlM_append]

def Separate (t : SymbolTable) : Prop :=
  ∀ {h s h' s'}, t.symbol? h = some s → s.kind.isTypeDecl → t.symbol? h' = some s' →
    s'.kind = .package → s.childQualifiers ≠ s'.childQualifiers

namespace Orderly

variable {t : SymbolTable} (orderly : t.Orderly)
include orderly

theorem packageParent {h s p o} (live : t.symbol? h = some s) (package : s.kind = .package)
    (parent : s.parent = some p) (owner : t.symbol? p = some o) :
    o.kind = .package ∧ Text.IsSegment s.name ∧ s.childQualifiers = o.childQualifiers ++ [s.name] := by
  have segment := (orderly.declared live parent owner).package package
  obtain ⟨o',owner',qualifiers⟩ := orderly.parentLive live parent
  cases Option.some.inj (owner.symm.trans owner')
  refine ⟨orderly.parentOfPackage live package parent owner,segment,?_⟩
  rw [packageQualifiers package segment.1,qualifiers]

theorem memberNames {p o name h} (owner : t.symbol? p = some o)
    (listed : h ∈ o.shelf (.member name)) :
    ∃ s, t.symbol? h = some s ∧ s.kind ≠ .file ∧ s.childQualifiers = o.childQualifiers ++ [name] ∧
      (o.kind = .package → s.kind.isTypeDecl) := by
  have belongs := (orderly.listed owner (.member name) h).mp listed
  obtain ⟨s,live⟩ := belongs.live
  obtain ⟨package,file⟩ := orderly.memberKind owner listed live
  have named := belongs.memberName live
  rw [← named]
  refine ⟨s,live,file,?_,?_⟩
  · rw [ownNames package file]
    congr 1
    generalize Shelf.member name = place at belongs
    cases belongs with
    | own live' parent | parameter live' parent =>
      cases Option.some.inj (live.symm.trans live')
      obtain ⟨o',owner',qualifiers⟩ := orderly.parentLive live parent
      cases Option.some.inj (owner.symm.trans owner')
      exact qualifiers
    | type live' kind parent owner' isFile above =>
      cases Option.some.inj (live.symm.trans live')
      obtain ⟨f,file',qualifiers⟩ := orderly.parentLive live parent
      cases Option.some.inj (owner'.symm.trans file')
      rw [qualifiers,(orderly.declared owner' above owner).file isFile]
  · intro isPackage
    generalize Shelf.member name = place at belongs
    cases belongs with
    | own live' parent | parameter live' parent =>
      cases Option.some.inj (live.symm.trans live')
      exact absurd ((orderly.declared live parent owner).packaged isPackage) (by simp [package,file])
    | type live' kind =>
      cases Option.some.inj (live.symm.trans live')
      exact kind

theorem childNames {p o name h} (owner : t.symbol? p = some o) (found : t.child? p name = some h) :
    ∃ s, t.symbol? h = some s ∧ s.kind ≠ .file ∧ s.childQualifiers = o.childQualifiers ++ [name] := by
  unfold child? at found
  split at found
  · rename_i first rest members
    cases Option.some.inj found
    rw [declaredShelf owner] at members
    obtain ⟨s,live,file,names,_⟩ := orderly.memberNames owner (members ▸ List.mem_cons_self)
    exact ⟨s,live,file,names⟩
  · rw [subpackageBound owner] at found
    obtain ⟨s,live,kind,named,parent⟩ := orderly.subpackage owner (Symbol.subpackageShelf found)
    obtain ⟨_,_,names⟩ := orderly.packageParent live kind parent owner
    exact ⟨s,live,by simp [kind],named ▸ names⟩

theorem alongNames {path h} (found : t.along? path = some h) :
    ∃ s, t.symbol? h = some s ∧ s.kind ≠ .file ∧ s.childQualifiers = path := by
  induction path using List.reverseRecOn generalizing h with
  | nil =>
    cases Option.some.inj found
    obtain ⟨s,live,package,_,unnamed⟩ := orderly.root
    exact ⟨s,live,by simp [package],rootNames package unnamed⟩
  | append_singleton path name ih =>
    rw [alongConcat] at found
    obtain ⟨p,before,last⟩ := Option.bind_eq_some_iff.mp found
    obtain ⟨o,owner,_,names⟩ := ih before
    obtain ⟨s,live,file,names'⟩ := orderly.childNames owner last
    exact ⟨s,live,file,names ▸ names'⟩

theorem packageNames {h s} (live : t.symbol? h = some s) (package : s.kind = .package) :
    (∀ name ∈ s.childQualifiers, Text.IsSegment name) ∧
      s.childQualifiers.foldlM t.subpackage? t.root = some h := by
  induction orderly.rooted live generalizing s with
  | root =>
    obtain ⟨s',live',_,_,unnamed⟩ := orderly.root
    cases Option.some.inj (live.symm.trans live')
    rw [rootNames package unnamed]
    exact ⟨by simp,rfl⟩
  | child live' parent outer ih =>
    cases Option.some.inj (live.symm.trans live')
    obtain ⟨o,owner,_⟩ := orderly.parentLive live parent
    obtain ⟨isPackage,segment,names⟩ := orderly.packageParent live package parent owner
    obtain ⟨segments,leads⟩ := ih owner isPackage
    rw [names]
    refine ⟨?_,?_⟩
    · intro name inside
      rcases List.mem_append.mp inside with before | last
      · exact segments name before
      · exact List.mem_singleton.mp last ▸ segment
    · rw [List.foldlM_append,leads]
      simp [orderly.subpackageOf live package parent owner]

theorem alongPackage (separate : t.Separate) {h s} (live : t.symbol? h = some s)
    (package : s.kind = .package) : t.along? s.childQualifiers = some h := by
  induction orderly.rooted live generalizing s with
  | root =>
    obtain ⟨s',live',_,_,unnamed⟩ := orderly.root
    cases Option.some.inj (live.symm.trans live')
    rw [rootNames package unnamed]
    rfl
  | child live' parent outer ih =>
    cases Option.some.inj (live.symm.trans live')
    obtain ⟨o,owner,_⟩ := orderly.parentLive live parent
    obtain ⟨isPackage,_,names⟩ := orderly.packageParent live package parent owner
    rw [names,alongConcat,ih owner isPackage,Option.bind_some,child?]
    split
    · rename_i first rest members
      rw [declaredShelf owner] at members
      obtain ⟨s',live',_,names',type⟩ := orderly.memberNames owner
        (members ▸ List.mem_cons_self)
      exact absurd (names'.trans names.symm) (separate live' (type isPackage) live package)
    · exact orderly.subpackageOf live package parent owner

theorem notRootKind {h s} (live : t.symbol? h = some s) (package : s.kind ≠ .package) :
    ∃ p o, s.parent = some p ∧ t.symbol? p = some o ∧ s.qualifiers = o.childQualifiers := by
  refine orderly.owner live ?_
  rintro rfl
  obtain ⟨root,live',isPackage,_⟩ := orderly.root
  cases Option.some.inj (live.symm.trans live')
  exact package isPackage

theorem typeNames {h s} (live : t.symbol? h = some s) (type : s.kind.isTypeDecl) :
    Text.IsSegment s.name ∧ s.childQualifiers = s.qualifiers ++ [s.name] := by
  obtain ⟨package,file⟩ := typeKind type
  obtain ⟨p,o,parent,owner,_⟩ := orderly.notRootKind live package
  exact ⟨((orderly.declared live parent owner).type type).1,ownNames package file⟩

theorem typePackage {h s f o} (live : t.symbol? h = some s) (type : s.kind.isTypeDecl)
    (parent : s.parent = some f) (owner : t.symbol? f = some o) (file : o.kind = .file) :
    ∃ p package, t.symbol? p = some package ∧ package.kind = .package ∧
      s.childQualifiers = package.childQualifiers ++ [s.name] ∧ h ∈ package.shelf (.member s.name) := by
  obtain ⟨p,package,above,outer,_⟩ := orderly.notRootKind owner (by simp [file])
  obtain ⟨o',owner',qualifiers⟩ := orderly.parentLive live parent
  cases Option.some.inj (owner.symm.trans owner')
  refine ⟨p,package,outer,orderly.parentOfFile owner file above outer,?_,?_⟩
  · rw [(orderly.typeNames live type).2,qualifiers,(orderly.declared owner above outer).file file]
  · exact (orderly.listed outer _ h).mpr (.type live type parent owner file above)

theorem alongType (separate : t.Separate) {h s f o} (live : t.symbol? h = some s)
    (type : s.kind.isTypeDecl) (parent : s.parent = some f) (owner : t.symbol? f = some o)
    (file : o.kind = .file)
    (alone : ∀ {h' s'}, t.symbol? h' = some s' → s'.kind.isTypeDecl →
      s'.childQualifiers = s.childQualifiers → h' = h) :
    t.along? s.childQualifiers = some h := by
  obtain ⟨p,package,above,isPackage,names,listed⟩ := orderly.typePackage live type parent owner file
  rw [names,alongConcat,orderly.alongPackage separate above isPackage,Option.bind_some,child?,
    declaredShelf above]
  split
  · rename_i first rest members
    obtain ⟨s',live',_,names',type'⟩ := orderly.memberNames above
      (members ▸ List.mem_cons_self)
    rw [alone live' (type' isPackage) (names'.trans names.symm)]
  · rename_i nothing
    simp [nothing] at listed

theorem aroundNames {h s f} (live : t.symbol? h = some s) (type : s.kind.isTypeDecl)
    (parent : s.parent = some f) : ∃ names, s.childQualifiers = names ++ [s.name] ∧
      ((∀ name ∈ names, Text.IsSegment name) ∨
        ∃ o, t.symbol? f = some o ∧ o.kind.isTypeDecl ∧ o.childQualifiers = names) := by
  obtain ⟨o,owner,qualifiers⟩ := orderly.parentLive live parent
  rcases ((orderly.declared live parent owner).type type).2 with file | outer
  · obtain ⟨p,package,above,isPackage,names,_⟩ :=
      orderly.typePackage live type parent owner file
    exact ⟨_,names,.inl (orderly.packageNames above isPackage).1⟩
  · exact ⟨_,(orderly.typeNames live type).2,.inr ⟨o,owner,outer,qualifiers.symm⟩⟩

theorem plainNames {h s} (live : t.symbol? h = some s) (type : s.kind.isTypeDecl) :
    ∀ name ∈ s.childQualifiers, Text.IsSegment name := by
  induction orderly.rooted live generalizing s with
  | root =>
    obtain ⟨s',live',package,_⟩ := orderly.root
    cases Option.some.inj (live.symm.trans live')
    exact absurd package (typeKind type).1
  | @child h s' p live' parent outer ih =>
    obtain rfl := Option.some.inj (live.symm.trans live')
    obtain ⟨names,ends,around⟩ := orderly.aroundNames live type parent
    have plain : ∀ name ∈ names, Text.IsSegment name := by
      rcases around with plain | ⟨o,owner,outer,rfl⟩
      · exact plain
      · exact ih owner outer
    intro name inside
    rw [ends] at inside
    rcases List.mem_append.mp inside with before | last
    · exact plain name before
    · exact List.mem_singleton.mp last ▸ (orderly.typeNames live type).1

end Orderly

end SymbolTable
end CodeIndex
