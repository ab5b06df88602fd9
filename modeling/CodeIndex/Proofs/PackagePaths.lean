import CodeIndex.Proofs.Dependencies
import CodeIndex.Proofs.IndexOrder
import CodeIndex.Proofs.Reading

/-! Ways through packages. Whatever changes are made, a file stays in the package that its package names lead
to, so the types of a package are qualified by the way to it. A type that a path of names leads to, none of
them empty, bears those names, and a type found under a dotted name bears that name. -/
namespace CodeIndex

namespace SymbolTable

def Housed (t : SymbolTable) : Prop :=
  ∀ f s q, t.symbol? f = some s → s.kind = .file → s.parent = some q →
    s.childQualifiers.foldlM t.subpackage? t.root = some q

theorem Prunes.path {t t' : SymbolTable} {gone : Handle → Prop} (prunes : Prunes t t' gone) (c : t.Consistent)
    {names : List String} {q : Handle} (leads : names.foldlM t.subpackage? t.root = some q) (stays : ¬gone q) :
    names.foldlM t'.subpackage? t'.root = some q := by
  induction names using List.reverseRecOn generalizing q with
  | nil =>
    rw [prunes.root]
    exact leads
  | append_singleton names name ih =>
    obtain ⟨p,before,found⟩ := leadsConcat.mp leads
    obtain ⟨o,s,owner,live,package,rfl,parent⟩ := c.subpackageFound found
    have above := prunes.parentKept live stays parent
    obtain ⟨s',live',same⟩ := prunes.stays live stays
    obtain ⟨o',owner',_⟩ := prunes.stays owner above
    refine leadsConcat.mpr ⟨p,ih before above,?_⟩
    rw [← Symbol.nameOutline same]
    exact (prunes.consistent c).subpackageOf live' ((Symbol.kindOutline same).trans package)
      ((Symbol.parentOutline same).trans parent) owner'

namespace Housed

variable {t t' : SymbolTable} (housed : t.Housed) (c : t.Consistent)
include housed c

theorem pruned {gone : Handle → Prop} (prunes : Prunes t t' gone) : t'.Housed := by
  intro f s q live file parent
  obtain ⟨stays,s₀,live₀,same⟩ := prunes.live live
  have parent₀ := (Symbol.parentOutline same).trans parent
  rw [← Symbol.childQualifiersOutline same]
  exact prunes.path c (housed f s₀ q live₀ ((Symbol.kindOutline same).trans file) parent₀)
    (prunes.parentKept live₀ stays parent₀)

theorem grown {h p : Handle} {s o : Symbol} (grows : Grows t t' h s p o)
    (placed : s.kind = .file → s.childQualifiers.foldlM t.subpackage? t.root = some p) : t'.Housed := by
  have paths : ∀ {names : List String} {q}, names.foldlM t.subpackage? t.root = some q →
      names.foldlM t'.subpackage? t'.root = some q := by
    intro names q leads
    rw [grows.root]
    exact grows.packagesStay.path c (grows.consistent c) leads
  intro f s' q live file parent
  rcases grows.live live with ⟨rfl,rfl⟩ | ⟨s₀,live₀,same⟩
  · cases Option.some.inj (grows.parent.symm.trans parent)
    exact paths (placed file)
  · rw [← Symbol.childQualifiersOutline same]
    exact paths (housed f s₀ q live₀ ((Symbol.kindOutline same).trans file) ((Symbol.parentOutline same).trans parent))

theorem steps (steps : Steps (fun s _ => s.kind ≠ .file) t t') : t'.Housed := by
  induction steps with
  | done => exact housed
  | more first _ ih =>
    refine ih ?_ (first.consistent c)
    cases first with
    | prune prunes => exact housed.pruned c prunes
    | grow grows other => exact housed.grown c grows fun file => absurd file other

theorem started {path : String} (decl : FileDecl) (absent : t.files.get? path = none) :
    (t.startFile path decl).2.Housed := by
  obtain ⟨root,live,isPackage,_⟩ := c.root
  obtain ⟨steps,files,o,owner,package,_⟩ := makePackageSteps (fun s _ => s.kind ≠ .file) c live isPackage
    decl.package fun kind _ _ => by simp [kind]
  have c₁ := steps.consistent c
  have leads := (makePackagePaves c live isPackage decl.package).leads
  rw [startFileMade owner]
  refine (housed.steps c steps).grown c₁ (fileGrows c₁ owner package (files ▸ absent) decl) fun _ => ?_
  rw [steps.root]
  exact leads

theorem putFile (decl : FileDecl) : (t.putFile decl).2.Housed := by
  unfold SymbolTable.putFile
  split
  · exact housed
  have licence : Licence (fun _ => True) fun s _ => s.kind ≠ .file :=
    { type := fun type _ _ => (typeKind type).2
      inner := fun {s o} inner _ file => by simp [file,SymbolKind.isVariable] at inner }
  have dropped := dropFileSteps (fun s _ => s.kind ≠ .file) c (Path.normalize decl.path)
  have absent := dropFileUnindexed c (Path.normalize decl.path)
  rw [Path.normalizeFixed] at absent
  have started := (housed.steps c dropped).started (dropped.consistent c) decl absent
  obtain ⟨c₁,scope⟩ := c.begun decl
  have types := (Edit.addTypesProgress licence c₁ scope decl.span decl.types
    (FileDecl.namedTrue decl).types).steps
  have filled := started.steps c₁ types
  have c₂ := types.consistent c₁
  simp only [Edit.after] at filled c₂
  split at filled
  · rename_i ran
    simp only [ran] at c₂ ⊢
    exact filled.pruned c₂ (scopesPrune c₂ _ _)
  · rename_i ran
    simp only [ran] at c₂ ⊢
    exact filled.steps c₂ (dropFileSteps _ c₂ _)

theorem attached {p h : Handle} {d : Draft} (ok : t.attach p d = .ok (h,t')) : t'.Housed := by
  obtain ⟨o,body,attaches⟩ := attachOk c ok
  obtain ⟨u,gone,o',prunes,_,_,grows⟩ := attaches.steps
  obtain ⟨_,kind,_,file⟩ := checkedBody attaches.checked
  have other : (drafted d p o body).kind ≠ .file := fun isFile => file (kind.symm.trans isFile)
  exact housed.steps c (.more (.prune prunes) (.one (.grow grows other)))

end Housed

theorem emptyHoused : empty.Housed := by
  intro f s q live file
  rw [(emptyLive live).2] at file
  cases file

section

variable {t : SymbolTable} (c : t.Consistent) (housed : t.Housed)
include c housed

theorem listedNames {p h : Handle} {o : Symbol} {names : List String} {name : String}
    (owner : t.symbol? p = some o) (leads : o.kind = .package → names.foldlM t.subpackage? t.root = some p)
    (around : o.childQualifiers = names) (listed : h ∈ o.shelf (.member name)) :
    ∃ s, t.symbol? h = some s ∧ s.kind ≠ .package ∧ s.kind ≠ .file ∧ s.childQualifiers = names ++ [name] := by
  have belongs := (c.listed owner (.member name) h).mp listed
  obtain ⟨s,live⟩ := belongs.live
  obtain ⟨package,file⟩ := c.memberKind owner listed live
  refine ⟨s,live,package,file,?_⟩
  rw [ownNames package file,belongs.memberName live]
  congr 1
  generalize Shelf.member name = place at belongs
  cases belongs with
  | own live' parent | parameter live' parent =>
    cases Option.some.inj (live.symm.trans live')
    obtain ⟨o',owner',qualifiers⟩ := c.parentLive live parent
    cases Option.some.inj (owner.symm.trans owner')
    exact qualifiers.trans around
  | type live' kind parent owner' isFile above =>
    -- Only one way leads to the package, so the file has the names of that way.
    cases Option.some.inj (live.symm.trans live')
    obtain ⟨f,file',qualifiers⟩ := c.parentLive live parent
    cases Option.some.inj (owner'.symm.trans file')
    rw [qualifiers]
    exact c.oneWay (housed _ _ _ owner' isFile above) (leads (c.parentOfFile owner' isFile above owner))

theorem alongBears {names : List String} {h : Handle} (filled : ∀ name ∈ names, name ≠ "")
    (found : t.along? names = some h) : ∃ s, t.symbol? h = some s ∧ s.kind ≠ .file ∧
      s.childQualifiers = names ∧ (s.kind = .package → names.foldlM t.subpackage? t.root = some h) := by
  induction names using List.reverseRecOn generalizing h with
  | nil =>
    cases Option.some.inj found
    obtain ⟨s,live,package,_,unnamed⟩ := c.root
    exact ⟨s,live,by simp [package],rootNames package unnamed,fun _ => rfl⟩
  | append_singleton names name ih =>
    rw [alongConcat] at found
    obtain ⟨p,before,last⟩ := Option.bind_eq_some_iff.mp found
    obtain ⟨o,owner,_,around,leads⟩ := ih (fun n inside => filled n (by simp [inside])) before
    unfold child? at last
    split at last
    · rename_i first rest members
      cases Option.some.inj last
      rw [declaredShelf owner] at members
      obtain ⟨s,live,package,file,names'⟩ :=
        listedNames c housed owner leads around (members ▸ List.mem_cons_self)
      exact ⟨s,live,file,names',fun isPackage => absurd isPackage package⟩
    · obtain ⟨o',s,owner',live,package,rfl,parent⟩ := c.subpackageFound last
      cases Option.some.inj (owner.symm.trans owner')
      obtain ⟨_,owner',qualifiers⟩ := c.parentLive live parent
      cases Option.some.inj (owner.symm.trans owner')
      have isPackage := c.parentOfPackage live package parent owner
      refine ⟨s,live,by simp [package],?_,fun _ => leadsConcat.mpr ⟨p,leads isPackage,last⟩⟩
      rw [packageQualifiers package (filled s.name (by simp)),qualifiers,around]

end

end SymbolTable

namespace Codebase

theorem Reached.housed {c : Codebase} (reached : c.Reached) : c.table.Housed := by
  induction reached with
  | new => exact SymbolTable.emptyHoused
  | @change c before change _ ih =>
    have consistent := before.consistent
    cases change with
    | putFile decl => exact ih.putFile consistent decl
    | dropFile path => exact ih.steps consistent (SymbolTable.dropFileSteps _ consistent path)
    | attach scope draft =>
      rw [applyAttach]
      cases ran : c.table.attach scope draft with
      | error => exact ih
      | ok result => exact ih.attached consistent ran
    | addDependency dependency =>
      rw [applyDependency]
      exact ih

theorem typeBears {home c : Codebase} (distinct : home.Distinct) (reached : home.Reached)
    (inside : c ∈ home.chain) {dotted : String} {ref : SymbolRef}
    (found : c.type? (Text.segments dotted) = some ref) : ∃ d s, home.resolve? ref = some (d,s) ∧
      s.qualifiedName = Text.dotted (Text.segments dotted) := by
  have plain := Text.segmentsPlain dotted
  unfold type? at found
  split at found
  · cases found
  · rename_i nonempty
    rw [Text.flatSegments plain] at found
    obtain ⟨d,further,own⟩ := List.exists_of_findSome?_eq_some found
    simp only [ownType?,bind,Option.bind_eq_some_iff] at own
    obtain ⟨h,along,s,live,last⟩ := own
    split at last
    · rename_i type
      cases Option.some.inj last
      have within := chainWithin distinct inside d further
      have part := reached.part (chainPart within)
      obtain ⟨s',live',file,names,_⟩ := SymbolTable.alongBears part.consistent part.housed
        (fun name inside => (plain name inside).1) along
      cases Option.some.inj (live.symm.trans live')
      have named : s.name ∈ Text.segments dotted := by
        obtain ⟨package,_⟩ := SymbolTable.typeKind type
        simp [← names,SymbolTable.ownNames package file]
      exact ⟨d,s,resolveRef within live,by rw [qualifiedNames file (plain s.name named).1,names]⟩
    · cases last

end Codebase
end CodeIndex
