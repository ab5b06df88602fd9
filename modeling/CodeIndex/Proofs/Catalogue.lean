import CodeIndex.Proofs.Acceptance

/-! What files leave behind that are indexed one after another, each under a path of its own. The table
holds every one of them as it was declared, no other file, and no package but those on the way to them.
Which file came first does not matter to any of this. -/
namespace CodeIndex
namespace SymbolTable

def Packaged (s o : Symbol) : Prop := o.kind = .package → s.kind = .package ∨ s.kind = .file

theorem Packaged.transfer {s s' o o' : Symbol} (packaged : Packaged s o) (same : s.outline = s'.outline)
    (same' : o.outline = o'.outline) : Packaged s' o' := by
  unfold Packaged
  rw [← Symbol.kindOutline same,← Symbol.kindOutline same']
  exact packaged

theorem packagedLicence (decl : FileDecl) : FileLicence (fun _ => True) decl Packaged where
  type := by
    intro s o _ _ body package
    simp [IsBody,package,SymbolKind.isTypeDecl] at body
  inner := fun _ outside package => absurd package outside
  package := fun package _ _ _ => .inl package
  file := by
    intro s o source found _ _ _ _
    obtain ⟨_,_,_,_,_,body⟩ := s
    cases body with
    | file => exact .inr rfl
    | _ => cases found

def OnWay (t : SymbolTable) (decls : List FileDecl) (x : Handle) (s : Symbol) : Prop :=
  ∃ decl ∈ decls, ∃ ns above o, ns <+: decl.package ∧ ns.foldlM t.subpackage? t.root = some x ∧
    s.outline = emptyPackage s.name above o

structure Catalogue (t : SymbolTable) (decls : List FileDecl) : Prop where
  consistent : t.Consistent
  packaged : t.Ruled Packaged
  top : ∃ s, t.symbol? t.root = some s ∧ s.outline = emptyRoot
  each : ∀ decl ∈ decls, ∃ file, t.IndexedAs file decl
  files : ∀ {x s}, t.symbol? x = some s → s.kind = .file → ∃ decl ∈ decls, t.IndexedAs x decl
  packages : ∀ {x s}, t.symbol? x = some s → s.kind = .package → x = t.root ∨ t.OnWay decls x s

theorem OnWay.stays {t t' : SymbolTable} (c : t.Consistent) (c' : t'.Consistent) (root : t'.root = t.root)
    (stay : PackagesStay t t') {decls decls' : List FileDecl} (more : decls ⊆ decls') {x : Handle}
    {s s' : Symbol} (same : s.outline = s'.outline) (way : t.OnWay decls x s) : t'.OnWay decls' x s' := by
  obtain ⟨decl,inside,ns,above,o,early,leads,empty⟩ := way
  refine ⟨decl,more inside,ns,above,o,early,?_,?_⟩
  · rw [root]
    exact stay.path c c' leads
  · rw [← same,empty,Symbol.nameOutline same]

theorem emptyCatalogue : empty.Catalogue [] where
  consistent := emptyConsistent
  packaged := emptyRuled _
  top := ⟨emptyRoot,rfl,rfl⟩
  each := fun _ => List.not_mem_nil.elim
  files := by
    intro x s live file
    rw [(emptyLive live).2] at file
    cases file
  packages := fun live _ => .inl (emptyLive live).1

theorem Catalogue.congr {t : SymbolTable} {decls decls' : List FileDecl} (catalogue : t.Catalogue decls)
    (same : ∀ decl, decl ∈ decls ↔ decl ∈ decls') : t.Catalogue decls' where
  consistent := catalogue.consistent
  packaged := catalogue.packaged
  top := catalogue.top
  each := fun decl inside => catalogue.each decl ((same decl).mpr inside)
  files := by
    intro x s live file
    obtain ⟨decl,inside,indexed⟩ := catalogue.files live file
    exact ⟨decl,(same decl).mp inside,indexed⟩
  packages := by
    intro x s live package
    refine (catalogue.packages live package).imp_right ?_
    rintro ⟨decl,inside,way⟩
    exact ⟨decl,(same decl).mp inside,way⟩

theorem Catalogue.unindexed {t : SymbolTable} {decls : List FileDecl} (catalogue : t.Catalogue decls)
    {path : String} (new : path ∉ decls.map fun decl => Path.normalize decl.path) :
    t.files.get? path = none := by
  refine Option.eq_none_iff_forall_ne_some.mpr fun x there => new ?_
  obtain ⟨s,live,file,named⟩ := (catalogue.consistent.indexed path x).mp there
  obtain ⟨decl,inside,indexed⟩ := catalogue.files live file
  obtain ⟨s',_,live',_,named',_⟩ := indexed.entry
  cases Option.some.inj (live.symm.trans live')
  exact List.mem_map.mpr ⟨decl,inside,named'.symm.trans named⟩

theorem Catalogue.add {t : SymbolTable} {decls : List FileDecl} (catalogue : t.Catalogue decls)
    {decl : FileDecl} (new : Path.normalize decl.path ∉ decls.map fun decl => Path.normalize decl.path)
    {file : Handle} (ok : (t.putFile decl).1 = .ok file) :
    (t.putFile decl).2.Catalogue (decls ++ [decl]) := by
  have c := catalogue.consistent
  have steps := putFileSteps (packagedLicence decl) c decl.namedTrue
  have c' := steps.consistent c
  have indexes := putFileIndexes c ok
  have absent := catalogue.unindexed new
  rw [dropFileAbsent (by rwa [Path.normalizeFixed])] at indexes
  obtain ⟨root,stay,others,indexed,added⟩ := indexes
  have old : ∀ {d f}, t.IndexedAs f d → (t.putFile decl).2.IndexedAs f d :=
    fun before => before.stays c c' root stay others
  refine ⟨c',steps.ruled Packaged.transfer c catalogue.packaged,?_,?_,?_,?_⟩
  · obtain ⟨s,live,same⟩ := catalogue.top
    have same : s.outline = emptyRoot.outline := same
    obtain ⟨s',live',same'⟩ := stay _ s live (Symbol.kindOutline same)
    exact ⟨s',root ▸ live',same'.trans same⟩
  · intro d inside
    rcases List.mem_append.mp inside with before | last
    · obtain ⟨f,there⟩ := catalogue.each d before
      exact ⟨f,old there⟩
    · cases List.mem_singleton.mp last
      exact ⟨file,indexed⟩
  · intro x s live isFile
    rcases added live (.inr isFile) with rfl | ⟨s₀,live₀,same⟩ | ⟨_,above,o,_,_,empty⟩
    · exact ⟨decl,by simp,indexed⟩
    · obtain ⟨d,inside,there⟩ := catalogue.files live₀ ((Symbol.kindOutline same).trans isFile)
      exact ⟨d,by simp [inside],old there⟩
    · have empty : s.outline = (emptyPackage s.name above o).outline := empty
      rw [Symbol.kindOutline empty] at isFile
      cases isFile
  · intro x s live package
    rcases added live (.inl package) with rfl | ⟨s₀,live₀,same⟩ | ⟨ns,above,o,early,leads,empty⟩
    · obtain ⟨s',_,live',isFile,_⟩ := indexed.entry
      cases Option.some.inj (live.symm.trans live')
      simp [isFile] at package
    · rcases catalogue.packages live₀ ((Symbol.kindOutline same).trans package) with top | way
      · exact .inl (top.trans root.symm)
      · exact .inr (way.stays c c' root stay (List.subset_append_left _ _) same)
    · exact .inr ⟨decl,by simp,ns,above,o,early,leads,empty⟩

end SymbolTable

namespace Codebase

theorem runCatalogue {c : Codebase} (fresh : c.table = .empty) {decls : List FileDecl}
    (proper : ∀ decl ∈ decls, decl.Proper)
    (paths : (decls.map fun decl => Path.normalize decl.path).Nodup) :
    (c.run (decls.map .putFile)).table.Catalogue decls := by
  induction decls using List.reverseRecOn with
  | nil =>
    change c.table.Catalogue []
    rw [fresh]
    exact SymbolTable.emptyCatalogue
  | append_singleton decls decl ih =>
    rw [List.map_append,List.nodup_append] at paths
    have before := ih (fun d inside => proper d (by simp [inside])) paths.1
    obtain ⟨file,ok⟩ :=
      (SymbolTable.putFileAccepted before.consistent decl).mpr (proper decl (by simp))
    have new : Path.normalize decl.path ∉ decls.map fun decl => Path.normalize decl.path :=
      fun inside => paths.2.2 _ inside _ (by simp) rfl
    rw [List.map_append,run,List.foldl_append]
    exact before.add new ok

end Codebase
end CodeIndex
