import CodeIndex.Proofs.Declarations

/-! What indexing a file does. The packages on its way are made where they are missing, the file is put
into the last one, and its declarations are attached inside it. Packages only list more than before, and
of everything else nothing changes. -/
namespace CodeIndex
namespace SymbolTable

def PackagesStay (t t' : SymbolTable) : Prop :=
  ∀ x s, t.symbol? x = some s → s.kind = .package →
    ∃ s', t'.symbol? x = some s' ∧ s'.outline = s.outline

theorem PackagesStay.trans {t t' t'' : SymbolTable} (first : PackagesStay t t')
    (second : PackagesStay t' t'') : PackagesStay t t'' := by
  intro x s live package
  obtain ⟨s',live',same⟩ := first x s live package
  obtain ⟨s'',live'',same'⟩ := second x s' live' ((Symbol.kindOutline same).trans package)
  exact ⟨s'',live'',same'.trans same⟩

theorem Consistent.subpackageFound {t : SymbolTable} (c : t.Consistent) {p h : Handle} {name : String}
    (found : t.subpackage? p name = some h) : ∃ o s, t.symbol? p = some o ∧ t.symbol? h = some s ∧
      s.kind = .package ∧ s.name = name ∧ s.parent = some p := by
  obtain ⟨o,owner,_⟩ := Option.bind_eq_some_iff.mp found
  rw [subpackageBound owner] at found
  obtain ⟨s,live,package,named,parent⟩ := c.subpackage owner (Symbol.subpackageShelf found)
  exact ⟨o,s,owner,live,package,named,parent⟩

theorem PackagesStay.subpackage {t t' : SymbolTable} (stay : PackagesStay t t') (c : t.Consistent)
    (c' : t'.Consistent) {p h : Handle} {name : String} (found : t.subpackage? p name = some h) :
    t'.subpackage? p name = some h := by
  obtain ⟨o,s,owner,live,package,named,parent⟩ := c.subpackageFound found
  obtain ⟨s',live',same⟩ := stay h s live package
  obtain ⟨o',owner',_⟩ := stay p o owner (c.parentOfPackage live package parent owner)
  rw [← named,← Symbol.nameOutline same]
  exact c'.subpackageOf live' ((Symbol.kindOutline same).trans package)
    ((Symbol.parentOutline same).trans parent) owner'

theorem PackagesStay.path {t t' : SymbolTable} (stay : PackagesStay t t') (c : t.Consistent)
    (c' : t'.Consistent) {names : List String} {p q : Handle}
    (leads : names.foldlM t.subpackage? p = some q) : names.foldlM t'.subpackage? p = some q := by
  induction names generalizing p with
  | nil => exact leads
  | cons name rest ih =>
    obtain ⟨h,first,later⟩ := Option.bind_eq_some_iff.mp leads
    exact Option.bind_eq_some_iff.mpr ⟨h,stay.subpackage c c' first,ih later⟩

theorem Grows.packagesStay {t t' : SymbolTable} {h p : Handle} {s o : Symbol}
    (grows : Grows t t' h s p o) : PackagesStay t t' := fun _ _ live _ => grows.stays live

def InnerStay (t t' : SymbolTable) : Prop :=
  ∀ {x s}, t.symbol? x = some s → s.kind ≠ .package → t'.symbol? x = some s

theorem Consistent.plantedStay {t : SymbolTable} (c : t.Consistent) {p : Handle} {o : Symbol}
    (owner : t.symbol? p = some o) (package : o.kind = .package) (s : Symbol) (f : Body → Body) :
    InnerStay t ((t.planted s).modify p f) := by
  intro x sx live plain
  have away : x ≠ p := by
    rintro rfl
    exact plain (Option.some.inj (owner.symm.trans live) ▸ package)
  rw [symbolModify,if_neg away,c.plantedOld s live]

structure Paves (t t' : SymbolTable) (p : Handle) (names : List String) (q : Handle) : Prop where
  stay : PackagesStay t t'
  leads : names.foldlM t'.subpackage? p = some q
  added : ∀ {x s}, t'.symbol? x = some s → (∃ s₀, t.symbol? x = some s₀ ∧ s₀.outline = s.outline) ∨
    ∃ ns above o, ns <+: names ∧ ns.foldlM t'.subpackage? p = some x ∧
      s.outline = emptyPackage s.name above o
  others : InnerStay t t'

theorem Paves.from {t t' : SymbolTable} {p h q : Handle} {name : String} {rest : List String}
    (bound : t'.subpackage? p name = some h) (paves : Paves t t' h rest q) :
    Paves t t' p (name :: rest) q where
  stay := paves.stay
  leads := Option.bind_eq_some_iff.mpr ⟨h,bound,paves.leads⟩
  added := by
    intro x s live
    rcases paves.added live with old | ⟨ns,above,o,early,leads,made⟩
    · exact .inl old
    · refine .inr ⟨name :: ns,above,o,?_,Option.bind_eq_some_iff.mpr ⟨h,bound,leads⟩,made⟩
      exact List.cons_prefix_cons.mpr ⟨rfl,early⟩
  others := paves.others

theorem Paves.after {t t₁ t' : SymbolTable} {p h above q : Handle} {o : Symbol} {name : String}
    {rest : List String} (grows : Grows t t₁ h (emptyPackage name above o) p o)
    (others : InnerStay t t₁)
    (bound : t'.subpackage? p name = some h) (paves : Paves t₁ t' p (name :: rest) q) :
    Paves t t' p (name :: rest) q where
  stay := grows.packagesStay.trans paves.stay
  leads := paves.leads
  added := by
    intro x s live
    rcases paves.added live with ⟨s₁,live₁,same⟩ | new
    · rcases grows.live live₁ with ⟨rfl,rfl⟩ | ⟨s₀,live₀,same₀⟩
      · refine .inr ⟨[name],above,o,?_,by simpa using bound,?_⟩
        · exact List.cons_prefix_cons.mpr ⟨rfl,List.nil_prefix⟩
        · rw [← same,← Symbol.nameOutline same]
          rfl
      · exact .inl ⟨s₀,live₀,same₀.trans same⟩
    · exact .inr new
  others := fun live plain => paves.others (others live plain) plain

theorem makePackagePaves {t : SymbolTable} (c : t.Consistent) {p : Handle} {o : Symbol}
    (owner : t.symbol? p = some o) (package : o.kind = .package) (names : List String) :
    Paves t (t.makePackage p names).2 p names (t.makePackage p names).1 := by
  have made : (t.makePackage p names).2.Consistent :=
    (makePackageSteps _ c owner package names fun _ _ _ => trivial).1.consistent c
  induction names generalizing t p o with
  | nil => exact ⟨fun _ s live _ => ⟨s,live,rfl⟩,rfl,fun live => .inl ⟨_,live,rfl⟩,fun live _ => live⟩
  | cons name rest ih =>
    unfold makePackage at made ⊢
    simp only [owner] at made ⊢
    cases found : o.subpackages.get? name with
    | some h =>
      simp only [found] at made ⊢
      have bound : t.subpackage? p name = some h := by
        rw [subpackageBound owner,← Symbol.subpackagesBody o,found]
      obtain ⟨_,s,_,live,kind,_⟩ := c.subpackageFound bound
      have paves := ih c live kind made
      exact paves.from (paves.stay.subpackage c made bound)
    | none =>
      simp only [found] at made ⊢
      have grows := subpackageGrows c owner package found
      have c₁ := grows.consistent c
      obtain ⟨o',owner',_⟩ := grows.stays owner
      have paves := ih c₁ grows.added rfl made
      have bound := paves.stay.subpackage c₁ made (c₁.subpackageOf grows.added rfl rfl owner')
      exact (paves.from bound).after grows (c.plantedStay owner package _ _) bound

theorem Progress.packagesStay {admits : Symbol → Symbol → Prop} {p : Handle} {t t' : SymbolTable}
    (c : t.Consistent) (progress : Progress admits p t t') (scope : t.Kinded p (· ≠ .package)) :
    PackagesStay t t' := by
  intro x s live package
  refine progress.keeps x s live fun inside => ?_
  obtain ⟨s',q,live',parent,outer⟩ := inside
  obtain ⟨o,owner,plain⟩ := scope
  exact c.noPackageWithin owner plain (.inner live' parent outer) live package

theorem Steps.root {admits : Symbol → Symbol → Prop} {t t' : SymbolTable} (steps : Steps admits t t') :
    t'.root = t.root := by
  induction steps with
  | done => rfl
  | more first _ ih =>
    cases first with
    | prune prunes => exact ih.trans prunes.root
    | grow grows => exact ih.trans grows.root

def Inner (s _ : Symbol) : Prop := s.kind ≠ .package ∧ s.kind ≠ .file

theorem innerLicence : Licence (fun _ => True) Inner where
  type := fun type _ _ => typeKind type
  inner := by
    intro s o inner _
    constructor <;> intro kind <;> simp [kind,SymbolKind.isVariable] at inner

theorem Steps.outer {t t' : SymbolTable} (steps : Steps Inner t t') {x : Handle} {s : Symbol}
    (live : t'.symbol? x = some s) (outer : s.kind = .package ∨ s.kind = .file) :
    ∃ s₀, t.symbol? x = some s₀ ∧ s₀.outline = s.outline := by
  induction steps with
  | done => exact ⟨s,live,rfl⟩
  | more first _ ih =>
    obtain ⟨s₁,live₁,same₁⟩ := ih live
    rw [← Symbol.kindOutline same₁] at outer
    cases first with
    | prune prunes =>
      obtain ⟨_,s₀,live₀,same₀⟩ := prunes.live live₁
      exact ⟨s₀,live₀,same₀.trans same₁⟩
    | grow grows inner =>
      rcases grows.live live₁ with ⟨_,rfl⟩ | ⟨s₀,live₀,same₀⟩
      · exact (outer.elim inner.1 inner.2).elim
      · exact ⟨s₀,live₀,same₀.trans same₁⟩

theorem putFileOk {t : SymbolTable} (c : t.Consistent) {decl : FileDecl} {file : Handle}
    (ok : (t.putFile decl).1 = .ok file) : ∃ t₀ q o t₁ scopes t₂, t₀.Consistent ∧
      t₀.root = (t.dropFile (Path.normalize decl.path)).2.root ∧
      Paves (t.dropFile (Path.normalize decl.path)).2 t₀ t₀.root decl.package q ∧
      Grows t₀ t₁ file (emptyFile (Path.normalize decl.path) decl q o) q o ∧ InnerStay t₀ t₁ ∧
      Edit.addTypes file decl.span decl.types t₁ = .ok scopes t₂ ∧
      (t.putFile decl).2 = t₂.modify file (·.withScopes scopes) := by
  unfold putFile at ok ⊢
  split
  · rename_i inverted
    simp [inverted] at ok
  rename_i proper
  have c₀ := (dropFileSteps (fun _ _ => True) c (Path.normalize decl.path)).consistent c
  have absent := dropFileUnindexed c (Path.normalize decl.path)
  rw [Path.normalizeFixed] at absent
  obtain ⟨root,live,isPackage,_⟩ := c₀.root
  obtain ⟨steps,files,o,owner,package,_⟩ :=
    makePackageSteps (fun _ _ => True) c₀ live isPackage decl.package fun _ _ _ => trivial
  have paves := makePackagePaves c₀ live isPackage decl.package
  have c₁ := steps.consistent c₀
  have grows := fileGrows c₁ owner package (files ▸ absent) decl
  simp only [if_neg proper,startFileMade owner] at ok ⊢
  split at ok
  · rename_i scopes t₂ ran
    cases Except.ok.inj ok
    refine ⟨_,_,o,_,scopes,t₂,c₁,steps.root,?_,grows,?_,ran,rfl⟩
    · rw [steps.root]
      exact paves
    · exact c₁.plantedStay owner package _ _
  · cases ok

theorem scopesDeclared (t : SymbolTable) (f : Handle) (scopes : SpanMap Handle) (name : String) :
    (t.modify f (·.withScopes scopes)).declared f name = t.declared f name := by
  have owner := symbolModify t f f (·.withScopes scopes)
  rw [if_pos rfl] at owner
  simp only [declared,membersOf,owner]
  cases t.symbol? f with
  | none => rfl
  | some s => exact Body.shelfScopes scopes s.body (.member name)

theorem Consistent.scopesBeside {t : SymbolTable} (c : t.Consistent) {f h x : Handle} {d : Draft}
    (held : t.Holds f h d) (scopes : SpanMap Handle) (within : t.Within h x) :
    (t.modify f (·.withScopes scopes)).symbol? x = t.symbol? x := by
  obtain ⟨s,live,fits⟩ := held
  rw [symbolModify,if_neg]
  rintro rfl
  exact c.ownerOutside live fits.parent within

theorem Carries.scopes {t : SymbolTable} (c : t.Consistent) {f : Handle} {plans : List Plan}
    (carries : t.Carries f plans) (scopes : SpanMap Handle) :
    (t.modify f (·.withScopes scopes)).Carries f plans := by
  have owner := symbolModify t f f (·.withScopes scopes)
  rw [if_pos rfl] at owner
  obtain ⟨entries,all,lines,each⟩ := carries
  refine ⟨entries,all,⟨fun name => ?_,fun method => ?_⟩,fun e inside => ?_⟩
  · rw [scopesDeclared,lines.lists name]
  · obtain ⟨o,live,kind⟩ := method
    rw [owner] at live
    obtain ⟨s,live',rfl⟩ := Option.map_eq_some_iff.mp live
    have before : t.Kinded f (· = .method) := by
      refine ⟨s,live',?_⟩
      rw [← kind]
      exact (Body.kindBare s.body).symm.trans ((Body.bareScopes scopes s.body).symm ▸ Body.kindBare _)
    rw [← lines.ordered before]
    simp only [parametersOf,owner,live',Option.map_some]
    exact Body.shelfScopes scopes s.body .parameters
  · exact (each e inside).transfer fun x => c.scopesBeside (each e inside).held scopes

structure IndexedAs (t : SymbolTable) (file : Handle) (decl : FileDecl) : Prop where
  carries : t.Carries file (MemberDecl.plans decl.members)
  placed : ∃ q o s, decl.package.foldlM t.subpackage? t.root = some q ∧ t.symbol? file = some s ∧
    s.outline = emptyFile (Path.normalize decl.path) decl q o

theorem Edit.typesRan {t t' : SymbolTable} {file : Handle} {span : Span} {types : List TypeDecl}
    {scopes : SpanMap Handle} (ran : addTypes file span types t = .ok scopes t') : ∃ spans,
      addMembers file (types.map fun type => .type type.outline type.members) t = .ok spans t' ∧
      SpanMap.ofList ((span,file) :: spans) = .ok scopes := by
  obtain ⟨spans,t₁,added,ran⟩ := bindOk ran
  cases made : SpanMap.ofList ((span,file) :: spans) with
  | ok found =>
    rw [made] at ran
    cases ran
    exact ⟨spans,added,made⟩
  | error failure =>
    rw [made] at ran
    cases ran

theorem Carries.transfer {t t' : SymbolTable} {p : Handle} {plans : List Plan}
    (carries : t.Carries p plans) (same : ∀ x, t.Within p x → t'.symbol? x = t.symbol? x) :
    t'.Carries p plans := by
  obtain ⟨entries,all,lines,each⟩ := carries
  refine ⟨entries,all,lines.transfer (same p .self),fun e inside => ?_⟩
  refine (each e inside).transfer fun x within => same x ?_
  exact ((each e inside).held.within .self).trans within

theorem IndexedAs.stays {t t' : SymbolTable} (c : t.Consistent) (c' : t'.Consistent)
    (root : t'.root = t.root) (stay : PackagesStay t t') (others : InnerStay t t') {file : Handle}
    {decl : FileDecl} (indexed : t.IndexedAs file decl) : t'.IndexedAs file decl := by
  obtain ⟨carries,q,o,s,leads,live,same⟩ := indexed
  have plain : s.kind ≠ .package := by
    have same : s.outline = (emptyFile (Path.normalize decl.path) decl q o).outline := same
    rw [Symbol.kindOutline same]
    exact nofun
  refine ⟨carries.transfer fun x within => ?_,q,o,s,?_,others live plain,same⟩
  · obtain ⟨sx,inside⟩ := within.live live
    rw [inside]
    exact others inside (c.noPackageWithin live plain within inside)
  · rw [root]
    exact stay.path c c' leads

structure Indexes (t t' : SymbolTable) (decl : FileDecl) (file : Handle) : Prop where
  root : t'.root = t.root
  stay : PackagesStay t t'
  others : InnerStay t t'
  indexed : t'.IndexedAs file decl
  added : ∀ {x s}, t'.symbol? x = some s → s.kind = .package ∨ s.kind = .file → x = file ∨
    (∃ s₀, t.symbol? x = some s₀ ∧ s₀.outline = s.outline) ∨
    ∃ ns above o, ns <+: decl.package ∧ ns.foldlM t'.subpackage? t'.root = some x ∧
      s.outline = emptyPackage s.name above o

theorem Grows.carriesNone {t t' : SymbolTable} {h p : Handle} {s o : Symbol}
    (grows : Grows t t' h s p o) : t'.Carries h [] := by
  refine ⟨[],rfl,⟨fun name => ?_,fun _ => ?_⟩,fun _ => List.not_mem_nil.elim⟩
  · rw [declaredShelf grows.added]
    exact grows.empty _
  · simp only [parametersOf,grows.added]
    exact grows.empty .parameters

theorem putFileIndexes {t : SymbolTable} (c : t.Consistent) {decl : FileDecl} {file : Handle}
    (ok : (t.putFile decl).1 = .ok file) :
    Indexes (t.dropFile (Path.normalize decl.path)).2 (t.putFile decl).2 decl file := by
  obtain ⟨t₀,q,o,t₁,scopes,t₂,c₀,root,paves,grows,others,ran,made⟩ := putFileOk c ok
  have c₁ := grows.consistent c₀
  have scope : t₁.Kinded file IsBody := ⟨_,grows.added,.inl rfl⟩
  have progress := Edit.addTypesProgress innerLicence c₁ scope decl.span decl.types decl.namedTrue.types
  rw [Edit.afterOk ran] at progress
  have c₂ := progress.steps.consistent c₁
  have prunes := scopesPrune c₂ file scopes
  have c₃ := prunes.consistent c₂
  obtain ⟨spans,added,_⟩ := Edit.typesRan ran
  obtain ⟨carries,leaves⟩ := Edit.membersCarried c₁ scope grows.carriesNone decl.members added
  have marked : PackagesStay t₂ (t₂.modify file (·.withScopes scopes)) :=
    fun _ _ live _ => prunes.stays live id
  have stay := (grows.packagesStay.trans (progress.packagesStay c₁ scope.inner)).trans marked
  have top : (t₂.modify file (·.withScopes scopes)).root = t₀.root := by
    rw [prunes.root,progress.steps.root,grows.root]
  rw [made]
  refine ⟨top.trans root,paves.stay.trans stay,?_,⟨carries.scopes c₂ scopes,?_⟩,?_⟩
  · intro x s live plain
    have before := paves.others live plain
    have outside : ¬t₁.Within file x := fun within => by
      simp [grows.newInside c₀ within] at before
    have away : x ≠ file := by
      rintro rfl
      exact outside .self
    rw [symbolModify,if_neg away]
    exact leaves (others before plain) plain outside
  · obtain ⟨s,live,same⟩ := progress.keeps file _ grows.added (c₁.notInside grows.added)
    obtain ⟨s',live',same'⟩ := prunes.stays live id
    refine ⟨q,o,s',?_,live',(same'.trans same).trans grows.bare⟩
    rw [top]
    exact stay.path c₀ c₃ paves.leads
  · intro x s live outer
    obtain ⟨_,s₂,live₂,same₂⟩ := prunes.live live
    obtain ⟨s₁,live₁,same₁⟩ := progress.steps.outer live₂ (Symbol.kindOutline same₂ ▸ outer)
    rcases grows.live live₁ with ⟨here,_⟩ | ⟨s₀,live₀,same₀⟩
    · exact .inl here
    have same := (same₀.trans same₁).trans same₂
    rcases paves.added live₀ with ⟨s',live',same'⟩ | ⟨ns,above,o,early,leads,empty⟩
    · exact .inr (.inl ⟨s',live',same'.trans same⟩)
    · refine .inr (.inr ⟨ns,above,o,early,?_,?_⟩)
      · rw [top]
        exact stay.path c₀ c₃ leads
      · rw [← same,empty,Symbol.nameOutline same]

end SymbolTable
end CodeIndex
