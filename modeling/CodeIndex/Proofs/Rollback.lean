import CodeIndex.Proofs.FileRemoval
import CodeIndex.Proofs.Filing

/-! Indexing a file can be undone. While declarations are attached inside a file, the table stays the one the
file was put into, with the file and what lies in it added; this holds after a failure on the way as well.
Dropping the file then leaves the symbols that were there before it. -/
namespace CodeIndex
namespace SymbolTable

theorem liveSome (t : SymbolTable) (h : Handle) : t.isLive h = (t.symbol? h).isSome := rfl

theorem liveNot {t : SymbolTable} {h : Handle} : t.isLive h = false ↔ t.symbol? h = none := by
  rw [liveSome]
  cases t.symbol? h <;> simp

structure Alike (t t' : SymbolTable) : Prop where
  symbols : ∀ x, t'.symbol? x = t.symbol? x
  files : t'.files = t.files
  root : t'.root = t.root

theorem Alike.subpackages {t t' : SymbolTable} (alike : Alike t t') : t'.subpackage? = t.subpackage? := by
  funext p name
  simp only [subpackage?,alike.symbols]

theorem clearFiles (t : SymbolTable) (handles : List Handle) : (handles.foldl remove t).files = t.files := by
  induction handles generalizing t with
  | nil => rfl
  | cons h rest ih => exact (ih (t.remove h)).trans (unlinkFiles t h)

/-- The table is the first one with a file put in, whatever lies in the file. -/
structure Hosts (t₀ : SymbolTable) (path : String) (f : Handle) (t : SymbolTable) : Prop where
  consistent : t.Consistent
  stocked : t.Stocked
  retains : Retains t₀.isLive t₀ t
  fresh : t₀.symbol? f = none
  gate : ∀ {y s q}, t.symbol? y = some s → t₀.symbol? y = none → s.parent = some q →
    (t₀.symbol? q).isSome → y = f
  files : t.files = t₀.files.insert (Path.normalize path) f
  root : t.root = t₀.root

namespace Hosts

variable {t₀ t : SymbolTable} {path : String} {f : Handle} (hosts : Hosts t₀ path f t)
include hosts

theorem indexed : t.files.get? (Path.normalize path) = some f := by
  rw [hosts.files,OrderedMap.getInsert,if_pos rfl]

theorem file : ∃ s, t.symbol? f = some s ∧ s.kind = .file := by
  obtain ⟨s,live,isFile,_⟩ := (hosts.consistent.indexed _ f).mp hosts.indexed
  exact ⟨s,live,isFile⟩

theorem apart (c₀ : t₀.Consistent) {x : Handle} (within : t.Within f x) : t₀.symbol? x = none := by
  induction within with
  | self => exact hosts.fresh
  | @inner x s q live parent _ ih =>
    cases before : t₀.symbol? x with
    | none => rfl
    | some s₀ =>
      have same := hosts.retains x (by simp [liveSome,before])
      rw [live,before,Option.map_some,Option.map_some] at same
      have parent₀ : s₀.parent = some q :=
        (congrArg Symbol.parent (Option.some.inj same)).symm.trans parent
      obtain ⟨o,owner,_⟩ := c₀.parentLive before parent₀
      simp [ih] at owner

theorem inner (c₀ : t₀.Consistent) {x : Handle} {s : Symbol} (live : t.symbol? x = some s)
    (new : t₀.symbol? x = none) : t.Within f x := by
  have rooted := hosts.consistent.rooted live
  induction rooted generalizing s with
  | root =>
    obtain ⟨root,old,_⟩ := c₀.root
    rw [hosts.root,old] at new
    cases new
  | @child x sx q live' parent outer ih =>
    cases before : t₀.symbol? q with
    | some o => exact hosts.gate live' new parent (by simp [before]) ▸ .self
    | none =>
      obtain ⟨o,owner,_⟩ := hosts.consistent.parentLive live' parent
      exact .inner live' parent (ih owner before)

theorem withinIff (c₀ : t₀.Consistent) {x : Handle} :
    t.Within f x ↔ (t.symbol? x).isSome ∧ t₀.symbol? x = none := by
  constructor
  · intro within
    obtain ⟨s,live,_⟩ := hosts.file
    obtain ⟨sx,inside⟩ := within.live live
    exact ⟨by simp [inside],hosts.apart c₀ within⟩
  · rintro ⟨there,new⟩
    obtain ⟨s,live⟩ := Option.isSome_iff_exists.mp there
    exact hosts.inner c₀ live new

theorem attach (c₀ : t₀.Consistent) {t' : SymbolTable} {p h : Handle} {d : Draft} (within : t.Within f p)
    (ok : t.attach p d = .ok (h,t')) : Hosts t₀ path f t' := by
  have c := hosts.consistent
  obtain ⟨o,body,attaches⟩ := attachOk c ok
  obtain ⟨u,gone,o',prunes,inside,_,grows⟩ := attaches.steps
  have inner : ∀ {x}, t.Inside p x → t₀.symbol? x = none := by
    rintro x ⟨s,q,live,parent,outer⟩
    exact hosts.apart c₀ (.inner live parent (within.trans outer))
  have new : t₀.symbol? h = none := by
    cases before : t₀.symbol? h with
    | none => rfl
    | some s₀ =>
      have kept : t₀.isLive h := by simp [liveSome,before]
      have there := hosts.retains.live kept
      rw [before,Option.isSome_some] at there
      obtain ⟨s,live⟩ := Option.isSome_iff_exists.mp there
      obtain ⟨s',live',_⟩ := prunes.stays live fun lost => by simp [inner (inside h lost)] at before
      simp [grows.fresh] at live'
  have files : t'.files = t.files := by
    obtain ⟨_,_,_,_,_,_,linked⟩ := attachCases ok
    have table : t' = _ := (congrArg Prod.snd linked).symm
    rw [table,linkFiles]
    exact clearFiles t _
  refine
    { consistent := (attachSteps c ok).consistent c
      stocked := (reworksAttach ok).stocked hosts.stocked
      retains := hosts.retains.trans (c.retainsAttach ok (liveNot.mpr new) fun y listed x lies =>
        liveNot.mpr (inner ((c.listedInside attaches.owner
          (declaredShelf attaches.owner d.name ▸ listed)).within lies)))
      fresh := hosts.fresh
      gate := ?_
      files := files.trans hosts.files
      root := (attachSteps c ok).root.trans hosts.root }
  intro y s q live before parent old
  rcases grows.live live with ⟨rfl,rfl⟩ | ⟨s₁,live₁,same₁⟩
  · cases Option.some.inj (grows.parent.symm.trans parent)
    simp [hosts.apart c₀ within] at old
  · obtain ⟨_,s₀,live₀,same₀⟩ := prunes.live live₁
    exact hosts.gate live₀ before ((Symbol.parentOutline (same₀.trans same₁)).trans parent) old

theorem scopes (scopes : SpanMap Handle) : Hosts t₀ path f (t.modify f (·.withScopes scopes)) where
  consistent := (scopesPrune hosts.consistent f scopes).consistent hosts.consistent
  stocked := hosts.stocked.scopes f scopes
  retains := hosts.retains.trans (retainsOutside (liveNot.mpr hosts.fresh) _)
  fresh := hosts.fresh
  gate := by
    intro y s q live before parent old
    obtain ⟨_,s₀,live₀,same⟩ := (scopesPrune hosts.consistent f scopes).live live
    exact hosts.gate live₀ before ((Symbol.parentOutline same).trans parent) old
  files := hosts.files
  root := hosts.root

theorem dropped (c₀ : t₀.Consistent) (stocked₀ : t₀.Stocked)
    (absent : t₀.files.get? (Path.normalize path) = none) : Alike t₀ (t.dropFile path).2 := by
  have c := hosts.consistent
  have prunes := dropFilePrunes c hosts.indexed
  have left : ∀ x s, (t.dropFile path).2.symbol? x = some s → t₀.isLive x := by
    intro x s live
    obtain ⟨outside,s',live',_⟩ := prunes.live live
    refine Bool.not_eq_false _ ▸ fun new => outside ?_
    exact hosts.inner c₀ live' (liveNot.mp new)
  have retains := hosts.retains.trans
    (c.retainsDrop hosts.indexed fun x within => liveNot.mpr (hosts.apart c₀ within))
  refine ⟨fun x => ?_,?_,prunes.root.trans hosts.root⟩
  · cases before : t₀.symbol? x with
    | none =>
      refine Option.eq_none_iff_forall_ne_some.mpr fun s live => ?_
      have kept := left x s live
      simp [liveSome,before] at kept
    | some s =>
      have same : s.body.only t₀.isLive = s.body := by
        refine Body.onlyAll (c₀.tidy before) (stocked₀ x s before) fun place h listed => ?_
        exact c₀.shelfLive before place listed
      rw [retains.exact (prunes.consistent c) ((reworksDrop t path).stocked hosts.stocked) left
        (by simp [liveSome,before]),before,Option.map_some,Symbol.mapBody,same]
  · rw [(dropFiles c hosts.indexed).2,hosts.files]
    exact OrderedMap.eraseInsert absent f

end Hosts

namespace Edit

theorem hostsTends {t₀ : SymbolTable} (c₀ : t₀.Consistent) (path : String) (f : Handle) :
    Tends f (Hosts t₀ path f) where
  consistent := Hosts.consistent
  attached := fun hosts within ok => hosts.attach c₀ within ok

end Edit

theorem dropFileNormal (t : SymbolTable) (path : String) :
    t.dropFile (Path.normalize path) = t.dropFile path := by
  simp only [dropFile,Path.normalizeFixed]

def site (t : SymbolTable) (decl : FileDecl) : SymbolTable :=
  let cleared := (t.dropFile decl.path).2
  (cleared.makePackage cleared.root decl.package).2

structure Ready (t₀ : SymbolTable) (decl : FileDecl) : Prop where
  consistent : t₀.Consistent
  stocked : t₀.Stocked
  absent : t₀.files.get? (Path.normalize decl.path) = none
  leads : ∃ q, decl.package.foldlM t₀.subpackage? t₀.root = some q

section

variable {t : SymbolTable} (c : t.Consistent) (stocked : t.Stocked) (decl : FileDecl)
include c

theorem Consistent.siteFiles : (t.site decl).files = (t.dropFile decl.path).2.files := by
  have cleared := (dropFileSteps (fun _ _ => True) c decl.path).consistent c
  obtain ⟨root,live,isPackage,_⟩ := cleared.root
  exact (makePackageSteps (fun _ _ => True) cleared live isPackage decl.package fun _ _ _ => trivial).2.1

include stocked

theorem Consistent.siteReady : (t.site decl).Ready decl := by
  have cleared := (dropFileSteps (fun _ _ => True) c decl.path).consistent c
  obtain ⟨root,live,isPackage,_⟩ := cleared.root
  obtain ⟨steps,_⟩ :=
    makePackageSteps (fun _ _ => True) cleared live isPackage decl.package fun _ _ _ => trivial
  exact
    { consistent := steps.consistent cleared
      stocked := ((reworksDrop t decl.path).trans (reworksPackage _ _ _)).stocked stocked
      absent := c.siteFiles decl ▸ dropFileUnindexed c decl.path
      leads := by
        rw [show (t.site decl).root = _ from steps.root]
        exact ⟨_,(makePackagePaves cleared live isPackage decl.package).leads⟩ }

theorem hostsStart : let begun := (t.dropFile decl.path).2.startFile (Path.normalize decl.path) decl
    Hosts (t.site decl) decl.path begun.1 begun.2 ∧ begun.2.Kinded begun.1 IsBody := by
  have cleared := (dropFileSteps (fun _ _ => True) c decl.path).consistent c
  have ready := c.siteReady stocked decl
  obtain ⟨root,live,isPackage,_⟩ := cleared.root
  obtain ⟨_,_,o,owner,package,_⟩ :=
    makePackageSteps (fun _ _ => True) cleared live isPackage decl.package fun _ _ _ => trivial
  have grows := fileGrows ready.consistent owner package ready.absent decl
  have stocked' := ((reworksDrop t decl.path).trans
    (reworksStart _ (Path.normalize decl.path) decl)).stocked stocked
  rw [startFileMade owner] at stocked' ⊢
  refine ⟨?_,_,grows.added,.inl rfl⟩
  exact
    { consistent := grows.consistent ready.consistent
      stocked := stocked'
      retains := ready.consistent.retainsFile (liveNot.mpr grows.fresh)
      fresh := grows.fresh
      gate := by
        intro y s q live' new _ _
        rcases grows.live live' with ⟨here,_⟩ | ⟨s₀,live₀,_⟩
        · exact here
        · cases new.symm.trans live₀
      files := rfl
      root := rfl }

theorem putFileHosts {decl : FileDecl} (upright : ¬decl.span.isInverted) :
    match (t.putFile decl).1 with
    | .ok f => Hosts (t.site decl) decl.path f (t.putFile decl).2
    | .error _ => Alike (t.site decl) (t.putFile decl).2 := by
  obtain ⟨started,scope⟩ := hostsStart c stocked decl
  have ready := c.siteReady stocked decl
  simp only [putFile,if_neg upright,dropFileNormal]
  have typed := (Edit.hostsTends ready.consistent decl.path _).types started scope decl.span decl.types
  simp only [Edit.after] at typed
  split at typed
  · rename_i ran
    simp only [ran]
    exact typed.scopes _
  · rename_i ran
    simp only [ran]
    exact typed.dropped ready.consistent ready.stocked ready.absent

end

def Laid (t : SymbolTable) (names : List String) (h : Handle) (s : Symbol) : Prop :=
  ∃ ns above o subpackages, ns <+: names ∧ ns.foldlM t.subpackage? t.root = some h ∧
    s = { emptyPackage s.name above o with body := .package subpackages [] {} }

structure Restores (t t' : SymbolTable) (names : List String) : Prop where
  old : ∀ h s, t.symbol? h = some s →
    ∃ s', t'.symbol? h = some s' ∧ s'.mapBody (·.mapSubpackages (·.only t.isLive)) = s
  new : ∀ h s', t'.symbol? h = some s' → t.symbol? h = none → t'.Laid names h s'
  files : t'.files = t.files
  root : t'.root = t.root

theorem packageBodies {t : SymbolTable} {current : Handle} {names : List String} {x : Handle} {s' : Symbol}
    (live : (t.makePackage current names).2.symbol? x = some s') :
    (∃ s f, t.symbol? x = some s ∧ s' = s.mapBody (·.mapSubpackages f)) ∨
      ∃ name above o f, s' = (emptyPackage name above o).mapBody (·.mapSubpackages f) := by
  induction names generalizing t current with
  | nil => exact .inl ⟨s',id,live,by simp only [Symbol.mapBody,Body.mapSubpackagesSame]⟩
  | cons name rest ih =>
    simp only [makePackage] at live
    split at live
    · exact .inl ⟨s',id,live,by simp only [Symbol.mapBody,Body.mapSubpackagesSame]⟩
    · rename_i parent owner
      split at live
      · exact ih live
      · rcases ih live with ⟨s₁,f,live₁,rfl⟩ | made
        · have held : ((t.planted (emptyPackage name current parent)).modify current
            (·.mapSubpackages (·.insert name (t.slotFor (emptyPackage name current parent))))).symbol? x =
              some s₁ := live₁
          have before : ∃ s₀ g, (t.planted (emptyPackage name current parent)).symbol? x = some s₀ ∧
              s₁ = s₀.mapBody (·.mapSubpackages g) := by
            rw [symbolModify] at held
            split at held
            · obtain ⟨s₀,live₀,rfl⟩ := Option.map_eq_some_iff.mp held
              exact ⟨s₀,_,live₀,rfl⟩
            · exact ⟨s₁,id,held,by simp only [Symbol.mapBody,Body.mapSubpackagesSame]⟩
          obtain ⟨s₀,g,live₀,rfl⟩ := before
          simp only [Symbol.mapBody,Body.mapSubpackagesTwice]
          rcases Arena.insertOld live₀ with rfl | old
          · exact .inr ⟨name,current,parent,_,rfl⟩
          · exact .inl ⟨s₀,_,old,rfl⟩
        · exact .inr made

theorem Consistent.packageRestores {t : SymbolTable} (c : t.Consistent) (stocked : t.Stocked)
    (names : List String) : Restores t (t.makePackage t.root names).2 names := by
  obtain ⟨root,owner,package,_⟩ := c.root
  have paves := makePackagePaves c owner package names
  obtain ⟨steps,files,_⟩ := makePackageSteps (fun _ _ => True) c owner package names fun _ _ _ => trivial
  have retains : Retains t.isLive t (t.makePackage t.root names).2 :=
    c.retainsPackage owner package names fun x live => live
  refine ⟨fun h s live => ?_,fun h s' live new => ?_,files,steps.root⟩
  · have kept := retains h (by simp [liveSome,live])
    have same : s.body.only t.isLive = s.body :=
      Body.onlyAll (c.tidy live) (stocked h s live) fun place x listed => c.shelfLive live place listed
    rw [live,Option.map_some,Symbol.mapBody,same] at kept
    obtain ⟨s',live',eq⟩ := Option.map_eq_some_iff.mp kept
    refine ⟨s',live',?_⟩
    rcases packageBodies live' with ⟨s₀,f,live₀,rfl⟩ | ⟨name,above,o,f,rfl⟩
    · cases Option.some.inj (live.symm.trans live₀)
      have body := congrArg Symbol.body eq
      exact congrArg (fun body => { s with body }) (Body.onlySubpackages body)
    · exact eq
  · rcases paves.added live with ⟨s₀,old,_⟩ | ⟨ns,above,o,early,leads,empty⟩
    · simp [new] at old
    · rcases packageBodies live with ⟨s₀,f,old,_⟩ | ⟨name,above',o',f,rfl⟩
      · simp [new] at old
      · refine ⟨ns,above',o',_,early,?_,rfl⟩
        rw [steps.root]
        exact leads

end SymbolTable
end CodeIndex
