import CodeIndex.Proofs.Attachment
import CodeIndex.Proofs.Path

/-! Indexing a file is a run of steps, whether it succeeds or fails on the way. Declarations are only
ever attached to the file and to scopes made from its own declarations, and a scope stays in place
while its members are attached. -/
namespace CodeIndex

mutual

def MemberDecl.Named (good : String → Prop) : MemberDecl → Prop
  | .field _ => True
  | .method _ => True
  | .type outline members => good outline.name ∧ MemberDecl.NamedAll good members

def MemberDecl.NamedAll (good : String → Prop) : List MemberDecl → Prop
  | [] => True
  | m :: rest => m.Named good ∧ MemberDecl.NamedAll good rest

end

structure FileDecl.Named (good : String → Prop) (decl : FileDecl) : Prop where
  package : ∀ name ∈ decl.package, good name
  types : ∀ type ∈ decl.types, good type.outline.name ∧ MemberDecl.NamedAll good type.members

mutual

theorem MemberDecl.namedTrue : (m : MemberDecl) → m.Named fun _ => True
  | .field _ => trivial
  | .method _ => trivial
  | .type _ members => ⟨trivial,MemberDecl.namedAllTrue members⟩

theorem MemberDecl.namedAllTrue :
    (members : List MemberDecl) → MemberDecl.NamedAll (fun _ => True) members
  | [] => trivial
  | m :: rest => ⟨m.namedTrue,MemberDecl.namedAllTrue rest⟩

end

theorem FileDecl.namedTrue (decl : FileDecl) : decl.Named fun _ => True :=
  ⟨fun _ _ => trivial,fun type _ => ⟨trivial,MemberDecl.namedAllTrue type.members⟩⟩

namespace SymbolTable

def Keeps (t t' : SymbolTable) (p : Handle) : Prop :=
  ∀ x s, t.symbol? x = some s → ¬t.Inside p x →
    ∃ s', t'.symbol? x = some s' ∧ s'.outline = s.outline

structure Progress (admits : Symbol → Symbol → Prop) (p : Handle) (t t' : SymbolTable) : Prop where
  steps : Steps admits t t'
  keeps : Keeps t t' p

theorem Progress.refl {admits p} (t : SymbolTable) : Progress admits p t t :=
  ⟨.done t,fun _ s live _ => ⟨s,live,rfl⟩⟩

theorem Keeps.withinBefore {t t' : SymbolTable} {p : Handle} (keeps : Keeps t t' p)
    (c : t.Consistent) {x s} (within : t'.Within p x) (live : t.symbol? x = some s)
    (outside : ¬t.Inside p x) : t.Within p x := by
  induction within generalizing s with
  | self => exact .self
  | inner live' parent _ ih =>
    obtain ⟨s',live'',same⟩ := keeps _ _ live outside
    cases Option.some.inj (live'.symm.trans live'')
    have parent₀ := Symbol.parentOutline same ▸ parent
    obtain ⟨o,owner,_⟩ := c.parentLive live parent₀
    exact .inner live parent₀ (ih owner fun inside =>
      outside (inside.within (.inner live parent₀ .self)))

theorem Progress.trans {admits p} {t t' t'' : SymbolTable} (c : t.Consistent)
    (first : Progress admits p t t') (second : Progress admits p t' t'') :
    Progress admits p t t'' := by
  refine ⟨first.steps.append second.steps,fun x s live outside => ?_⟩
  obtain ⟨s',live',same⟩ := first.keeps x s live outside
  obtain ⟨s'',live'',same'⟩ := second.keeps x s' live' (by
    rintro ⟨r,q,held,parent,within⟩
    cases Option.some.inj (live'.symm.trans held)
    have parent₀ := Symbol.parentOutline same ▸ parent
    obtain ⟨o,owner,_⟩ := c.parentLive live parent₀
    have before := first.keeps.withinBefore c within owner fun inside =>
      outside (inside.within (.inner live parent₀ .self))
    exact outside ⟨s,q,live,parent₀,before⟩)
  exact ⟨s'',live'',same'.trans same⟩

theorem Progress.widen {admits p q} {t t' : SymbolTable} (progress : Progress admits q t t')
    (within : t.Within p q) : Progress admits p t t' := by
  refine ⟨progress.steps,fun x s live outside => progress.keeps x s live ?_⟩
  rintro ⟨s,r,held,parent,inner⟩
  exact outside ⟨s,r,held,parent,within.trans inner⟩

def Kinded (t : SymbolTable) (p : Handle) (sort : SymbolKind → Prop) : Prop :=
  ∃ o, t.symbol? p = some o ∧ sort o.kind

def IsBody (kind : SymbolKind) : Prop := kind = .file ∨ kind.isTypeDecl

theorem Kinded.inner {t : SymbolTable} {p : Handle} (scope : t.Kinded p IsBody) :
    t.Kinded p (· ≠ .package) := by
  obtain ⟨o,owner,body⟩ := scope
  refine ⟨o,owner,fun package => ?_⟩
  simp [IsBody,package,SymbolKind.isTypeDecl] at body

theorem Progress.kinded {admits} {sort : SymbolKind → Prop} {p : Handle} {t t' : SymbolTable}
    (progress : Progress admits p t t') (c : t.Consistent) (scope : t.Kinded p sort) :
    t'.Kinded p sort := by
  obtain ⟨o,owner,kind⟩ := scope
  obtain ⟨o',owner',same⟩ := progress.keeps _ _ owner (c.notInside owner)
  exact ⟨o',owner',Symbol.kindOutline same ▸ kind⟩

structure Licence (good : String → Prop) (admits : Symbol → Symbol → Prop) : Prop where
  type : ∀ {s o}, s.kind.isTypeDecl → good s.name → IsBody o.kind → admits s o
  inner : ∀ {s o}, s.kind = .method ∨ s.kind.isVariable → o.kind ≠ .package → admits s o

def Fitting (good : String → Prop) (t : SymbolTable) (p : Handle) (d : Draft) : Prop :=
  (d.kind.isTypeDecl ∧ good d.name ∧ t.Kinded p IsBody) ∨
  ((d.kind = .method ∨ d.kind.isVariable) ∧ t.Kinded p (· ≠ .package))

namespace Edit

theorem anything : Licence (fun _ => True) fun _ _ => True := ⟨fun _ _ _ => trivial,fun _ _ => trivial⟩

def after (e : Edit α) (t : SymbolTable) : SymbolTable :=
  match e t with
  | .ok _ t' => t'
  | .error _ t' => t'

theorem afterBind (e : Edit α) (f : α → Edit β) (t : SymbolTable) :
    after (e >>= f) t = match e t with
      | .ok a t' => after (f a) t'
      | .error _ t' => t' := by
  change after (EStateM.bind e f) t = _
  unfold after EStateM.bind
  cases e t <;> rfl

theorem afterOk {e : Edit α} {a t t'} (ok : e t = .ok a t') : after e t = t' := by
  simp [after,ok]

section

variable {admits : Symbol → Symbol → Prop} {good : String → Prop} {p : Handle} {t : SymbolTable}

theorem bindProgress {e : Edit α} {f : α → Edit β} (c : t.Consistent)
    (first : Progress admits p t (after e t))
    (rest : ∀ {a t'}, e t = .ok a t' → Progress admits p t' (after (f a) t')) :
    Progress admits p t (after (e >>= f) t) := by
  rw [afterBind]
  unfold after at first
  cases ran : e t with
  | ok a t' =>
    rw [ran] at first
    exact first.trans c (rest ran)
  | error failure t' =>
    rw [ran] at first
    exact first

theorem pureProgress (a : α) : Progress admits p t (after (pure a) t) := Progress.refl t

theorem attachProgress (licence : Licence good admits) (c : t.Consistent) {d : Draft}
    (fitting : Fitting good t p d) : Progress admits p t (after (attach p d) t) := by
  unfold after attach
  cases ran : t.attach p d with
  | error failure => exact Progress.refl t
  | ok result =>
    obtain ⟨h,t'⟩ := result
    obtain ⟨o,body,attaches⟩ := attachOk c ran
    obtain ⟨u,gone,o',prunes,inside,same,grows⟩ := attaches.steps
    have kind : (drafted d p o body).kind = d.kind := (checkedBody attaches.checked).2.1
    have admitted : admits (drafted d p o body) o' := by
      rcases fitting with ⟨type,named,o₀,owner,scope⟩ | ⟨inner,o₀,owner,scope⟩
      · cases Option.some.inj (attaches.owner.symm.trans owner)
        exact licence.type (kind ▸ type) named (Symbol.kindOutline same ▸ scope)
      · cases Option.some.inj (attaches.owner.symm.trans owner)
        exact licence.inner (kind ▸ inner) (Symbol.kindOutline same ▸ scope)
    refine ⟨.more (.prune prunes) (.one (.grow grows admitted)),fun x s live outside => ?_⟩
    obtain ⟨s',live',same'⟩ := prunes.stays live fun lost => outside (inside _ lost)
    obtain ⟨s'',live'',same''⟩ := grows.stays live'
    exact ⟨s'',live'',same''.trans same'⟩

theorem attachResult (c : t.Consistent) {d : Draft} {h t'} (ran : attach p d t = .ok h t') :
    ∃ s, t'.symbol? h = some s ∧ s.parent = some p ∧ s.kind = d.kind := by
  unfold attach at ran
  cases attached : t.attach p d with
  | error failure => simp [attached] at ran
  | ok result =>
    obtain ⟨h',u⟩ := result
    simp only [attached,EStateM.Result.ok.injEq] at ran
    obtain ⟨rfl,rfl⟩ := ran
    obtain ⟨o,body,attaches⟩ := attachOk c attached
    obtain ⟨u,gone,o',prunes,inside,same,grows⟩ := attaches.steps
    exact ⟨_,grows.added,rfl,(checkedBody attaches.checked).2.1⟩

theorem attachAllProgress (licence : Licence good admits) (c : t.Consistent)
    (scope : t.Kinded p (· ≠ .package)) (drafts : List Draft)
    (inner : ∀ d ∈ drafts, d.kind.isVariable) :
    Progress admits p t (after (attachAll p drafts) t) := by
  induction drafts generalizing t with
  | nil => exact pureProgress ()
  | cons d rest ih =>
    have first := attachProgress licence c (p := p) (.inr ⟨.inr (inner d (by simp)),scope⟩)
    refine bindProgress c first fun {h t'} ran => ?_
    rw [afterOk ran] at first
    exact ih (first.steps.consistent c) (first.kinded c scope) fun d later => inner d (by simp [later])

theorem addMethodProgress (licence : Licence good admits) (c : t.Consistent)
    (scope : t.Kinded p (· ≠ .package)) (decl : MethodDecl) :
    Progress admits p t (after (addMethod p decl) t) := by
  have first := attachProgress licence c (p := p) (d := .ofMethod decl) (.inr ⟨.inl rfl,scope⟩)
  refine bindProgress c first fun {method t'} ran => ?_
  rw [afterOk ran] at first
  have c' := first.steps.consistent c
  obtain ⟨s,live,parent,kind⟩ := attachResult c ran
  have inner : t'.Kinded method (· ≠ .package) := ⟨s,live,by simp [kind,Draft.ofMethod]⟩
  have within : t'.Within p method := .inner live parent .self
  have parameters := (attachAllProgress licence c' inner
    (decl.parameters.map (.ofVariable .parameter)) (by simp [Draft.ofVariable,SymbolKind.isVariable]))
  refine bindProgress c' (parameters.widen within) fun {_ t''} ran' => ?_
  rw [afterOk ran'] at parameters
  have c'' := parameters.steps.consistent c'
  have locals := (attachAllProgress licence c'' (parameters.kinded c' inner)
    (decl.locals.map (.ofVariable .localVariable))
    (by simp [Draft.ofVariable,SymbolKind.isVariable]))
  obtain ⟨s',live',same⟩ := parameters.keeps _ _ live (c'.notInside live)
  have within' : t''.Within p method := .inner live' (Symbol.parentOutline same ▸ parent) .self
  exact bindProgress c'' (locals.widen within') fun _ => pureProgress _

theorem outlineProgress (licence : Licence good admits) (c : t.Consistent) (scope : t.Kinded p IsBody)
    {outline : TypeOutline} (named : good outline.name) :
    Progress admits p t (after (addOutline p outline) t) := by
  unfold addOutline
  split
  · rename_i type
    exact attachProgress licence c (.inl ⟨type,named,scope⟩)
  · exact Progress.refl t

theorem outlineResult (c : t.Consistent) {outline : TypeOutline} {h t'}
    (ran : addOutline p outline t = .ok h t') :
    ∃ s, t'.symbol? h = some s ∧ s.parent = some p ∧ s.kind.isTypeDecl := by
  unfold addOutline at ran
  split at ran
  · rename_i type
    obtain ⟨s,live,parent,kind⟩ := attachResult c ran
    exact ⟨s,live,parent,kind ▸ type⟩
  · cases ran

mutual

theorem addMemberProgress (licence : Licence good admits) {p : Handle} {t : SymbolTable}
    (c : t.Consistent) (scope : t.Kinded p IsBody) :
    (m : MemberDecl) → m.Named good → Progress admits p t (after (addMember p m) t)
  | .field decl, _ => by
    refine bindProgress c ?_ fun _ => pureProgress _
    exact attachProgress licence c (d := .ofField decl) (.inr ⟨.inr rfl,scope.inner⟩)
  | .method decl, _ =>
    bindProgress c (addMethodProgress licence c scope.inner decl) fun _ => pureProgress _
  | .type outline members, named => by
    have first := outlineProgress licence c scope named.1
    refine bindProgress c first fun {type t'} ran => ?_
    rw [afterOk ran] at first
    have c' := first.steps.consistent c
    obtain ⟨s,live,parent,kind⟩ := outlineResult c ran
    have inner := addMembersProgress licence (p := type) c' ⟨s,live,.inr kind⟩ members named.2
    exact bindProgress c' (inner.widen (.inner live parent .self)) fun _ => pureProgress _

theorem addMembersProgress (licence : Licence good admits) {p : Handle} {t : SymbolTable}
    (c : t.Consistent) (scope : t.Kinded p IsBody) :
    (members : List MemberDecl) → MemberDecl.NamedAll good members →
      Progress admits p t (after (addMembers p members) t)
  | [], _ => pureProgress []
  | m :: rest, named => by
    have first := addMemberProgress licence c scope m named.1
    refine bindProgress c first fun {_ t'} ran => ?_
    rw [afterOk ran] at first
    have c' := first.steps.consistent c
    have others := addMembersProgress licence c' (first.kinded c scope) rest named.2
    exact bindProgress c' others fun _ => pureProgress _

end

end
end Edit

structure FileLicence (good : String → Prop) (decl : FileDecl) (admits : Symbol → Symbol → Prop) :
    Prop extends Licence good admits where
  package : ∀ {s o}, s.kind = .package → good s.name → o.kind = .package → admits s o
  file : ∀ {s o source}, s.source? = some source → source.package = decl.package →
    o.kind = .package → ((∀ name ∈ decl.package, name ≠ "") → o.childQualifiers = decl.package) →
    admits s o

def emptyPackage (name : String) (parent : Handle) (owner : Symbol) : Symbol where
  name := name
  qualifiers := owner.childQualifiers
  parent := some parent
  body := .package {} [] {}

theorem packagedGrows {t : SymbolTable} (c : t.Consistent) {p : Handle} {s o : Symbol} {f : Body → Body}
    {files : OrderedMap String Handle} (bare : s.outline = s) (parent : s.parent = some p)
    (owner : t.symbol? p = some o) (package : o.kind = .package)
    (qualifiers : s.qualifiers = o.childQualifiers) (kind : s.kind = .package ∨ s.kind = .file)
    (outlines : ∀ b, (f b).bare = b.bare)
    (tidy : (∀ place, t.slotFor s ∉ o.shelf place) → o.body.Tidy → (f o.body).Tidy)
    (gains : Body.Gains o.body (f o.body) s.home (t.slotFor s)) (paths : files.keys.Nodup)
    (index : ∀ path x, files.get? path = some x ↔
      t.files.get? path = some x ∨ x = t.slotFor s ∧ s.kind = .file ∧ s.name = path) :
    Grows t { (t.planted s).modify p f with files } (t.slotFor s) s p o := by
  have shelved := fillsModify (t.planted s) (t.slotFor s) p f (fun place => place = s.home) outlines
    (by
      intro o' live fresh
      cases Option.some.inj ((c.plantedOld _ owner).symm.trans live)
      exact tidy fresh)
    (by
      intro o' live place x
      cases Option.some.inj ((c.plantedOld _ owner).symm.trans live)
      exact Body.gainsMem gains place x)
    ⟨_,rfl⟩
  refine growsOfFills c bare parent owner qualifiers (fun plain => absurd package plain)
    (shelved.indexed files) ?_ ?_ paths index
  · rintro place ⟨same,_⟩
    exact c.otherSlot _ owner same.symm
  · intro added o' owner' same q place
    constructor
    · rintro ⟨rfl,rfl⟩
      exact .own added parent
    · intro belongs
      cases belongs with
      | own live parent' =>
        cases Option.some.inj (added.symm.trans live)
        exact ⟨Option.some.inj (parent'.symm.trans parent),rfl⟩
      | parameter live _ parameter =>
        cases Option.some.inj (added.symm.trans live)
        simp [parameter] at kind
      | type live type =>
        cases Option.some.inj (added.symm.trans live)
        rcases kind with kind | kind <;> simp [kind,SymbolKind.isTypeDecl] at type

theorem subpackageGrows {t : SymbolTable} (c : t.Consistent) {p : Handle} {o : Symbol}
    (owner : t.symbol? p = some o) (package : o.kind = .package) {name : String}
    (absent : o.subpackages.get? name = none) :
    Grows t ((t.planted (emptyPackage name p o)).modify p
        (·.mapSubpackages (·.insert name (t.slotFor (emptyPackage name p o)))))
      (t.slotFor (emptyPackage name p o)) (emptyPackage name p o) p o := by
  have missing : o.body.subpackages.get? name = none := Symbol.subpackagesBody o ▸ absent
  refine packagedGrows c rfl rfl owner package rfl (.inl rfl) (by simp) ?_
    (Body.gainsSubpackage package missing _) c.paths ?_
  · intro _ tidy
    exact Body.tidySubpackage tidy package missing _
  · intro path x
    simp [emptyPackage,Symbol.kind,Body.kind,planted]

theorem packageQualifiers {s : Symbol} (package : s.kind = .package) (named : s.name ≠ "") :
    s.childQualifiers = s.qualifiers ++ [s.name] := by
  obtain ⟨_,_,_,_,_,body⟩ := s
  cases body with
  | package => exact if_neg named
  | _ => cases package

theorem makePackageSteps (admits : Symbol → Symbol → Prop) {t : SymbolTable} (c : t.Consistent)
    {p : Handle} {o : Symbol} (owner : t.symbol? p = some o) (package : o.kind = .package)
    (names : List String)
    (allowed : ∀ {s o}, s.kind = .package → s.name ∈ names → o.kind = .package → admits s o) :
    Steps admits t (t.makePackage p names).2 ∧ (t.makePackage p names).2.files = t.files ∧
      ∃ o', (t.makePackage p names).2.symbol? (t.makePackage p names).1 = some o' ∧
        o'.kind = .package ∧
        ((∀ name ∈ names, name ≠ "") → o'.childQualifiers = o.childQualifiers ++ names) := by
  induction names generalizing t p o with
  | nil => exact ⟨.done t,rfl,o,owner,package,by simp⟩
  | cons name rest ih =>
    have later : ∀ {s o}, s.kind = .package → s.name ∈ rest → o.kind = .package → admits s o :=
      fun kind inside => allowed kind (by simp [inside])
    have extend : ∀ {s q : Symbol}, s.kind = .package → s.name = name →
        s.qualifiers = o.childQualifiers →
        ((∀ n ∈ rest, n ≠ "") → q.childQualifiers = s.childQualifiers ++ rest) →
        (∀ n ∈ name :: rest, n ≠ "") → q.childQualifiers = o.childQualifiers ++ name :: rest := by
      intro s q kind named qualifiers tail filled
      have nonempty : s.name ≠ "" := named ▸ filled name (by simp)
      rw [tail fun n inside => filled n (by simp [inside]),packageQualifiers kind nonempty,
        qualifiers,named,List.append_assoc]
      rfl
    unfold makePackage
    simp only [owner]
    cases found : o.subpackages.get? name with
    | some h =>
      have bound : o.body.subpackages.get? name = some h := Symbol.subpackagesBody o ▸ found
      obtain ⟨s,live,kind,named,parent⟩ := c.subpackage owner (Symbol.subpackageShelf bound)
      obtain ⟨o₀,owner₀,qualifiers⟩ := c.parentLive live parent
      cases Option.some.inj (owner.symm.trans owner₀)
      obtain ⟨steps,files,q,reached,isPackage,tail⟩ := ih c live kind later
      exact ⟨steps,files,q,reached,isPackage,extend kind named qualifiers tail⟩
    | none =>
      have grows := subpackageGrows c owner package found
      have added := grows.added
      obtain ⟨steps,files,q,reached,isPackage,tail⟩ := ih (grows.consistent c) added rfl later
      refine ⟨.more (.grow grows (allowed rfl (by simp [emptyPackage]) package)) steps,files,q,
        reached,isPackage,extend rfl rfl rfl tail⟩

def emptyFile (path : String) (decl : FileDecl) (parent : Handle) (owner : Symbol) : Symbol where
  name := path
  qualifiers := owner.childQualifiers
  span := decl.span
  parent := some parent
  body := .file { path, package := decl.package, imports := decl.imports, lines := decl.lines } {} {}

def withFile (t : SymbolTable) (path : String) (decl : FileDecl) (p : Handle) (o : Symbol) :
    SymbolTable :=
  { (t.planted (emptyFile path decl p o)).modify p
      (·.mapFiles (· ++ [t.slotFor (emptyFile path decl p o)])) with
    files := t.files.insert path (t.slotFor (emptyFile path decl p o)) }

theorem fileGrows {t : SymbolTable} (c : t.Consistent) {p : Handle} {o : Symbol}
    (owner : t.symbol? p = some o) (package : o.kind = .package) {path : String}
    (absent : t.files.get? path = none) (decl : FileDecl) :
    Grows t (t.withFile path decl p o) (t.slotFor (emptyFile path decl p o))
      (emptyFile path decl p o) p o := by
  refine packagedGrows c rfl rfl owner package rfl (.inr rfl) (by simp) ?_ (Body.gainsFile package _)
    (OrderedMap.keysAlterNodup c.paths path _) ?_
  · intro fresh tidy
    exact Body.tidyFile tidy package (fresh .files)
  · intro key x
    rw [OrderedMap.getInsert]
    by_cases here : key = path
    · subst here
      simp [absent,emptyFile,Symbol.kind,Body.kind,eq_comm]
    · have other : ¬path = key := fun same => here same.symm
      simp [here,other,emptyFile]

theorem startFileMade {t : SymbolTable} {path : String} {decl : FileDecl} {o : Symbol}
    (owner : (t.makePackage t.root decl.package).2.symbol? (t.makePackage t.root decl.package).1 =
      some o) :
    t.startFile path decl =
      ((t.makePackage t.root decl.package).2.slotFor
          (emptyFile path decl (t.makePackage t.root decl.package).1 o),
        (t.makePackage t.root decl.package).2.withFile path decl
          (t.makePackage t.root decl.package).1 o) := by
  simp only [startFile,owner]
  rfl

theorem startFileSteps {good : String → Prop} {admits : Symbol → Symbol → Prop} {t : SymbolTable}
    {decl : FileDecl} (licence : FileLicence good decl admits) (c : t.Consistent)
    (named : ∀ name ∈ decl.package, good name) {path : String} (absent : t.files.get? path = none) :
    Steps admits t (t.startFile path decl).2 ∧
      (t.startFile path decl).2.Kinded (t.startFile path decl).1 IsBody := by
  obtain ⟨root,live,isPackage,_,unnamed⟩ := c.root
  obtain ⟨steps,files,o,owner,package,names⟩ := makePackageSteps _ c live isPackage decl.package
    fun kind inside => licence.package kind (named _ inside)
  have top : root.childQualifiers = [] := by
    obtain ⟨_,_,_,_,_,body⟩ := root
    cases body with
    | package => exact if_pos unnamed
    | _ => cases isPackage
  have grows := fileGrows (steps.consistent c) owner package (files ▸ absent) decl
  rw [startFileMade owner]
  refine ⟨steps.append (.one (.grow grows (licence.file rfl rfl package fun filled => ?_))),
    _,grows.added,.inl rfl⟩
  rw [names filled,top,List.nil_append]

theorem dropFileSteps (admits : Symbol → Symbol → Prop) {t : SymbolTable} (c : t.Consistent)
    (path : String) : Steps admits t (t.dropFile path).2 := by
  cases found : t.files.get? (Path.normalize path) with
  | none =>
    rw [dropFileAbsent found]
    exact .done t
  | some h => exact .one (.prune (dropFilePrunes c found))

theorem dropFileUnindexed {t : SymbolTable} (c : t.Consistent) (path : String) :
    (t.dropFile path).2.files.get? (Path.normalize path) = none := by
  cases found : t.files.get? (Path.normalize path) with
  | none =>
    rw [dropFileAbsent found]
    exact found
  | some h =>
    refine Option.eq_none_iff_forall_ne_some.mpr fun x there => ?_
    obtain ⟨before,outside⟩ := ((dropFilePrunes c found).index _ x).mp there
    cases Option.some.inj (found.symm.trans before)
    exact outside .self

theorem Consistent.begun {t : SymbolTable} (c : t.Consistent) (decl : FileDecl) :
    let begun := (t.dropFile (Path.normalize decl.path)).2.startFile (Path.normalize decl.path) decl
    begun.2.Consistent ∧ begun.2.Kinded begun.1 IsBody := by
  have c₀ := (dropFileSteps (fun _ _ => True) c (Path.normalize decl.path)).consistent c
  have absent := dropFileUnindexed c (Path.normalize decl.path)
  rw [Path.normalizeFixed] at absent
  have licence : FileLicence (fun _ => True) decl fun _ _ => True :=
    { Edit.anything with package := fun _ _ _ => trivial, file := fun _ _ _ _ => trivial }
  obtain ⟨started,scope⟩ := startFileSteps licence c₀ (fun _ _ => trivial) absent
  exact ⟨started.consistent c₀,scope⟩

theorem scopesPrune {t : SymbolTable} (c : t.Consistent) (h : Handle) (scopes : SpanMap Handle) :
    Prunes t (t.modify h (·.withScopes scopes)) fun _ => False where
  store := Arena.modifyExact c.store h _
  root := rfl
  rootKept := id
  inside := fun _ _ => id
  dead := False.elim
  kept := by
    intro x _
    unfold outline?
    rw [symbolModify]
    split
    · cases t.symbol? x <;> simp [Symbol.outline,Symbol.mapBody]
    · rfl
  shelves := by
    intro p o o' owner owner' place x
    rw [symbolModify,owner] at owner'
    split at owner'
    · cases Option.some.inj owner'
      simp [Symbol.shelf,Symbol.mapBody,Body.shelfScopes]
    · cases Option.some.inj owner'
      simp
  tidy := by
    intro p o' owner'
    rw [symbolModify] at owner'
    split at owner'
    · obtain ⟨o,owner,rfl⟩ := Option.map_eq_some_iff.mp owner'
      exact Body.tidyScopes (c.tidy owner) scopes
    · exact c.tidy owner'
  paths := c.paths
  index := by simp [modify]

namespace Edit

theorem addTypesProgress {good : String → Prop} {admits : Symbol → Symbol → Prop} {t : SymbolTable}
    {file : Handle} (licence : Licence good admits) (c : t.Consistent) (scope : t.Kinded file IsBody)
    (span : Span) (types : List TypeDecl)
    (named : ∀ type ∈ types, good type.outline.name ∧ MemberDecl.NamedAll good type.members) :
    Progress admits file t (after (addTypes file span types) t) := by
  have all : MemberDecl.NamedAll good
      (types.map fun type => .type type.outline type.members) := by
    induction types with
    | nil => trivial
    | cons type rest ih => exact ⟨named type (by simp),ih fun type later => named type (by simp [later])⟩
  refine bindProgress c (addMembersProgress licence c scope _ all) fun {inner t'} _ => ?_
  cases SpanMap.ofList ((span,file) :: inner) <;> exact Progress.refl t'

end Edit

theorem putFileSteps {good : String → Prop} {admits : Symbol → Symbol → Prop} {t : SymbolTable}
    {decl : FileDecl} (licence : FileLicence good decl admits) (c : t.Consistent)
    (named : decl.Named good) : Steps admits t (t.putFile decl).2 := by
  unfold putFile
  split
  · exact .done t
  have dropped := dropFileSteps admits c (Path.normalize decl.path)
  have c₁ := dropped.consistent c
  have absent := dropFileUnindexed c (Path.normalize decl.path)
  rw [Path.normalizeFixed] at absent
  obtain ⟨started,scope⟩ := startFileSteps licence c₁ named.package absent
  have c₂ := started.consistent c₁
  have types := (Edit.addTypesProgress licence.toLicence c₂ scope decl.span decl.types
    named.types).steps
  have before := dropped.append started
  simp only [Edit.after] at types
  split at types
  · rename_i ran
    simp only [ran]
    exact (before.append types).append
      (.one (.prune (scopesPrune (types.consistent c₂) _ _)))
  · rename_i ran
    simp only [ran]
    exact (before.append types).append (dropFileSteps admits (types.consistent c₂) _)

end SymbolTable
end CodeIndex
