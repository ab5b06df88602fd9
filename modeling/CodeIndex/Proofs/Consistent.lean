import CodeIndex.Proofs.Arena
import CodeIndex.Proofs.Shelves
import CodeIndex.SymbolTable.Files

/-! What holds of a symbol table between edits. Every symbol but the root has an owner, and the shelves
of a symbol list exactly the handles that belong there: what it owns, the parameters of a method a
second time, and in a package the types of its files.

An edit is a run of two kinds of steps. One adds a single symbol without contents; the other takes
away symbols together with everything inside them. Both keep a table consistent. -/
namespace CodeIndex.SymbolTable

def outline? (t : SymbolTable) (h : Handle) : Option Symbol := (t.symbol? h).map Symbol.outline

inductive Belongs (t : SymbolTable) : Handle → Shelf → Handle → Prop where
  | own {p h s} (live : t.symbol? h = some s) (parent : s.parent = some p) : Belongs t p s.home h
  | parameter {p o h s} (live : t.symbol? h = some s) (parent : s.parent = some p)
      (kind : s.kind = .value .parameter) (owner : t.symbol? p = some o) (method : o.kind = .method) :
      Belongs t p .parameters h
  | type {p f o h s} (live : t.symbol? h = some s) (kind : s.kind.isTypeDecl)
      (parent : s.parent = some f) (owner : t.symbol? f = some o) (file : o.kind = .file)
      (package : o.parent = some p) : Belongs t p (.member s.name) h

inductive Rooted (t : SymbolTable) : Handle → Prop where
  | root : Rooted t t.root
  | child {h s p} (live : t.symbol? h = some s) (parent : s.parent = some p) (outer : Rooted t p) :
      Rooted t h

structure Consistent (t : SymbolTable) : Prop where
  store : t.symbols.Exact
  root : ∃ s, t.symbol? t.root = some s ∧ s.kind = .package ∧ s.parent = none ∧ s.name = ""
  rooted : ∀ {h s}, t.symbol? h = some s → t.Rooted h
  owner : ∀ {h s}, t.symbol? h = some s → h ≠ t.root →
    ∃ p o, s.parent = some p ∧ t.symbol? p = some o ∧ s.qualifiers = o.childQualifiers
  tidy : ∀ {h s}, t.symbol? h = some s → s.body.Tidy
  listed : ∀ {p o}, t.symbol? p = some o → ∀ place h, h ∈ o.shelf place ↔ t.Belongs p place h
  single : ∀ {p o}, t.symbol? p = some o → o.kind ≠ .package → ∀ {name h h' s s'},
    h ∈ o.shelf (.member name) → h' ∈ o.shelf (.member name) →
    t.symbol? h = some s → t.symbol? h' = some s' → s.kind ≠ .method → s'.kind ≠ .method → h = h'
  paths : t.files.keys.Nodup
  indexed : ∀ path h, t.files.get? path = some h ↔
    ∃ s, t.symbol? h = some s ∧ s.kind = .file ∧ s.name = path

theorem liveOutline {t t' : SymbolTable} {h s} (same : t'.outline? h = t.outline? h)
    (live : t.symbol? h = some s) : ∃ s', t'.symbol? h = some s' ∧ s'.outline = s.outline := by
  simpa [outline?,live] using same

theorem deadOutline {t t' : SymbolTable} {h} (same : t'.outline? h = t.outline? h) :
    t'.symbol? h = none ↔ t.symbol? h = none := by
  have both := congrArg (· = none) same
  simpa [outline?,Option.map_eq_none_iff] using both

theorem Belongs.transfer {t t' : SymbolTable} {p place h} (belongs : t.Belongs p place h)
    (self : t'.outline? h = t.outline? h) (owner : t'.outline? p = t.outline? p)
    (parent : ∀ {s f}, t.symbol? h = some s → s.parent = some f → t'.outline? f = t.outline? f) :
    t'.Belongs p place h := by
  cases belongs with
  | own live above =>
    obtain ⟨s',live',same⟩ := liveOutline self live
    rw [← Symbol.homeOutline same]
    exact .own live' (Symbol.parentOutline same ▸ above)
  | parameter live above kind holder method =>
    obtain ⟨s',live',same⟩ := liveOutline self live
    obtain ⟨o',holder',same'⟩ := liveOutline owner holder
    exact .parameter live' (Symbol.parentOutline same ▸ above) (Symbol.kindOutline same ▸ kind)
      holder' (Symbol.kindOutline same' ▸ method)
  | type live kind above holder file package =>
    obtain ⟨s',live',same⟩ := liveOutline self live
    obtain ⟨o',holder',same'⟩ := liveOutline (parent live above) holder
    rw [← Symbol.nameOutline same]
    exact .type live' (Symbol.kindOutline same ▸ kind) (Symbol.parentOutline same ▸ above) holder'
      (Symbol.kindOutline same' ▸ file) (Symbol.parentOutline same' ▸ package)

theorem Belongs.live {t : SymbolTable} {p place h} (belongs : t.Belongs p place h) :
    ∃ s, t.symbol? h = some s := by
  cases belongs with
  | own live | parameter live | type live => exact ⟨_,live⟩

theorem Belongs.memberName {t : SymbolTable} {p name h s} (belongs : t.Belongs p (.member name) h)
    (live : t.symbol? h = some s) : s.name = name := by
  generalize spot : Shelf.member name = place at belongs
  cases belongs with
  | own live' parent =>
    cases Option.some.inj (live.symm.trans live')
    unfold Symbol.home at spot
    split at spot <;> simp_all
  | parameter live' => cases spot
  | type live' =>
    cases Option.some.inj (live.symm.trans live')
    exact (Shelf.member.inj spot).symm

theorem Belongs.fileShelf {t : SymbolTable} {h s q place} (belongs : t.Belongs q place h)
    (live : t.symbol? h = some s) (file : s.kind = .file) : s.parent = some q ∧ place = .files := by
  cases belongs with
  | own live' parent =>
    cases Option.some.inj (live.symm.trans live')
    exact ⟨parent,by simp [Symbol.home,file]⟩
  | parameter live' _ kind =>
    cases Option.some.inj (live.symm.trans live')
    simp [file] at kind
  | type live' kind =>
    cases Option.some.inj (live.symm.trans live')
    simp [file,SymbolKind.isTypeDecl] at kind

namespace Consistent

variable {t : SymbolTable} (c : t.Consistent)
include c

theorem onShelf {h s p o} (live : t.symbol? h = some s) (parent : s.parent = some p)
    (owner : t.symbol? p = some o) : h ∈ o.shelf s.home :=
  (c.listed owner s.home h).mpr (.own live parent)

theorem parentOfFile {h s p o} (live : t.symbol? h = some s) (file : s.kind = .file)
    (parent : s.parent = some p) (owner : t.symbol? p = some o) : o.kind = .package := by
  have shelved := c.onShelf live parent owner
  simp only [Symbol.home,file] at shelved
  exact Body.packageOfFile shelved

theorem parentOfPackage {h s p o} (live : t.symbol? h = some s) (package : s.kind = .package)
    (parent : s.parent = some p) (owner : t.symbol? p = some o) : o.kind = .package := by
  have shelved := c.onShelf live parent owner
  simp only [Symbol.home,package] at shelved
  exact Body.packageOfSubpackage shelved

theorem ownHome {h s p o} (live : t.symbol? h = some s) (parent : s.parent = some p)
    (owner : t.symbol? p = some o) (other : o.kind ≠ .package) : s.home = .member s.name :=
  Symbol.memberHome (fun package => other (c.parentOfPackage live package parent owner))
    fun file => other (c.parentOfFile live file parent owner)

theorem subpackage {p o name h} (owner : t.symbol? p = some o)
    (listed : h ∈ o.shelf (.subpackage name)) :
    ∃ s, t.symbol? h = some s ∧ s.kind = .package ∧ s.name = name ∧ s.parent = some p := by
  have belongs := (c.listed owner (.subpackage name) h).mp listed
  generalize spot : Shelf.subpackage name = place at belongs
  cases belongs with
  | own live parent =>
    unfold Symbol.home at spot
    split at spot
    · rename_i package
      exact ⟨_,live,package,(Shelf.subpackage.inj spot).symm,parent⟩
    · cases spot
    · cases spot
  | parameter => cases spot
  | type => cases spot

theorem notRoot {h s p} (live : t.symbol? h = some s) (parent : s.parent = some p) : h ≠ t.root := by
  rintro rfl
  obtain ⟨s',live',_,none,_⟩ := c.root
  cases Option.some.inj (live.symm.trans live')
  simp [none] at parent

theorem parentLive {h s p} (live : t.symbol? h = some s) (parent : s.parent = some p) :
    ∃ o, t.symbol? p = some o ∧ s.qualifiers = o.childQualifiers := by
  obtain ⟨p',o,parent',owner,qualifiers⟩ := c.owner live (c.notRoot live parent)
  rw [parent] at parent'
  cases Option.some.inj parent'
  exact ⟨o,owner,qualifiers⟩

theorem ownMember {p o h s} (owner : t.symbol? p = some o) (other : o.kind ≠ .package) (place : Shelf)
    (listed : h ∈ o.shelf place) (live : t.symbol? h = some s) : s.parent = some p := by
  cases (c.listed owner place h).mp listed with
  | own live' parent | parameter live' parent =>
    cases Option.some.inj (live.symm.trans live')
    exact parent
  | type live' kind parent file isFile package =>
    exact absurd (c.parentOfFile file isFile package owner) other

end Consistent

/-- Symbols are taken away with everything inside them, and off every shelf. -/
structure Prunes (t t' : SymbolTable) (gone : Handle → Prop) : Prop where
  store : t'.symbols.Exact
  root : t'.root = t.root
  rootKept : ¬gone t.root
  inside : ∀ {h s p}, t.symbol? h = some s → s.parent = some p → gone p → gone h
  dead : ∀ {h}, gone h → t'.symbol? h = none
  kept : ∀ {h}, ¬gone h → t'.outline? h = t.outline? h
  shelves : ∀ {p o o'}, t.symbol? p = some o → t'.symbol? p = some o' →
    ∀ place h, h ∈ o'.shelf place ↔ h ∈ o.shelf place ∧ ¬gone h
  tidy : ∀ {p o'}, t'.symbol? p = some o' → o'.body.Tidy
  paths : t'.files.keys.Nodup
  index : ∀ path h, t'.files.get? path = some h ↔ t.files.get? path = some h ∧ ¬gone h

/-- A symbol without contents is added under an owner and put on every shelf it belongs on. -/
structure Grows (t t' : SymbolTable) (h : Handle) (s : Symbol) (p : Handle) (o : Symbol) : Prop where
  store : t'.symbols.Exact
  root : t'.root = t.root
  fresh : t.symbol? h = none
  added : t'.symbol? h = some s
  bare : s.outline = s
  parent : s.parent = some p
  owner : t.symbol? p = some o
  qualifiers : s.qualifiers = o.childQualifiers
  room : o.kind ≠ .package → s.kind ≠ .method → ∀ {x sx}, x ∈ o.shelf (.member s.name) →
    t.symbol? x = some sx → sx.kind = .method
  kept : ∀ {x}, x ≠ h → t'.outline? x = t.outline? x
  shelves : ∀ {q o o'}, t.symbol? q = some o → t'.symbol? q = some o' →
    ∀ place x, x ∈ o'.shelf place ↔ x ∈ o.shelf place ∨ x = h ∧ t'.Belongs q place h
  tidy : ∀ {q o'}, t'.symbol? q = some o' → o'.body.Tidy
  paths : t'.files.keys.Nodup
  index : ∀ path x, t'.files.get? path = some x ↔
    t.files.get? path = some x ∨ x = h ∧ s.kind = .file ∧ s.name = path

namespace Prunes

variable {t t' : SymbolTable} {gone : Handle → Prop} (prunes : Prunes t t' gone)
include prunes

theorem live {h s'} (live : t'.symbol? h = some s') :
    ¬gone h ∧ ∃ s, t.symbol? h = some s ∧ s.outline = s'.outline := by
  have stays : ¬gone h := fun lost => by simp [prunes.dead lost] at live
  exact ⟨stays,liveOutline (prunes.kept stays).symm live⟩

theorem parentKept {h s p} (live : t.symbol? h = some s) (stays : ¬gone h)
    (parent : s.parent = some p) : ¬gone p :=
  fun lost => stays (prunes.inside live parent lost)

theorem belongs {p place h} (owner : ¬gone p) :
    t'.Belongs p place h ↔ t.Belongs p place h ∧ ¬gone h := by
  constructor
  · intro there
    obtain ⟨s',live'⟩ := there.live
    obtain ⟨stays,s,live,same⟩ := prunes.live live'
    refine ⟨there.transfer (prunes.kept stays).symm (prunes.kept owner).symm ?_,stays⟩
    intro s'' f live'' parent
    cases Option.some.inj (live'.symm.trans live'')
    exact (prunes.kept (prunes.parentKept live stays (Symbol.parentOutline same ▸ parent))).symm
  · rintro ⟨there,stays⟩
    refine there.transfer (prunes.kept stays) (prunes.kept owner) ?_
    intro s f live parent
    exact prunes.kept (prunes.parentKept live stays parent)

theorem stays {h s} (live : t.symbol? h = some s) (stays : ¬gone h) :
    ∃ s', t'.symbol? h = some s' ∧ s'.outline = s.outline := liveOutline (prunes.kept stays) live

theorem rooted {h} (outer : t.Rooted h) (stays : ¬gone h) : t'.Rooted h := by
  induction outer with
  | root => exact prunes.root ▸ .root
  | child live parent outer ih =>
    obtain ⟨s',live',same⟩ := liveOutline (prunes.kept stays) live
    exact .child live' (Symbol.parentOutline same ▸ parent)
      (ih (prunes.parentKept live stays parent))

theorem consistent (c : t.Consistent) : t'.Consistent where
  store := prunes.store
  root := by
    obtain ⟨s,live,package,orphan,unnamed⟩ := c.root
    obtain ⟨s',live',same⟩ := liveOutline (prunes.kept prunes.rootKept) live
    exact ⟨s',prunes.root ▸ live',Symbol.kindOutline same ▸ package,
      Symbol.parentOutline same ▸ orphan,Symbol.nameOutline same ▸ unnamed⟩
  rooted := by
    intro h s' live'
    obtain ⟨stays,s,live,_⟩ := prunes.live live'
    exact prunes.rooted (c.rooted live) stays
  owner := by
    intro h s' live' other
    obtain ⟨stays,s,live,same⟩ := prunes.live live'
    obtain ⟨p,o,parent,owner,qualifiers⟩ := c.owner live (prunes.root ▸ other)
    obtain ⟨o',owner',same'⟩ :=
      liveOutline (prunes.kept (prunes.parentKept live stays parent)) owner
    refine ⟨p,o',Symbol.parentOutline same ▸ parent,owner',?_⟩
    rw [← Symbol.qualifiersOutline same,qualifiers,Symbol.childQualifiersOutline same']
  tidy := prunes.tidy
  listed := by
    intro p o' owner' place h
    obtain ⟨stays,o,owner,_⟩ := prunes.live owner'
    rw [prunes.shelves owner owner' place h,c.listed owner place h,prunes.belongs stays]
  single := by
    intro p o' owner' other name h h' s s' first second live live' method method'
    obtain ⟨_,o,owner,same⟩ := prunes.live owner'
    obtain ⟨_,s₀,live₀,same₀⟩ := prunes.live live
    obtain ⟨_,s₁,live₁,same₁⟩ := prunes.live live'
    exact c.single owner (Symbol.kindOutline same ▸ other)
      ((prunes.shelves owner owner' _ _).mp first).1 ((prunes.shelves owner owner' _ _).mp second).1
      live₀ live₁ (Symbol.kindOutline same₀ ▸ method) (Symbol.kindOutline same₁ ▸ method')
  paths := prunes.paths
  indexed := by
    intro path h
    rw [prunes.index,c.indexed]
    constructor
    · rintro ⟨⟨s,live,file,name⟩,stays⟩
      obtain ⟨s',live',same⟩ := liveOutline (prunes.kept stays) live
      exact ⟨s',live',Symbol.kindOutline same ▸ file,Symbol.nameOutline same ▸ name⟩
    · rintro ⟨s',live',file,name⟩
      obtain ⟨stays,s,live,same⟩ := prunes.live live'
      exact ⟨⟨s,live,Symbol.kindOutline same ▸ file,Symbol.nameOutline same ▸ name⟩,stays⟩

end Prunes

theorem Prunes.refl {t : SymbolTable} (c : t.Consistent) : Prunes t t fun _ => False where
  store := c.store
  root := rfl
  rootKept := id
  inside := fun _ _ => id
  dead := False.elim
  kept := fun _ => rfl
  shelves := by
    intro p o o' owner owner' place h
    cases Option.some.inj (owner.symm.trans owner')
    simp
  tidy := c.tidy
  paths := c.paths
  index := by simp

theorem Prunes.trans {t t' t'' : SymbolTable} {gone gone' : Handle → Prop}
    (first : Prunes t t' gone) (second : Prunes t' t'' gone') :
    Prunes t t'' fun h => gone h ∨ gone' h where
  store := second.store
  root := second.root.trans first.root
  rootKept := by
    rintro (lost | lost)
    · exact first.rootKept lost
    · exact second.rootKept (first.root ▸ lost)
  inside := by
    intro h s p live parent lost
    by_cases early : gone h
    · exact .inl early
    · obtain ⟨s',live',same⟩ := first.stays live early
      rcases lost with lost | lost
      · exact .inl (first.inside live parent lost)
      · exact .inr (second.inside live' (Symbol.parentOutline same ▸ parent) lost)
  dead := by
    intro h lost
    by_cases late : gone' h
    · exact second.dead late
    · exact (deadOutline (second.kept late)).mpr (first.dead (lost.resolve_right late))
  kept := fun stays =>
    (second.kept fun late => stays (.inr late)).trans (first.kept fun early => stays (.inl early))
  shelves := by
    intro p o o'' owner owner'' place h
    obtain ⟨_,o',owner',_⟩ := second.live owner''
    rw [second.shelves owner' owner'',first.shelves owner owner',not_or,and_assoc]
  tidy := second.tidy
  paths := second.paths
  index := by
    intro path h
    rw [second.index,first.index,not_or,and_assoc]

namespace Grows

variable {t t' : SymbolTable} {h p : Handle} {s o : Symbol} (grows : Grows t t' h s p o)
include grows

theorem other {x sx} (live : t.symbol? x = some sx) : x ≠ h := by
  rintro rfl
  simp [grows.fresh] at live

theorem live {x sx} (live : t'.symbol? x = some sx) :
    (x = h ∧ sx = s) ∨ ∃ s₀, t.symbol? x = some s₀ ∧ s₀.outline = sx.outline := by
  by_cases same : x = h
  · subst same
    exact .inl ⟨rfl,(Option.some.inj (grows.added.symm.trans live)).symm⟩
  · exact .inr (liveOutline (grows.kept same).symm live)

theorem stays {x sx} (live : t.symbol? x = some sx) :
    ∃ s', t'.symbol? x = some s' ∧ s'.outline = sx.outline :=
  liveOutline (grows.kept (grows.other live)) live

theorem belongs (c : t.Consistent) {q oq} (owner : t.symbol? q = some oq) {place x} :
    t'.Belongs q place x ↔ t.Belongs q place x ∨ x = h ∧ t'.Belongs q place h := by
  have there : t.Belongs q place x → t'.Belongs q place x := by
    intro belongs
    obtain ⟨sx,live⟩ := belongs.live
    refine belongs.transfer (grows.kept (grows.other live)) (grows.kept (grows.other owner)) ?_
    intro s' f live' parent
    obtain ⟨of,liveParent,_⟩ := c.parentLive live' parent
    exact grows.kept (grows.other liveParent)
  constructor
  · intro belongs
    obtain ⟨sx,live⟩ := belongs.live
    rcases grows.live live with ⟨rfl,_⟩ | ⟨s₀,live₀,same⟩
    · exact .inr ⟨rfl,belongs⟩
    · refine .inl (belongs.transfer (grows.kept (grows.other live₀)).symm
        (grows.kept (grows.other owner)).symm ?_)
      intro s' f live' parent
      cases Option.some.inj (live.symm.trans live')
      obtain ⟨of,liveParent,_⟩ := c.parentLive live₀ (Symbol.parentOutline same ▸ parent)
      exact (grows.kept (grows.other liveParent)).symm
  · rintro (old | ⟨rfl,new⟩)
    · exact there old
    · exact new

theorem rooted {x} (outer : t.Rooted x) : t'.Rooted x := by
  induction outer with
  | root => exact grows.root ▸ .root
  | child live parent outer ih =>
    obtain ⟨s',live',same⟩ := grows.stays live
    exact .child live' (Symbol.parentOutline same ▸ parent) ih

theorem empty (place : Shelf) : s.shelf place = [] := by
  rw [← grows.bare]
  exact Body.shelfBare s.body place

theorem nothingInside (c : t.Consistent) {place x} : ¬t'.Belongs h place x := by
  have orphan : ∀ {y sy}, t'.symbol? y = some sy → sy.parent ≠ some h := by
    intro y sy live parent
    rcases grows.live live with ⟨rfl,rfl⟩ | ⟨s₀,live₀,same⟩
    · rw [grows.parent] at parent
      exact grows.other grows.owner (Option.some.inj parent)
    · obtain ⟨_,liveParent,_⟩ := c.parentLive live₀ (Symbol.parentOutline same ▸ parent)
      simp [grows.fresh] at liveParent
  intro belongs
  cases belongs with
  | own live parent => exact orphan live parent
  | parameter live parent => exact orphan live parent
  | type live kind parent owner file package => exact orphan owner package

theorem newcomerOwner (c : t.Consistent) {q oq} (owner : t.symbol? q = some oq)
    (plain : oq.kind ≠ .package) {name} (belongs : t'.Belongs q (.member name) h) :
    q = p ∧ s.name = name := by
  refine ⟨?_,belongs.memberName grows.added⟩
  generalize Shelf.member name = place at belongs
  cases belongs with
  | own added parent | parameter added parent =>
    cases Option.some.inj (grows.added.symm.trans added)
    exact Option.some.inj (parent.symm.trans grows.parent)
  | type added kind parent file isFile package =>
    cases Option.some.inj (grows.added.symm.trans added)
    cases Option.some.inj (parent.symm.trans grows.parent)
    obtain ⟨o',file',same⟩ := grows.stays grows.owner
    cases Option.some.inj (file.symm.trans file')
    exact absurd (c.parentOfFile grows.owner (Symbol.kindOutline same ▸ isFile)
      (Symbol.parentOutline same ▸ package) owner) plain

theorem newcomerAlone (c : t.Consistent) {q oq} (owner : t.symbol? q = some oq)
    (plain : oq.kind ≠ .package) {name} (belongs : t'.Belongs q (.member name) h)
    (method : s.kind ≠ .method) {y sy} (old : y ∈ oq.shelf (.member name))
    (live : t'.symbol? y = some sy) : sy.kind = .method := by
  obtain ⟨rfl,rfl⟩ := grows.newcomerOwner c owner plain belongs
  cases Option.some.inj (owner.symm.trans grows.owner)
  obtain ⟨sy₀,live₀⟩ := ((c.listed owner _ _).mp old).live
  obtain ⟨s',live',same⟩ := grows.stays live₀
  cases Option.some.inj (live.symm.trans live')
  exact Symbol.kindOutline same ▸ grows.room plain method old live₀

theorem single (c : t.Consistent) {q oq} (owner : t'.symbol? q = some oq) (other : oq.kind ≠ .package)
    {name x x' sx sx'} (first : x ∈ oq.shelf (.member name)) (second : x' ∈ oq.shelf (.member name))
    (live : t'.symbol? x = some sx) (live' : t'.symbol? x' = some sx') (method : sx.kind ≠ .method)
    (method' : sx'.kind ≠ .method) : x = x' := by
  rcases grows.live owner with ⟨rfl,rfl⟩ | ⟨o₀,owner₀,same⟩
  · simp [grows.empty] at first
  have plain : o₀.kind ≠ .package := Symbol.kindOutline same ▸ other
  rw [grows.shelves owner₀ owner] at first second
  rcases first with old | ⟨rfl,belongs⟩ <;> rcases second with old' | ⟨rfl,belongs'⟩
  · obtain ⟨s₀,live₀⟩ := ((c.listed owner₀ _ _).mp old).live
    obtain ⟨s₁,live₁⟩ := ((c.listed owner₀ _ _).mp old').live
    obtain ⟨s₀',live₀',same₀⟩ := grows.stays live₀
    obtain ⟨s₁',live₁',same₁⟩ := grows.stays live₁
    cases Option.some.inj (live.symm.trans live₀')
    cases Option.some.inj (live'.symm.trans live₁')
    exact c.single owner₀ plain old old' live₀ live₁ (Symbol.kindOutline same₀ ▸ method)
      (Symbol.kindOutline same₁ ▸ method')
  · cases Option.some.inj (live'.symm.trans grows.added)
    exact absurd (grows.newcomerAlone c owner₀ plain belongs' method' old live) method
  · cases Option.some.inj (live.symm.trans grows.added)
    exact absurd (grows.newcomerAlone c owner₀ plain belongs method old' live') method'
  · rfl

theorem indexed (c : t.Consistent) (path : String) (x : Handle) :
    t'.files.get? path = some x ↔ ∃ sx, t'.symbol? x = some sx ∧ sx.kind = .file ∧ sx.name = path := by
  rw [grows.index,c.indexed]
  constructor
  · rintro (⟨s₀,live,file,name⟩ | ⟨rfl,file,name⟩)
    · obtain ⟨s',live',same⟩ := grows.stays live
      exact ⟨s',live',Symbol.kindOutline same ▸ file,Symbol.nameOutline same ▸ name⟩
    · exact ⟨s,grows.added,file,name⟩
  · rintro ⟨sx,live,file,name⟩
    rcases grows.live live with ⟨rfl,rfl⟩ | ⟨s₀,live₀,same⟩
    · exact .inr ⟨rfl,file,name⟩
    · exact .inl ⟨s₀,live₀,Symbol.kindOutline same ▸ file,Symbol.nameOutline same ▸ name⟩

theorem consistent (c : t.Consistent) : t'.Consistent where
  store := grows.store
  root := by
    obtain ⟨s₀,live,package,orphan,unnamed⟩ := c.root
    obtain ⟨s',live',same⟩ := grows.stays live
    exact ⟨s',grows.root ▸ live',Symbol.kindOutline same ▸ package,
      Symbol.parentOutline same ▸ orphan,Symbol.nameOutline same ▸ unnamed⟩
  rooted := by
    intro x sx live
    rcases grows.live live with ⟨rfl,rfl⟩ | ⟨s₀,live₀,_⟩
    · exact .child grows.added grows.parent (grows.rooted (c.rooted grows.owner))
    · exact grows.rooted (c.rooted live₀)
  owner := by
    intro x sx live other
    rcases grows.live live with ⟨rfl,rfl⟩ | ⟨s₀,live₀,same⟩
    · obtain ⟨o',owner',same'⟩ := grows.stays grows.owner
      refine ⟨p,o',grows.parent,owner',?_⟩
      rw [grows.qualifiers,Symbol.childQualifiersOutline same']
    · obtain ⟨q,oq,parent,owner,qualifiers⟩ := c.owner live₀ (grows.root ▸ other)
      obtain ⟨o',owner',same'⟩ := grows.stays owner
      refine ⟨q,o',Symbol.parentOutline same ▸ parent,owner',?_⟩
      rw [← Symbol.qualifiersOutline same,qualifiers,Symbol.childQualifiersOutline same']
  tidy := grows.tidy
  listed := by
    intro q oq owner place x
    rcases grows.live owner with ⟨rfl,rfl⟩ | ⟨o₀,owner₀,_⟩
    · simp [grows.empty,grows.nothingInside c]
    · rw [grows.shelves owner₀ owner,c.listed owner₀]
      exact (grows.belongs c owner₀).symm
  single := grows.single c
  paths := grows.paths
  indexed := grows.indexed c

end Grows

inductive Step (admits : Symbol → Symbol → Prop) : SymbolTable → SymbolTable → Prop where
  | prune {t t' gone} (prunes : Prunes t t' gone) : Step admits t t'
  | grow {t t' h s p o} (grows : Grows t t' h s p o) (admitted : admits s o) : Step admits t t'

inductive Steps (admits : Symbol → Symbol → Prop) : SymbolTable → SymbolTable → Prop where
  | done (t) : Steps admits t t
  | more {t t' t''} (first : Step admits t t') (rest : Steps admits t' t'') : Steps admits t t''

theorem Step.consistent {admits t t'} (step : Step admits t t') (c : t.Consistent) :
    t'.Consistent := by
  cases step with
  | prune prunes => exact prunes.consistent c
  | grow grows => exact grows.consistent c

theorem Steps.consistent {admits t t'} (steps : Steps admits t t') (c : t.Consistent) :
    t'.Consistent := by
  induction steps with
  | done => exact c
  | more first _ ih => exact ih (first.consistent c)

theorem Steps.one {admits t t'} (step : Step admits t t') : Steps admits t t' :=
  .more step (.done _)

theorem Steps.append {admits t t' t''} (first : Steps admits t t') (rest : Steps admits t' t'') :
    Steps admits t t'' := by
  induction first with
  | done => exact rest
  | more step _ ih => exact .more step (ih rest)

end CodeIndex.SymbolTable
