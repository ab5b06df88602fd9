import CodeIndex.Proofs.Removal

/-! Attaching a draft clears the place for it and then adds one symbol. What is cleared lies strictly
inside the scope, so the scope and everything around it stays. -/
namespace CodeIndex.SymbolTable

structure Fills (t t' : SymbolTable) (h : Handle) (gain : Handle → Shelf → Prop) : Prop where
  store : t.symbols.Exact → t'.symbols.Exact
  root : t'.root = t.root
  dead : ∀ {q}, t.symbol? q = none → t'.symbol? q = none
  live : ∀ {q o}, t.symbol? q = some o → (∀ place, h ∉ o.shelf place) →
    ∃ o', t'.symbol? q = some o' ∧ o'.outline = o.outline ∧ (o.body.Tidy → o'.body.Tidy) ∧
      ∀ place x, x ∈ o'.shelf place ↔ x ∈ o.shelf place ∨ gain q place ∧ x = h
  untouched : ∀ {q o}, t.symbol? q = some o → (∀ place, ¬gain q place) → t'.symbol? q = some o

theorem fillsModify (t : SymbolTable) (h p : Handle) (f : Body → Body) (gain : Shelf → Prop)
    (bare : ∀ b, (f b).bare = b.bare)
    (tidy : ∀ {o}, t.symbol? p = some o → (∀ place, h ∉ o.shelf place) → o.body.Tidy →
      (f o.body).Tidy)
    (shelves : ∀ {o}, t.symbol? p = some o → ∀ place x,
      x ∈ (f o.body).shelf place ↔ x ∈ o.body.shelf place ∨ gain place ∧ x = h)
    (gains : ∃ place, gain place) :
    Fills t (t.modify p f) h fun q place => q = p ∧ gain place := by
  refine ⟨fun exact => Arena.modifyExact exact p _,rfl,?_,?_,?_⟩
  · intro q dead
    simp [symbolModify,dead]
  · intro q o live absent
    rw [symbolModify,live]
    split
    · rename_i here
      subst here
      refine ⟨_,rfl,by simp [Symbol.outline,Symbol.mapBody,bare],tidy live absent,fun place x => ?_⟩
      simp only [true_and]
      exact shelves live place x
    · rename_i elsewhere
      exact ⟨o,rfl,rfl,id,by simp [elsewhere]⟩
  · intro q o live nothing
    obtain ⟨place,gained⟩ := gains
    have elsewhere : q ≠ p := fun here => nothing place ⟨here,gained⟩
    simp [symbolModify,elsewhere,live]

theorem Fills.trans {t t' t'' h gain gain'} (first : Fills t t' h gain)
    (second : Fills t' t'' h gain') (apart : ∀ {q place place'}, gain q place → ¬gain' q place') :
    Fills t t'' h fun q place => gain q place ∨ gain' q place := by
  refine ⟨second.store ∘ first.store,second.root.trans first.root,second.dead ∘ first.dead,?_,?_⟩
  · intro q o live absent
    obtain ⟨o₁,live₁,same₁,tidy₁,shelves₁⟩ := first.live live absent
    by_cases gained : ∃ place, gain q place
    · obtain ⟨place,gained⟩ := gained
      have outside : ∀ place', ¬gain' q place' := fun place' => apart gained
      refine ⟨o₁,second.untouched live₁ outside,same₁,tidy₁,fun place' x => ?_⟩
      rw [shelves₁]
      simp [outside]
    · have nothing : ∀ place, ¬gain q place := fun place held => gained ⟨place,held⟩
      obtain ⟨o₂,live₂,same₂,tidy₂,shelves₂⟩ := second.live (first.untouched live nothing) absent
      refine ⟨o₂,live₂,same₂,tidy₂,fun place x => ?_⟩
      rw [shelves₂]
      simp [nothing]
  · intro q o live nothing
    exact second.untouched (first.untouched live fun place held => nothing place (.inl held))
      fun place held => nothing place (.inr held)

theorem Fills.indexed {t t' h gain} (fills : Fills t t' h gain) (files : OrderedMap String Handle) :
    Fills t { t' with files } h gain :=
  ⟨fills.store,fills.root,fills.dead,fills.live,fills.untouched⟩

def slotFor (t : SymbolTable) (s : Symbol) : Handle := (t.symbols.insert s).1

def planted (t : SymbolTable) (s : Symbol) : SymbolTable :=
  { t with symbols := (t.symbols.insert s).2 }

namespace Consistent

variable {t : SymbolTable} (c : t.Consistent) (s : Symbol)
include c

theorem slotFresh : t.symbol? (t.slotFor s) = none := Arena.insertFresh c.store s

theorem symbolPlanted (x : Handle) :
    (t.planted s).symbol? x = if x = t.slotFor s then some s else t.symbol? x :=
  Arena.getInsert c.store s x

theorem otherSlot {q oq} (live : t.symbol? q = some oq) : q ≠ t.slotFor s := by
  rintro rfl
  simp [c.slotFresh s] at live

theorem plantedOld {q oq} (live : t.symbol? q = some oq) : (t.planted s).symbol? q = some oq := by
  rw [c.symbolPlanted,if_neg (c.otherSlot s live)]
  exact live

theorem plantedNew : (t.planted s).symbol? (t.slotFor s) = some s := by
  rw [c.symbolPlanted,if_pos rfl]

theorem plantedDead {q} (other : q ≠ t.slotFor s) (dead : t.symbol? q = none) :
    (t.planted s).symbol? q = none := by
  rw [c.symbolPlanted,if_neg other]
  exact dead

theorem slotUnlisted {q oq} (live : t.symbol? q = some oq) (place : Shelf) :
    t.slotFor s ∉ oq.shelf place := by
  intro listed
  obtain ⟨_,live'⟩ := ((c.listed live place _).mp listed).live
  simp [c.slotFresh s] at live'

end Consistent

theorem growsOfFills {t t' : SymbolTable} (c : t.Consistent) {p : Handle} {s o : Symbol}
    {gain : Handle → Shelf → Prop} (bare : s.outline = s) (parent : s.parent = some p)
    (owner : t.symbol? p = some o) (qualifiers : s.qualifiers = o.childQualifiers)
    (room : o.kind ≠ .package → s.kind ≠ .method → ∀ {x sx}, x ∈ o.shelf (.member s.name) →
      t.symbol? x = some sx → sx.kind = .method)
    (fills : Fills (t.planted s) t' (t.slotFor s) gain)
    (outside : ∀ place, ¬gain (t.slotFor s) place)
    (belongs : t'.symbol? (t.slotFor s) = some s → ∀ {o'}, t'.symbol? p = some o' →
      o'.outline = o.outline → ∀ q place, (gain q place ↔ t'.Belongs q place (t.slotFor s)))
    (paths : t'.files.keys.Nodup)
    (index : ∀ path x, t'.files.get? path = some x ↔
      t.files.get? path = some x ∨ x = t.slotFor s ∧ s.kind = .file ∧ s.name = path) :
    Grows t t' (t.slotFor s) s p o := by
  have added := fills.untouched (c.plantedNew s) outside
  obtain ⟨o',owner',same,_⟩ := fills.live (c.plantedOld s owner) (c.slotUnlisted s owner)
  refine
    { store := fills.store (Arena.insertExact c.store s)
      root := fills.root
      fresh := c.slotFresh s
      added, bare, parent, owner, qualifiers, room
      kept := ?_
      shelves := ?_
      tidy := ?_
      paths, index }
  · intro x other
    unfold outline?
    cases live : t.symbol? x with
    | none => rw [fills.dead (c.plantedDead s other live)]
    | some sx =>
      obtain ⟨sx',live',same,_⟩ := fills.live (c.plantedOld s live) (c.slotUnlisted s live)
      simp [live',same]
  · intro q oq oq' live live' place x
    obtain ⟨oq₁,live₁,_,_,shelves⟩ := fills.live (c.plantedOld s live) (c.slotUnlisted s live)
    cases Option.some.inj (live'.symm.trans live₁)
    rw [shelves,belongs added owner' same q place]
    exact or_congr_right and_comm
  · intro q oq' live'
    by_cases new : q = t.slotFor s
    · subst new
      cases Option.some.inj (live'.symm.trans added)
      rw [← bare]
      exact Body.tidyBare s.body
    · cases live : t.symbol? q with
      | none => simp [fills.dead (c.plantedDead s new live)] at live'
      | some oq =>
        obtain ⟨oq₁,live₁,_,tidy,_⟩ := fills.live (c.plantedOld s live) (c.slotUnlisted s live)
        cases Option.some.inj (live'.symm.trans live₁)
        exact tidy (c.tidy live)

def linked (name : String) (h : Handle) (parameter : Bool) (b : Body) : Body :=
  if parameter then (b.mapMembers (·.push name h)).mapParameters (· ++ [h])
  else b.mapMembers (·.push name h)

theorem linkedBare (name : String) (h : Handle) (parameter : Bool) (b : Body) :
    (linked name h parameter b).bare = b.bare := by
  unfold linked
  split <;> simp

theorem kindMembers (f : Members → Members) (b : Body) : (b.mapMembers f).kind = b.kind := by
  rw [← Body.kindBare,Body.bareMembers,Body.kindBare]

theorem memLinked {b : Body} (scope : b.members?.isSome) (name : String) (h : Handle)
    (parameter : Bool) (place : Shelf) (x : Handle) :
    x ∈ (linked name h parameter b).shelf place ↔ x ∈ b.shelf place ∨
      (place = .member name ∨ parameter = true ∧ b.kind = .method ∧ place = .parameters) ∧ x = h := by
  have pushed := Body.gainsMem (Body.gainsPush scope name h) place x
  unfold linked
  split
  · rename_i flag
    by_cases method : b.kind = .method
    · rw [Body.gainsMem (Body.gainsParameter (kindMembers _ b ▸ method) h),pushed]
      grind
    · rw [Body.parametersPlain _ (kindMembers _ b ▸ method),pushed]
      grind
  · rw [pushed]
    grind

theorem tidyLinked {b : Body} (scope : b.members?.isSome) (tidy : b.Tidy) {name : String}
    {h : Handle} (fresh : ∀ place, h ∉ b.shelf place) (parameter : Bool) :
    (linked name h parameter b).Tidy := by
  have pushed := Body.tidyPush tidy scope (fresh (.member name))
  unfold linked
  split
  · refine Body.tidyParameter pushed ?_
    rw [Body.gainsMem (Body.gainsPush scope name h)]
    simpa using fresh .parameters
  · exact pushed

theorem linkFills (t : SymbolTable) {p : Handle} {s o : Symbol} (h : Handle)
    (owner : t.symbol? p = some o) (scope : o.members?.isSome) :
    Fills t (t.modify p (linked s.name h (s.kind = .value .parameter))) h fun q place =>
      q = p ∧ (place = .member s.name ∨
        s.kind = .value .parameter ∧ o.kind = .method ∧ place = .parameters) := by
  refine fillsModify t _ _ _ _ (fun b => linkedBare _ _ _ b) ?_ ?_ ⟨_,.inl rfl⟩
  · intro o' live fresh tidy
    cases Option.some.inj (owner.symm.trans live)
    exact tidyLinked scope tidy fresh _
  · intro o' live place x
    cases Option.some.inj (owner.symm.trans live)
    have listed := memLinked scope s.name h (s.kind = .value .parameter) place x
    rw [decide_eq_true_eq] at listed
    exact listed

theorem packageFills (t : SymbolTable) (q : Handle) (name : String) (h : Handle)
    (package : ∀ {o}, t.symbol? q = some o → o.kind = .package) :
    Fills t (t.modify q (·.mapMembers (·.push name h))) h fun q' place =>
      q' = q ∧ place = .member name := by
  have scope : ∀ {o}, t.symbol? q = some o → o.body.members?.isSome := by
    intro o live
    have kind := package live
    obtain ⟨_,_,_,_,_,body⟩ := o
    cases body <;> first | rfl | simp [Symbol.kind,Body.kind] at kind
  refine fillsModify t _ _ _ _ (by simp) ?_ ?_ ⟨_,rfl⟩
  · intro o live fresh tidy
    exact Body.tidyPush tidy (scope live) (fresh _)
  · intro o live place x
    exact Body.gainsMem (Body.gainsPush (scope live) name h) place x

theorem Consistent.listing {t : SymbolTable} (c : t.Consistent) {p q : Handle} {o : Symbol}
    {kind : SymbolKind} (owner : t.symbol? p = some o) (listed : listingPackage? o kind = some q) :
    o.kind = .file ∧ kind.isTypeDecl ∧ o.parent = some q ∧
      ∃ oq, t.symbol? q = some oq ∧ oq.kind = .package := by
  unfold listingPackage? at listed
  split at listed
  · rename_i both
    obtain ⟨oq,live,_⟩ := c.parentLive owner listed
    exact ⟨both.1,both.2,listed,oq,live,c.parentOfFile owner both.1 listed live⟩
  · contradiction

theorem linkFiles (t : SymbolTable) (p : Handle) (package : Option Handle) (s : Symbol) :
    (t.link p package s).2.files = t.files := by
  simp only [link,modify?]
  split <;> rfl

theorem linkTable (t : SymbolTable) (p : Handle) (package : Option Handle) (s : Symbol) :
    (t.link p package s).2 =
      ((t.planted s).modify p (linked s.name (t.slotFor s) (s.kind = .value .parameter))).modify?
        package (·.mapMembers (·.push s.name (t.slotFor s))) := by
  have body : (fun body : Body => if s.kind = SymbolKind.value .parameter
      then (body.mapMembers (·.push s.name (t.slotFor s))).mapParameters (· ++ [t.slotFor s])
      else body.mapMembers (·.push s.name (t.slotFor s))) =
      linked s.name (t.slotFor s) (s.kind = .value .parameter) := by
    funext body
    simp [linked]
  rw [← body]
  rfl

theorem linkShelves {t : SymbolTable} (c : t.Consistent) {p : Handle} {s o : Symbol}
    (owner : t.symbol? p = some o) (scope : o.members?.isSome) :
    Fills (t.planted s) (t.link p (listingPackage? o s.kind) s).2 (t.slotFor s) fun q place =>
      q = p ∧ (place = .member s.name ∨
        s.kind = .value .parameter ∧ o.kind = .method ∧ place = .parameters) ∨
      listingPackage? o s.kind = some q ∧ place = .member s.name := by
  have scopeFills := linkFills (t.planted s) (s := s) (t.slotFor s) (c.plantedOld s owner) scope
  rw [linkTable]
  cases listed : listingPackage? o s.kind with
  | none => simpa [modify?] using scopeFills
  | some q =>
    obtain ⟨isFile,_,_,oq,live,isPackage⟩ := c.listing owner listed
    have apart : q ≠ p := by
      rintro rfl
      cases Option.some.inj (owner.symm.trans live)
      simp [isFile] at isPackage
    have packageFills := packageFills ((t.planted s).modify p
      (linked s.name (t.slotFor s) (s.kind = .value .parameter))) q s.name (t.slotFor s) (by
        intro o' live'
        rw [symbolModify,if_neg apart,c.plantedOld s live] at live'
        exact Option.some.inj live' ▸ isPackage)
    have both := scopeFills.trans packageFills (by
      rintro q' place place' ⟨rfl,_⟩ ⟨same,_⟩
      exact apart same.symm)
    simpa [modify?,eq_comm] using both

theorem linkGrows {t : SymbolTable} (c : t.Consistent) {p : Handle} {s o : Symbol}
    (bare : s.outline = s) (parent : s.parent = some p) (owner : t.symbol? p = some o)
    (scope : o.members?.isSome) (qualifiers : s.qualifiers = o.childQualifiers)
    (package : s.kind ≠ .package) (file : s.kind ≠ .file)
    (room : o.kind ≠ .package → s.kind ≠ .method → ∀ {x sx}, x ∈ o.shelf (.member s.name) →
      t.symbol? x = some sx → sx.kind = .method) :
    Grows t (t.link p (listingPackage? o s.kind) s).2 (t.slotFor s) s p o := by
  have home := Symbol.memberHome package file
  refine growsOfFills c bare parent owner qualifiers room (linkShelves c owner scope) ?_ ?_ ?_ ?_
  · rintro place (⟨same,_⟩ | ⟨listed,_⟩)
    · exact c.otherSlot s owner same.symm
    · obtain ⟨_,_,_,oq,live,_⟩ := c.listing owner listed
      exact c.otherSlot s live rfl
  · intro added o' owner' same q place
    constructor
    · rintro (⟨rfl,rfl | ⟨parameter,method,rfl⟩⟩ | ⟨listed,rfl⟩)
      · rw [← home]
        exact .own added parent
      · exact .parameter added parent parameter owner' (Symbol.kindOutline same ▸ method)
      · obtain ⟨isFile,isType,above,_⟩ := c.listing owner listed
        exact .type added isType parent owner' (Symbol.kindOutline same ▸ isFile)
          (Symbol.parentOutline same ▸ above)
    · intro belongs
      cases belongs with
      | own live' parent' =>
        cases Option.some.inj (added.symm.trans live')
        exact .inl ⟨Option.some.inj (parent'.symm.trans parent),.inl home⟩
      | parameter live' parent' kind owner'' method =>
        cases Option.some.inj (added.symm.trans live')
        cases Option.some.inj (parent.symm.trans parent')
        cases Option.some.inj (owner'.symm.trans owner'')
        exact .inl ⟨rfl,.inr ⟨kind,Symbol.kindOutline same ▸ method,rfl⟩⟩
      | type live' kind parent' owner'' isFile above =>
        cases Option.some.inj (added.symm.trans live')
        cases Option.some.inj (parent.symm.trans parent')
        cases Option.some.inj (owner'.symm.trans owner'')
        have file' : o.kind = .file := Symbol.kindOutline same ▸ isFile
        have above' : o.parent = some q := Symbol.parentOutline same ▸ above
        exact .inr ⟨by simp [listingPackage?,file',kind,above'],rfl⟩
  · rw [linkFiles]
    exact c.paths
  · intro path x
    rw [linkFiles]
    simp [file]

def drafted (d : Draft) (scope : Handle) (owner : Symbol) (body : Body) : Symbol where
  name := d.name
  qualifiers := owner.childQualifiers
  isStatic := d.isStatic
  span := d.span
  parent := some scope
  body := body

theorem checkedBody {d : Draft} {body : Body} (ok : d.check = .ok body) :
    body.bare = body ∧ body.kind = d.kind ∧ d.kind ≠ .package ∧ d.kind ≠ .file := by
  unfold Draft.check at ok
  split at ok
  · contradiction
  · cases made : d.body? with
    | none => simp [made] at ok
    | some made' =>
      simp only [made] at ok
      split at ok
      · contradiction
      · split at ok
        · contradiction
        · cases Except.ok.inj ok
          unfold Draft.body? at made
          split at made <;> simp_all
          all_goals subst made
          all_goals exact ⟨rfl,rfl⟩

structure Attaches (t t' : SymbolTable) (p h : Handle) (d : Draft) (o : Symbol) (body : Body) :
    Prop where
  checked : d.check = .ok body
  owner : t.symbol? p = some o
  steps : ∃ u gone o', Prunes t u gone ∧ (∀ x, gone x → t.Inside p x) ∧ o'.outline = o.outline ∧
    Grows u t' h (drafted d p o body) p o'

theorem Consistent.listedInside {t : SymbolTable} (c : t.Consistent) {p x : Handle} {o : Symbol}
    {place : Shelf} (owner : t.symbol? p = some o) (listed : x ∈ o.shelf place) : t.Inside p x := by
  cases (c.listed owner place x).mp listed with
  | own live parent | parameter live parent => exact ⟨_,p,live,parent,.self⟩
  | type live kind parent owner' file package =>
    exact ⟨_,_,live,parent,.inner owner' package .self⟩

theorem Consistent.memberKind {t : SymbolTable} (c : t.Consistent) {p x : Handle} {o s : Symbol}
    {name : String} (owner : t.symbol? p = some o) (listed : x ∈ o.shelf (.member name))
    (live : t.symbol? x = some s) : s.kind ≠ .package ∧ s.kind ≠ .file := by
  have belongs := (c.listed owner (.member name) x).mp listed
  generalize spot : Shelf.member name = place at belongs
  cases belongs with
  | own live' parent =>
    cases Option.some.inj (live.symm.trans live')
    unfold Symbol.home at spot
    split at spot <;> simp_all
  | parameter live' => cases spot
  | type live' kind =>
    cases Option.some.inj (live.symm.trans live')
    constructor <;> intro same <;> simp [same,SymbolKind.isTypeDecl] at kind

theorem memReplaced {t : SymbolTable} {members : Members} {kind : SymbolKind} {name : String}
    {x : Handle} : x ∈ t.replacedBy members kind name ↔
      kind ≠ .method ∧ x ∈ members.under name ∧ ∃ s, t.symbol? x = some s ∧ s.kind ≠ .method := by
  unfold replacedBy
  split
  · rename_i method
    simp [method]
  · rename_i other
    cases live : t.symbol? x <;> simp [other,live]

theorem attachCases {t t' : SymbolTable} {p h : Handle} {d : Draft}
    (ok : t.attach p d = .ok (h,t')) :
    ∃ body o members, d.check = .ok body ∧ t.symbol? p = some o ∧ o.members? = some members ∧
      ((t.replacedBy members d.kind d.name).foldl remove t).link p (listingPackage? o d.kind)
        (drafted d p o body) = (h,t') := by
  unfold attach at ok
  cases checked : d.check with
  | error e => simp [checked,bind,Except.bind] at ok
  | ok body =>
    simp only [checked,bind,Except.bind] at ok
    cases owner : t.symbol? p with
    | none => simp [owner] at ok
    | some o =>
      simp only [owner] at ok
      cases scope : o.members? with
      | none => simp [scope] at ok
      | some members =>
        simp only [scope,pure,Except.pure,Except.ok.injEq] at ok
        exact ⟨body,o,members,rfl,rfl,scope,ok⟩

theorem scopeOutline {s s' : Symbol} (same : s.outline = s'.outline) :
    s.members?.isSome = s'.members?.isSome := by
  have bodies : s.body.bare = s'.body.bare := congrArg Symbol.body same
  have scopes := congrArg (·.members?.isSome) bodies
  simp only [Body.scopeBare] at scopes
  exact scopes

theorem underShelf {o : Symbol} {members : Members} (scope : o.members? = some members)
    (name : String) : members.under name = o.shelf (.member name) := by
  have same : o.body.members = members := by
    unfold Body.members
    rw [show o.body.members? = some members from scope,Option.getD_some]
  rw [← same]
  rfl

theorem attachClears {t t' : SymbolTable} (c : t.Consistent) {p h : Handle} {d : Draft}
    (ok : t.attach p d = .ok (h,t')) : ∃ body o members gone o', d.check = .ok body ∧
      t.symbol? p = some o ∧ o.members? = some members ∧
      Prunes t ((t.replacedBy members d.kind d.name).foldl remove t) gone ∧
      (∀ x, gone x → ∃ y ∈ t.replacedBy members d.kind d.name, t.Within y x) ∧
      o'.outline = o.outline ∧
      ((t.replacedBy members d.kind d.name).foldl remove t).link p (listingPackage? o' d.kind)
        (drafted d p o body) = (h,t') ∧
      Grows ((t.replacedBy members d.kind d.name).foldl remove t) t' h (drafted d p o body) p o' := by
  obtain ⟨body,o,members,checked,owner,scope,linked⟩ := attachCases ok
  obtain ⟨bare,kind,package,file⟩ := checkedBody checked
  have kind' : (drafted d p o body).kind = d.kind := kind
  have replaced : ∀ {x}, x ∈ t.replacedBy members d.kind d.name → x ∈ o.shelf (.member d.name) :=
    fun listed => underShelf scope d.name ▸ (memReplaced.mp listed).2.1
  obtain ⟨gone,prunes,source,all⟩ := clearPrunes c (t.replacedBy members d.kind d.name)
    fun x listed s live => c.memberKind owner (replaced listed) live
  have cleared : ∀ x, gone x → ∃ y ∈ t.replacedBy members d.kind d.name, t.Within y x := by
    intro x lost
    obtain ⟨y,listed,_,within⟩ := source x lost
    exact ⟨y,listed,within⟩
  obtain ⟨o',owner',same⟩ := prunes.stays owner fun lost => by
    obtain ⟨y,listed,within⟩ := cleared p lost
    exact c.notInside owner ((c.listedInside owner (replaced listed)).within within)
  have listing : listingPackage? o d.kind = listingPackage? o' d.kind := by
    unfold listingPackage?
    rw [Symbol.kindOutline same,Symbol.parentOutline same]
  have scope' : o'.members?.isSome := by
    rw [scopeOutline same,scope]
    rfl
  have grows := linkGrows (prunes.consistent c) (s := drafted d p o body)
    (by simp [Symbol.outline,Symbol.mapBody,drafted,bare]) rfl owner' scope'
    (Symbol.childQualifiersOutline same).symm (kind' ▸ package) (kind' ▸ file) (by
      intro _ method x sx listed live
      obtain ⟨old,stays⟩ := (prunes.shelves owner owner' _ x).mp listed
      obtain ⟨_,s₀,live₀,same₀⟩ := prunes.live live
      rw [← Symbol.kindOutline same₀]
      refine Decidable.byContradiction fun other => stays (all x ?_ live₀)
      exact memReplaced.mpr ⟨kind' ▸ method,underShelf scope d.name ▸ old,s₀,live₀,other⟩)
  rw [listing] at linked
  rw [kind'] at grows
  have table : t' = _ := (congrArg Prod.snd linked).symm
  have handle : h = _ := (congrArg Prod.fst linked).symm
  refine ⟨body,o,members,gone,o',checked,owner,scope,prunes,cleared,same,linked,?_⟩
  rw [table,handle]
  exact grows

theorem attachOk {t t' : SymbolTable} (c : t.Consistent) {p h : Handle} {d : Draft}
    (ok : t.attach p d = .ok (h,t')) : ∃ o body, Attaches t t' p h d o body := by
  obtain ⟨body,o,members,gone,o',checked,owner,scope,prunes,cleared,same,_,grows⟩ := attachClears c ok
  have inside : ∀ x, gone x → t.Inside p x := by
    intro x lost
    obtain ⟨y,listed,within⟩ := cleared x lost
    exact (c.listedInside owner (underShelf scope d.name ▸ (memReplaced.mp listed).2.1)).within within
  exact ⟨o,body,checked,owner,_,gone,o',prunes,inside,same,grows⟩

end CodeIndex.SymbolTable
