import CodeIndex.Proofs.Consistent

/-! Taking a symbol away takes away exactly what is inside it. Freeing follows the members downward,
while being inside follows the owners upward; in a consistent table the two agree. -/
namespace CodeIndex.SymbolTable

section Release

variable {symbols : Arena Symbol} {stack : List Handle}

theorem nextLiveNone (ended : nextLive symbols stack = none) :
    ∀ h ∈ stack, symbols.get? h = none := by
  induction stack with
  | nil => simp
  | cons first below ih =>
    simp only [nextLive] at ended
    split at ended
    · contradiction
    · rename_i dead
      intro h inside
      rcases List.mem_cons.mp inside with rfl | below
      · exact dead
      · exact ih ended h below

theorem nextLiveStack {h s rest} (found : nextLive symbols stack = some (h,s,rest)) :
    h ∈ stack ∧ (∀ x ∈ rest, x ∈ stack) ∧
      ∀ x ∈ stack, symbols.get? x = none ∨ x = h ∨ x ∈ rest := by
  induction stack with
  | nil => simp [nextLive] at found
  | cons first below ih =>
    simp only [nextLive] at found
    split at found
    · cases Option.some.inj found
      refine ⟨by simp,fun x inside => by simp [inside],fun x inside => ?_⟩
      rcases List.mem_cons.mp inside with rfl | later
      · exact .inr (.inl rfl)
      · exact .inr (.inr later)
    · rename_i dead
      obtain ⟨here,later,cover⟩ := ih found
      refine ⟨by simp [here],fun x inside => by simp [later x inside],fun x inside => ?_⟩
      rcases List.mem_cons.mp inside with rfl | below
      · exact .inl dead
      · exact cover x below

theorem releaseExact (exact : symbols.Exact) : (release symbols stack).Exact := by
  fun_induction release symbols stack with
  | case1 => exact exact
  | case2 symbols stack h s rest found fewer ih => exact ih (Arena.eraseExact exact h)

theorem releaseKeeps (symbols : Arena Symbol) (stack : List Handle) (x : Handle) :
    (release symbols stack).get? x = symbols.get? x ∨ (release symbols stack).get? x = none := by
  fun_induction release symbols stack with
  | case1 => exact .inl rfl
  | case2 symbols stack h s rest found fewer ih =>
    rcases ih with same | dead
    · rw [same,Arena.getErase]
      split
      · exact .inr rfl
      · exact .inl rfl
    · exact .inr dead

theorem releaseDead {x : Handle} (dead : symbols.get? x = none) :
    (release symbols stack).get? x = none := by
  rcases releaseKeeps symbols stack x with same | gone
  · rw [same,dead]
  · exact gone

theorem releaseStack : ∀ h ∈ stack, (release symbols stack).get? h = none := by
  fun_induction release symbols stack with
  | case1 symbols stack ended => exact nextLiveNone ended
  | case2 symbols stack h s rest found fewer ih =>
    intro x inside
    rcases (nextLiveStack found).2.2 x inside with dead | rfl | later
    · refine releaseDead ?_
      rw [Arena.getErase,dead,ite_self]
    · exact releaseDead (by simp [Arena.getErase])
    · exact ih x (by simp [later])

theorem releaseOwned {x : Handle} {s : Symbol} (live : symbols.get? x = some s)
    (dead : (release symbols stack).get? x = none) :
    ∀ y ∈ s.body.owned, (release symbols stack).get? y = none := by
  fun_induction release symbols stack with
  | case1 symbols stack ended => simp [live] at dead
  | case2 symbols stack h s' rest found fewer ih =>
    by_cases same : x = h
    · subst same
      cases Option.some.inj (live.symm.trans (nextLiveGet found))
      intro y owned
      exact releaseStack y (by simp [owned])
    · exact ih (by simpa [Arena.getErase,same] using live) dead

theorem releaseOnly {inside : Handle → Prop} (start : ∀ h ∈ stack, inside h)
    (downward : ∀ {h s}, symbols.get? h = some s → inside h → ∀ y ∈ s.body.owned, inside y)
    {x : Handle} {s : Symbol} (live : symbols.get? x = some s)
    (dead : (release symbols stack).get? x = none) : inside x := by
  fun_induction release symbols stack with
  | case1 symbols stack ended => simp [live] at dead
  | case2 symbols stack h s' rest found fewer ih =>
    obtain ⟨here,later,_⟩ := nextLiveStack found
    by_cases same : x = h
    · exact same ▸ start h here
    · refine ih ?_ ?_ (by simpa [Arena.getErase,same] using live) dead
      · intro y listed
        rcases List.mem_append.mp listed with owned | below
        · exact downward (nextLiveGet found) (start h here) y (by simpa using owned)
        · exact start y (later y below)
      · intro y sy live' outer
        rw [Arena.getErase] at live'
        split at live'
        · contradiction
        · exact downward live' outer

end Release

inductive Within (t : SymbolTable) (h : Handle) : Handle → Prop where
  | self : Within t h h
  | inner {x s p} (live : t.symbol? x = some s) (parent : s.parent = some p) (outer : Within t h p) :
      Within t h x

def Inside (t : SymbolTable) (h x : Handle) : Prop :=
  ∃ s p, t.symbol? x = some s ∧ s.parent = some p ∧ t.Within h p

theorem Within.trans {t : SymbolTable} {h x y} (outer : t.Within h x) (inner : t.Within x y) :
    t.Within h y := by
  induction inner with
  | self => exact outer
  | inner live parent _ ih => exact .inner live parent ih

theorem Inside.within {t : SymbolTable} {h x y} (outer : t.Inside h x) (inner : t.Within x y) :
    t.Inside h y := by
  cases inner with
  | self => exact outer
  | inner live parent rest =>
    obtain ⟨s,p,live',parent',within⟩ := outer
    exact ⟨_,_,live,parent,(Within.inner live' parent' within).trans rest⟩

theorem Prunes.withinBefore {t t' : SymbolTable} {gone} (prunes : Prunes t t' gone) {h x}
    (within : t'.Within h x) : t.Within h x := by
  induction within with
  | self => exact .self
  | inner live parent _ ih =>
    obtain ⟨_,s,live₀,same⟩ := prunes.live live
    exact .inner live₀ (Symbol.parentOutline same ▸ parent) ih

namespace Consistent

variable {t : SymbolTable} (c : t.Consistent) {h : Handle} {s : Symbol}
include c

theorem notInside (live : t.symbol? h = some s) : ¬t.Inside h h := by
  have rooted := c.rooted live
  clear live
  induction rooted with
  | root =>
    rintro ⟨s,p,live,parent,_⟩
    exact c.notRoot live parent rfl
  | @child h s p live parent outer ih =>
    rintro ⟨s',p',live',parent',within⟩
    cases Option.some.inj (live.symm.trans live')
    cases Option.some.inj (parent.symm.trans parent')
    exact ih (Inside.within ⟨s,p,live,parent,.self⟩ within)

theorem rootOutside (live : t.symbol? h = some s) (other : s.kind ≠ .package) :
    ¬t.Within h t.root := by
  obtain ⟨r,root,package,orphan,_⟩ := c.root
  intro within
  cases within with
  | self =>
    cases Option.some.inj (live.symm.trans root)
    exact other package
  | inner live' parent =>
    cases Option.some.inj (root.symm.trans live')
    simp [orphan] at parent

theorem plainOwner (live : t.symbol? h = some s) (other : s.kind ≠ .package) :
    ∃ p o, s.parent = some p ∧ t.symbol? p = some o := by
  have away : h ≠ t.root := fun root => c.rootOutside live other (root ▸ .self)
  obtain ⟨p,o,parent,owner,_⟩ := c.owner live away
  exact ⟨p,o,parent,owner⟩

theorem noPackageWithin (live : t.symbol? h = some s) (other : s.kind ≠ .package) {x sx}
    (within : t.Within h x) (inside : t.symbol? x = some sx) : sx.kind ≠ .package := by
  induction within generalizing sx with
  | self => exact Option.some.inj (live.symm.trans inside) ▸ other
  | inner live' parent outer ih =>
    cases Option.some.inj (inside.symm.trans live')
    obtain ⟨o,owner,_⟩ := c.parentLive live' parent
    intro package
    exact ih owner (c.parentOfPackage live' package parent owner)

theorem noFileWithin (live : t.symbol? h = some s) (other : s.kind ≠ .package) {x sx}
    (within : t.Within h x) (inside : t.symbol? x = some sx) (file : sx.kind = .file) : x = h := by
  cases within with
  | self => rfl
  | inner live' parent outer =>
    cases Option.some.inj (inside.symm.trans live')
    obtain ⟨o,owner,_⟩ := c.parentLive live' parent
    exact absurd (c.parentOfFile live' file parent owner) (c.noPackageWithin live other outer owner)

theorem listedOutside (live : t.symbol? h = some s) (other : s.kind ≠ .package) {q place x}
    (outside : ¬t.Within h q) (belongs : t.Belongs q place x) (within : t.Within h x) :
    x = h ∨ s.kind = .file ∧ s.parent = some q ∧
      ∃ sx, t.symbol? x = some sx ∧ sx.parent = some h ∧ place = .member sx.name := by
  cases within with
  | self => exact .inl rfl
  | inner live' parent outer =>
    refine .inr ?_
    cases belongs with
    | own live'' parent' | parameter live'' parent' =>
      cases Option.some.inj (live'.symm.trans live'')
      cases Option.some.inj (parent.symm.trans parent')
      exact absurd outer outside
    | type live'' kind parent' file isFile package =>
      cases Option.some.inj (live'.symm.trans live'')
      cases Option.some.inj (parent.symm.trans parent')
      cases c.noFileWithin live other outer file isFile
      cases Option.some.inj (live.symm.trans file)
      exact ⟨isFile,package,_,live',parent,rfl⟩

end Consistent

structure Detaches (t t' : SymbolTable) (h : Handle) : Prop where
  store : t'.symbols.Exact
  root : t'.root = t.root
  outline : ∀ x, t'.outline? x = t.outline? x
  tidy : ∀ {p o'}, t'.symbol? p = some o' → o'.body.Tidy
  outside : ∀ {p o o'}, t.symbol? p = some o → t'.symbol? p = some o' → ¬t.Within h p →
    ∀ place x, x ∈ o'.shelf place ↔ x ∈ o.shelf place ∧ ¬t.Within h x
  within : ∀ {p o o'}, t.symbol? p = some o → t'.symbol? p = some o' → t.Within h p →
    ∀ place x, (x ∈ o'.shelf place → x ∈ o.shelf place) ∧
      (x ∈ o.shelf place → x ∈ o'.shelf place ∨ x = h)
  paths : t'.files.keys.Nodup
  index : ∀ path x, t'.files.get? path = some x ↔ t.files.get? path = some x ∧ ¬t.Within h x

namespace Detaches

variable {t t' : SymbolTable} {h : Handle} {s : Symbol} (detaches : Detaches t t' h)
  (c : t.Consistent) (live : t.symbol? h = some s) (other : s.kind ≠ .package)
include detaches c live other

theorem owns {x sx} (inside : t'.symbol? x = some sx) (within : t.Within h x) (y : Handle) :
    (y ∈ sx.body.owned → t.Within h y) ∧
      (∀ {sy}, t.symbol? y = some sy → sy.parent = some x → y ∈ sx.body.owned ∨ y = h) := by
  obtain ⟨sx₀,inside₀,same⟩ := liveOutline (detaches.outline x).symm inside
  have plain₀ := c.noPackageWithin live other within inside₀
  have plain : sx.kind ≠ .package := Symbol.kindOutline same ▸ plain₀
  rw [Body.memOwned (detaches.tidy inside) plain]
  constructor
  · rintro ⟨name,listed⟩
    have old := (detaches.within inside₀ inside within _ y).1 listed
    obtain ⟨sy,live'⟩ := ((c.listed inside₀ _ y).mp old).live
    exact .inner live' (c.ownMember inside₀ plain₀ _ old live') within
  · intro sy live' parent
    have shelved := c.onShelf live' parent inside₀
    rw [c.ownHome live' parent inside₀ plain₀] at shelved
    rcases (detaches.within inside₀ inside within _ y).2 shelved with kept | same
    · exact .inl ⟨sy.name,kept⟩
    · exact .inr same

theorem freed (x : Handle) :
    (t'.free h).symbol? x = none ↔ t.symbol? x = none ∨ t.Within h x := by
  constructor
  · intro gone
    cases inside : t'.symbol? x with
    | none => exact .inl ((deadOutline (detaches.outline x)).mp inside)
    | some sx =>
      have released : (release t'.symbols [h]).get? x = none := gone
      refine .inr (releaseOnly ?_ ?_ inside released)
      · intro y single
        exact List.mem_singleton.mp single ▸ .self
      · intro y sy live' outer z owned
        exact ((detaches.owns c live other live' outer) z).1 owned
  · rintro (gone | within)
    · exact releaseDead ((deadOutline (detaches.outline x)).mpr gone)
    · induction within with
      | self => exact releaseStack h (by simp)
      | @inner y sy p live' parent outer ih =>
        obtain ⟨o,owner,_⟩ := c.parentLive live' parent
        obtain ⟨o',owner',_⟩ := liveOutline (detaches.outline p) owner
        rcases ((detaches.owns c live other owner' outer) y).2 live' parent with owned | rfl
        · exact releaseOwned owner' ih y owned
        · exact releaseStack y (by simp)

theorem prunes : Prunes t (t'.free h) (t.Within h) := by
  have survivor : ∀ {x sx}, (t'.free h).symbol? x = some sx →
      t'.symbol? x = some sx ∧ ¬t.Within h x := by
    intro x sx inside
    have stays : ¬t.Within h x := by
      intro within
      have gone := (detaches.freed c live other x).mpr (.inr within)
      simp [gone] at inside
    rcases releaseKeeps t'.symbols [h] x with same | gone
    · exact ⟨same.symm.trans inside,stays⟩
    · exact absurd (gone.symm.trans inside) (by simp)
  refine
    { store := releaseExact detaches.store
      root := detaches.root
      rootKept := c.rootOutside live other
      inside := fun live' parent within => .inner live' parent within
      dead := fun within => (detaches.freed c live other _).mpr (.inr within)
      kept := ?_
      shelves := ?_
      tidy := fun inside => detaches.tidy (survivor inside).1
      paths := detaches.paths
      index := detaches.index }
  · intro x stays
    rw [← detaches.outline x]
    unfold outline?
    congr 1
    rcases releaseKeeps t'.symbols [h] x with same | gone
    · exact same
    · rcases (detaches.freed c live other x).mp gone with dead | within
      · rw [(deadOutline (detaches.outline x)).mpr dead]
        exact gone
      · exact absurd within stays
  · intro p o o' owner owner' place x
    obtain ⟨before,stays⟩ := survivor owner'
    exact detaches.outside owner before stays place x

end Detaches

theorem symbolModify (t : SymbolTable) (p x : Handle) (f : Body → Body) :
    (t.modify p f).symbol? x = if x = p then (t.symbol? x).map (Symbol.mapBody f) else t.symbol? x :=
  Arena.getModify t.symbols p x _

structure Trims (t t' : SymbolTable) (cut : Handle → Shelf → Handle → Prop) : Prop where
  store : t.symbols.Exact → t'.symbols.Exact
  root : t'.root = t.root
  dead : ∀ {q}, t.symbol? q = none → t'.symbol? q = none
  live : ∀ {q o}, t.symbol? q = some o → ∃ o', t'.symbol? q = some o' ∧ o'.outline = o.outline ∧
    (o.body.Tidy → o'.body.Tidy) ∧
    ∀ place x, x ∈ o'.shelf place ↔ x ∈ o.shelf place ∧ ¬cut q place x

namespace Trims

theorem reindex (t : SymbolTable) (files : OrderedMap String Handle) :
    Trims t { t with files } fun _ _ _ => False :=
  ⟨id,rfl,id,fun live => ⟨_,live,rfl,id,by simp⟩⟩

theorem trans {t t' t'' cut cut'} (first : Trims t t' cut) (second : Trims t' t'' cut') :
    Trims t t'' fun q place x => cut q place x ∨ cut' q place x := by
  refine ⟨second.store ∘ first.store,second.root.trans first.root,second.dead ∘ first.dead,?_⟩
  intro q o live
  obtain ⟨o₁,live₁,same₁,tidy₁,shelves₁⟩ := first.live live
  obtain ⟨o₂,live₂,same₂,tidy₂,shelves₂⟩ := second.live live₁
  refine ⟨o₂,live₂,same₂.trans same₁,tidy₂ ∘ tidy₁,fun place x => ?_⟩
  rw [shelves₂,shelves₁,and_assoc,not_or]

theorem weaken {t t' cut cut'} (trims : Trims t t' cut)
    (same : ∀ q place x, cut q place x ↔ cut' q place x) : Trims t t' cut' := by
  have equal : cut = cut' := funext fun q => funext fun place => funext fun x => propext (same q place x)
  exact equal ▸ trims

theorem ofModify (t : SymbolTable) (p : Handle) (f : Body → Body) (cut : Shelf → Handle → Prop)
    (bare : ∀ b, (f b).bare = b.bare) (tidy : ∀ {b : Body}, b.Tidy → (f b).Tidy)
    (shelves : ∀ b place x, x ∈ (f b).shelf place ↔ x ∈ b.shelf place ∧ ¬cut place x) :
    Trims t (t.modify p f) fun q place x => q = p ∧ cut place x := by
  refine ⟨fun exact => Arena.modifyExact exact p _,rfl,?_,?_⟩
  · intro q dead
    simp [symbolModify,dead]
  · intro q o live
    rw [symbolModify,live]
    split
    · rename_i here
      refine ⟨_,rfl,?_,tidy,fun place x => ?_⟩
      · simp [Symbol.outline,Symbol.mapBody,bare]
      · simp only [here,true_and]
        exact shelves o.body place x
    · rename_i elsewhere
      exact ⟨o,rfl,rfl,id,by simp [elsewhere]⟩

theorem outline {t t' cut} (trims : Trims t t' cut) (x : Handle) : t'.outline? x = t.outline? x := by
  unfold outline?
  cases live : t.symbol? x with
  | none => rw [trims.dead live]
  | some s =>
    obtain ⟨s',live',same,_⟩ := trims.live live
    simp [live',same]

theorem detaches {t t' cut} (trims : Trims t t' cut) (c : t.Consistent) {h : Handle}
    (outside : ∀ {q place x}, ¬t.Within h q → t.Belongs q place x →
      (cut q place x ↔ t.Within h x))
    (within : ∀ {q place x}, t.Within h q → cut q place x → x = h)
    (paths : t'.files.keys.Nodup)
    (index : ∀ path x, t'.files.get? path = some x ↔
      t.files.get? path = some x ∧ ¬t.Within h x) : Detaches t t' h := by
  have live : ∀ {q o o'}, t.symbol? q = some o → t'.symbol? q = some o' →
      (o.body.Tidy → o'.body.Tidy) ∧
      ∀ place x, x ∈ o'.shelf place ↔ x ∈ o.shelf place ∧ ¬cut q place x := by
    intro q o o' live live'
    obtain ⟨o₁,live₁,_,tidy,shelves⟩ := trims.live live
    cases Option.some.inj (live'.symm.trans live₁)
    exact ⟨tidy,shelves⟩
  refine ⟨trims.store c.store,trims.root,trims.outline,?_,?_,?_,paths,index⟩
  · intro q o' live'
    obtain ⟨o,owner,_⟩ := liveOutline (trims.outline q).symm live'
    exact (live owner live').1 (c.tidy owner)
  · intro q o o' owner owner' away place x
    rw [(live owner owner').2 place x,c.listed owner]
    exact and_congr_right fun belongs => not_congr (outside away belongs)
  · intro q o o' owner owner' inner place x
    rw [(live owner owner').2 place x]
    refine ⟨And.left,fun listed => ?_⟩
    by_cases removed : cut q place x
    · exact .inr (within inner removed)
    · exact .inl ⟨listed,removed⟩

end Trims

theorem unlinkTrims {t : SymbolTable} {h p : Handle} {s : Symbol} (live : t.symbol? h = some s)
    (parent : s.parent = some p) :
    Trims t (t.unlink h) fun q place x => x = h ∧
      (q = p ∧ (place = .member s.name ∨ place = .parameters ∨ place = .files) ∨
        place = .member s.name ∧ (t.symbol? p).bind (listingPackage? · s.kind) = some q) := by
  have owner := Trims.ofModify t p (Body.unlisted s.name h)
    (fun place x => x = h ∧ (place = .member s.name ∨ place = .parameters ∨ place = .files))
    (by simp [Body.unlisted]) (fun tidy => Body.tidyUnlisted tidy s.name h)
    (by intro b place x; rw [Body.shelfUnlisted]; split <;> simp_all)
  have package : ∀ (u : SymbolTable) (q : Option Handle),
      Trims u (u.modify? q (·.mapMembers (·.drop s.name h))) fun q' place x =>
        q = some q' ∧ place = .member s.name ∧ x = h := by
    intro u q
    cases q with
    | none => exact (Trims.reindex u u.files).weaken (by simp)
    | some q =>
      have dropped := Trims.ofModify u q (·.mapMembers (·.drop s.name h))
        (fun place x => place = .member s.name ∧ x = h)
        (by simp) (fun tidy => Body.tidyDrop tidy s.name h)
        (by intro b place x; rw [Body.shelfDrop]; split <;> simp_all)
      exact dropped.weaken (by simp [eq_comm])
  unfold unlink
  rw [live]
  simp only [parent]
  exact (owner.trans (package _ _)).weaken (by intro q place x; grind)

theorem unlinkFiles (t : SymbolTable) (h : Handle) : (t.unlink h).files = t.files := by
  unfold unlink
  split
  · rfl
  · split
    · rfl
    · simp only [modify?]
      split <;> rfl

theorem removePrunes {t : SymbolTable} (c : t.Consistent) {h : Handle} {s : Symbol}
    (live : t.symbol? h = some s) (package : s.kind ≠ .package) (file : s.kind ≠ .file) :
    Prunes t (t.remove h) (t.Within h) := by
  obtain ⟨p,o,parent,owner⟩ := c.plainOwner live package
  have files := unlinkFiles t h
  refine ((unlinkTrims live parent).detaches c ?_ ?_ (files ▸ c.paths) ?_).prunes c live package
  · intro q place x outside belongs
    constructor
    · rintro ⟨rfl,_⟩
      exact .self
    · intro within
      rcases c.listedOutside live package outside belongs within with rfl | ⟨isFile,_⟩
      · refine ⟨rfl,?_⟩
        cases belongs with
        | own live' parent' =>
          cases Option.some.inj (live.symm.trans live')
          exact .inl ⟨Option.some.inj (parent'.symm.trans parent),.inl (Symbol.memberHome package file)⟩
        | parameter live' parent' =>
          cases Option.some.inj (live.symm.trans live')
          exact .inl ⟨Option.some.inj (parent'.symm.trans parent),.inr (.inl rfl)⟩
        | type live' kind parent' owner' isFile outer =>
          cases Option.some.inj (live.symm.trans live')
          cases Option.some.inj (parent.symm.trans parent')
          refine .inr ⟨rfl,?_⟩
          simp [owner',listingPackage?,isFile,kind,outer]
      · exact absurd isFile file
  · rintro q place x _ ⟨rfl,_⟩
    rfl
  · intro path x
    rw [files]
    refine ⟨fun found => ⟨found,fun within => ?_⟩,And.left⟩
    obtain ⟨sx,live',isFile,_⟩ := (c.indexed path x).mp found
    cases c.noFileWithin live package within live' isFile
    exact file (Option.some.inj (live.symm.trans live') ▸ isFile)

theorem removeDead {t : SymbolTable} {h : Handle} (dead : t.symbol? h = none) : t.remove h = t := by
  have nothing : nextLive t.symbols [h] = none := by
    have empty : t.symbols.get? h = none := dead
    simp [nextLive,empty]
  have still : release t.symbols [h] = t.symbols := by
    rw [release]
    split
    · rfl
    · rename_i found
      rw [nothing] at found
      contradiction
  simp only [remove,unlink,dead,free,still]

theorem clearPrunes {t : SymbolTable} (c : t.Consistent) (handles : List Handle)
    (plain : ∀ h ∈ handles, ∀ {s}, t.symbol? h = some s → s.kind ≠ .package ∧ s.kind ≠ .file) :
    ∃ gone, Prunes t (handles.foldl remove t) gone ∧
      (∀ x, gone x → ∃ h ∈ handles, (∃ s, t.symbol? h = some s) ∧ t.Within h x) ∧
      ∀ h ∈ handles, ∀ {s}, t.symbol? h = some s → gone h := by
  induction handles generalizing t with
  | nil => exact ⟨_,Prunes.refl c,by simp,by simp⟩
  | cons h rest ih =>
    cases live : t.symbol? h with
    | none =>
      obtain ⟨gone,prunes,source,all⟩ := ih c fun x later => plain x (by simp [later])
      refine ⟨gone,by simpa [removeDead live] using prunes,?_,?_⟩
      · intro x lost
        obtain ⟨y,later,found⟩ := source x lost
        exact ⟨y,by simp [later],found⟩
      · intro x listed s held
        rcases List.mem_cons.mp listed with rfl | later
        · simp [live] at held
        · exact all x later held
    | some s =>
      obtain ⟨package,file⟩ := plain h (by simp) live
      have first := removePrunes c live package file
      obtain ⟨gone,prunes,source,all⟩ := ih (first.consistent c) (by
        intro x later sx held
        obtain ⟨_,s₀,live₀,same⟩ := first.live held
        exact Symbol.kindOutline same ▸ plain x (by simp [later]) live₀)
      refine ⟨_,first.trans prunes,?_,?_⟩
      · rintro x (lost | lost)
        · exact ⟨h,by simp,⟨s,live⟩,lost⟩
        · obtain ⟨y,later,⟨sy,held⟩,within⟩ := source x lost
          obtain ⟨_,s₀,live₀,_⟩ := first.live held
          exact ⟨y,by simp [later],⟨s₀,live₀⟩,first.withinBefore within⟩
      · intro x listed sx held
        by_cases early : t.Within h x
        · exact .inl early
        · rcases List.mem_cons.mp listed with rfl | later
          · exact absurd .self early
          · obtain ⟨s',held',_⟩ := first.stays held early
            exact .inr (all x later held')

theorem unlistTrims (t : SymbolTable) (package : Handle) {members : Members}
    (unique : members.keys.Nodup) :
    Trims t (unlistAll package t members) fun q place x =>
      q = package ∧ ∃ name, place = .member name ∧ x ∈ members.under name := by
  refine Trims.ofModify t package (·.mapMembers fun listed => Members.dropAll listed members) _
    (by simp) (fun tidy => ?_) fun b place x => ?_
  · refine Body.tidyMembers tidy ?_ ?_
    · exact Members.dropAllInvariant (P := fun m => m.keys.Nodup)
        (fun m name h unique => Members.keysDrop unique name h) _ tidy.members
    · intro name
      refine Members.dropAllInvariant (P := fun m => (m.under name).Nodup) ?_ _ (tidy.once (.member name))
      intro m n h once
      rw [Members.underDrop]
      split
      · rename_i same
        exact once.sublist (same ▸ List.filter_sublist)
      · exact once
  · cases place with
    | member name =>
      simp only [Shelf.member.injEq,exists_eq_left']
      cases scope : b.members?.isSome with
      | true =>
        simp only [Body.shelf,Body.membersMembers _ scope]
        exact Members.memDropAll _ _ unique name x
      | false =>
        rw [Body.mapMembersPlain _ scope,Body.shelfPlain scope]
        simp
    | _ => rw [Body.shelfMembers _ _ (by simp)]; simp

theorem dropFileFound {t : SymbolTable} {path : String} {h p : Handle} {s : Symbol}
    (found : t.files.get? (Path.normalize path) = some h) (live : t.symbol? h = some s)
    (parent : s.parent = some p) :
    t.dropFile path =
      (true,(unlistAll p { t with files := t.files.erase (Path.normalize path) }
        s.body.members).remove h) := by
  have live' : SymbolTable.symbol? { t with files := t.files.erase (Path.normalize path) } h = some s :=
    live
  simp only [dropFile,found,enclosing?,membersOf,live',parent,bind,Option.bind]
  rfl

theorem dropFileAbsent {t : SymbolTable} {path : String}
    (absent : t.files.get? (Path.normalize path) = none) : t.dropFile path = (false,t) := by
  simp [dropFile,absent]

theorem Consistent.unindexed {t : SymbolTable} (c : t.Consistent) {path : String} {h : Handle}
    (found : t.files.get? path = some h) (key : String) (x : Handle) :
    (t.files.erase path).get? key = some x ↔ t.files.get? key = some x ∧ ¬t.Within h x := by
  obtain ⟨s,live,file,name⟩ := (c.indexed _ h).mp found
  rw [OrderedMap.getErase]
  by_cases here : key = path
  · subst here
    simp only [if_true,found,Option.some.injEq,reduceCtorEq,false_iff,not_and]
    rintro rfl outside
    exact outside .self
  · simp only [here,if_false]
    refine ⟨fun listed => ⟨listed,fun within => ?_⟩,And.left⟩
    obtain ⟨sx,live',isFile,named⟩ := (c.indexed key x).mp listed
    cases c.noFileWithin live (by simp [file]) within live' isFile
    cases Option.some.inj (live.symm.trans live')
    exact here (named.symm.trans name)

theorem dropFilePrunes {t : SymbolTable} (c : t.Consistent) {path : String} {h : Handle}
    (found : t.files.get? (Path.normalize path) = some h) :
    Prunes t (t.dropFile path).2 (t.Within h) := by
  obtain ⟨s,live,file,_⟩ := (c.indexed _ h).mp found
  have package : s.kind ≠ .package := by simp [file]
  obtain ⟨p,o,parent,owner⟩ := c.plainOwner live package
  have isPackage : o.kind = .package := c.parentOfFile live file parent owner
  have unlists := ((Trims.reindex t (t.files.erase (Path.normalize path))).trans
    (unlistTrims _ p (c.tidy live).members)).weaken (fun q place x => iff_of_eq (false_or _))
  obtain ⟨s',live',same,_⟩ := unlists.live live
  obtain ⟨o',owner',same',_⟩ := unlists.live owner
  have unlinks := unlinkTrims live' (Symbol.parentOutline same ▸ parent)
  have files := unlinkFiles (unlistAll p { t with files := t.files.erase (Path.normalize path) }
    s.body.members) h
  rw [dropFileFound found live parent]
  refine ((unlists.trans unlinks).detaches c ?_ ?_ ?_ ?_).prunes c live package
  · intro q place x outside belongs
    constructor
    · rintro (⟨rfl,name,rfl,listed⟩ | ⟨rfl,_⟩)
      · obtain ⟨sx,inside⟩ := ((c.listed live (.member name) x).mp listed).live
        exact .inner inside (c.ownMember live package (.member name) listed inside) .self
      · exact .self
    · intro within
      rcases c.listedOutside live package outside belongs within with
        rfl | ⟨_,above,sx,inside,parent',rfl⟩
      · obtain ⟨above,rfl⟩ := belongs.fileShelf live file
        exact .inr ⟨rfl,.inl ⟨Option.some.inj (above.symm.trans parent),.inr (.inr rfl)⟩⟩
      · have shelved := c.onShelf inside parent' live
        rw [c.ownHome inside parent' live package] at shelved
        exact .inl ⟨Option.some.inj (above.symm.trans parent),sx.name,rfl,shelved⟩
  · rintro q place x within (⟨rfl,name,rfl,listed⟩ | ⟨rfl,_⟩)
    · exact absurd isPackage (c.noPackageWithin live package within owner)
    · rfl
  · rw [files]
    exact OrderedMap.keysEraseNodup c.paths _
  · intro key x
    rw [files]
    exact c.unindexed found key x

end CodeIndex.SymbolTable
