import CodeIndex.Codebase
import CodeIndex.Proofs.Indexing

/-! Runs of a codebase. A codebase starts with nothing but its root package and is changed by indexing
and dropping files, by attaching single symbols and by depending on other codebases; changes that fail
are part of a run. Whatever the run, the table it leaves is sound. -/
namespace CodeIndex
namespace SymbolTable

structure Sound (t : SymbolTable) : Prop where
  lists : ∀ {p o}, t.symbol? p = some o →
    ∀ list ∈ [o.body.members.handles,o.body.subpackages.values,o.body.files,o.body.parameters],
      list.Nodup ∧ ∀ h ∈ list, (t.symbol? h).isSome
  paths : t.files.values.Nodup ∧ ∀ h ∈ t.files.values, (t.symbol? h).isSome
  owned : ∀ {h s}, t.symbol? h = some s → h ≠ t.root →
    ∃ p o, s.parent = some p ∧ t.symbol? p = some o ∧ (o.shelf s.home).count h = 1
  rooted : ∀ {h s}, t.symbol? h = some s → t.Rooted h
  types : ∀ {f file}, t.symbol? f = some file → file.kind = .file → ∃ p package,
    file.parent = some p ∧ t.symbol? p = some package ∧ package.kind = .package ∧
    (∀ name h s, t.symbol? h = some s →
      (h ∈ package.body.members.under name ∧ s.parent = some f ↔
        h ∈ file.body.members.under name ∧ s.kind.isTypeDecl)) ∧
    ∀ q other, t.symbol? q = some other → other.kind = .package → q ≠ p →
      ∀ h ∈ other.body.members.handles, ∀ s, t.symbol? h = some s → s.parent ≠ some f
  single : ∀ {p o}, t.symbol? p = some o → o.kind = .file ∨ o.kind.isTypeDecl ∨ o.kind = .method →
    ∀ {name h h' s s'}, h ∈ o.body.members.under name → h' ∈ o.body.members.under name →
    t.symbol? h = some s → t.symbol? h' = some s' → s.kind ≠ .method → s'.kind ≠ .method → h = h'
  qualified : ∀ {h s p o}, t.symbol? h = some s → s.parent = some p → t.symbol? p = some o →
    s.qualifiers = o.childQualifiers

namespace Consistent

variable {t : SymbolTable} (c : t.Consistent)
include c

theorem shelfLive {p o h} (owner : t.symbol? p = some o) (place : Shelf)
    (listed : h ∈ o.shelf place) : (t.symbol? h).isSome := by
  obtain ⟨s,live⟩ := ((c.listed owner place h).mp listed).live
  simp [live]

theorem memberHandles {p o} (owner : t.symbol? p = some o) :
    o.body.members.handles.Nodup ∧ ∀ h ∈ o.body.members.handles, (t.symbol? h).isSome := by
  have tidy := c.tidy owner
  refine ⟨Members.handlesNodup tidy.members (fun name => tidy.once (.member name)) ?_,?_⟩
  · intro name name' h first second
    have here := (c.listed owner (.member name) h).mp first
    have there := (c.listed owner (.member name') h).mp second
    obtain ⟨s,live⟩ := here.live
    exact (here.memberName live).symm.trans (there.memberName live)
  · intro h inside
    obtain ⟨name,listed⟩ := (Members.memHandles tidy.members).mp inside
    exact c.shelfLive owner (.member name) listed

theorem subpackageHandles {p o} (owner : t.symbol? p = some o) :
    o.body.subpackages.values.Nodup ∧ ∀ h ∈ o.body.subpackages.values, (t.symbol? h).isSome := by
  have tidy := c.tidy owner
  refine ⟨OrderedMap.valuesNodup tidy.subpackages ?_,?_⟩
  · intro name name' h first second
    obtain ⟨s,live,_,named,_⟩ := c.subpackage owner (Symbol.subpackageShelf first)
    obtain ⟨s',live',_,named',_⟩ := c.subpackage owner (Symbol.subpackageShelf second)
    cases Option.some.inj (live.symm.trans live')
    exact named.symm.trans named'
  · intro h inside
    obtain ⟨name,bound⟩ := (OrderedMap.getValue tidy.subpackages).mp inside
    exact c.shelfLive owner _ (Symbol.subpackageShelf bound)

theorem pathHandles : t.files.values.Nodup ∧ ∀ h ∈ t.files.values, (t.symbol? h).isSome := by
  refine ⟨OrderedMap.valuesNodup c.paths ?_,?_⟩
  · intro path path' h first second
    obtain ⟨s,live,_,named⟩ := (c.indexed path h).mp first
    obtain ⟨s',live',_,named'⟩ := (c.indexed path' h).mp second
    cases Option.some.inj (live.symm.trans live')
    exact named.symm.trans named'
  · intro h inside
    obtain ⟨path,bound⟩ := (OrderedMap.getValue c.paths).mp inside
    obtain ⟨s,live,_⟩ := (c.indexed path h).mp bound
    simp [live]

theorem typeListed {f p h file package s name} (owner : t.symbol? f = some file)
    (isFile : file.kind = .file) (parent : file.parent = some p)
    (live : t.symbol? h = some s) (above : t.symbol? p = some package) :
    h ∈ package.shelf (.member name) ∧ s.parent = some f ↔
      h ∈ file.shelf (.member name) ∧ s.kind.isTypeDecl := by
  have notFile : file.kind ≠ .package := by simp [isFile]
  constructor
  · rintro ⟨listed,inside⟩
    have belongs := (c.listed above (.member name) h).mp listed
    have named := belongs.memberName live
    refine ⟨?_,?_⟩
    · have shelved := c.onShelf live inside owner
      rwa [c.ownHome live inside owner notFile,named] at shelved
    · generalize Shelf.member name = place at belongs
      cases belongs with
      | own live' parent' | parameter live' parent' =>
        cases Option.some.inj (live.symm.trans live')
        cases Option.some.inj (inside.symm.trans parent')
        cases Option.some.inj (owner.symm.trans above)
        exact absurd (c.parentOfFile owner isFile parent above) notFile
      | type live' kind =>
        cases Option.some.inj (live.symm.trans live')
        exact kind
  · rintro ⟨listed,kind⟩
    have inside := c.ownMember owner notFile _ listed live
    have named := ((c.listed owner (.member name) h).mp listed).memberName live
    refine ⟨(c.listed above (.member name) h).mpr ?_,inside⟩
    exact named ▸ .type live kind inside owner isFile parent

theorem packageOfMember {f q h file other s} (owner : t.symbol? f = some file)
    (isFile : file.kind = .file) (package : t.symbol? q = some other) (isPackage : other.kind = .package)
    (place : Shelf) (listed : h ∈ other.shelf place) (live : t.symbol? h = some s) (inside : s.parent = some f) :
    file.parent = some q := by
  cases (c.listed package place h).mp listed with
  | own live' parent | parameter live' parent =>
    cases Option.some.inj (live.symm.trans live')
    cases Option.some.inj (inside.symm.trans parent)
    cases Option.some.inj (owner.symm.trans package)
    simp [isFile] at isPackage
  | type live' kind parent owner' isFile' above =>
    cases Option.some.inj (live.symm.trans live')
    cases Option.some.inj (inside.symm.trans parent)
    cases Option.some.inj (owner.symm.trans owner')
    exact above

theorem sound : t.Sound where
  lists := by
    intro p o owner list listed
    simp only [List.mem_cons,List.not_mem_nil,or_false] at listed
    rcases listed with rfl | rfl | rfl | rfl
    · exact c.memberHandles owner
    · exact c.subpackageHandles owner
    · exact ⟨(c.tidy owner).once .files,fun h inside => c.shelfLive owner .files inside⟩
    · exact ⟨(c.tidy owner).once .parameters,
        fun h inside => c.shelfLive owner .parameters inside⟩
  paths := c.pathHandles
  owned := by
    intro h s live other
    obtain ⟨p,o,parent,owner,_⟩ := c.owner live other
    refine ⟨p,o,parent,owner,?_⟩
    have once : (o.shelf s.home).Nodup := (c.tidy owner).once s.home
    rw [once.count,if_pos (c.onShelf live parent owner)]
  rooted := c.rooted
  types := by
    intro f file owner isFile
    have away : f ≠ t.root := by
      rintro rfl
      obtain ⟨s,live,package,_⟩ := c.root
      cases Option.some.inj (owner.symm.trans live)
      simp [isFile] at package
    obtain ⟨p,package,parent,above,_⟩ := c.owner owner away
    refine ⟨p,package,parent,above,c.parentOfFile owner isFile parent above,?_,?_⟩
    · intro name h s live
      exact c.typeListed owner isFile parent live above
    · intro q other live isPackage apart h inside s held within
      obtain ⟨name,listed⟩ := (Members.memHandles (c.tidy live).members).mp inside
      have same := c.packageOfMember owner isFile live isPackage (.member name) listed held
        within
      exact apart (Option.some.inj (same.symm.trans parent))
  single := by
    intro p o owner scope
    refine c.single owner fun package => ?_
    simp [package,SymbolKind.isTypeDecl] at scope
  qualified := by
    intro h s p o live parent owner
    obtain ⟨o',owner',qualifiers⟩ := c.parentLive live parent
    cases Option.some.inj (owner.symm.trans owner')
    exact qualifiers

end Consistent

def emptyRoot : Symbol where
  name := ""
  body := .package {} [] {}

theorem emptyLive {h : Handle} {s : Symbol} (live : empty.symbol? h = some s) :
    h = empty.root ∧ s = emptyRoot := by
  have held := (Arena.getInsert Arena.emptyExact emptyRoot h).symm.trans live
  split at held
  · rename_i here
    exact ⟨here,(Option.some.inj held).symm⟩
  · simp [Arena.get?] at held

theorem emptyConsistent : empty.Consistent where
  store := Arena.insertExact Arena.emptyExact _
  root := ⟨emptyRoot,rfl,rfl,rfl,rfl⟩
  rooted := by
    intro h s live
    exact (emptyLive live).1 ▸ .root
  owner := by
    intro h s live other
    exact absurd (emptyLive live).1 other
  tidy := by
    intro h s live
    rw [(emptyLive live).2]
    exact Body.tidyBare emptyRoot.body
  listed := by
    intro p o owner place h
    have nothing : emptyRoot.shelf place = [] := Body.shelfBare emptyRoot.body place
    rw [(emptyLive owner).2,nothing]
    constructor
    · intro listed
      cases listed
    · intro belongs
      have orphan : ∀ {x s q}, empty.symbol? x = some s → s.parent ≠ some q := by
        intro x s q live parent
        rw [(emptyLive live).2] at parent
        cases parent
      cases belongs with
      | own live parent | parameter live parent | type live _ parent =>
        exact absurd parent (orphan live)
  single := by
    intro p o owner other
    rw [(emptyLive owner).2] at other
    exact absurd rfl other
  paths := List.nodup_nil
  indexed := by
    intro path h
    constructor
    · intro found
      cases found
    · rintro ⟨s,live,file,_⟩
      rw [(emptyLive live).2] at file
      cases file

theorem attachSteps {t t' : SymbolTable} (c : t.Consistent) {p h : Handle} {d : Draft}
    (ok : t.attach p d = .ok (h,t')) : Steps (fun _ _ => True) t t' := by
  obtain ⟨o,body,attaches⟩ := attachOk c ok
  obtain ⟨u,gone,o',prunes,_,_,grows⟩ := attaches.steps
  exact .more (.prune prunes) (.one (.grow grows trivial))

end SymbolTable

namespace Codebase

inductive Change where
  | putFile (decl : FileDecl)
  | dropFile (path : String)
  | attach (scope : Handle) (draft : Draft)
  | addDependency (dependency : Codebase)

def apply (c : Codebase) : Change → Option Handle × Codebase
  | .putFile decl => ((c.putFile decl).1.toOption.map (·.handle),(c.putFile decl).2)
  | .dropFile path => (none,(c.dropFile path).2)
  | .attach scope draft =>
    match c.attach scope draft with
    | .ok (ref,c) => (some ref.handle,c)
    | .error _ => (none,c)
  | .addDependency dependency => (none,c.addDependency dependency)

def run (c : Codebase) (changes : List Change) : Codebase :=
  changes.foldl (fun c change => (c.apply change).2) c

theorem applyAttach (c : Codebase) (scope : Handle) (draft : Draft) :
    c.apply (.attach scope draft) = match c.table.attach scope draft with
      | .ok (h,table) => (some h,{ c with table })
      | .error _ => (none,c) := by
  simp only [apply,attach,bind,Except.bind]
  cases c.table.attach scope draft <;> rfl

theorem applyDependency (c dependency : Codebase) :
    (c.apply (.addDependency dependency)).2.table = c.table := by
  simp only [apply,addDependency]
  split <;> rfl

theorem applySteps (c : Codebase) (consistent : c.table.Consistent) (change : Change) :
    SymbolTable.Steps (fun _ _ => True) c.table (c.apply change).2.table := by
  cases change with
  | putFile decl =>
    have licence : SymbolTable.FileLicence (fun _ => True) decl fun _ _ => True :=
      { type := fun _ _ _ => trivial
        inner := fun _ _ => trivial
        package := fun _ _ _ => trivial
        file := fun _ _ _ _ => trivial }
    exact SymbolTable.putFileSteps licence consistent (FileDecl.namedTrue decl)
  | dropFile path => exact SymbolTable.dropFileSteps _ consistent path
  | attach scope draft =>
    rw [applyAttach]
    cases ran : c.table.attach scope draft with
    | error failure => exact .done c.table
    | ok result => exact SymbolTable.attachSteps consistent ran
  | addDependency dependency =>
    rw [applyDependency]
    exact .done c.table

theorem runConsistent (c : Codebase) (consistent : c.table.Consistent) (changes : List Change) :
    (c.run changes).table.Consistent := by
  induction changes generalizing c with
  | nil => exact consistent
  | cons change rest ih => exact ih _ ((applySteps c consistent change).consistent consistent)

/-- Every run from a codebase without files leaves a sound table. -/
theorem runSound (id : Nat) (name : String) (language : Language) (settings : Settings)
    (changes : List Change) : (run { id, name, language, settings } changes).table.Sound :=
  (runConsistent { id, name, language, settings } SymbolTable.emptyConsistent changes).sound

end Codebase
end CodeIndex
