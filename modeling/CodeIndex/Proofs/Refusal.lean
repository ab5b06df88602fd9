import CodeIndex.Proofs.Acceptance
import CodeIndex.Proofs.Rollback

/-! Refused changes. A file is refused for an inverted span, or for a type of a kind that types do not have,
anywhere in it. An inverted file span is found before anything is done. Any other refusal leaves the table
without the file that was at the path before, and nothing of the new one but the packages on its way. -/
namespace CodeIndex

inductive MemberDecl.Faulty : MemberDecl → Prop where
  | field {decl : VariableDecl} (inverted : decl.span.isInverted) : Faulty (.field decl)
  | method {decl : MethodDecl} (inverted : decl.span.isInverted) : Faulty (.method decl)
  | value {decl : MethodDecl} {v : VariableDecl} (listed : v ∈ decl.parameters ++ decl.locals)
      (inverted : v.span.isInverted) : Faulty (.method decl)
  | kind {outline : TypeOutline} {members} (other : ¬outline.kind.isTypeDecl) : Faulty (.type outline members)
  | type {outline : TypeOutline} {members} (inverted : outline.span.isInverted) :
      Faulty (.type outline members)
  | inner {outline : TypeOutline} {members} {m : MemberDecl} (listed : m ∈ members) (faulty : m.Faulty) :
      Faulty (.type outline members)

def FileDecl.Faulty (decl : FileDecl) : Prop := decl.span.isInverted ∨ ∃ m ∈ decl.members, m.Faulty

theorem MethodDecl.innerSpans (decl : MethodDecl) :
    (∀ d ∈ decl.inner, ¬d.span.isInverted) ↔ ∀ v ∈ decl.parameters ++ decl.locals, ¬v.span.isInverted := by
  simp [MethodDecl.inner,Draft.ofVariable,or_imp,forall_and]

theorem MemberDecl.properAllIff {members : List MemberDecl} :
    MemberDecl.ProperAll members ↔ ∀ m ∈ members, m.Proper := by
  induction members with
  | nil => simp [MemberDecl.ProperAll]
  | cons m rest ih => simp [MemberDecl.ProperAll,ih]

theorem MemberDecl.Faulty.notProper {m : MemberDecl} (faulty : m.Faulty) : ¬m.Proper := by
  induction faulty with
  | field inverted => exact fun upright => upright inverted
  | method inverted => exact fun proper => proper.1 inverted
  | value listed inverted => exact fun proper => (MethodDecl.innerSpans _).mp proper.2 _ listed inverted
  | kind other => exact fun proper => other proper.1.1
  | type inverted => exact fun proper => proper.1.2 inverted
  | inner listed _ ih => exact fun proper => ih (MemberDecl.properAllIff.mp proper.2 _ listed)

mutual

theorem MemberDecl.faultyUnless : (m : MemberDecl) → ¬m.Proper → m.Faulty
  | .field _, improper => .field (Decidable.not_not.mp improper)
  | .method decl, improper => by
    by_cases inverted : decl.span.isInverted
    · exact .method inverted
    · have some : ∃ v ∈ decl.parameters ++ decl.locals, v.span.isInverted := by
        refine Classical.byContradiction fun none => improper ⟨inverted,?_⟩
        exact (MethodDecl.innerSpans decl).mpr fun v listed bad => none ⟨v,listed,bad⟩
      obtain ⟨v,listed,bad⟩ := some
      exact .value listed bad
  | .type outline members, improper => by
    by_cases type : outline.kind.isTypeDecl
    · by_cases inverted : outline.span.isInverted
      · exact .type inverted
      · obtain ⟨m,listed,faulty⟩ := MemberDecl.someFaulty members fun all => improper ⟨⟨type,inverted⟩,all⟩
        exact .inner listed faulty
    · exact .kind type

theorem MemberDecl.someFaulty :
    (members : List MemberDecl) → ¬MemberDecl.ProperAll members → ∃ m ∈ members, m.Faulty
  | [], improper => absurd trivial improper
  | m :: rest, improper => by
    by_cases proper : m.Proper
    · obtain ⟨m',listed,faulty⟩ := MemberDecl.someFaulty rest fun all => improper ⟨proper,all⟩
      exact ⟨m',List.mem_cons_of_mem m listed,faulty⟩
    · exact ⟨m,List.mem_cons_self,m.faultyUnless proper⟩

end

theorem FileDecl.faultyIff (decl : FileDecl) : decl.Faulty ↔ ¬decl.Proper := by
  constructor
  · rintro (inverted | ⟨m,listed,faulty⟩) ⟨upright,members⟩
    · exact upright inverted
    · exact faulty.notProper (MemberDecl.properAllIff.mp members m listed)
  · intro improper
    by_cases inverted : decl.span.isInverted
    · exact .inl inverted
    · exact .inr (MemberDecl.someFaulty decl.members fun members => improper ⟨inverted,members⟩)

namespace Arena

variable {α : Type u} {a : Arena α} {h : Handle}

def Vacated (a : Arena α) (h : Handle) : Prop :=
  ∃ slot, a.slots[h.index]? = some slot ∧ slot.generation = h.generation + 1 ∧ slot.value = none

theorem Vacated.aged (vacated : a.Vacated h) : a.Aged 1 h := by
  obtain ⟨slot,found,generation,_⟩ := vacated
  exact ⟨slot,1,found,generation,Nat.one_pos,Nat.le_refl 1⟩

theorem Vacated.erase (vacated : a.Vacated h) (x : Handle) : (a.erase x).Vacated h := by
  obtain ⟨slot,found,next,empty⟩ := vacated
  unfold Arena.erase
  split
  · rename_i inside
    obtain ⟨value,held⟩ := Option.isSome_iff_exists.mp inside
    obtain ⟨slot',found',_,full⟩ := getSlot.mp held
    have apart : x.index ≠ h.index := by
      intro same
      rw [same,found] at found'
      cases Option.some.inj found'
      simp [full] at empty
    refine ⟨slot,?_,next,empty⟩
    simp only [Array.getElem?_modify,if_neg apart]
    exact found
  · exact ⟨slot,found,next,empty⟩

theorem eraseVacates {value : α} (held : a.get? h = some value) : (a.erase h).Vacated h := by
  obtain ⟨slot,found,generation,_⟩ := getSlot.mp held
  have inside : a.contains h = true := by simp [contains,held]
  unfold erase Vacated
  rw [if_pos inside]
  simp only [Array.getElem?_modify,found,if_true]
  exact ⟨_,rfl,congrArg (· + 1) generation,rfl⟩

end Arena

namespace SymbolTable

theorem releaseVacated {symbols : Arena Symbol} {stack : List Handle} {x : Handle}
    (vacated : symbols.Vacated x) : (release symbols stack).Vacated x := by
  fun_induction release symbols stack with
  | case1 => exact vacated
  | case2 symbols stack h s rest found fewer ih => exact ih (vacated.erase h)

theorem releaseVacates {symbols : Arena Symbol} {stack : List Handle} {x : Handle} {s : Symbol}
    (live : symbols.get? x = some s) (dead : (release symbols stack).get? x = none) :
    (release symbols stack).Vacated x := by
  fun_induction release symbols stack with
  | case1 => simp [live] at dead
  | case2 symbols stack h s' rest found fewer ih =>
    by_cases same : x = h
    · subst same
      exact releaseVacated (Arena.eraseVacates live)
    · exact ih (by simpa [Arena.getErase,same] using live) dead

theorem dropFileAges {t : SymbolTable} (c : t.Consistent) {path : String} {file x : Handle}
    (found : t.files.get? (Path.normalize path) = some file) (within : t.Within file x) :
    (t.dropFile path).2.symbols.Aged 1 x := by
  have prunes := dropFilePrunes c found
  obtain ⟨s,live,isFile,_⟩ := (c.indexed _ file).mp found
  obtain ⟨p,_,parent,_⟩ := c.plainOwner live (by simp [isFile])
  have gone := prunes.dead within
  rw [dropFileFound found live parent] at gone ⊢
  have trims := unlistTrims { t with files := t.files.erase (Path.normalize path) } p (c.tidy live).members
  obtain ⟨s',live',same,_⟩ := trims.live (q := file) live
  obtain ⟨sx,inside⟩ := within.live live
  obtain ⟨s₁,inside₁,_⟩ := trims.live (q := x) inside
  obtain ⟨s₂,inside₂,_⟩ := (unlinkTrims live' (Symbol.parentOutline same ▸ parent)).live inside₁
  exact (releaseVacates inside₂ gone).aged

def lies (t : SymbolTable) (path : String) (h : Handle) : Bool :=
  (t.files.get? (Path.normalize path)).any fun file => t.fileOf? h = some file

structure Refused (t t' : SymbolTable) (path : String) (names : List String) : Prop where
  files : t'.files = t.files.erase (Path.normalize path)
  root : t'.root = t.root
  stale : ∀ h, t.lies path h → t'.symbol? h = none
  new : ∀ h s', t'.symbol? h = some s' → t.symbol? h = none → t'.Laid names h s'
  unlisted : ∀ p o, t'.symbol? p = some o → ∀ h ∈ o.body.members.handles,
    (t.symbol? h).isSome ∧ ¬t.lies path h
  others : ∀ h s, t.symbol? h = some s → ¬t.lies path h → s.kind ≠ .package → t'.symbol? h = some s
  packages : ∀ h s subpackages files members, t.symbol? h = some s →
    s.body = .package subpackages files members → ∃ more, more.only t.isLive = subpackages ∧
      t'.symbol? h = some { s with
        body := .package more (files.filter fun x => !t.lies path x) (members.only fun x => !t.lies path x) }

theorem Refused.alike {t t' t'' : SymbolTable} {path : String} {names : List String}
    (refused : Refused t t' path names) (alike : Alike t' t'') : Refused t t'' path names := by
  obtain ⟨files,root,stale,new,unlisted,others,packages⟩ := refused
  constructor
  · rw [alike.files,files]
  · rw [alike.root,root]
  · simpa only [alike.symbols] using stale
  · simpa only [Laid,alike.symbols,alike.subpackages,alike.root] using new
  · simpa only [alike.symbols] using unlisted
  · simpa only [alike.symbols] using others
  · simpa only [alike.symbols] using packages

section

variable {t : SymbolTable} (c : t.Consistent) {path : String}
include c

theorem Consistent.liesWithin {h : Handle} : t.lies path h ↔ ∃ file s,
    t.files.get? (Path.normalize path) = some file ∧ t.symbol? file = some s ∧ s.kind = .file ∧
      t.Within file h := by
  unfold lies
  cases found : t.files.get? (Path.normalize path) with
  | none => simp
  | some file =>
    obtain ⟨s,live,isFile,_⟩ := (c.indexed _ file).mp found
    simp only [Option.any_some,decide_eq_true_eq,c.inFile live isFile,Option.some.injEq]
    constructor
    · exact fun within => ⟨file,s,rfl,live,isFile,within⟩
    · rintro ⟨_,_,rfl,_,_,within⟩
      exact within

theorem Consistent.packageLies {h : Handle} {s : Symbol} (live : t.symbol? h = some s)
    (package : s.kind = .package) : ¬t.lies path h := by
  rw [c.liesWithin]
  rintro ⟨file,o,_,owner,isFile,within⟩
  exact c.noPackageWithin owner (by simp [isFile]) within live package

theorem Consistent.liesElsewhere {h x : Handle} {s : Symbol} (live : t.symbol? h = some s)
    (outside : ¬t.lies path h) (plain : s.kind ≠ .package) {place : Shelf} (listed : x ∈ s.shelf place) :
    ¬t.lies path x := by
  rw [c.liesWithin] at outside ⊢
  rintro ⟨file,o,found,owner,isFile,within⟩
  obtain ⟨p,above,parent,holder⟩ := c.plainOwner owner (by simp [isFile])
  refine c.listsElsewhere owner isFile parent live ?_ ?_ listed within
  · exact fun inside => outside ⟨file,o,found,owner,isFile,inside⟩
  · rintro rfl
    cases Option.some.inj (live.symm.trans holder)
    exact plain (c.parentOfFile owner isFile parent live)

theorem clearedExact (stocked : t.Stocked) {h : Handle} (outside : ¬t.lies path h) :
    (t.dropFile path).2.symbol? h =
      (t.symbol? h).map (Symbol.mapBody (Body.only fun x => !t.lies path x)) := by
  cases found : t.files.get? (Path.normalize path) with
  | none =>
    rw [dropFileAbsent found]
    cases live : t.symbol? h with
    | none => rfl
    | some s =>
      have same : s.body.only (fun x => !t.lies path x) = s.body :=
        Body.onlyAll (c.tidy live) (stocked h s live) (by simp [lies,found])
      rw [Option.map_some,Symbol.mapBody,same]
  | some file =>
    have keep : (fun x => !t.lies path x) = fun x => decide (t.fileOf? x ≠ some file) := by
      funext x
      simp [lies,found]
    rw [keep]
    exact dropFileExact c stocked found (by simpa [lies,found] using outside)

theorem clearedAges {h : Handle} (inside : t.lies path h) : (t.dropFile path).2.symbols.Aged 1 h := by
  obtain ⟨file,_,found,_,_,within⟩ := c.liesWithin.mp inside
  exact dropFileAges c found within

theorem clearedFiles : (t.dropFile path).2.files = t.files.erase (Path.normalize path) := by
  cases found : t.files.get? (Path.normalize path) with
  | none => rw [dropFileAbsent found,OrderedMap.eraseAbsent found]
  | some file => exact (dropFiles c found).2

theorem siteRefused (stocked : t.Stocked) (decl : FileDecl) :
    Refused t (t.site decl) decl.path decl.package := by
  have steps := dropFileSteps (fun _ _ => True) c decl.path
  have cleared := steps.consistent c
  have made := (c.siteReady stocked decl).consistent
  have restores : Restores (t.dropFile decl.path).2 (t.site decl) decl.package :=
    cleared.packageRestores ((reworksDrop t decl.path).stocked stocked) decl.package
  obtain ⟨_,packed⟩ := turnsPackage (t.dropFile decl.path).2 (t.dropFile decl.path).2.root decl.package
  have stale : ∀ h, t.lies decl.path h → (t.site decl).symbol? h = none :=
    fun h inside => (packed.aged (clearedAges c inside)).dead (by decide)
  have still : ∀ {h s'}, (t.site decl).symbol? h = some s' →
      t.isLive h = (t.dropFile decl.path).2.isLive h := by
    intro h s' live
    have outside : ¬t.lies decl.path h := fun inside => by simp [stale h inside] at live
    simp [liveSome,clearedExact c stocked outside]
  have new : ∀ h s', (t.site decl).symbol? h = some s' → t.symbol? h = none →
      (t.site decl).Laid decl.package h s' := by
    intro h s' live dead
    refine restores.new h s' live (liveNot.mp ?_)
    rw [← still live]
    exact liveNot.mpr dead
  refine ⟨(c.siteFiles decl).trans (clearedFiles c),restores.root.trans steps.root,stale,new,?_,?_,?_⟩
  · intro p o owner h listed
    obtain ⟨name,shelved⟩ := (Members.memHandles (made.tidy owner).members).mp listed
    obtain ⟨s,live⟩ := ((made.listed owner (.member name) h).mp shelved).live
    refine ⟨?_,fun inside => by simp [stale h inside] at live⟩
    refine Option.isSome_iff_ne_none.mpr fun dead => ?_
    obtain ⟨_,_,_,_,_,_,package⟩ := new h s live dead
    exact (made.memberKind owner shelved live).1 (by rw [package]; rfl)
  · intro h s live outside plain
    have same : s.body.only (fun x => !t.lies decl.path x) = s.body :=
      Body.onlyAll (c.tidy live) (stocked h s live) fun place x listed => by
        simpa using c.liesElsewhere live outside plain listed
    have before := clearedExact c stocked outside
    rw [live,Option.map_some,Symbol.mapBody,same] at before
    obtain ⟨s',live',eq⟩ := restores.old h s before
    have plain' : s'.body.kind ≠ .package := by
      rw [← eq,Symbol.kind,Symbol.mapBody,Body.kindSubpackages] at plain
      exact plain
    rw [Symbol.mapBody,Body.mapSubpackagesPlain _ plain'] at eq
    rw [live',← eq]
  · intro h s subpackages filed members live body
    obtain ⟨_,_,_,_,_,_⟩ := s
    cases body
    have outside : ¬t.lies decl.path h := c.packageLies live rfl
    have inner : subpackages.only (fun x => !t.lies decl.path x) = subpackages := by
      refine OrderedMap.onlyAll (c.tidy live).subpackages fun name x bound => ?_
      obtain ⟨sx,live',package,_⟩ := c.subpackage live (Symbol.subpackageShelf bound)
      simpa using c.packageLies live' package
    have before := clearedExact c stocked outside
    rw [live,Option.map_some] at before
    simp only [Symbol.mapBody,Body.only,Body.mapMembers,Body.mapParameters,Body.mapFiles,Body.mapSubpackages,
      inner] at before
    obtain ⟨⟨_,_,_,_,_,body⟩,live',eq⟩ := restores.old h _ before
    cases body with
    | package more listed members' =>
      simp only [Symbol.mapBody,Body.mapSubpackages,Symbol.mk.injEq,Body.package.injEq] at eq
      obtain ⟨rfl,rfl,rfl,rfl,rfl,kept,rfl,rfl⟩ := eq
      refine ⟨more,?_,live'⟩
      rw [← kept]
      refine OrderedMap.onlyCongr (made.tidy live').subpackages fun name x bound => ?_
      obtain ⟨sx,held,_⟩ := made.subpackage live' (Symbol.subpackageShelf bound)
      exact still held
    | _ => cases eq

theorem putFileRefused (stocked : t.Stocked) {decl : FileDecl} {failure : Failure}
    (failed : (t.putFile decl).1 = .error failure) (upright : ¬decl.span.isInverted) :
    Refused t (t.putFile decl).2 decl.path decl.package := by
  have alike := putFileHosts c stocked upright
  rw [failed] at alike
  exact (siteRefused c stocked decl).alike alike

theorem putFileFails (decl : FileDecl) : (∃ failure, (t.putFile decl).1 = .error failure) ↔ decl.Faulty := by
  rw [decl.faultyIff,← putFileAccepted c decl]
  cases (t.putFile decl).1 <;> simp

end

namespace Edit

def removeEach : List Handle → Edit Unit
  | [] => pure ()
  | h :: rest => do
    modifyThe SymbolTable (·.remove h)
    removeEach rest

/-- Attaching edit by edit: where one fails, those before it are kept. -/
def attachInPlace (scope : Handle) (d : Draft) : Edit Handle :=
  match d.check with
  | .error e => throw e
  | .ok body => do
    let t ← get
    match t.symbol? scope with
    | none => throw (.unknownScope scope)
    | some owner =>
      match owner.members? with
      | none => throw (.violation (.cannotOwnMembers owner.kind owner.name))
      | some members =>
        removeEach (t.replacedBy members d.kind d.name)
        modifyGet (·.link scope (listingPackage? owner d.kind) (drafted d scope owner body))

theorem removeEachRan (handles : List Handle) (t : SymbolTable) :
    removeEach handles t = .ok () (handles.foldl remove t) := by
  induction handles generalizing t with
  | nil => rfl
  | cons h rest ih => exact ih (t.remove h)

theorem attachedInPlace (scope : Handle) (d : Draft) : attachInPlace scope d = attach scope d := by
  funext t
  have read (f : SymbolTable → Edit Handle) : (get >>= f) t = f t t := rfl
  unfold attachInPlace attach SymbolTable.attach
  cases d.check with
  | error e => rfl
  | ok body =>
    dsimp only
    rw [read]
    simp only [bind,Except.bind]
    cases t.symbol? scope with
    | none => rfl
    | some owner =>
      dsimp only
      cases owner.members? with
      | none => rfl
      | some members =>
        simp only [EStateM.bind,removeEachRan]
        rfl

theorem attachRefused {scope : Handle} {d : Draft} {failure : Failure} {t t' : SymbolTable} :
    attachInPlace scope d t = .error failure t' ↔ t.attach scope d = .error failure ∧ t' = t := by
  rw [attachedInPlace,attach]
  cases t.attach scope d <;> simp [eq_comm]

end Edit
end SymbolTable

namespace Codebase

theorem putFileFailed {c : Codebase} {decl : FileDecl} {failure : Failure} :
    (c.putFile decl).1 = .error failure ↔ (c.table.putFile decl).1 = .error failure := by
  simp only [putFile]
  cases (c.table.putFile decl).1 <;> simp [Except.map]

theorem putFileInverted {c : Codebase} {decl : FileDecl} (inverted : decl.span.isInverted) :
    (c.putFile decl).2 = c := by
  obtain ⟨_,_,_,_,table,_⟩ := c
  have same : (table.putFile decl).2 = table := by rw [SymbolTable.putFile,if_pos inverted]
  simp only [putFile,same]

theorem attachFailed {c : Codebase} {scope : Handle} {draft : Draft} {failure : Failure} :
    c.attach scope draft = .error failure ↔ c.table.attach scope draft = .error failure := by
  simp only [attach,bind,Except.bind]
  cases c.table.attach scope draft <;> simp [pure,Except.pure]

/-- A file is refused after any run exactly for a fault in it, and then leaves nothing behind but packages.
A symbol that is refused leaves the codebase as it was: nothing is taken away to make room for it. -/
theorem refusedCleanly (id : Nat) (name : String) (language : Language) (settings : Settings)
    (changes : List Change) :
    let c := run { id, name, language, settings } changes
    (∀ decl, (∃ failure, (c.putFile decl).1 = .error failure) ↔ decl.Faulty) ∧
    (∀ decl, decl.span.isInverted → (c.putFile decl).2 = c) ∧
    (∀ decl failure, (c.putFile decl).1 = .error failure → ¬decl.span.isInverted →
      ∃ t, (c.putFile decl).2 = { c with table := t } ∧ c.table.Refused t decl.path decl.package) ∧
    ∀ scope draft failure,
      (∀ t, SymbolTable.Edit.attachInPlace scope draft c.table = .error failure t ↔
        c.attach scope draft = .error failure ∧ t = c.table) ∧
      (c.attach scope draft = .error failure → c.apply (.attach scope draft) = (none,c)) := by
  intro c
  have consistent : c.table.Consistent := runConsistent _ SymbolTable.emptyConsistent changes
  have stocked : c.table.Stocked := runStocked SymbolTable.emptyConsistent SymbolTable.emptyStocked changes
  refine ⟨fun decl => ?_,fun decl => putFileInverted,fun decl failure failed upright => ?_,
    fun scope draft failure => ⟨fun t => ?_,fun failed => by simp only [apply,failed]⟩⟩
  · rw [← SymbolTable.putFileFails consistent decl]
    exact exists_congr fun failure => putFileFailed
  · exact ⟨_,rfl,SymbolTable.putFileRefused consistent stocked (putFileFailed.mp failed) upright⟩
  · rw [attachFailed]
    exact SymbolTable.Edit.attachRefused

def ledgerBroken : FileDecl where
  path := "shop/./Ledger.java"
  package := ["shop","till"]
  types := [
    { outline := { name := "Ledger", kind := .type .classType }
      members := [
        .field { name := "total", type := .simple "int" },
        .type { name := "Entry", kind := .type .classType }
          [.method { name := "sum", locals := [{ name := "x", type := .simple "int", span := ⟨7,3⟩ }] }]] }]

theorem ledgerRefused : ∃ t, ((ledgerApp [.putFile ledgerFile]).putFile ledgerBroken).2 =
      { ledgerApp [.putFile ledgerFile] with table := t } ∧
    (ledgerApp [.putFile ledgerFile]).table.Refused t "shop/./Ledger.java" ["shop","till"] ∧
    (t.symbol? ⟨2,0⟩).isNone := by
  obtain ⟨fails,_,refused,_⟩ := refusedCleanly 0 "app" .java default [.putFile ledgerFile]
  have faulty : ledgerBroken.Faulty :=
    .inr ⟨_,List.mem_singleton_self _,.inner (List.mem_cons_of_mem _ (List.mem_singleton_self _))
      (.inner (List.mem_singleton_self _) (.value (List.mem_singleton_self _) (by decide)))⟩
  obtain ⟨failure,failed⟩ := (fails ledgerBroken).mpr faulty
  obtain ⟨t,same,clean⟩ := refused ledgerBroken failure failed (by decide)
  have lies : (ledgerApp [.putFile ledgerFile]).table.lies "shop/./Ledger.java" ⟨2,0⟩ := by decide +kernel
  exact ⟨t,same,clean,by rw [clean.stale _ lies]; rfl⟩

end Codebase
end CodeIndex
