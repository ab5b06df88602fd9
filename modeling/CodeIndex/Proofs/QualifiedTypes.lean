import CodeIndex.Proofs.Reading

/-! Types by their qualified names. A path of names is followed without turning back, always to the first
symbol of a name. A type is found by its qualified name exactly when no method comes before it, or before
a type around it, under the same name; otherwise nothing is found. -/
namespace CodeIndex
namespace SymbolTable

def Unhidden (t : SymbolTable) (h : Handle) : Prop :=
  ∀ x s p o, t.Within x h → t.symbol? x = some s → s.kind.isTypeDecl → s.parent = some p →
    t.symbol? p = some o → o.kind.isTypeDecl → (t.declared p s.name).head? = some x

theorem Unhidden.outer {t : SymbolTable} {h p : Handle} {s : Symbol} (unhidden : t.Unhidden h)
    (live : t.symbol? h = some s) (parent : s.parent = some p) : t.Unhidden p :=
  fun x sx q o within => unhidden x sx q o (.inner live parent within)

theorem Unhidden.inner {t : SymbolTable} {h p : Handle} {s : Symbol} (around : t.Unhidden p)
    (live : t.symbol? h = some s) (parent : s.parent = some p)
    (first : (t.declared p s.name).head? = some h) : t.Unhidden h := by
  intro x sx q o within live' type above owner outer
  cases within with
  | self =>
    cases Option.some.inj (live.symm.trans live')
    cases Option.some.inj (parent.symm.trans above)
    exact first
  | inner held parent' further =>
    cases Option.some.inj (live.symm.trans held)
    cases Option.some.inj (parent.symm.trans parent')
    exact around x sx q o further live' type above owner outer

theorem childFirst {t : SymbolTable} {p h : Handle} {name : String}
    (first : (t.declared p name).head? = some h) : t.child? p name = some h := by
  obtain ⟨rest,members⟩ := List.head?_eq_some_iff.mp first
  simp [child?,members]

namespace Orderly

variable {t : SymbolTable} (orderly : t.Orderly)
include orderly

theorem topUnhidden {h f : Handle} {s o : Symbol} (live : t.symbol? h = some s)
    (parent : s.parent = some f) (owner : t.symbol? f = some o) (file : o.kind = .file) :
    t.Unhidden h := by
  intro x sx p op within live' type above owner' outer
  cases within with
  | self =>
    cases Option.some.inj (live.symm.trans live')
    cases Option.some.inj (parent.symm.trans above)
    cases Option.some.inj (owner.symm.trans owner')
    simp [file,SymbolKind.isTypeDecl] at outer
  | inner held parent' further =>
    cases Option.some.inj (live.symm.trans held)
    cases Option.some.inj (parent.symm.trans parent')
    obtain rfl := orderly.noFileWithin live' (typeKind type).1 further owner file
    cases Option.some.inj (owner.symm.trans live')
    simp [file,SymbolKind.isTypeDecl] at type

theorem childOuter {q h p : Handle} {s o : Symbol} (found : t.child? q s.name = some h)
    (live : t.symbol? h = some s) (type : s.kind.isTypeDecl) (parent : s.parent = some p)
    (owner : t.symbol? p = some o) (outer : o.kind.isTypeDecl) {oq : Symbol}
    (start : t.symbol? q = some oq) : q = p ∧ (t.declared p s.name).head? = some h := by
  unfold child? at found
  split at found
  · rename_i first rest members
    cases Option.some.inj found
    have listed : h ∈ oq.shelf (.member s.name) := by
      rw [← declaredShelf start,members]
      exact List.mem_cons_self
    have same : q = p := by
      have belongs := (orderly.listed start _ h).mp listed
      generalize Shelf.member s.name = place at belongs
      cases belongs with
      | own live' parent' | parameter live' parent' =>
        cases Option.some.inj (live.symm.trans live')
        exact Option.some.inj (parent'.symm.trans parent)
      | type live' _ parent' owner' file =>
        cases Option.some.inj (live.symm.trans live')
        cases Option.some.inj (parent.symm.trans parent')
        cases Option.some.inj (owner.symm.trans owner')
        simp [file,SymbolKind.isTypeDecl] at outer
    subst same
    exact ⟨rfl,by rw [members]; rfl⟩
  · rw [subpackageBound start] at found
    obtain ⟨s',live',package,_⟩ := orderly.subpackage start (Symbol.subpackageShelf found)
    cases Option.some.inj (live.symm.trans live')
    exact absurd package (typeKind type).1

theorem alongUnhidden (separate : t.Separate)
    (alone : ∀ {h s h' s'}, t.symbol? h = some s → s.kind.isTypeDecl → t.symbol? h' = some s' →
      s'.kind.isTypeDecl → s'.childQualifiers = s.childQualifiers → h' = h)
    {h : Handle} {s : Symbol} (live : t.symbol? h = some s) (type : s.kind.isTypeDecl) :
    t.along? s.childQualifiers = some h ↔ t.Unhidden h := by
  induction orderly.rooted live generalizing s with
  | root =>
    obtain ⟨root,live',package,_⟩ := orderly.root
    cases Option.some.inj (live.symm.trans live')
    exact absurd package (typeKind type).1
  | @child h s' p live' parent _ ih =>
    obtain rfl := Option.some.inj (live.symm.trans live')
    obtain ⟨o,owner,qualifiers⟩ := orderly.parentLive live parent
    rcases ((orderly.declared live parent owner).type type).2 with file | outer
    · have found := orderly.alongType separate live type parent owner file fun live' type' names =>
        alone live type live' type' names
      exact ⟨fun _ => orderly.topUnhidden live parent owner file,fun _ => found⟩
    · rw [(orderly.typeNames live type).2,qualifiers,alongConcat]
      constructor
      · intro found
        obtain ⟨q,before,last⟩ := Option.bind_eq_some_iff.mp found
        obtain ⟨oq,start,_⟩ := orderly.alongNames before
        obtain ⟨rfl,first⟩ := orderly.childOuter last live type parent owner outer start
        exact ((ih owner outer).mp before).inner live parent first
      · intro unhidden
        have first := unhidden _ _ _ _ .self live type parent owner outer
        rw [(ih owner outer).mpr (unhidden.outer live parent),Option.bind_some,childFirst first]

end Orderly
end SymbolTable

namespace Codebase

section

variable {home : Codebase} (built : home.Built) (clear : home.Distinguished) {d : Codebase}
  (inside : d ∈ home.chain) {h : Handle} {s : Symbol} (live : d.table.symbol? h = some s)
  (type : s.kind.isTypeDecl)
include built clear inside live type

theorem alongUnhidden : d.table.along? s.childQualifiers = some h ↔ d.table.Unhidden h :=
  (built.chain inside).alongUnhidden
    (fun live type live' package => typesApart built clear inside inside live live' type package)
    (fun live type live' type' names => congrArg SymbolRef.handle
      (typesAlone built clear inside inside live' live type' type names)) live type

theorem typeItself {ref : SymbolRef} (found : home.type? s.childQualifiers = some ref) :
    ref = d.ref h ∧ d.table.Unhidden h := by
  have plain := (built.chain inside).plainNames live type
  unfold type? at found
  split at found
  · cases found
  · rw [Text.flatSegments plain] at found
    obtain ⟨d',inside',own⟩ := List.exists_of_findSome?_eq_some found
    obtain ⟨h',s',rfl,live',type',names⟩ := ownTypeNames built inside' own
    have same := typesAlone built clear inside' inside live' live type' type names
    obtain rfl := chainId inside' inside (congrArg SymbolRef.codebase same)
    obtain rfl : h' = h := congrArg SymbolRef.handle same
    refine ⟨rfl,(alongUnhidden built clear inside live type).mp ?_⟩
    simp only [ownType?,bind,Option.bind_eq_some_iff] at own
    obtain ⟨x,along,sx,liveX,last⟩ := own
    split at last
    · rw [along]
      exact congrArg (Option.map SymbolRef.handle) last
    · cases last

theorem typeUnhidden (unhidden : d.table.Unhidden h) :
    home.type? s.childQualifiers = some (d.ref h) := by
  have along := (alongUnhidden built clear inside live type).mpr unhidden
  have own : d.ownType? s.childQualifiers = some (d.ref h) := by simp [ownType?,along,live,type]
  cases found : home.type? s.childQualifiers with
  | some ref => rw [(typeItself built clear inside live type found).1]
  | none =>
    have orderly := built.chain inside
    have filled : s.childQualifiers.isEmpty = false := by simp [(orderly.typeNames live type).2]
    simp only [type?,filled,Bool.false_eq_true,if_false,
      Text.flatSegments (orderly.plainNames live type),List.findSome?_eq_none_iff] at found
    simp [found d inside] at own

end

end Codebase

namespace Resolver

/-- A type is found by its qualified name unless a method hides it or a type around it, and then nothing
is found. -/
theorem namedTypeFound (r : Resolver) (built : r.home.Built) (clear : r.home.Distinguished)
    {d : Codebase} (inside : d ∈ r.home.chain) {h : Handle} {s : Symbol}
    (live : d.table.symbol? h = some s) (type : s.kind.isTypeDecl) :
    (d.table.Unhidden h → r.type? s.qualifiedName = some (.ofSymbol (d.ref h))) ∧
    (¬d.table.Unhidden h → r.type? s.qualifiedName = none) := by
  have orderly := built.chain inside
  have names : Text.segments s.qualifiedName = s.childQualifiers := by
    rw [Codebase.qualifiedNames (SymbolTable.typeKind type).2 (orderly.typeNames live type).1.1,
      Text.segmentsDotted (orderly.plainNames live type)]
  unfold type?
  rw [names]
  constructor
  · intro unhidden
    rw [Codebase.typeUnhidden built clear inside live type unhidden]
    rfl
  · intro hidden
    cases found : r.home.type? s.childQualifiers with
    | none => rfl
    | some ref => exact absurd (Codebase.typeItself built clear inside live type found).2 hidden

def clockFile (members : List MemberDecl) : FileDecl where
  path := "time/Clock.java"
  package := ["time"]
  types := [{ outline := { name := "Clock", kind := .type .classType }, members }]

def hand : MemberDecl := .type { name := "Hand", kind := .type .classType } []

def turnHand : MemberDecl := .method { name := "Hand" }

def clockLibrary (members : List MemberDecl) : Codebase :=
  let new : Codebase := { id := 1, name := "library", language := .java, settings := default }
  (new.putFile (clockFile members)).2

def clockApp : Codebase :=
  let own : Codebase := { id := 0, name := "app", language := .java, settings := default }
  own.addDependency (clockLibrary [hand,turnHand])

theorem clockBuilt {members : List MemberDecl} (named : MemberDecl.NamedAll Text.IsSegment members) :
    (clockLibrary members).Built := by
  refine .putFile (.new ..) ⟨List.forall_mem_singleton.mpr (by decide),?_⟩
  simp only [clockFile,List.forall_mem_singleton]
  exact ⟨by decide,named⟩

def clockEntry (members : List MemberDecl) (h : Handle) :
    Option (String × String × SymbolKind × Option Handle) :=
  ((clockLibrary members).table.symbol? h).map fun s => (s.name,s.qualifiedName,s.kind,s.parent)

theorem clockAppClear : clockApp.Distinguished := ⟨by decide +kernel,by decide +kernel⟩

theorem handEntry : clockEntry [hand,turnHand] ⟨4,0⟩ =
    some ("Hand","time.Clock.Hand",.type .classType,some ⟨3,0⟩) := by decide +kernel

theorem clockAppBuilt : clockApp.Built :=
  .addDependency (.new ..) (clockBuilt ⟨⟨by decide,trivial⟩,trivial,trivial⟩)

theorem clockInside : clockLibrary [hand,turnHand] ∈ clockApp.chain := by
  simp [clockApp,clockLibrary,Codebase.addDependency,Codebase.putFile,Codebase.chain,Codebase.visit,
    Codebase.visitAll]

theorem handUnhidden : (clockLibrary [hand,turnHand]).table.Unhidden ⟨4,0⟩ := by
  have fileEntry : clockEntry [hand,turnHand] ⟨2,0⟩ =
      some ("time/Clock.java","time/Clock.java",.file,some ⟨1,0⟩) := by decide +kernel
  have typeEntry : clockEntry [hand,turnHand] ⟨3,0⟩ =
      some ("Clock","time.Clock",.type .classType,some ⟨2,0⟩) := by decide +kernel
  have first : ((clockLibrary [hand,turnHand]).table.declared ⟨3,0⟩ "Hand").head? = some ⟨4,0⟩ := by
    decide +kernel
  obtain ⟨f,liveFile,file⟩ := Option.map_eq_some_iff.mp fileEntry
  obtain ⟨c,liveClock,clock⟩ := Option.map_eq_some_iff.mp typeEntry
  obtain ⟨s,live,entry⟩ := Option.map_eq_some_iff.mp handEntry
  simp only [Prod.mk.injEq] at file clock entry
  have orderly := clockAppBuilt.chain clockInside
  refine (orderly.topUnhidden liveClock clock.2.2.2 liveFile file.2.2.1).inner live entry.2.2.2 ?_
  rw [entry.1]
  exact first

theorem handFound : clockApp.Distinguished ∧ (Resolver.mk clockApp 1).type? "time.Clock.Hand" =
    some (.ofSymbol ((clockLibrary [hand,turnHand]).ref ⟨4,0⟩)) := by
  refine ⟨clockAppClear,?_⟩
  obtain ⟨s,live,entry⟩ := Option.map_eq_some_iff.mp handEntry
  simp only [Prod.mk.injEq] at entry
  have type : s.kind.isTypeDecl := by simp [entry,SymbolKind.isTypeDecl]
  rw [← entry.2.1]
  have built := clockAppBuilt
  have clear := clockAppClear
  have inside := clockInside
  generalize clockApp = home at built clear inside
  exact (namedTypeFound ⟨home,1⟩ built clear inside live type).1 handUnhidden

theorem methodHidesType : (clockLibrary [turnHand,hand]).Built ∧
    (clockLibrary [turnHand,hand]).Distinguished ∧
    clockEntry [turnHand,hand] ⟨5,0⟩ =
      some ("Hand","time.Clock.Hand",.type .classType,some ⟨3,0⟩) ∧
    (Resolver.mk (clockLibrary [turnHand,hand]) 1).type? "time.Clock.Hand" = none :=
  ⟨clockBuilt ⟨trivial,⟨by decide,trivial⟩,trivial⟩,⟨by decide +kernel,by decide +kernel⟩,
    by decide +kernel,by decide +kernel⟩

end Resolver
end CodeIndex
