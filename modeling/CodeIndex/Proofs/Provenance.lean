import CodeIndex.Proofs.Dependencies
import CodeIndex.Proofs.Walks
import CodeIndex.Resolver
import Mathlib.Data.Option.Basic

/-! What answers are made of. A vocabulary says which declared types and which type parameters may occur
in a type. If it covers what a chain declares, then whatever is resolved there from bindings over the
vocabulary is over the vocabulary again, whichever way the names took. -/
namespace CodeIndex

structure Vocabulary where
  types : SymbolRef → Prop
  vars : TypeVar → Prop

def Denoted.Over (words : Vocabulary) : Denoted → Prop
  | .symbol ref => words.types ref
  | .primitive _ => True
  | .typeVar v => words.vars v

inductive ResolvedType.Over (words : Vocabulary) : ResolvedType → Prop where
  | made {denoted isArray bindings} (denotes : denoted.Over words)
      (keys : ∀ v ∈ bindings.keys, words.vars v) (bound : ∀ t ∈ bindings.values, Over words t) :
      Over words ⟨denoted,isArray,bindings⟩

structure Bindings.Over (words : Vocabulary) (bindings : Bindings) : Prop where
  keys : ∀ v ∈ bindings.keys, words.vars v
  bound : ∀ t ∈ bindings.values, t.Over words

structure Vocabulary.Covers (words : Vocabulary) (home : Codebase) : Prop where
  types : ∀ {d h s}, d ∈ home.chain → d.table.symbol? h = some s → s.kind.isTypeDecl →
    words.types (d.ref h)
  vars : ∀ {d h s p}, d ∈ home.chain → d.table.symbol? h = some s → p ∈ s.typeParameters →
    words.vars ⟨d.ref h,p.name⟩

variable {words : Vocabulary}

namespace OrderedMap

variable {κ : Type u} {α : Type v} [DecidableEq κ]

theorem valueOfGet {m : OrderedMap κ α} {k : κ} {a : α} (found : m.get? k = some a) : a ∈ m.values := by
  obtain ⟨entries⟩ := m
  simp only [get?,values] at found ⊢
  induction entries with
  | nil => cases found
  | cons entry rest ih =>
    unfold lookup at found
    split at found
    · simp [Option.some.inj found]
    · exact List.mem_cons_of_mem _ (ih found)

theorem valueOfInsert {m : OrderedMap κ α} {k : κ} {a b : α} (inside : b ∈ (m.insert k a).values) :
    b = a ∨ b ∈ m.values := by
  obtain ⟨entries⟩ := m
  simp only [insert,alter,values] at inside ⊢
  induction entries with
  | nil => exact .inl (by simpa [put] using inside)
  | cons entry rest ih =>
    unfold put at inside
    split at inside
    · rcases List.mem_cons.mp inside with here | later
      · exact .inl here
      · exact .inr (List.mem_cons_of_mem _ later)
    · rcases List.mem_cons.mp inside with here | later
      · exact .inr (by simp [here])
      · exact (ih later).imp_right (List.mem_cons_of_mem _)

theorem keyOfInsert {m : OrderedMap κ α} {k k' : κ} {a : α} (inside : k' ∈ (m.insert k a).keys) :
    k' = k ∨ k' ∈ m.keys := by
  simp only [keys,insert,alter,keysPut] at inside ⊢
  split at inside
  · exact .inr inside
  · exact (List.mem_append.mp inside).symm.imp_left List.mem_singleton.mp

end OrderedMap

namespace SymbolTable

theorem climbLive (t : SymbolTable) (fuel : Nat) (h : Handle) :
    ∀ level ∈ (t.climb fuel h).levels, t.symbol? level.1 = some level.2 := by
  induction fuel generalizing h with
  | zero => simp [climb]
  | succ fuel ih =>
    unfold climb
    split
    · simp
    · rename_i s live
      split
      · simpa using live
      · rename_i parent _
        intro level inside
        rcases List.mem_cons.mp inside with rfl | outer
        · exact live
        · exact ih parent level outer

theorem typeBody {s : Symbol} {kind : TypeKind} {header : TypeHeader} {members : Members}
    (body : s.body = .type kind header members) : s.kind.isTypeDecl := by
  simp [Symbol.kind,body,Body.kind,SymbolKind.isTypeDecl]

end SymbolTable

namespace Bindings

theorem overEmpty : Over words {} := ⟨by simp [OrderedMap.keys],by simp [OrderedMap.values]⟩

theorem Over.insert {bindings : Bindings} (worded : Over words bindings) {v : TypeVar} {t : ResolvedType}
    (known : words.vars v) (bound : t.Over words) : Over words (bindings.insert v t) where
  keys := fun _ inside => (OrderedMap.keyOfInsert inside).elim (· ▸ known) (worded.keys _)
  bound := fun _ inside => (OrderedMap.valueOfInsert inside).elim (· ▸ bound) (worded.bound _)

end Bindings

namespace ResolvedType

theorem Over.denotes {t : ResolvedType} (worded : t.Over words) : t.denoted.Over words := by
  cases worded
  assumption

theorem Over.bindings {t : ResolvedType} (worded : t.Over words) : Bindings.Over words t.bindings := by
  cases worded with
  | made _ keys bound => exact ⟨keys,bound⟩

theorem overOf {t : ResolvedType} (denotes : t.denoted.Over words)
    (bindings : Bindings.Over words t.bindings) : t.Over words := by
  obtain ⟨_,_,_⟩ := t
  exact .made denotes bindings.keys bindings.bound

theorem overSymbol {ref : SymbolRef} {bindings : OrderedMap TypeVar ResolvedType}
    (known : words.types ref) (worded : Bindings.Over words bindings) :
    Over words { ofSymbol ref with bindings } :=
  overOf known worded

theorem Over.class {t : ResolvedType} (worded : t.Over words) {ref : SymbolRef}
    (denotes : t.class? = some ref) : words.types ref := by
  have known := worded.denotes
  unfold class? at denotes
  split at denotes
  · rename_i same
    cases Option.some.inj denotes
    rwa [same] at known
  · cases denotes

end ResolvedType

namespace Step

def Over (words : Vocabulary) (home : Codebase) : Step → Prop
  | .package _ => True
  | .type t => t.Over words
  | .value ref bindings => (home.resolve? ref).isSome ∧ Bindings.Over words bindings

def isScalar : Step → Bool
  | .type t => !t.isArray
  | _ => true

structure Named (words : Vocabulary) (home : Codebase) (step : Step) : Prop where
  worded : step.Over words home
  scalar : step.isScalar

theorem namedType {home : Codebase} {ref : SymbolRef} {bindings : Bindings} (known : words.types ref)
    (worded : Bindings.Over words bindings) :
    Named words home (.type { ResolvedType.ofSymbol ref with bindings }) where
  worded := ResolvedType.overSymbol known worded
  scalar := rfl

end Step

namespace Answers

structure Over (words : Vocabulary) (home : Codebase) (below : Answers) : Prop where
  resolve : ∀ {site e t}, site.codebase ∈ home.chain → Bindings.Over words site.bindings →
    below.resolve site e = some t → t.Over words
  superclasses : ∀ {ref bindings}, Bindings.Over words bindings →
    ∀ t ∈ below.superclasses ref bindings, t.Over words
  owner : ∀ {t u}, t.Over words → below.owner t = some u → u.Over words

theorem declaringChain {home d : Codebase} {t : ResolvedType} (found : declaringCodebase? home t = some d) :
    d ∈ home.chain := by
  obtain ⟨_,_,member⟩ := Option.bind_eq_some_iff.mp found
  exact List.mem_of_find?_eq_some member

theorem declaredLive {home : Codebase} {name : String} {accept : Symbol → Bool} {t : ResolvedType}
    {entry : SymbolRef × Bindings} (inside : entry ∈ declaredMembers home name accept t) :
    (home.resolve? entry.1).isSome ∧ entry.2 = t.bindings := by
  unfold declaredMembers at inside
  split at inside
  · rename_i d declaring
    obtain ⟨h,listed,rfl⟩ := List.mem_map.mp inside
    have accepted := (List.mem_filter.mp listed).2
    split at accepted
    · rename_i s live
      exact ⟨by simp [Codebase.resolveRef (declaringChain declaring) live],rfl⟩
    · cases accepted
  · cases inside

section

variable {home : Codebase} {below : Answers} {name : String} {typeOnly : Bool} {step : Step}

theorem topLevelCases {m : Codebase} (found : topLevelStep? m name = some step) :
    (∃ ref, topLevelType? m name = some ref ∧ step = .type (.ofSymbol ref)) ∨ step = .package [name] := by
  unfold topLevelStep? at found
  split at found
  · rename_i ref type
    exact .inl ⟨ref,type,(Option.some.inj found).symm⟩
  · split at found
    · exact .inr (Option.some.inj found).symm
    · cases found

theorem staticCases {m : Codebase} {source : SourceFile}
    (found : staticallyImported? home below m source name typeOnly = some (some step)) :
    ∃ owner, staticStep? home below m owner name typeOnly = some (some step) := by
  rcases (Option.orElse_eq_some _ _ _).mp found with single | ⟨_,onDemand⟩
  · obtain ⟨i,_,hit⟩ := List.exists_of_findSome?_eq_some single
    exact ⟨_,hit⟩
  · obtain ⟨i,_,hit⟩ := List.exists_of_findSome?_eq_some onDemand
    exact ⟨_,hit⟩

theorem importedCases {m : Codebase} {source : SourceFile}
    (found : importedStep? home below m source name typeOnly = some step) :
    (∃ path, typeStep? m path = some step) ∨
      ∃ owner, staticStep? home below m owner name typeOnly = some (some step) := by
  have listed : ∀ {α} {entries : List α} {path : α → List String},
      (entries.findSome? fun a => typeStep? m (path a)) = some step → ∃ path, typeStep? m path = some step := by
    intro α entries path found
    obtain ⟨a,_,hit⟩ := List.exists_of_findSome?_eq_some found
    exact ⟨path a,hit⟩
  unfold importedStep? at found
  rcases (Option.orElse_eq_some _ _ _).mp found with single | ⟨_,found⟩
  · exact .inl (listed single)
  rcases (Option.orElse_eq_some _ _ _).mp found with onDemand | ⟨_,found⟩
  · exact .inl (listed onDemand)
  split at found
  · rename_i answer imported
    exact .inr (staticCases (found ▸ imported))
  · rcases (Option.orElse_eq_some _ _ _).mp found with package | ⟨_,implicit⟩
    · exact .inl ⟨_,package⟩
    · exact .inl (listed implicit)

theorem levelCases {site : Site} {h : Handle} {s : Symbol} (live : site.codebase.table.symbol? h = some s)
    (found : levelStep? home below site name typeOnly h s = some (some step)) :
    (s.kind.isTypeDecl ∧
      memberStep? home below { ResolvedType.ofSymbol (site.codebase.ref h) with bindings := site.bindings }
        name (Symbol.isStep typeOnly) = some (some step)) ∨
    (∃ c ∈ site.codebase.table.declared h name, stepTo home (site.codebase.ref c) site.bindings = some step ∨
      stepTo home (site.codebase.ref c) {} = some step) ∨
    (∃ source, importedStep? home below site.codebase source name typeOnly = some step) ∨
    topLevelStep? site.codebase name = some step := by
  have scope : ∀ {accept : Handle → Bool}, ((site.codebase.table.declared h name).find? accept).map
      (fun c => stepTo home (site.codebase.ref c) site.bindings) = some (some step) →
        ∃ c ∈ site.codebase.table.declared h name,
          stepTo home (site.codebase.ref c) site.bindings = some step ∨
            stepTo home (site.codebase.ref c) {} = some step := by
    intro accept found
    obtain ⟨c,first,leads⟩ := Option.map_eq_some_iff.mp found
    exact ⟨c,List.mem_of_find?_eq_some first,.inl leads⟩
  unfold levelStep? at found
  split at found
  · rename_i body
    split at found
    · exact .inl ⟨SymbolTable.typeBody body,found⟩
    · cases found
  · rename_i source members _ body
    rcases (Option.orElse_eq_some _ _ _).mp (Option.some.inj found) with file | ⟨_,top⟩
    · have own : site.codebase.table.declared h name = members.under name := by
        simp [SymbolTable.declared,SymbolTable.membersOf,live,Symbol.members?,body,Body.members?]
      unfold fileStep? at file
      split at file
      · rename_i first later listed
        exact .inr (.inl ⟨first,by rw [own,listed]; exact List.mem_cons_self,.inr file⟩)
      · exact .inr (.inr (.inl ⟨source,file⟩))
    · exact .inr (.inr (.inr top))
  · exact .inr (.inl (scope found))
  · exact .inr (.inl (scope found))
  · cases found
  · cases found

theorem firstCases {site : Site} (found : firstStep? home below site name typeOnly = some step) :
    (∃ t, typeParameter? site.codebase (site.codebase.table.scopeChain site.scope).levels site.bindings name =
      some t ∧ step = .type t) ∨
    (∃ h s, site.codebase.table.symbol? h = some s ∧
      levelStep? home below site name typeOnly h s = some (some step)) ∨
    topLevelStep? site.codebase name = some step := by
  simp only [firstStep?] at found
  split at found
  · rename_i t parameter
    exact .inl ⟨t,parameter,(Option.some.inj found).symm⟩
  · split at found
    · rename_i answer hit
      obtain ⟨⟨h,s⟩,level,leads⟩ := List.exists_of_findSome?_eq_some hit
      have live := site.codebase.table.climbLive site.codebase.table.symbols.slots.size site.scope
      exact .inr (.inl ⟨h,s,live _ level,found ▸ leads⟩)
    · split at found
      · exact .inr (.inr found)
      · cases found

theorem packageCases {m : Codebase} {path : List String} {isLast : Bool}
    (found : nextStep? home below m (.package path) name isLast = some step) :
    (∃ ref, m.type? (path ++ [name]) = some ref ∧ step = .type (.ofSymbol ref)) ∨
      step = .package (path ++ [name]) := by
  simp only [nextStep?] at found
  split at found
  · rename_i ref type
    exact .inl ⟨ref,type,(Option.some.inj found).symm⟩
  · split at found
    · exact .inr (Option.some.inj found).symm
    · cases found

end

section

variable {home : Codebase} {below : Answers} (covers : words.Covers home)
include covers

theorem knownType {ref : SymbolRef} {d : Codebase} {s : Symbol} (found : home.resolve? ref = some (d,s))
    (type : s.kind.isTypeDecl) : words.types ref := by
  obtain ⟨inside,same,live⟩ := Codebase.resolveChain.mp found
  exact same ▸ covers.types inside live type

theorem stepToOver {ref : SymbolRef} {bindings : Bindings} (worded : Bindings.Over words bindings)
    {step : Step} (found : stepTo home ref bindings = some step) : step.Named words home := by
  simp only [stepTo,bind,Option.bind_eq_some_iff] at found
  obtain ⟨⟨d,s⟩,resolved,last⟩ := found
  split at last
  · rename_i type
    cases Option.some.inj last
    exact Step.namedType (knownType covers resolved type) worded
  · split at last
    · cases Option.some.inj last
      exact ⟨⟨by simp [resolved],worded⟩,rfl⟩
    · cases last

theorem typeParameterOver {site : Site} (inside : site.codebase ∈ home.chain)
    (worded : Bindings.Over words site.bindings) {levels : List (Handle × Symbol)}
    (live : ∀ level ∈ levels, site.codebase.table.symbol? level.1 = some level.2) {name : String}
    {t : ResolvedType} (found : typeParameter? site.codebase levels site.bindings name = some t) :
    t.Over words := by
  obtain ⟨⟨h,s⟩,level,hit⟩ := List.exists_of_findSome?_eq_some found
  simp only at hit
  split at hit
  · rename_i declares
    obtain ⟨p,parameter,same⟩ := List.any_eq_true.mp declares
    cases of_decide_eq_true same
    cases Option.some.inj hit
    cases bound : site.bindings.get? ⟨site.codebase.ref h,p.name⟩ with
    | none => exact ResolvedType.overOf (covers.vars inside (live _ level) parameter) Bindings.overEmpty
    | some u => exact worded.bound u (OrderedMap.valueOfGet bound)
  · cases hit

variable (distinct : home.Distinct)
include distinct

theorem typeOver {m : Codebase} (inside : m ∈ home.chain) {path : List String} {ref : SymbolRef}
    (found : m.type? path = some ref) : words.types ref := by
  unfold Codebase.type? at found
  split at found
  · cases found
  · obtain ⟨d,further,own⟩ := List.exists_of_findSome?_eq_some found
    simp only [Codebase.ownType?,bind,Option.bind_eq_some_iff] at own
    obtain ⟨h,_,s,live,last⟩ := own
    split at last
    · rename_i type
      cases Option.some.inj last
      exact covers.types (Codebase.chainWithin distinct inside d further) live type
    · cases last

theorem typeStepOver {m : Codebase} (inside : m ∈ home.chain) {path : List String} {step : Step}
    (found : typeStep? m path = some step) : step.Named words home := by
  obtain ⟨ref,type,rfl⟩ := Option.map_eq_some_iff.mp found
  exact Step.namedType (typeOver covers distinct inside type) Bindings.overEmpty

theorem rootOver {m : Codebase} (inside : m ∈ home.chain) {t : ResolvedType}
    (found : home.rootType? m = some t) : t.Over words ∧ t.isArray = false := by
  simp only [Codebase.rootType?,bind,Option.bind_eq_some_iff] at found
  obtain ⟨name,_,ref,type,last⟩ := found
  cases Option.some.inj last
  exact ⟨ResolvedType.overSymbol (typeOver covers distinct inside type) Bindings.overEmpty,rfl⟩

theorem topLevelOver {m : Codebase} (inside : m ∈ home.chain) {name : String} {step : Step}
    (found : topLevelStep? m name = some step) : step.Named words home := by
  rcases topLevelCases found with ⟨ref,type,rfl⟩ | rfl
  · obtain ⟨d,further,own⟩ := List.exists_of_findSome?_eq_some type
    obtain ⟨h,first,rfl⟩ := Option.map_eq_some_iff.mp own
    have accepted := List.find?_some first
    split at accepted
    · rename_i s live
      exact Step.namedType
        (covers.types (Codebase.chainWithin distinct inside d further) live accepted) Bindings.overEmpty
    · cases accepted
  · exact ⟨trivial,rfl⟩

variable (worded : below.Over words home)
include worded

theorem upperBoundOver {t u : ResolvedType} (known : t.Over words)
    (found : upperBound home below t = some u) : u.Over words := by
  unfold upperBound at found
  split at found
  · rename_i v denotes
    simp only [bind,Option.bind_eq_some_iff] at found
    obtain ⟨⟨d,s⟩,owner,found⟩ := found
    have inside := (Codebase.resolveChain.mp owner).1
    split at found
    · obtain ⟨resolved,hit,last⟩ := Option.bind_eq_some_iff.mp found
      cases Option.some.inj last
      have bound := worded.resolve inside known.bindings hit
      exact ResolvedType.overOf bound.denotes bound.bindings
    · obtain ⟨root,hit,last⟩ := Option.bind_eq_some_iff.mp found
      cases Option.some.inj last
      have bound := (rootOver covers distinct inside hit).1
      exact ResolvedType.overOf bound.denotes bound.bindings
  · cases Option.some.inj found
    exact known

theorem supertypesOver {t : ResolvedType} (known : t.Over words) :
    ∀ u ∈ supertypes home below t, u.Over words := by
  intro u inside
  unfold supertypes at inside
  split at inside
  · exact (rootOver covers distinct (Codebase.chainSelf home) (Option.mem_toList.mp inside)).1
  · split at inside
    · exact worded.superclasses known.bindings u inside
    · exact upperBoundOver covers distinct worded known (Option.mem_toList.mp inside)
    · cases inside

theorem ancestorsOver {t : ResolvedType} (known : t.Over words) :
    ∀ u ∈ ancestors home below t, u.Over words := fun u inside =>
  (closureAll (supertypesOver covers distinct worded) (supertypesOver covers distinct worded known) u
    inside).1

omit covers distinct in
theorem walkStartOver {t u : ResolvedType} (known : t.Over words) (found : walkStart? below t = some u) :
    u.Over words := by
  simp only [walkStart?,bind,Option.bind_eq_some_iff] at found
  obtain ⟨start,owner,last⟩ := found
  split at last
  · cases last
  · cases Option.some.inj last
    exact worded.owner known owner

theorem homeSupertypesOver {t : ResolvedType} (known : t.Over words) :
    ∀ u ∈ homeSupertypes home below t, u.Over words := by
  intro u inside
  unfold homeSupertypes at inside
  split at inside
  · exact supertypesOver covers distinct worded known u inside
  · cases inside

theorem memberLevelsOver {t : ResolvedType} (known : t.Over words) :
    ∀ u ∈ memberLevels home below t, u.Over words := by
  intro u inside
  unfold memberLevels at inside
  split at inside
  · cases inside
  · rename_i start found
    refine (closureAll (homeSupertypesOver covers distinct worded) ?_ u inside).1
    simpa using walkStartOver worded known found

theorem membersWhereOver {t : ResolvedType} (known : t.Over words) {name : String}
    {accept : Symbol → Bool} {entry : SymbolRef × Bindings}
    (inside : entry ∈ membersWhere home below t name accept) :
    Bindings.Over words entry.2 ∧ (home.resolve? entry.1).isSome := by
  unfold membersWhere at inside
  split at inside
  · cases inside
  · rename_i start found
    rw [firstFoundHit] at inside
    obtain ⟨level,reached,declared⟩ := firstHitMem inside
    have above : level.Over words := by
      refine (closureAll (homeSupertypesOver covers distinct worded) ?_ level reached).1
      simpa using walkStartOver worded known found
    obtain ⟨live,same⟩ := declaredLive declared
    exact ⟨same ▸ above.bindings,live⟩

theorem memberStepOver {t : ResolvedType} (known : t.Over words) {name : String}
    {accept : Symbol → Bool} {step : Step}
    (found : memberStep? home below t name accept = some (some step)) : step.Named words home := by
  obtain ⟨⟨ref,bindings⟩,first,leads⟩ := Option.map_eq_some_iff.mp found
  have inside := List.mem_of_mem_head? (Option.mem_def.mpr first)
  exact stepToOver covers (membersWhereOver covers distinct worded known inside).1 leads

theorem staticStepOver {m : Codebase} (inside : m ∈ home.chain) {owner : List String} {name : String}
    {typeOnly : Bool} {step : Step}
    (found : staticStep? home below m owner name typeOnly = some (some step)) : step.Named words home := by
  simp only [staticStep?,bind,Option.bind_eq_some_iff] at found
  obtain ⟨ref,type,member⟩ := found
  have known := ResolvedType.overSymbol (typeOver covers distinct inside type) Bindings.overEmpty
  exact memberStepOver covers distinct worded known member

theorem importedOver {m : Codebase} (inside : m ∈ home.chain) {source : SourceFile} {name : String}
    {typeOnly : Bool} {step : Step}
    (found : importedStep? home below m source name typeOnly = some step) : step.Named words home := by
  rcases importedCases found with ⟨path,type⟩ | ⟨owner,static⟩
  · exact typeStepOver covers distinct inside type
  · exact staticStepOver covers distinct worded inside static

theorem levelOver {site : Site} (inside : site.codebase ∈ home.chain)
    (known : Bindings.Over words site.bindings) {name : String} {typeOnly : Bool} {h : Handle}
    {s : Symbol} (live : site.codebase.table.symbol? h = some s) {step : Step}
    (found : levelStep? home below site name typeOnly h s = some (some step)) : step.Named words home := by
  rcases levelCases live found with ⟨type,member⟩ | ⟨c,_,bound | free⟩ | ⟨source,imported⟩ | top
  · have known := ResolvedType.overSymbol (covers.types inside live type) known
    exact memberStepOver covers distinct worded known member
  · exact stepToOver covers known bound
  · exact stepToOver covers Bindings.overEmpty free
  · exact importedOver covers distinct worded inside imported
  · exact topLevelOver covers distinct inside top

theorem firstStepOver {site : Site} (inside : site.codebase ∈ home.chain)
    (known : Bindings.Over words site.bindings) {name : String} {typeOnly : Bool} {step : Step}
    (found : firstStep? home below site name typeOnly = some step) :
    step.Over words home ∧ (typeParameter? site.codebase
      (site.codebase.table.scopeChain site.scope).levels site.bindings name = none → step.isScalar) := by
  have live := site.codebase.table.climbLive site.codebase.table.symbols.slots.size site.scope
  rcases firstCases found with ⟨t,parameter,rfl⟩ | ⟨h,s,level,leads⟩ | top
  · -- Only a type parameter can stand for an array.
    refine ⟨typeParameterOver covers inside known live parameter,fun none => ?_⟩
    simp [none] at parameter
  · have named := levelOver covers distinct worded inside known level leads
    exact ⟨named.worded,fun _ => named.scalar⟩
  · have named := topLevelOver covers distinct inside top
    exact ⟨named.worded,fun _ => named.scalar⟩

theorem typeMemberOver {t : ResolvedType} (known : t.Over words) {name : String} {isLast : Bool}
    {step : Step} (found : typeMember? home below t name isLast = some step) : step.Named words home := by
  simp only [typeMember?,bind,Option.bind_eq_some_iff] at found
  obtain ⟨owner,owns,found⟩ := found
  split at found
  · cases found
  · exact memberStepOver covers distinct worded (worded.owner known owns) (Option.join_eq_some_iff.mp found)

omit distinct in
theorem typeOfOver {ref : SymbolRef} {bindings : Bindings} (known : Bindings.Over words bindings)
    {t : ResolvedType} (found : typeOf home below ref bindings = some t) : t.Over words := by
  simp only [typeOf,bind,Option.bind_eq_some_iff] at found
  obtain ⟨⟨d,s⟩,resolved,found⟩ := found
  have inside := (Codebase.resolveChain.mp resolved).1
  split at found
  · obtain ⟨parent,_,hit⟩ := Option.bind_eq_some_iff.mp found
    exact worded.resolve inside known hit
  · obtain ⟨result,_,hit⟩ := Option.bind_eq_some_iff.mp found
    exact worded.resolve inside known hit
  · rename_i body
    cases Option.some.inj found
    exact ResolvedType.overSymbol (knownType covers resolved (SymbolTable.typeBody body)) known
  · cases found

theorem nextStepOver {m : Codebase} (inside : m ∈ home.chain) {step next : Step}
    (known : step.Over words home) {name : String} {isLast : Bool}
    (found : nextStep? home below m step name isLast = some next) : next.Named words home := by
  cases step with
  | package path =>
    rcases packageCases found with ⟨ref,type,rfl⟩ | rfl
    · exact Step.namedType (typeOver covers distinct inside type) Bindings.overEmpty
    · exact ⟨trivial,rfl⟩
  | type t => exact typeMemberOver covers distinct worded known found
  | value ref bindings =>
    obtain ⟨t,type,member⟩ := Option.bind_eq_some_iff.mp found
    exact typeMemberOver covers distinct worded (typeOfOver covers worded known.2 type) member

theorem followOver {m : Codebase} (inside : m ∈ home.chain) {names : List String} {step last : Step}
    (known : step.Over words home) (found : follow? home below m step names = some last) :
    last.Over words home ∧ (step.isScalar ∨ names ≠ [] → last.isScalar) := by
  induction names generalizing step with
  | nil =>
    cases Option.some.inj found
    exact ⟨known,by simp⟩
  | cons name rest ih =>
    obtain ⟨next,leads,found⟩ := Option.bind_eq_some_iff.mp found
    have named := nextStepOver covers distinct worded inside known leads
    obtain ⟨last,scalar⟩ := ih named.worded found
    exact ⟨last,fun _ => scalar (.inl named.scalar)⟩

theorem namedOver {site : Site} (inside : site.codebase ∈ home.chain)
    (known : Bindings.Over words site.bindings) {first : String} {rest : List String} {typeOnly : Bool}
    {t : ResolvedType} (found : namedType? home below site first rest typeOnly = some t) :
    t.Over words ∧ ((rest = [] → typeParameter? site.codebase
      (site.codebase.table.scopeChain site.scope).levels site.bindings first = none) →
      t.isArray = false) := by
  simp only [namedType?,bind,Option.bind_eq_some_iff] at found
  obtain ⟨start,starts,last,follows,found⟩ := found
  split at found
  · cases Option.some.inj found
    obtain ⟨known,plain⟩ := firstStepOver covers distinct worded inside known starts
    obtain ⟨worded,scalar⟩ := followOver covers distinct worded inside known follows
    refine ⟨worded,fun alone => ?_⟩
    have single : start.isScalar ∨ rest ≠ [] := by
      by_cases empty : rest = []
      · exact .inl (plain (alone empty))
      · exact .inr empty
    simpa [Step.isScalar] using scalar single
  · cases found

omit distinct in
theorem bindArgumentsOver {site : Site} (inside : site.codebase ∈ home.chain)
    (known : Bindings.Over words site.bindings) {ref : SymbolRef} {d : Codebase} {s : Symbol}
    (found : home.resolve? ref = some (d,s)) {pairs : List (TypeParameter × TypeExpr)}
    (declared : ∀ pair ∈ pairs, pair.1 ∈ s.typeParameters) {bindings : Bindings}
    (start : Bindings.Over words bindings) :
    Bindings.Over words (bindArguments below site ref pairs bindings) := by
  induction pairs generalizing bindings with
  | nil => exact start
  | cons pair rest ih =>
    obtain ⟨parameter,argument⟩ := pair
    obtain ⟨chained,same,live⟩ := Codebase.resolveChain.mp found
    have var : words.vars ⟨ref,parameter.name⟩ :=
      same ▸ covers.vars chained live (declared (parameter,argument) (by simp))
    refine ih (fun pair later => declared pair (by simp [later])) (start.insert var ?_)
    cases resolved : below.resolve site argument with
    | none => exact ResolvedType.overOf var Bindings.overEmpty
    | some t => exact worded.resolve inside known resolved

omit distinct in
theorem applyOver {site : Site} (inside : site.codebase ∈ home.chain)
    (known : Bindings.Over words site.bindings) {t : ResolvedType} (start : t.Over words)
    (e : TypeExpr) : (applyArguments home below site e t).Over words := by
  simp only [applyArguments]
  split
  · rename_i ref s found
    obtain ⟨ref',_,found⟩ := Option.bind_eq_some_iff.mp found
    obtain ⟨⟨d,s'⟩,resolved,same⟩ := Option.map_eq_some_iff.mp found
    cases same
    refine ResolvedType.overOf start.denotes ?_
    exact bindArgumentsOver covers worded inside known resolved
      (fun pair listed => (List.of_mem_zip listed).1) start.bindings
  · exact ResolvedType.overOf start.denotes start.bindings

theorem resolveOver {site : Site} (inside : site.codebase ∈ home.chain)
    (known : Bindings.Over words site.bindings) {e : TypeExpr} {t : ResolvedType}
    (found : resolveStep home below site e = some t) : t.Over words := by
  unfold resolveStep at found
  split at found
  · cases found
  · simp only at found
    split at found
    · cases Option.some.inj found
      exact ResolvedType.overOf trivial Bindings.overEmpty
    · obtain ⟨named,stands,rfl⟩ := Option.map_eq_some_iff.mp found
      refine applyOver covers worded inside known ?_ e
      rcases (Option.orElse_eq_some _ _ _).mp stands with types | ⟨_,values⟩
      · exact (namedOver covers distinct worded inside known types).1
      · split at values
        · cases values
        · exact (namedOver covers distinct worded inside known values).1

theorem superclassesOver {ref : SymbolRef} {bindings : Bindings} (known : Bindings.Over words bindings) :
    ∀ t ∈ superclassesStep home below ref bindings, t.Over words := by
  intro t listed
  unfold superclassesStep at listed
  split at listed
  · cases listed
  · rename_i d s found
    have inside := (Codebase.resolveChain.mp found).1
    have header : ∀ {e : TypeExpr} {u}, (below.resolve ⟨d,ref.handle,bindings,.header⟩ e).filter
        (fun t => t.class?.isSome && t.class? ≠ some ref) = some u → u.Over words := by
      intro e u kept
      exact worded.resolve inside known (Option.filter_eq_some_iff.mp kept).1
    split at listed
    · simp only [List.mem_append,Option.mem_toList,List.mem_filterMap] at listed
      rcases listed with (superclass | ⟨e,_,interface⟩) | root
      · obtain ⟨e,_,kept⟩ := Option.bind_eq_some_iff.mp superclass
        exact header kept
      · exact header interface
      · split at root
        · cases root
        · exact (rootOver covers distinct inside (Option.filter_eq_some_iff.mp root).1).1
    · cases listed

theorem ownerOver {t u : ResolvedType} (known : t.Over words) (found : ownerStep home below t = some u) :
    u.Over words := by
  unfold ownerStep at found
  split at found
  · obtain ⟨bound,bounds,owns⟩ := Option.bind_eq_some_iff.mp found
    exact worded.owner (upperBoundOver covers distinct worded known bounds) owns
  · cases Option.some.inj found
    exact known

omit worded

theorem depthOver (depth : Nat) : (atDepth home depth).Over words home := by
  induction depth with
  | zero =>
    constructor
    · intro site e t _ _ found
      cases found
    · intro ref bindings _ t listed
      cases listed
    · intro t u known found
      simp only [atDepth,deepest] at found
      split at found
      · cases found
      · cases Option.some.inj found
        exact known
  | succ depth ih =>
    exact ⟨fun inside known found => resolveOver covers distinct ih inside known found,
      fun known => superclassesOver covers distinct ih known,ownerOver covers distinct ih⟩

end
end Answers
end CodeIndex
