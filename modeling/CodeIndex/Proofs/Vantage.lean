import CodeIndex.Proofs.Provenance
import CodeIndex.Proofs.Reading

/-! A dependency seen from what depends on it. Resolving inside a dependency runs on the resolver of the
project, over the project's chain. It comes to the same as resolving on the dependency's own resolver, with
one exception: an array is looked up as the root type that the project sees. Arrays come up where a header
inherits from one. -/
namespace CodeIndex

def Symbol.inherits (s : Symbol) : List TypeExpr :=
  match s.body with
  | .type _ header _ => header.superclass.toList ++ header.interfaces
  | _ => []

def SymbolTable.Scalar (t : SymbolTable) (scope : Handle) (e : TypeExpr) : Prop :=
  e.isArray = false ∧ ∀ level ∈ (t.scopeChain scope).levels, ∀ p ∈ level.2.typeParameters,
    e.segments ≠ [p.name]

namespace ResolvedType

mutual

def classes : ResolvedType → List SymbolRef
  | ⟨denoted,_,⟨entries⟩⟩ => (match denoted with
    | .symbol ref => [ref]
    | _ => []) ++ classesIn entries

def classesIn : List (TypeVar × ResolvedType) → List SymbolRef
  | [] => []
  | (_,t) :: rest => classes t ++ classesIn rest

end

mutual

theorem classesCount : (t : ResolvedType) → t.classes.length ≤ t.mentions
  | ⟨denoted,_,⟨entries⟩⟩ => by
    have inner := classesInCount entries
    unfold classes mentions
    cases denoted <;> simp <;> omega

theorem classesInCount : (entries : List (TypeVar × ResolvedType)) →
    (classesIn entries).length ≤ mentionsIn entries
  | [] => by simp [classesIn]
  | (_,t) :: rest => by
    have first := classesCount t
    have others := classesInCount rest
    unfold classesIn mentionsIn
    simp only [List.length_append]
    omega

end

theorem classesBound {entries : List (TypeVar × ResolvedType)} {t : ResolvedType}
    (bound : t ∈ entries.map Prod.snd) : ∀ ref ∈ t.classes, ref ∈ classesIn entries := by
  induction entries with
  | nil => cases bound
  | cons entry rest ih =>
    obtain ⟨v,u⟩ := entry
    intro ref mentioned
    unfold classesIn
    rcases List.mem_cons.mp bound with rfl | later
    · exact List.mem_append_left _ mentioned
    · exact List.mem_append_right _ (ih later ref mentioned)

theorem Over.narrow {words narrower : Vocabulary} {t : ResolvedType} (worded : t.Over words)
    (types : ∀ ref ∈ t.classes, narrower.types ref) (vars : ∀ v, words.vars v → narrower.vars v) :
    t.Over narrower := by
  induction worded with
  | @made denoted isArray bindings denotes keys bound ih =>
    obtain ⟨entries⟩ := bindings
    unfold classes at types
    refine .made ?_ (fun v key => vars v (keys v key)) fun u inside => ih u inside fun ref mentioned =>
      types ref (List.mem_append_right _ (classesBound inside ref mentioned))
    cases denoted with
    | symbol ref => exact types ref (by simp)
    | primitive => trivial
    | typeVar v => exact vars v denotes

end ResolvedType

namespace Codebase

theorem symbolsCount (c : Codebase) : c.symbols.length ≤ c.slotCount := by
  have counts : ∀ (cs : List Codebase) (n : Nat),
      n + (cs.flatMap fun d => d.table.symbols.toList.map fun e => (d.ref e.1,e.2)).length ≤
        cs.foldl (fun total d => total + d.table.symbols.slots.size) n := by
    intro cs
    induction cs with
    | nil => simp
    | cons d rest ih =>
      intro n
      have here : d.table.symbols.toList.length ≤ d.table.symbols.slots.size := by
        simpa [Arena.toList] using List.length_filterMap_le _ d.table.symbols.slots.toList.zipIdx
      have others := ih (n + d.table.symbols.slots.size)
      simp only [List.flatMap_cons,List.length_append,List.length_map,List.foldl_cons]
      omega
  simpa [symbols,slotCount] using counts c.chain 0

def references (home : Codebase) : Vocabulary where
  types := fun ref => ∃ d ∈ home.chain, d.id = ref.codebase
  vars := fun v => ∃ d ∈ home.chain, d.id = v.owner.codebase

theorem referencesCover (home : Codebase) : home.references.Covers home where
  types := fun inside _ _ => ⟨_,inside,rfl⟩
  vars := fun inside _ _ => ⟨_,inside,rfl⟩

def surroundings (home : Codebase) (t : ResolvedType) : Vocabulary where
  types := fun ref => ref ∈ home.symbols.map Prod.fst ++ t.classes
  vars := home.references.vars

theorem surroundingsCover (home : Codebase) (t : ResolvedType) : (home.surroundings t).Covers home where
  types := fun inside live _ =>
    List.mem_append_left _ (List.mem_map.mpr ⟨_,memSymbols inside live,rfl⟩)
  vars := fun inside _ _ => ⟨_,inside,rfl⟩

theorem overSurroundings {home : Codebase} {t : ResolvedType} (known : t.Over home.references) :
    t.Over (home.surroundings t) := by
  refine known.narrow (fun ref mentioned => ?_) fun v var => var
  exact List.mem_append_right _ mentioned

/-- A dependency as a project of the same language sees it. -/
structure Sees (project dependency : Codebase) : Prop where
  distinct : project.Distinct
  inside : dependency ∈ project.chain
  language : project.language = dependency.language

namespace Sees

variable {project dependency : Codebase} (sees : Sees project dependency)
include sees

theorem own : dependency.Distinct := Distinct.part sees.distinct (chainPart sees.inside)

theorem member {id : Nat} (known : ∃ d ∈ dependency.chain, d.id = id) :
    project.member? id = dependency.member? id := by
  obtain ⟨d,inside,rfl⟩ := known
  rw [memberChain (chainWithin sees.distinct sees.inside d inside),memberChain inside]

theorem resolve {ref : SymbolRef} (known : dependency.references.types ref) :
    project.resolve? ref = dependency.resolve? ref := by
  simp only [resolve?,sees.member known]

theorem root (m : Codebase) : project.rootType? m = dependency.rootType? m := by
  simp only [rootType?,sees.language]

end Sees

def ScalarHeaders (home : Codebase) : Prop :=
  ∀ d ∈ home.chain, ∀ entry ∈ d.table.symbols.toList, ∀ e ∈ entry.2.inherits,
    d.table.Scalar entry.1 e

theorem referenceLive {home : Codebase} {ref : SymbolRef} (live : (home.resolve? ref).isSome) :
    home.references.types ref := by
  obtain ⟨⟨d,s⟩,found⟩ := Option.isSome_iff_exists.mp live
  obtain ⟨inside,same,_⟩ := resolveChain.mp found
  exact ⟨d,inside,(congrArg SymbolRef.codebase same).symm⟩

end Codebase

namespace Answers

structure Fit (project dependency : Codebase) (t u : ResolvedType) : Prop where
  known : u.Over dependency.references
  near : u.Over (dependency.surroundings t)
  level : project.rootType? project = dependency.rootType? dependency ∨ u.isArray = false

structure Agree (project dependency : Codebase) (seen own : Answers) : Prop where
  worded : ∀ {words : Vocabulary}, words.Covers dependency → own.Over words dependency
  resolve : ∀ {site}, site.codebase ∈ dependency.chain →
    Bindings.Over dependency.references site.bindings → ∀ e, seen.resolve site e = own.resolve site e
  superclasses : ∀ {ref bindings}, dependency.references.types ref →
    Bindings.Over dependency.references bindings →
    seen.superclasses ref bindings = own.superclasses ref bindings
  owner : ∀ {t}, t.Over dependency.references → seen.owner t = own.owner t
  level : project.rootType? project = dependency.rootType? dependency ∨
    ∀ {ref bindings}, Bindings.Over dependency.references bindings →
      ∀ u ∈ own.superclasses ref bindings, u.isArray = false

section

variable {project dependency : Codebase} {seen own : Answers}
  (sees : Codebase.Sees project dependency) (agree : Agree project dependency seen own)
include sees agree

theorem upperBoundAgree {t : ResolvedType} (known : t.Over dependency.references) :
    upperBound project seen t = upperBound dependency own t := by
  unfold upperBound
  cases denotes : t.denoted with
  | symbol | primitive => rfl
  | typeVar v =>
    have owner : dependency.references.types v.owner := by
      have var := known.denotes
      rw [denotes] at var
      exact var
    simp only [sees.resolve owner,sees.root]
    cases found : dependency.resolve? v.owner with
    | none => rfl
    | some result =>
      have inside := (Codebase.resolveChain.mp found).1
      have same : ∀ e, seen.resolve ⟨result.1,v.owner.handle,t.bindings,.header⟩ e =
        own.resolve ⟨result.1,v.owner.handle,t.bindings,.header⟩ e := agree.resolve inside known.bindings
      simp only [bind,Option.bind_some,same]

theorem supertypesAgree {t u : ResolvedType} (fit : Fit project dependency t u) :
    supertypes project seen u = supertypes dependency own u := by
  unfold supertypes
  split
  · rename_i array
    rw [fit.level.resolve_right (by simp [array])]
  · cases denotes : u.denoted with
    | symbol ref =>
      have known : dependency.references.types ref :=
        fit.known.class (by simp [ResolvedType.class?,denotes])
      exact agree.superclasses known fit.known.bindings
    | primitive => rfl
    | typeVar => simp only [upperBoundAgree sees agree fit.known]

theorem supertypesFit {t u : ResolvedType} (fit : Fit project dependency t u) (denotes : u.class?.isSome) :
    ∀ v ∈ supertypes dependency own u, Fit project dependency t v := by
  intro v above
  have known := dependency.referencesCover
  have near := dependency.surroundingsCover t
  refine ⟨supertypesOver known sees.own (agree.worded known) fit.known v above,
    supertypesOver near sees.own (agree.worded near) fit.near v above,?_⟩
  rcases fit.level with roots | scalar
  · exact .inl roots
  · refine agree.level.imp_right fun headers => ?_
    obtain ⟨ref,denotes⟩ := Option.isSome_iff_exists.mp denotes
    have symbol : u.denoted = .symbol ref := by
      unfold ResolvedType.class? at denotes
      split at denotes
      · rename_i same
        rw [same,Option.some.inj denotes]
      · cases denotes
    simp only [supertypes,scalar,Bool.false_eq_true,if_false,symbol] at above
    exact headers fit.known.bindings v above

omit agree in
theorem walkAgree {t : ResolvedType} {next next' : ResolvedType → List ResolvedType}
    (same : ∀ {u}, Fit project dependency t u → u.class?.isSome → next' u = next u)
    (step : ∀ {u}, Fit project dependency t u → u.class?.isSome →
      ∀ v ∈ next u, Fit project dependency t v)
    {visited : List SymbolRef} {queue : List ResolvedType}
    (start : ∀ u ∈ queue, Fit project dependency t u) :
    closure next' (reach project t) visited queue = closure next (reach dependency t) visited queue := by
  have enough : ∀ c : Codebase,
      (unvisited (c.symbols.map Prod.fst ++ t.classes) visited).length ≤ reach c t := by
    intro c
    have fewer := List.length_filter_le (· ∉ visited) (c.symbols.map Prod.fst ++ t.classes)
    have symbols := c.symbolsCount
    have classes := t.classesCount
    simp only [List.length_append,List.length_map] at fewer
    unfold unvisited reach
    omega
  refine closureAgree (fun fit denotes => ?_) same step start (enough dependency) (enough project)
  refine ⟨fit.near.class denotes,?_⟩
  rcases List.mem_append.mp (fit.near.class denotes) with own | mentioned
  · obtain ⟨⟨_,s⟩,listed,rfl⟩ := List.mem_map.mp own
    obtain ⟨d,inside,held⟩ := List.mem_flatMap.mp listed
    refine List.mem_append_left _ (List.mem_map.mpr ⟨_,List.mem_flatMap.mpr ⟨d,?_,held⟩,rfl⟩)
    exact Codebase.chainWithin sees.distinct sees.inside d inside
  · exact List.mem_append_right _ mentioned

theorem ancestorsAgree {t : ResolvedType} (known : t.Over dependency.references)
    (denotes : t.class?.isSome) (scalar : t.isArray = false) :
    ancestors project seen t = ancestors dependency own t := by
  have fit : Fit project dependency t t := ⟨known,Codebase.overSurroundings known,.inr scalar⟩
  unfold ancestors
  rw [supertypesAgree sees agree fit]
  exact walkAgree sees (fun fit _ => supertypesAgree sees agree fit)
    (fun fit denotes => supertypesFit sees agree fit denotes) (supertypesFit sees agree fit denotes)

omit agree in
theorem declaringAgree {t : ResolvedType} (known : t.Over dependency.references) :
    declaringCodebase? project t = declaringCodebase? dependency t := by
  unfold declaringCodebase?
  cases denotes : t.class? with
  | none => rfl
  | some ref => exact sees.member (known.class denotes)

theorem homeSupertypesAgree {t u : ResolvedType} (fit : Fit project dependency t u) :
    homeSupertypes project seen u = homeSupertypes dependency own u := by
  simp only [homeSupertypes,declaringAgree sees fit.known,supertypesAgree sees agree fit]

theorem homeSupertypesFit {t u : ResolvedType} (fit : Fit project dependency t u)
    (denotes : u.class?.isSome) : ∀ v ∈ homeSupertypes dependency own u, Fit project dependency t v := by
  intro v above
  unfold homeSupertypes at above
  split at above
  · exact supertypesFit sees agree fit denotes v above
  · cases above

omit sees in
theorem walkStartAgree {t : ResolvedType} (known : t.Over dependency.references) :
    walkStart? seen t = walkStart? own t := by
  simp only [walkStart?,agree.owner known]

omit sees in
theorem walkStartFit {t start : ResolvedType} (known : t.Over dependency.references)
    (found : walkStart? own t = some start) : Fit project dependency t start := by
  refine ⟨walkStartOver (agree.worded dependency.referencesCover) known found,
    walkStartOver (agree.worded (dependency.surroundingsCover t)) (Codebase.overSurroundings known) found,
    .inr ?_⟩
  simp only [walkStart?,bind,Option.bind_eq_some_iff] at found
  obtain ⟨owner,_,last⟩ := found
  split at last
  · cases last
  · rename_i scalar
    cases Option.some.inj last
    simpa using scalar

theorem levelsAgree {t start : ResolvedType} (known : t.Over dependency.references)
    (found : walkStart? own t = some start) :
    closure (homeSupertypes project seen) (reach project t) [] [start] =
      closure (homeSupertypes dependency own) (reach dependency t) [] [start] := by
  refine walkAgree sees (fun fit _ => homeSupertypesAgree sees agree fit)
    (fun fit denotes => homeSupertypesFit sees agree fit denotes) ?_
  simpa using walkStartFit agree known found

theorem memberLevelsAgree {t : ResolvedType} (known : t.Over dependency.references) :
    memberLevels project seen t = memberLevels dependency own t := by
  simp only [memberLevels,walkStartAgree agree known]
  split
  · rfl
  · rename_i start found
    exact levelsAgree sees agree known found

theorem membersOfAgree {t : ResolvedType} (known : t.Over dependency.references) :
    membersOf project seen t = membersOf dependency own t := by
  simp only [membersOf,memberLevelsAgree sees agree known]
  refine List.flatMap_congr fun level inside => ?_
  have covers := dependency.referencesCover
  rw [declaringAgree sees (memberLevelsOver covers sees.own (agree.worded covers) known level inside)]

omit agree in
theorem declaredAgree {t : ResolvedType} (known : t.Over dependency.references) (name : String)
    (accept : Symbol → Bool) :
    declaredMembers project name accept t = declaredMembers dependency name accept t := by
  simp only [declaredMembers,declaringAgree sees known]

theorem membersWhereAgree {t : ResolvedType} (known : t.Over dependency.references) (name : String)
    (accept : Symbol → Bool) :
    membersWhere project seen t name accept = membersWhere dependency own t name accept := by
  simp only [membersWhere,walkStartAgree agree known]
  split
  · rfl
  · rename_i start found
    rw [firstFoundHit,firstFoundHit,levelsAgree sees agree known found]
    refine firstHitCongr fun level reached => declaredAgree sees ?_ name accept
    have covers := dependency.referencesCover
    have worded := agree.worded covers
    refine (closureAll (homeSupertypesOver covers sees.own worded) ?_ level reached).1
    simpa using walkStartOver worded known found

omit agree in
theorem stepToAgree {ref : SymbolRef} (known : dependency.references.types ref) (bindings : Bindings) :
    stepTo project ref bindings = stepTo dependency ref bindings := by
  simp only [stepTo,sees.resolve known]

theorem memberStepAgree {t : ResolvedType} (known : t.Over dependency.references) (name : String)
    (accept : Symbol → Bool) :
    memberStep? project seen t name accept = memberStep? dependency own t name accept := by
  simp only [memberStep?,membersWhereAgree sees agree known]
  refine Option.map_congr fun entry first => stepToAgree sees (Codebase.referenceLive ?_) entry.2
  have covers := dependency.referencesCover
  exact (membersWhereOver covers sees.own (agree.worded covers) known (List.mem_of_mem_head? first)).2

theorem staticStepAgree {m : Codebase} (inside : m ∈ dependency.chain) (owner : List String)
    (name : String) (typeOnly : Bool) :
    staticStep? project seen m owner name typeOnly = staticStep? dependency own m owner name typeOnly := by
  unfold staticStep?
  cases found : m.type? owner with
  | none => rfl
  | some ref =>
    have known := typeOver dependency.referencesCover sees.own inside found
    exact memberStepAgree sees agree (ResolvedType.overSymbol known Bindings.overEmpty) name _

theorem importedAgree {m : Codebase} (inside : m ∈ dependency.chain) (source : SourceFile) (name : String)
    (typeOnly : Bool) :
    importedStep? project seen m source name typeOnly =
      importedStep? dependency own m source name typeOnly := by
  simp only [importedStep?,staticallyImported?,staticStepAgree sees agree inside,sees.language]

theorem fileStepAgree {m : Codebase} (inside : m ∈ dependency.chain) (source : SourceFile)
    (members : Members) (name : String) (typeOnly : Bool) :
    fileStep? project seen m source members name typeOnly =
      fileStep? dependency own m source members name typeOnly := by
  unfold fileStep?
  split
  · exact stepToAgree sees ⟨m,inside,rfl⟩ {}
  · exact importedAgree sees agree inside source name typeOnly

theorem levelAgree {site : Site} (inside : site.codebase ∈ dependency.chain)
    (known : Bindings.Over dependency.references site.bindings) (name : String) (typeOnly : Bool)
    (h : Handle) (s : Symbol) :
    levelStep? project seen site name typeOnly h s = levelStep? dependency own site name typeOnly h s := by
  have step : ∀ c, stepTo project (site.codebase.ref c) site.bindings =
      stepTo dependency (site.codebase.ref c) site.bindings :=
    fun c => stepToAgree sees ⟨_,inside,rfl⟩ site.bindings
  have declared : dependency.references.types (site.codebase.ref h) := ⟨_,inside,rfl⟩
  have type := ResolvedType.overSymbol declared known
  simp only [levelStep?,memberStepAgree sees agree type,fileStepAgree sees agree inside,step]

theorem firstStepAgree {site : Site} (inside : site.codebase ∈ dependency.chain)
    (known : Bindings.Over dependency.references site.bindings) (name : String) (typeOnly : Bool) :
    firstStep? project seen site name typeOnly = firstStep? dependency own site name typeOnly := by
  simp only [firstStep?,levelAgree sees agree inside known]

theorem typeMemberAgree {t : ResolvedType} (known : t.Over dependency.references) (name : String)
    (isLast : Bool) : typeMember? project seen t name isLast = typeMember? dependency own t name isLast := by
  unfold typeMember?
  rw [agree.owner known]
  cases found : own.owner t with
  | none => rfl
  | some owner =>
    have owns := (agree.worded dependency.referencesCover).owner known found
    simp only [bind,Option.bind_some,memberStepAgree sees agree owns]

theorem typeOfAgree {ref : SymbolRef} (declared : dependency.references.types ref) {bindings : Bindings}
    (known : Bindings.Over dependency.references bindings) :
    typeOf project seen ref bindings = typeOf dependency own ref bindings := by
  unfold typeOf
  rw [sees.resolve declared]
  cases found : dependency.resolve? ref with
  | none => rfl
  | some result =>
    have inside := (Codebase.resolveChain.mp found).1
    have same : ∀ scope e, seen.resolve ⟨result.1,scope,bindings,.body⟩ e =
        own.resolve ⟨result.1,scope,bindings,.body⟩ e := fun scope => agree.resolve inside known
    simp only [bind,Option.bind_some,same]

theorem nextStepAgree {m : Codebase} {step : Step} (known : step.Over dependency.references dependency)
    (name : String) (isLast : Bool) :
    nextStep? project seen m step name isLast = nextStep? dependency own m step name isLast := by
  cases step with
  | package path => rfl
  | type t => exact typeMemberAgree sees agree known name isLast
  | value ref bindings =>
    obtain ⟨live,bound⟩ := known
    unfold nextStep?
    simp only [typeOfAgree sees agree (Codebase.referenceLive live) bound]
    cases found : typeOf dependency own ref bindings with
    | none => rfl
    | some t =>
      have covers := dependency.referencesCover
      exact typeMemberAgree sees agree (typeOfOver covers (agree.worded covers) bound found) name isLast

theorem followAgree {m : Codebase} (inside : m ∈ dependency.chain) {step : Step}
    (known : step.Over dependency.references dependency) (names : List String) :
    follow? project seen m step names = follow? dependency own m step names := by
  induction names generalizing step with
  | nil => rfl
  | cons name rest ih =>
    unfold follow?
    rw [nextStepAgree sees agree known]
    cases found : nextStep? dependency own m step name rest.isEmpty with
    | none => rfl
    | some next =>
      have covers := dependency.referencesCover
      exact ih (nextStepOver covers sees.own (agree.worded covers) inside known found).worded

theorem namedAgree {site : Site} (inside : site.codebase ∈ dependency.chain)
    (known : Bindings.Over dependency.references site.bindings) (first : String) (rest : List String)
    (typeOnly : Bool) :
    namedType? project seen site first rest typeOnly = namedType? dependency own site first rest typeOnly := by
  unfold namedType?
  rw [firstStepAgree sees agree inside known]
  cases found : firstStep? dependency own site first typeOnly with
  | none => rfl
  | some start =>
    have covers := dependency.referencesCover
    have worded := (firstStepOver covers sees.own (agree.worded covers) inside known found).1
    simp only [bind,Option.bind_some,followAgree sees agree inside worded]

omit sees in
theorem bindAgree {site : Site} (inside : site.codebase ∈ dependency.chain)
    (known : Bindings.Over dependency.references site.bindings) (ref : SymbolRef)
    (pairs : List (TypeParameter × TypeExpr)) (bindings : Bindings) :
    bindArguments seen site ref pairs bindings = bindArguments own site ref pairs bindings := by
  induction pairs generalizing bindings with
  | nil => rfl
  | cons pair rest ih => simp only [bindArguments,agree.resolve inside known,ih]

theorem applyAgree {site : Site} (inside : site.codebase ∈ dependency.chain)
    (known : Bindings.Over dependency.references site.bindings) {t : ResolvedType}
    (start : t.Over dependency.references) (e : TypeExpr) :
    applyArguments project seen site e t = applyArguments dependency own site e t := by
  have same : ((t.class?).bind fun ref => (project.resolve? ref).map fun found => (ref,found.2)) =
      (t.class?).bind fun ref => (dependency.resolve? ref).map fun found => (ref,found.2) := by
    cases denotes : t.class? with
    | none => rfl
    | some ref => simp only [Option.bind_some,sees.resolve (start.class denotes)]
  have kept : ResolvedType.class? { t with isArray := t.isArray || e.isArray } = t.class? := rfl
  simp only [applyArguments,kept,same,bindAgree agree inside known]

theorem resolveAgree {site : Site} (inside : site.codebase ∈ dependency.chain)
    (known : Bindings.Over dependency.references site.bindings) (e : TypeExpr) :
    resolveStep project seen site e = resolveStep dependency own site e := by
  unfold resolveStep
  split
  · rfl
  · rename_i first rest _
    simp only [sees.language,namedAgree sees agree inside known]
    split
    · rfl
    · refine Option.map_congr fun t found => applyAgree sees agree inside known ?_ e
      have covers := dependency.referencesCover
      rcases (Option.orElse_eq_some _ _ _).mp found with types | ⟨_,values⟩
      · exact (namedOver covers sees.own (agree.worded covers) inside known types).1
      · split at values
        · cases values
        · exact (namedOver covers sees.own (agree.worded covers) inside known values).1

theorem superclassesAgree {ref : SymbolRef} (declared : dependency.references.types ref)
    {bindings : Bindings} (known : Bindings.Over dependency.references bindings) :
    superclassesStep project seen ref bindings = superclassesStep dependency own ref bindings := by
  unfold superclassesStep
  rw [sees.resolve declared]
  cases found : dependency.resolve? ref with
  | none => rfl
  | some result =>
    have inside := (Codebase.resolveChain.mp found).1
    have same : ∀ e, seen.resolve ⟨result.1,ref.handle,bindings,.header⟩ e =
      own.resolve ⟨result.1,ref.handle,bindings,.header⟩ e := agree.resolve inside known
    simp only [same,sees.root]

theorem ownerAgree {t : ResolvedType} (known : t.Over dependency.references) :
    ownerStep project seen t = ownerStep dependency own t := by
  unfold ownerStep
  rw [upperBoundAgree sees agree known]
  split
  · cases found : upperBound dependency own t with
    | none => rfl
    | some bound =>
      have covers := dependency.referencesCover
      exact agree.owner (upperBoundOver covers sees.own (agree.worded covers) known found)
  · rfl

end

section

variable {home : Codebase} {words : Vocabulary} (covers : words.Covers home) (distinct : home.Distinct)
include covers distinct

theorem resolveScalar {below : Answers} (worded : below.Over words home) {site : Site}
    (inside : site.codebase ∈ home.chain) (known : Bindings.Over words site.bindings) {e : TypeExpr}
    (scalar : site.codebase.table.Scalar site.scope e) {t : ResolvedType}
    (found : resolveStep home below site e = some t) : t.isArray = false := by
  obtain ⟨plain,alone⟩ := scalar
  unfold resolveStep at found
  split at found
  · cases found
  · rename_i first rest segments
    simp only at found
    split at found
    · cases Option.some.inj found
      exact plain
    · obtain ⟨named,stands,rfl⟩ := Option.map_eq_some_iff.mp found
      have parameter : rest = [] → typeParameter? site.codebase
          (site.codebase.table.scopeChain site.scope).levels site.bindings first = none := by
        rintro rfl
        refine List.findSome?_eq_none_iff.mpr fun level outer => if_neg ?_
        rw [List.any_eq_true]
        rintro ⟨p,declared,same⟩
        exact alone level outer p declared (by rw [segments,of_decide_eq_true same])
      have scalar : named.isArray = false := by
        rcases (Option.orElse_eq_some _ _ _).mp stands with types | ⟨_,values⟩
        · exact (namedOver covers distinct worded inside known types).2 parameter
        · split at values
          · cases values
          · exact (namedOver covers distinct worded inside known values).2 parameter
      simp only [applyArguments]
      split <;> simp [scalar,plain]

theorem superclassesScalar (headers : home.ScalarHeaders) (depth : Nat) {ref : SymbolRef}
    {bindings : Bindings} (known : Bindings.Over words bindings) :
    ∀ u ∈ (atDepth home depth).superclasses ref bindings, u.isArray = false := by
  cases depth with
  | zero => exact fun _ none => by cases none
  | succ depth =>
    intro u listed
    change u ∈ superclassesStep home (atDepth home depth) ref bindings at listed
    unfold superclassesStep at listed
    split at listed
    · cases listed
    · rename_i d s found
      obtain ⟨inside,_,live⟩ := Codebase.resolveChain.mp found
      have entry := (Arena.memToList d.table.symbols ref.handle s).mpr live
      have inherited : ∀ e ∈ s.inherits, ((atDepth home depth).resolve
          ⟨d,ref.handle,bindings,.header⟩ e).filter (fun t => t.class?.isSome && t.class? ≠ some ref) =
            some u → u.isArray = false := by
        intro e written kept
        obtain ⟨resolved,_⟩ := Option.filter_eq_some_iff.mp kept
        cases depth with
        | zero => cases resolved
        | succ depth =>
          have scalar : d.table.Scalar ref.handle e := headers d inside _ entry e written
          have found : resolveStep home (atDepth home depth) ⟨d,ref.handle,bindings,.header⟩ e = some u :=
            resolved
          exact resolveScalar covers distinct (depthOver covers distinct depth) inside known scalar found
      split at listed
      · rename_i kind header members body
        simp only [Symbol.inherits,body,List.mem_append,Option.mem_toList] at inherited
        simp only [List.mem_append,Option.mem_toList,List.mem_filterMap] at listed
        rcases listed with (superclass | ⟨e,written,interface⟩) | root
        · obtain ⟨e,written,kept⟩ := Option.bind_eq_some_iff.mp superclass
          exact inherited e (.inl written) kept
        · exact inherited e (.inr written) interface
        · split at root
          · cases root
          · exact (rootOver covers distinct inside (Option.filter_eq_some_iff.mp root).1).2
      · cases listed

end

theorem depthAgree {project dependency : Codebase} (sees : Codebase.Sees project dependency)
    (level : project.rootType? project = dependency.rootType? dependency ∨ dependency.ScalarHeaders)
    (depth : Nat) :
    Agree project dependency (atDepth project depth) (atDepth dependency depth) := by
  induction depth with
  | zero =>
    exact
      { worded := fun covers => depthOver covers sees.own 0
        resolve := fun _ _ _ => rfl
        superclasses := fun _ _ => rfl
        owner := fun _ => rfl
        level := .inr fun _ _ none => by cases none }
  | succ depth ih =>
    exact
      { worded := fun covers => depthOver covers sees.own (depth + 1)
        resolve := fun inside known e => resolveAgree sees ih inside known e
        superclasses := fun declared known => superclassesAgree sees ih declared known
        owner := fun known => ownerAgree sees ih known
        level := level.imp_right fun headers _ _ known =>
          superclassesScalar dependency.referencesCover sees.own headers (depth + 1) known }

end Answers

namespace Resolver

/-- A dependency means the same seen from any project, unless a header in it inherits from an array and the
project sees another root type. -/
theorem seenAlike {project dependency : Resolver} (distinct : project.home.Distinct)
    (inside : dependency.home ∈ project.home.chain)
    (language : project.home.language = dependency.home.language)
    (depth : project.depth = dependency.depth)
    (level : project.home.rootType? project.home = dependency.home.rootType? dependency.home ∨
      dependency.home.ScalarHeaders) :
    (∀ {t : ResolvedType}, t.class?.isSome → t.isArray = false → t.Over dependency.home.references →
      project.supertypes t = dependency.supertypes t ∧
      project.ancestors t = dependency.ancestors t ∧
      project.membersOf t = dependency.membersOf t ∧
      ∀ name, project.members t name = dependency.members t name) ∧
    ∀ {ref bindings}, dependency.home.references.types ref →
      Bindings.Over dependency.home.references bindings →
      project.typeOf ref bindings = dependency.typeOf ref bindings := by
  have sees : Codebase.Sees project.home dependency.home := ⟨distinct,inside,language⟩
  have agree : Answers.Agree project.home dependency.home project.answers dependency.answers := by
    unfold answers
    rw [depth]
    exact Answers.depthAgree sees level dependency.depth
  constructor
  · intro t denotes scalar known
    exact ⟨Answers.supertypesAgree sees agree ⟨known,Codebase.overSurroundings known,.inr scalar⟩,
      Answers.ancestorsAgree sees agree known denotes scalar,Answers.membersOfAgree sees agree known,
      fun name => Answers.membersWhereAgree sees agree known name _⟩
  · intro ref bindings declared known
    exact Answers.typeOfAgree sees agree declared known

def heirFile (isArray : Bool) : FileDecl where
  path := "p/Heir.java"
  package := ["p"]
  types :=
    let superclass : TypeExpr := { TypeExpr.simple "Base" with isArray }
    [{ outline := { name := "Base", kind := .type .classType } },
     { outline := { name := "Heir", kind := .type .classType, header := { superclass } } }]

def rootFile : FileDecl where
  path := "java/lang/Object.java"
  package := ["java","lang"]
  types := [{ outline := { name := "Object", kind := .type .classType } }]

def heirLibrary (isArray : Bool) : Codebase :=
  let empty : Codebase := { id := 1, name := "library", language := .java, settings := default }
  (empty.putFile (heirFile isArray)).2

def heirApp (isArray : Bool) : Codebase :=
  let empty : Codebase := { id := 0, name := "app", language := .java, settings := default }
  (empty.putFile rootFile).2.addDependency (heirLibrary isArray)

def heir : ResolvedType := .ofSymbol ⟨1,⟨4,0⟩⟩

theorem heirAppDependencies (isArray : Bool) : (heirApp isArray).dependencies = [heirLibrary isArray] := by
  cases isArray <;> rfl

theorem heirAppDistinct (isArray : Bool) : (heirApp isArray).Distinct :=
  Codebase.distinctPair (heirAppDependencies isArray) rfl (by cases isArray <;> decide)

theorem heirAppChain (isArray : Bool) : heirLibrary isArray ∈ (heirApp isArray).chain :=
  Codebase.chainDependency (heirAppDistinct isArray) (Codebase.chainSelf _)
    (by simp [heirAppDependencies])

theorem heirKnown (isArray : Bool) : heir.Over (heirLibrary isArray).references :=
  ResolvedType.overSymbol ⟨_,Codebase.chainSelf _,rfl⟩ Bindings.overEmpty

theorem heirRootsApart : (heirApp false).rootType? (heirApp false) ≠
      (heirLibrary false).rootType? (heirLibrary false) ∧
    (Resolver.mk (heirApp false) 32).ancestors heir = (Resolver.mk (heirLibrary false) 32).ancestors heir := by
  constructor
  · intro same
    have sides : ((heirApp false).rootType? (heirApp false)).isSome =
      ((heirLibrary false).rootType? (heirLibrary false)).isSome := congrArg Option.isSome same
    revert sides
    decide +kernel
  · have headers : (heirLibrary false).ScalarHeaders := by
      unfold Codebase.ScalarHeaders SymbolTable.Scalar
      decide +kernel
    have alike := @seenAlike ⟨heirApp false,32⟩ ⟨heirLibrary false,32⟩ (heirAppDistinct false)
      (heirAppChain false) rfl rfl (.inr headers)
    exact (alike.1 rfl rfl (heirKnown false)).2.1

theorem arrayHeirsDiffer : (heirApp true).Distinct ∧ heirLibrary true ∈ (heirApp true).chain ∧
    (heirApp true).language = (heirLibrary true).language ∧ heir.class?.isSome ∧ heir.isArray = false ∧
    heir.Over (heirLibrary true).references ∧
    (Resolver.mk (heirApp true) 32).ancestors heir ≠ (Resolver.mk (heirLibrary true) 32).ancestors heir := by
  refine ⟨heirAppDistinct true,heirAppChain true,rfl,rfl,rfl,heirKnown true,fun same => ?_⟩
  have counts : ((Resolver.mk (heirApp true) 32).ancestors heir).length =
    ((Resolver.mk (heirLibrary true) 32).ancestors heir).length := congrArg List.length same
  revert counts
  decide +kernel

end Resolver
end CodeIndex
