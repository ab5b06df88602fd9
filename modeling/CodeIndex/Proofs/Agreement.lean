import CodeIndex.Proofs.Imports
import CodeIndex.Proofs.Vantage

/-! Offers and resolution agree. From the innermost scope outward, the first item offered under a name is
set against the type that the name means there: what a class offers against its member types, what a file
offers against its own types, imports and packages. A class also offers itself, which the scope around it
gives back. -/
namespace CodeIndex.Completion

variable {home : Codebase} {name : String} {sure : Prop}

theorem topLevelClass (home : Codebase) (name : String) :
    (Answers.topLevelStep? home name).bind Step.class? = Answers.topLevelType? home name := by
  unfold Answers.topLevelStep?
  cases Answers.topLevelType? home name with
  | none => cases home.hasPackage name <;> rfl
  | some ref => rfl

theorem classOr {step step' : Option Step} {meant : Option SymbolRef}
    (class' : step.map Step.class? = meant.map some) :
    (step <|> step').bind Step.class? = meant.or (step'.bind Step.class?) := by
  cases step with
  | none =>
    rw [Option.map_none,eq_comm,Option.map_eq_none_iff] at class'
    simp [class']
  | some first =>
    cases meant with
    | none => cases class'
    | some ref => exact Option.some.inj class'

theorem Shows.untyped {items : List Item} (none : ∀ item ∈ items, item.kind.isTypeDecl = false) :
    Shows sure (firstNamed name items) .none := by
  refine ⟨fun _ => rfl,fun _ item first type => ?_⟩
  simp [none item (firstNamedFacts first).1] at type

theorem Shows.after {offered offered' : Option Item} {meant : Option SymbolRef}
    (second : Shows sure offered' meant) (unsure : ¬sure) : Shows sure (offered.or offered') meant :=
  ⟨fun absent => second.absent (Option.or_eq_none_iff.mp absent).2,fun given => absurd given unsure⟩

theorem Shows.self {h : Handle} {s : Symbol} (type : s.kind.isTypeDecl) {outside : Option Item}
    {meant : Option SymbolRef} (shows : Shows sure outside meant)
    (around : sure → s.name = name → meant = some (home.ref h)) :
    Shows sure ((firstNamed name [.ofSymbol (home.ref h) s]).or outside) meant := by
  by_cases named : s.name = name
  · have first : firstNamed name [.ofSymbol (home.ref h) s] = some (.ofSymbol (home.ref h) s) := by
      simp [firstNamed,Item.ofSymbol,SymbolKind.typeMethod type,named]
    rw [first,Option.some_or]
    exact .item fun given _ => around given named
  · have other : firstNamed name [.ofSymbol (home.ref h) s] = none := by
      simp [firstNamed,Item.ofSymbol,named]
    rwa [other,Option.none_or]

section

variable (consistent : ∀ d ∈ home.chain, d.table.Consistent) (depth : Nat)
include consistent

theorem topLevelShows (name : String) :
    Shows sure (firstNamed name (topLevelOffers ⟨home,depth⟩)) (Answers.topLevelType? home name) := by
  have types : Shows sure (firstNamed name (packageOffers ⟨home,depth⟩ ""))
      (Answers.topLevelType? home name) := by
    rw [packageOffers,firstNamedFlat]
    refine .findSome fun d inside => ?_
    have own : Shows sure _ _ := scopeShows (consistent d inside) typesThemselves d.table.root name
    have root : d.table.package? "" = some d.table.root := rfl
    simp only [root]
    convert own using 1
    refine congrArg (Option.map d.ref) (List.find?_congr fun h _ => ?_)
    cases d.table.symbol? h <;> rfl
  rw [topLevelOffers,firstNamedAppend,← Option.or_none (o := Answers.topLevelType? home name)]
  refine types.or (.untyped fun item offered => ?_)
  obtain ⟨d,_,inside⟩ := List.mem_flatMap.mp offered
  split at inside
  · obtain ⟨entry,_,rfl⟩ := List.mem_map.mp inside
    rfl
  · cases inside

theorem packagesShow (segment : Text.IsSegment name) {source : SourceFile}
    (opens : ∀ dotted ∈ Text.dotted source.package :: home.language.implicitPackages, Opens home dotted)
    (types : sure → ∀ dotted ∈ Text.dotted source.package :: home.language.implicitPackages,
      TypesAlone home name dotted) :
    Shows sure ((firstNamed name (packageOffers ⟨home,depth⟩ (Text.dotted source.package))).or
      (firstNamed name (home.language.implicitPackages.flatMap (packageOffers ⟨home,depth⟩))))
      (packagesType? home name source) := by
  rw [packagesType?,firstNamedFlat]
  refine .or ?_ (.findSome fun package listed => ?_)
  · rw [Codebase.typeUnder segment]
    exact packageShows consistent depth (opens _ (by simp)) fun given => types given _ (by simp)
  · rw [Codebase.typeUnder segment,Text.segmentsDotted (Text.segmentsPlain _)]
    exact packageShows consistent depth (opens _ (by simp [listed])) fun given =>
      types given _ (by simp [listed])

end

/-- A file that offers what a name may mean in it: its imports are forthright, and the packages open to it are
found by their names. -/
@[mk_iff] structure Aligned (home : Codebase) (depth : Nat) (name : String) (source : SourceFile) : Prop where
  segment : Text.IsSegment name
  imports : ∀ i ∈ source.imports, Forthright home depth name i
  packages : ∀ dotted ∈ Text.dotted source.package :: home.language.implicitPackages, Opens home dotted

/-- A name that means types wherever a file comes upon it: the file has no method of the name, the packages
open to it have only types under it, single imports end in plain names, and the name does not get types
from both static and other imports. -/
@[mk_iff] structure Unmixed (home : Codebase) (depth : Nat) (name : String) (source : SourceFile)
    (members : Members) : Prop where
  own : ∀ h ∈ members.under name, ∀ s ∈ home.table.symbol? h, s.kind ≠ .method
  singles : ∀ i ∈ source.imports, i.isStatic = false → i.isOnDemand = false →
    ∀ last ∈ i.simpleName?, Text.IsSegment last
  demands : ∀ i ∈ source.imports, i.isStatic = false → i.isOnDemand = true →
    TypesAlone home name (Text.dotted i.path)
  packages : ∀ dotted ∈ Text.dotted source.package :: home.language.implicitPackages,
    TypesAlone home name dotted
  uncontested : Uncontested home (.atDepth home depth) name source.imports

instance (home : Codebase) (depth : Nat) (name : String) (source : SourceFile) :
    Decidable (Aligned home depth name source) := decidable_of_iff' _ (aligned_iff home depth name source)

instance (home : Codebase) (depth : Nat) (name : String) (source : SourceFile) (members : Members) :
    Decidable (Unmixed home depth name source members) :=
  decidable_of_iff' _ (unmixed_iff home depth name source members)

theorem fileOwn (below : Answers) {source : SourceFile} {members : Members} {first : Handle}
    {rest : List Handle} {s : Symbol} (listed : members.under name = first :: rest)
    (live : home.table.symbol? first = some s) (type : s.kind.isTypeDecl) : Answers.fileStep? home below home source members name true =
      some (.type (.ofSymbol (home.ref first))) := by
  simp only [Answers.fileStep?,listed,Answers.stepTo,Codebase.resolveRef (Codebase.chainSelf home) live]
  exact if_pos type

section

variable (consistent : ∀ d ∈ home.chain, d.table.Consistent) {near depth : Nat}
  (steady : Answers.Steady home near depth)
include consistent steady

theorem importedShows {source : SourceFile} (aligned : Aligned home depth name source) (members : Members) :
    Shows (Unmixed home near name source members)
      (firstNamed name
        ((source.imports.filter (!·.isOnDemand)).flatMap (singleImportOffers ⟨home,depth⟩) ++
          (source.imports.filter (·.isOnDemand)).flatMap (onDemandImportOffers ⟨home,depth⟩)))
      (importsType? home (.atDepth home near) name source.imports) := by
  have shown := importsShow
    (fun i inside => importShows consistent steady aligned.segment (aligned.imports i inside)
      (fun unmixed : Unmixed home near name source members => unmixed.singles i inside)
      fun unmixed => unmixed.demands i inside) (·.uncontested)
  rw [firstNamedAppend,firstNamedFlat,firstNamedFlat]
  convert shown using 2
  · refine findSomeFiltered fun i _ => ?_
    cases demand : i.isOnDemand <;> simp [importOffers,demand]
  · refine findSomeFiltered fun i _ => ?_
    cases demand : i.isOnDemand <;> simp [importOffers,demand]

theorem fileShows {f : Handle} {o : Symbol} (live : home.table.symbol? f = some o) {source : SourceFile}
    {members : Members} {scopes : SpanMap Handle} (body : o.body = .file source members scopes)
    (aligned : Aligned home depth name source) :
    Shows (Unmixed home near name source members)
      (firstNamed name (fileOffers ⟨home,depth⟩ source members ++ topLevelOffers ⟨home,depth⟩))
      ((Answers.fileStep? home (.atDepth home near) home source members name true <|>
        Answers.topLevelStep? home name).bind Step.class?) := by
  have inside : home.table.membersOf f = members := by rw [SymbolTable.membersBody live,body]; rfl
  have table := consistent home (Codebase.chainSelf home)
  have own := firstMember table (fun _ => true) f name
  rw [SymbolTable.declared,inside] at own
  rw [firstNamedAppend]
  cases listed : members.under name with
  | cons first rest =>
    have member : first ∈ home.table.declared f name := by simp [SymbolTable.declared,inside,listed]
    obtain ⟨s,known,rfl⟩ := table.declaredName member
    by_cases method : s.kind = .method
    · -- A method says nothing about the name, so what is left are the names without a package.
      have passed : Answers.fileStep? home (.atDepth home near) home source members s.name true = none := by
        simp [Answers.fileStep?,listed,Answers.stepTo,Codebase.resolveRef (Codebase.chainSelf home) known,
          method,SymbolKind.isTypeDecl,SymbolKind.isVariable]
      rw [passed,Option.orElse_eq_orElse,Option.orElse_none,topLevelClass]
      exact (topLevelShows consistent depth s.name).after fun unmixed =>
        unmixed.own first (by simp [listed]) s known method
    · have offered : firstNamed s.name (itemsOf home (fun _ => true) (first :: rest)) =
          some (.ofSymbol (home.ref first) s) := by
        simp [itemsOf,known,firstNamed,Item.ofSymbol,method]
      simp only [fileOffers,firstNamedAppend,own,listed,offered,Option.some_or]
      refine .item fun _ type => ?_
      simp [fileOwn _ listed known type,Step.class?,Step.type?,Item.ofSymbol]
  | nil =>
    have nothing : firstNamed name (itemsOf home (fun _ => true) []) = none := rfl
    simp only [fileOffers,firstNamedAppend,own,Answers.fileStep?,listed,nothing,Option.none_or]
    rw [classOr (importedClass consistent _ source),topLevelClass]
    have all := ((importedShows consistent steady aligned members).or
      (packagesShow consistent depth aligned.segment aligned.packages (·.packages))).or
        (topLevelShows consistent depth name)
    simpa only [firstNamedAppend,Option.or_assoc] using all

end

def bodyOf (home : Codebase) (scope : Handle) : Site := ⟨home,scope,{},.body⟩

def outcome (home : Codebase) (below : Answers) (scope : Handle) (name : String)
    (levels : List (Handle × Symbol)) : Option SymbolRef :=
  ((levels.findSome? fun level => below.levelStep? home (bodyOf home scope) name true level.1 level.2).getD
    (Answers.topLevelStep? home name)).bind Step.class?

section

variable {below : Answers} {scope h : Handle} {s : Symbol} {outer : List (Handle × Symbol)}

theorem outcomeOr {meant : Option SymbolRef}
    (class' : (below.levelStep? home (bodyOf home scope) name true h s).map (Option.map Step.class?) =
      meant.map fun ref => some (some ref)) :
    outcome home below scope name ((h,s) :: outer) = meant.or (outcome home below scope name outer) := by
  unfold outcome
  rw [List.findSome?_cons]
  generalize below.levelStep? home (bodyOf home scope) name true h s = step at class' ⊢
  cases step with
  | none =>
    rw [Option.map_none,eq_comm,Option.map_eq_none_iff] at class'
    simp [class']
  | some found =>
    cases meant with
    | none => cases class'
    | some ref =>
      have classed := Option.some.inj class'
      obtain ⟨step,rfl,same⟩ := Option.map_eq_some_iff.mp classed
      simp [same]

theorem outcomeNone (none : below.levelStep? home (bodyOf home scope) name true h s = none) :
    outcome home below scope name ((h,s) :: outer) = outcome home below scope name outer := by
  have class' : (below.levelStep? home (bodyOf home scope) name true h s).map (Option.map Step.class?) =
      Option.map (fun ref => some (some ref)) .none := by rw [none]; rfl
  rw [outcomeOr class',Option.none_or]

theorem findMapped {p q : α → Bool} {f g : α → β} {xs : List α} (same : ∀ x ∈ xs, p x = q x)
    (values : ∀ x, q x → f x = g x) : (xs.find? p).map f = (xs.find? q).map g := by
  rw [List.find?_congr same]
  cases found : xs.find? q with
  | none => rfl
  | some x => rw [Option.map_some,Option.map_some,values x (List.find?_some found)]

theorem typesAll : TypesOf (fun _ => true) (Symbol.isStep true) := fun s => by rw [Symbol.stepType,Bool.true_and]

theorem typesDeclared (cursor : Option UInt32) : TypesOf (isDeclared cursor) (Symbol.isStep true) := by
  intro s
  rw [Symbol.stepType]
  cases type : s.kind.isTypeDecl with
  | false => simp
  | true =>
    have other : s.kind ≠ .value .localVariable := fun same => by simp [same,SymbolKind.isTypeDecl] at type
    simp [isDeclared,other]

theorem outcomeMethod {header : MethodHeader} {parameters : List Handle} {members : Members}
    (body : s.body = .method header parameters members) : outcome home below scope name ((h,s) :: outer) =
      (firstOf? home (Symbol.isStep true) (home.table.declared h name)).or
        (outcome home below scope name outer) := by
  refine outcomeOr ?_
  simp only [Answers.levelStep?,body,bodyOf,Option.map_map,firstOf?]
  refine findMapped (fun c _ => ?_) fun c accepted => ?_
  · cases home.table.symbol? c <;> rfl
  · obtain ⟨s,live,type⟩ := (Option.any_eq_true _ _).mp accepted
    rw [Symbol.stepType] at type
    simp [Answers.stepTo,Codebase.resolveRef (Codebase.chainSelf home) live,type,Step.class?,Step.type?,
      ResolvedType.class?,ResolvedType.ofSymbol]

variable (consistent : ∀ d ∈ home.chain, d.table.Consistent)
include consistent

theorem outcomeType {kind : TypeKind} {header : TypeHeader} {members : Members}
    (body : s.body = .type kind header members) : outcome home below scope name ((h,s) :: outer) =
      (memberType? home below (.ofSymbol (home.ref h)) name (Symbol.isStep true)).or
        (outcome home below scope name outer) := by
  refine outcomeOr ?_
  simp only [Answers.levelStep?,body,bodyOf,true_or,if_true]
  exact memberStepClass (t := .ofSymbol (home.ref h)) consistent below fun s accepted => by
    rwa [Symbol.stepType] at accepted

end

theorem alone (table : home.table.Consistent) {h p : Handle} {s o : Symbol}
    (live : home.table.symbol? h = some s) (type : s.kind.isTypeDecl) (parent : s.parent = some p)
    (owner : home.table.symbol? p = some o) (other : o.kind ≠ .package) :
    h ∈ home.table.declared p s.name ∧ ∀ h' ∈ home.table.declared p s.name,
      ∀ s', home.table.symbol? h' = some s' → s'.kind ≠ .method → h' = h := by
  have shelved := table.onShelf live parent owner
  rw [table.ownHome live parent owner other] at shelved
  rw [SymbolTable.declaredShelf owner]
  exact ⟨shelved,fun h' listed s' live' method =>
    table.single owner other listed shelved live' live method (SymbolKind.typeMethod type)⟩

theorem firstAlone {h : Handle} {s : Symbol} {handles : List Handle} (listed : h ∈ handles)
    (sole : ∀ h' ∈ handles, ∀ s', home.table.symbol? h' = some s' → s'.kind ≠ .method → h' = h)
    (live : home.table.symbol? h = some s) (type : s.kind.isTypeDecl) :
    firstOf? home (Symbol.isStep true) handles = some (home.ref h) := by
  have accepted : (home.table.symbol? h).any (Symbol.isStep true) = true := by
    rw [live,Option.any_some,Symbol.stepType,type]
  unfold firstOf?
  cases found : handles.find? fun h => (home.table.symbol? h).any (Symbol.isStep true) with
  | none => exact absurd accepted (List.find?_eq_none.mp found h listed)
  | some h' =>
    have accepted' := List.find?_some found
    obtain ⟨s',live',type'⟩ := (Option.any_eq_true _ _).mp accepted'
    rw [Symbol.stepType] at type'
    rw [sole h' (List.mem_of_find?_eq_some found) s' live' (SymbolKind.typeMethod type')]
    rfl

theorem packageOffersNothing {r : Resolver} {cursor : Option UInt32} {level : Handle × Symbol}
    (package : level.2.kind = .package) : levelOffers r cursor level.1 level.2 = [] := by
  obtain ⟨h,_,_,_,_,_,body⟩ := level
  cases body with
  | package => rfl
  | _ => cases package

section

variable (consistent : ∀ d ∈ home.chain, d.table.Consistent) {near depth : Nat}
  (steady : Answers.Steady home near depth) {f : Handle} {o : Symbol} {source : SourceFile} {members : Members}
  {scopes : SpanMap Handle} (body : o.body = .file source members scopes)
include body

theorem outcomeFile (scope : Handle) (outer : List (Handle × Symbol)) :
    outcome home (.atDepth home near) scope name ((f,o) :: outer) =
      (Answers.fileStep? home (.atDepth home near) home source members name true <|>
        Answers.topLevelStep? home name).bind Step.class? := by
  simp [outcome,Answers.levelStep?,body,bodyOf]

include consistent

theorem outcomeAround (own : ∀ h ∈ members.under name, ∀ s ∈ home.table.symbol? h, s.kind ≠ .method)
    {levels : List (Handle × Symbol)} {p h : Handle} {s : Symbol}
    (outward : home.table.Outward p levels) (inside : (f,o) ∈ levels)
    (live : home.table.symbol? h = some s) (type : s.kind.isTypeDecl) (parent : s.parent = some p)
    (named : s.name = name) (scope : Handle) :
    outcome home (.atDepth home near) scope name levels = some (home.ref h) := by
  have table := consistent home (Codebase.chainSelf home)
  have file : o.kind = .file := by simp [Symbol.kind,body,Body.kind]
  obtain ⟨q,outer,rfl,owner⟩ := outward.head
  obtain ⟨other,same⟩ := table.insideFile outward owner inside file
  obtain ⟨listed,sole⟩ := alone table live type parent owner other
  rw [named] at listed sole
  have first := firstAlone listed sole live type
  cases kind : q.body with
  | package => exact absurd (by simp [Symbol.kind,kind,Body.kind]) other
  | type => rw [outcomeType consistent kind,memberOwn first,Option.some_or]
  | method => rw [outcomeMethod kind,first,Option.some_or]
  | value | primitive =>
    rw [SymbolTable.declaredShelf owner,Symbol.shelf,kind] at listed
    exact absurd listed List.not_mem_nil
  | file =>
    obtain ⟨rfl,rfl⟩ := same (by simp [Symbol.kind,kind,Body.kind])
    have under : home.table.declared f name = members.under name := by
      rw [SymbolTable.declared,SymbolTable.membersBody owner,body]; rfl
    rw [outcomeFile body]
    rw [under] at listed sole
    cases decides : members.under name with
    | nil => simp [decides] at listed
    | cons first rest =>
      have member : first ∈ home.table.declared f name := by simp [under,decides]
      obtain ⟨s',live',_⟩ := table.declaredName member
      have method := own first (by simp [decides]) s' live'
      cases sole first (by simp [decides]) s' live' method
      simp [fileOwn _ decides live type,Step.class?,Step.type?]

include steady

theorem levelsShow (aligned : Aligned home depth name source) (cursor : Option UInt32) (scope : Handle) {levels : List (Handle × Symbol)} {h : Handle}
    (outward : home.table.Outward h levels) (inside : (f,o) ∈ levels) :
    Shows (Unmixed home near name source members)
      (firstNamed name (levels.flatMap (fun level => levelOffers ⟨home,depth⟩ cursor level.1 level.2) ++
        topLevelOffers ⟨home,depth⟩))
      (outcome home (.atDepth home near) scope name levels) := by
  have table := consistent home (Codebase.chainSelf home)
  have file : o.kind = .file := by simp [Symbol.kind,body,Body.kind]
  induction outward with
  | root live top =>
    obtain ⟨s,live',package,_⟩ := table.root
    exact absurd package (table.insideFile (.root live top) live' inside file).1
  | @inner h s p levels live parent outer ih =>
    obtain ⟨other,same⟩ := table.insideFile (.inner live parent outer) live inside file
    have further : s.kind ≠ .file → (f,o) ∈ levels := by
      intro notFile
      rcases List.mem_cons.mp inside with here | outside
      · exact absurd ((Prod.mk.inj here).2 ▸ file) notFile
      · exact outside
    rw [List.flatMap_cons,List.append_assoc,firstNamedAppend]
    cases kind : s.body with
    | package => exact absurd (by simp [Symbol.kind,kind,Body.kind]) other
    | value | primitive =>
      have outer := ih (further (by simp [Symbol.kind,kind,Body.kind]))
      rw [outcomeNone (by simp [Answers.levelStep?,kind])]
      simpa [levelOffers,kind,firstNamed] using outer
    | method header parameters locals =>
      have outside := ih (further (by simp [Symbol.kind,kind,Body.kind]))
      have inner : home.table.membersOf h = locals := by rw [SymbolTable.membersBody live,kind]; rfl
      rw [outcomeMethod kind]
      refine .or ?_ outside
      simp only [levelOffers,kind,← inner]
      exact scopeShows table (typesDeclared cursor) h name
    | type typeKind header declared =>
      have type : s.kind.isTypeDecl := by simp [Symbol.kind,kind,Body.kind,SymbolKind.isTypeDecl]
      have outside := further (by simp [Symbol.kind,kind,Body.kind])
      rw [outcomeType consistent kind]
      simp only [levelOffers,kind,firstNamedAppend,Option.or_assoc]
      refine .or (memberShows consistent steady (home.ref h) name typesAll) ?_
      rw [← firstNamedAppend (levels.flatMap _)]
      exact .self type (ih outside) fun unmixed named =>
        outcomeAround consistent body unmixed.own outer outside live type parent named scope
    | file =>
      obtain ⟨rfl,rfl⟩ := same (by simp [Symbol.kind,kind,Body.kind])
      obtain ⟨_,_,above,_,_,_,parts,_,packages⟩ := table.aroundFile (.inner live parent outer) live file
      cases parts
      have nothing : levels.flatMap (fun level => levelOffers ⟨home,depth⟩ cursor level.1 level.2) = [] := by
        exact List.flatMap_eq_nil_iff.mpr fun level listed => packageOffersNothing (packages level listed)
      rw [outcomeFile body,nothing,List.nil_append,← firstNamedAppend]
      simp only [levelOffers,body]
      exact fileShows consistent steady live body aligned

end

theorem resolveOutcome {near : Nat} {scope : Handle} {levels : List (Handle × Symbol)}
    (outward : home.table.Outward scope levels) (plain : home.language.primitive? name = none)
    (free : ∀ level ∈ levels, ∀ p ∈ level.2.typeParameters, p.name ≠ name) :
    ((Resolver.mk home (near + 1)).resolve (.simple name) scope {}).bind ResolvedType.class? =
      outcome home (.atDepth home near) scope name levels := by
  have around : (bodyOf home scope).codebase.table.Outward (bodyOf home scope).scope levels := outward
  have alone : (TypeExpr.simple name).segments = [name] := rfl
  change (Answers.resolveStep home (.atDepth home near) (bodyOf home scope) (.simple name)).bind _ = _
  rw [Answers.resolveAlone alone plain,Answers.firstLevels around free,funext (Answers.applyNothing rfl rfl),
    Option.map_id']
  rw [outcome,Option.bind_assoc]
  rfl

section

variable (reached : home.Reached) {near depth : Nat} (steady : Answers.Steady home near depth)
  {scope f : Handle} {o : Symbol} {source : SourceFile} {members : Members} {scopes : SpanMap Handle}
  (lies : home.table.fileOf? scope = some f) (live : home.table.symbol? f = some o)
  (body : o.body = .file source members scopes) (plain : home.language.primitive? name = none)
  (free : ∀ level ∈ (home.table.scopeChain scope).levels, ∀ p ∈ level.2.typeParameters, p.name ≠ name)
  (aligned : Aligned home depth name source) (cursor : Option UInt32)
include reached steady lies live body plain free aligned

theorem visibleShows : ∃ items, visible ⟨home,depth⟩ cursor scope = unhidden [] [] items ∧
    Shows (Unmixed home near name source members) (firstNamed name items)
      (((Resolver.mk home (near + 1)).resolve (.simple name) scope {}).bind ResolvedType.class?) := by
  have consistent : ∀ d ∈ home.chain, d.table.Consistent := fun d inside => reached.chain inside
  obtain ⟨levels,o',outward,inside⟩ := reached.consistent.fileLevel lies
  cases Option.some.inj (live.symm.trans (outward.live _ inside))
  rw [outward.chain] at free
  rw [resolveOutcome outward plain free]
  refine ⟨_,rfl,?_⟩
  simp only [outward.chain]
  exact levelsShow consistent steady body aligned cursor scope outward inside

/-- A type that is offered is what its name means. Resolution spends a level on the name, and sees from there
the supertypes that the offers were made with. -/
theorem offeredTypeMeant (unmixed : Unmixed home near name source members) {item : Item}
    (offered : item ∈ visible ⟨home,depth⟩ cursor scope) (named : item.name = name)
    (type : item.kind.isTypeDecl) :
    ∃ t, (Resolver.mk home (near + 1)).resolve (.simple name) scope {} = some t ∧
      t.class? = some item.symbol := by
  obtain ⟨items,all,shows⟩ := visibleShows reached steady lies live body plain free aligned cursor
  rw [all] at offered
  have first := (unhiddenFirst offered (SymbolKind.typeMethod type)).2
  rw [named] at first
  exact Option.bind_eq_some_iff.mp (shows.type unmixed item first type)

/-- What a name means is offered under it: the class itself, or what hides it. -/
theorem meantTypeOffered {t : ResolvedType}
    (found : (Resolver.mk home (near + 1)).resolve (.simple name) scope {} = some t) (type : t.class?.isSome) :
    ∃ item ∈ visible ⟨home,depth⟩ cursor scope, item.name = name ∧ item.kind ≠ .method ∧
      (Unmixed home near name source members → item.kind.isTypeDecl → t.class? = some item.symbol) := by
  obtain ⟨items,all,shows⟩ := visibleShows reached steady lies live body plain free aligned cursor
  rw [found,Option.bind_some] at shows
  rw [all]
  cases first : firstNamed name items with
  | none => simp [shows.absent first] at type
  | some item =>
    obtain ⟨_,method,named⟩ := firstNamedFacts first
    exact ⟨item,firstUnhidden first (by simp),named,method,fun unmixed => shows.type unmixed item first⟩

end

theorem steadyFlat (rootless : home.language.rootType = none)
    (flat : ∀ entry ∈ home.symbols, entry.2.inherits = []) (depth depth' : Nat) :
    Answers.Steady home (depth + 1) (depth' + 1) := by
  have none : ∀ below ref bindings, Answers.superclassesStep home below ref bindings = [] := by
    intro below ref bindings
    unfold Answers.superclassesStep
    cases known : home.resolve? ref with
    | none => rfl
    | some found =>
      obtain ⟨inside,_,live⟩ := Codebase.resolveChain.mp known
      have supers := flat _ (Codebase.memSymbols inside live)
      cases body : found.2.body with
      | type kind header members =>
        simp only [Symbol.inherits,body,List.append_eq_nil_iff,Option.toList_eq_nil_iff] at supers
        simp [supers.1,supers.2,body,Codebase.rootType?,rootless]
      | _ => simp [body]
  exact fun ref bindings => (none ..).trans (none ..).symm

def mapFile : FileDecl where
  path := "util/Map.java"
  package := ["util"]
  types :=
    [{ outline := { name := "Map", kind := .type .classType }
       members := [.type { name := "Entry", kind := .type .classType, isStatic := true } []] }]

def mainFile : FileDecl where
  path := "app/Main.java"
  package := ["app"]
  imports := [⟨["util"],false,true⟩,⟨["util","Map","Entry"],true,false⟩]
  types :=
    [{ outline := { name := "Main", kind := .type .classType }
       members := [.method { name := "run", locals := [{ name := "entry", type := .simple "Entry" }] }] }]

def mapApp : Codebase :=
  ((Codebase.putFile { id := 0, name := "app", language := .bare, settings := default } mapFile).2.putFile
    mainFile).2

theorem mapAppReached : mapApp.Reached := .putFile (.putFile (.new ..) mapFile) mainFile

theorem mapAppFacts :
    (mapApp.language.rootType = none ∧ (∀ entry ∈ mapApp.symbols, entry.2.inherits = []) ∧
      mapApp.language.primitive? "Entry" = none) ∧
    mapApp.table.fileOf? ⟨8,0⟩ = some ⟨6,0⟩ ∧
    (mapApp.table.symbol? ⟨6,0⟩).any (fun o => o.source?.any fun source =>
      Aligned mapApp 2 "Entry" source ∧ Unmixed mapApp 1 "Entry" source o.body.members) = true ∧
    (∀ level ∈ (mapApp.table.scopeChain ⟨8,0⟩).levels, ∀ p ∈ level.2.typeParameters, p.name ≠ "Entry") ∧
    ⟨"Entry",.type .classType,⟨0,⟨4,0⟩⟩⟩ ∈ visible ⟨mapApp,2⟩ none ⟨8,0⟩ ∧
    ((Resolver.mk mapApp 2).resolve (.simple "Entry") ⟨8,0⟩ {}).any (·.class?.isSome) = true := by
  decide +kernel

theorem mapAppSteady : Answers.Steady mapApp 1 2 :=
  steadyFlat mapAppFacts.1.1 mapAppFacts.1.2.1 0 1

theorem mainAligned : ∃ o source members scopes, mapApp.table.symbol? ⟨6,0⟩ = some o ∧
    o.body = .file source members scopes ∧ Aligned mapApp 2 "Entry" source ∧
    Unmixed mapApp 1 "Entry" source members := by
  obtain ⟨_,_,file,_⟩ := mapAppFacts
  obtain ⟨o,live,facts⟩ := (Option.any_eq_true _ _).mp file
  obtain ⟨source,found,facts⟩ := (Option.any_eq_true _ _).mp facts
  obtain ⟨aligned,unmixed⟩ := of_decide_eq_true facts
  obtain ⟨members,scopes,body⟩ := SymbolTable.sourceBody found
  rw [body] at unmixed
  exact ⟨o,source,members,scopes,live,body,aligned,unmixed⟩

theorem entryMeant : ⟨"Entry",.type .classType,⟨0,⟨4,0⟩⟩⟩ ∈ visible ⟨mapApp,2⟩ none ⟨8,0⟩ ∧
    ∃ t, (Resolver.mk mapApp 2).resolve (.simple "Entry") ⟨8,0⟩ {} = some t ∧
      t.class? = some ⟨0,⟨4,0⟩⟩ := by
  obtain ⟨⟨_,_,plain⟩,lies,_,free,offered,_⟩ := mapAppFacts
  obtain ⟨o,source,members,scopes,live,body,aligned,unmixed⟩ := mainAligned
  exact ⟨offered,offeredTypeMeant mapAppReached mapAppSteady lies live body plain free aligned none unmixed
    offered rfl rfl⟩

theorem entryOffered : ∃ t, (Resolver.mk mapApp 2).resolve (.simple "Entry") ⟨8,0⟩ {} = some t ∧
    ∃ item ∈ visible ⟨mapApp,2⟩ none ⟨8,0⟩, item.name = "Entry" ∧
      (item.kind.isTypeDecl → t.class? = some item.symbol) := by
  obtain ⟨⟨_,_,plain⟩,lies,_,free,_,resolved⟩ := mapAppFacts
  obtain ⟨t,found,type⟩ := (Option.any_eq_true _ _).mp resolved
  obtain ⟨o,source,members,scopes,live,body,aligned,unmixed⟩ := mainAligned
  obtain ⟨item,offered,named,_,itself⟩ := meantTypeOffered mapAppReached mapAppSteady lies live body plain free
    aligned none found type
  exact ⟨t,found,item,offered,named,itself unmixed⟩

def clashFile : FileDecl where
  path := "app/Clash.java"
  package := ["app"]
  imports := [⟨["util","Map","Entry"],true,false⟩,⟨["other"],false,true⟩]
  types := [{ outline := { name := "Clash", kind := .type .classType } }]

def otherFile : FileDecl where
  path := "other/Entry.java"
  package := ["other"]
  types := [{ outline := { name := "Entry", kind := .type .classType } }]

def clashApp : Codebase :=
  (((Codebase.putFile { id := 0, name := "app", language := .bare, settings := default } mapFile).2.putFile
    otherFile).2.putFile clashFile).2

theorem staticEntryOffered : ∃ item ∈ visible ⟨clashApp,32⟩ none ⟨10,0⟩, item.name = "Entry" ∧
    item.kind.isTypeDecl ∧ ∃ t, (Resolver.mk clashApp 32).resolve (.simple "Entry") ⟨10,0⟩ {} = some t ∧
      t.class?.isSome ∧ t.class? ≠ some item.symbol := by
  have facts : ⟨"Entry",.type .classType,⟨0,⟨4,0⟩⟩⟩ ∈ visible ⟨clashApp,32⟩ none ⟨10,0⟩ ∧
      ((Resolver.mk clashApp 32).resolve (.simple "Entry") ⟨10,0⟩ {}).any
        (·.class? = some ⟨0,⟨7,0⟩⟩) = true := by decide +kernel
  obtain ⟨offered,resolved⟩ := facts
  obtain ⟨t,found,denotes⟩ := (Option.any_eq_true _ _).mp resolved
  have denotes : t.class? = some ⟨0,⟨7,0⟩⟩ := of_decide_eq_true denotes
  exact ⟨_,offered,rfl,rfl,t,found,by simp [denotes],by rw [denotes]; decide⟩

def innerFile : FileDecl where
  path := "app/Inner.java"
  package := ["app"]
  imports := [⟨["util","Map"],false,true⟩]
  types := [{ outline := { name := "Inner", kind := .type .classType } }]

def innerApp : Codebase :=
  ((Codebase.putFile { id := 0, name := "app", language := .bare, settings := default } mapFile).2.putFile
    innerFile).2

theorem innerEntryMissed : ∃ t, (Resolver.mk innerApp 32).resolve (.simple "Entry") ⟨7,0⟩ {} = some t ∧
    t.class?.isSome ∧ ∀ item ∈ visible ⟨innerApp,32⟩ none ⟨7,0⟩, item.name ≠ "Entry" := by
  have facts : ((Resolver.mk innerApp 32).resolve (.simple "Entry") ⟨7,0⟩ {}).any (·.class?.isSome) = true ∧
      ∀ item ∈ visible ⟨innerApp,32⟩ none ⟨7,0⟩, item.name ≠ "Entry" := by decide +kernel
  obtain ⟨resolved,missed⟩ := facts
  obtain ⟨t,found,type⟩ := (Option.any_eq_true _ _).mp resolved
  exact ⟨t,found,type,missed⟩

end CodeIndex.Completion
