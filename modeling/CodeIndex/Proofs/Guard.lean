import CodeIndex.Proofs.RoundTrip
import CodeIndex.Proofs.Imports
import CodeIndex.Proofs.Hierarchy

/-! What the depth limit can change. Where the limit is reached inside a hierarchy, a class is taken to have
no supertypes, and a name may then be found further outward. An expression that says in full what it
means leaves no such choice: with more depth its arguments are resolved further, and nothing else changes.
Nor does more depth change any name that is read by packages and classes, once hierarchies are steady. -/
namespace CodeIndex

namespace ResolvedType

mutual

/-- The same type, where type parameters left standing for themselves may have been resolved. -/
def Sharpens : ResolvedType → ResolvedType → Prop
  | ⟨denoted,isArray,⟨entries⟩⟩, u => (∃ v, ofTypeVar v = ⟨denoted,isArray,⟨entries⟩⟩) ∨
      u.denoted = denoted ∧ u.isArray = isArray ∧ SharpensAll entries u.bindings.entries

def SharpensAll : List (TypeVar × ResolvedType) → List (TypeVar × ResolvedType) → Prop
  | [], others => others = []
  | (v,t) :: rest, others => ∃ u further, others = (v,u) :: further ∧ Sharpens t u ∧ SharpensAll rest further

end

theorem sharpensVar (v : TypeVar) (u : ResolvedType) : Sharpens (ofTypeVar v) u := by
  unfold ofTypeVar Sharpens
  exact .inl ⟨v,rfl⟩

theorem sharpensSame {t u : ResolvedType} (denotes : u.denoted = t.denoted) (array : u.isArray = t.isArray)
    (bindings : SharpensAll t.bindings.entries u.bindings.entries) : Sharpens t u := by
  obtain ⟨_,_,_⟩ := t
  unfold Sharpens
  exact .inr ⟨denotes,array,bindings⟩

theorem sharpensInsert {entries others : List (TypeVar × ResolvedType)} (all : SharpensAll entries others)
    (v : TypeVar) {t u : ResolvedType} (sharpens : Sharpens t u) :
    SharpensAll (OrderedMap.put v (fun _ => t) entries) (OrderedMap.put v (fun _ => u) others) := by
  induction entries generalizing others with
  | nil =>
    unfold SharpensAll at all
    subst all
    simp [OrderedMap.put,SharpensAll,sharpens]
  | cons entry rest ih =>
    obtain ⟨w,first⟩ := entry
    unfold SharpensAll at all
    obtain ⟨second,further,rfl,here,later⟩ := all
    unfold OrderedMap.put
    split
    · exact ⟨u,further,rfl,sharpens,later⟩
    · exact ⟨second,_,rfl,here,ih later⟩

end ResolvedType

def Step.IsPlace : Step → Prop
  | .package _ => True
  | .type t => t.class?.isSome
  | .value .. => False

namespace Codebase

inductive Qualified (home : Codebase) : TypeExpr → Prop where
  | primitive {name p} (keyword : home.language.primitive? name = some p) (isArray span) :
      Qualified home ⟨[name],isArray,[],span⟩
  | declared {d h s arguments} (inside : d ∈ home.chain) (live : d.table.symbol? h = some s)
      (type : s.kind.isTypeDecl) (isArray span) (qualified : ∀ e ∈ arguments, Qualified home e) :
      Qualified home ⟨s.childQualifiers,isArray,arguments,span⟩

def NoVariable (home : Codebase) (name : String) : Prop :=
  ∀ entry ∈ home.symbols, entry.2.kind.isVariable → entry.2.name ≠ name

/-- Expressions in a scope whose names, but for the last, are not those of a variable or of a type parameter. -/
def Placed (home : Codebase) (scope : Handle) (e : TypeExpr) : Prop :=
  ∀ name ∈ e.segments.dropLast, home.NoVariable name ∧
    ∀ level ∈ (home.table.scopeChain scope).levels, ∀ p ∈ level.2.typeParameters, p.name ≠ name

instance (home : Codebase) (scope : Handle) (e : TypeExpr) : Decidable (home.Placed scope e) := by
  unfold Placed NoVariable
  infer_instance

end Codebase

namespace Answers

theorem bindSharpens {lower upper : Answers} {site : Site} {ref : SymbolRef}
    {pairs : List (TypeParameter × TypeExpr)}
    (sharper : ∀ pair ∈ pairs, ∀ t, lower.resolve site pair.2 = some t →
      ∃ u, upper.resolve site pair.2 = some u ∧ t.Sharpens u)
    {bindings bindings' : Bindings}
    (start : ResolvedType.SharpensAll bindings.entries bindings'.entries) :
    ResolvedType.SharpensAll (bindArguments lower site ref pairs bindings).entries
      (bindArguments upper site ref pairs bindings').entries := by
  induction pairs generalizing bindings bindings' with
  | nil => exact start
  | cons pair rest ih =>
    refine ih (fun pair later => sharper pair (by simp [later])) (ResolvedType.sharpensInsert start _ ?_)
    cases found : lower.resolve site pair.2 with
    | none => exact ResolvedType.sharpensVar _ _
    | some t =>
      obtain ⟨u,resolved,sharpens⟩ := sharper pair (by simp) t found
      rw [resolved]
      exact sharpens

theorem resolveSharpens {home : Codebase} (built : home.Built) (clear : home.Unambiguous) {e : TypeExpr}
    (qualified : home.Qualified e) {depth depth' : Nat} (deeper : depth ≤ depth') {t : ResolvedType}
    (found : (atDepth home depth).resolve (top home) e = some t) :
    ∃ u, (atDepth home depth').resolve (top home) e = some u ∧ u.denoted = t.denoted ∧
      u.isArray = t.isArray ∧ ResolvedType.SharpensAll t.bindings.entries u.bindings.entries := by
  induction qualified generalizing depth depth' t with
  | @primitive name p keyword isArray span =>
    have always : ∀ depth, (atDepth home (depth + 1)).resolve (top home) ⟨[name],isArray,[],span⟩ =
        some { ResolvedType.ofPrimitive p with isArray } := by
      intro depth
      simp [atDepth,resolveStep,keyword]
    cases depth with
    | zero => cases found
    | succ lower =>
      obtain ⟨upper,rfl⟩ := Nat.exists_eq_add_one_of_ne_zero (Nat.ne_zero_of_lt deeper)
      rw [always] at found
      cases Option.some.inj found
      exact ⟨_,always upper,rfl,rfl,by simp [ResolvedType.ofPrimitive,ResolvedType.SharpensAll]⟩
  | @declared d h s arguments inside live type isArray span _ ih =>
    -- One level is spent on the name; how the arguments are read is up to the levels below.
    have always : ∀ depth, (atDepth home (depth + 1)).resolve (top home)
        ⟨s.childQualifiers,isArray,arguments,span⟩ = some ⟨.symbol (d.ref h),isArray,
          bindArguments (atDepth home depth) (top home) (d.ref h) (s.typeParameters.zip arguments) {}⟩ :=
      fun depth => resolveNames built clear (settledDepth home depth) inside live type rfl
    cases depth with
    | zero => cases found
    | succ lower =>
      obtain ⟨upper,rfl⟩ := Nat.exists_eq_add_one_of_ne_zero (Nat.ne_zero_of_lt deeper)
      rw [always] at found
      cases Option.some.inj found
      refine ⟨_,always upper,rfl,rfl,bindSharpens ?_ (by simp [ResolvedType.SharpensAll])⟩
      intro pair listed t resolved
      obtain ⟨u,resolved',denotes,array,bindings⟩ :=
        ih pair.2 (List.of_mem_zip listed).2 (Nat.le_of_succ_le_succ deeper) resolved
      exact ⟨u,resolved',ResolvedType.sharpensSame denotes array bindings⟩

section

variable {home : Codebase} {depth depth' : Nat} (steady : Steady home depth depth')
include steady

theorem memberStepSteady {t : ResolvedType} (plain : t.isTypeVar = false) (name : String)
    (accept : Symbol → Bool) : memberStep? home (atDepth home depth) t name accept =
      memberStep? home (atDepth home depth') t name accept := by
  simp only [memberStep?,membersHit,levelsSteady steady plain]

theorem levelStepSteady (site : Site) (name : String) (typeOnly : Bool) (h : Handle) (s : Symbol) :
    levelStep? home (atDepth home depth) site name typeOnly h s =
      levelStep? home (atDepth home depth') site name typeOnly h s := by
  have static : ∀ codebase owner, staticStep? home (atDepth home depth) codebase owner name typeOnly =
      staticStep? home (atDepth home depth') codebase owner name typeOnly := fun _ _ => by
    simp only [staticStep?,memberStepSteady steady (t := .ofSymbol _) rfl]
  unfold levelStep?
  cases s.body with
  | type =>
    dsimp only
    rw [memberStepSteady steady rfl]
  | file => simp only [fileStep?,importedStep?,staticallyImported?,static]
  | _ => rfl

theorem firstStepSteady (site : Site) (name : String) (typeOnly : Bool) :
    firstStep? home (atDepth home depth) site name typeOnly =
      firstStep? home (atDepth home depth') site name typeOnly := by
  simp only [firstStep?,levelStepSteady steady]

theorem nextStepSteady (codebase : Codebase) {step : Step} (place : step.IsPlace) (name : String)
    (isLast : Bool) : nextStep? home (atDepth home depth) codebase step name isLast =
      nextStep? home (atDepth home depth') codebase step name isLast := by
  cases step with
  | package => rfl
  | value => exact place.elim
  | type t =>
    have plain : t.isTypeVar = false := by
      obtain ⟨denoted,_,_⟩ := t
      cases denoted <;> simp_all [Step.IsPlace,ResolvedType.class?,ResolvedType.isTypeVar]
    simp only [nextStep?,typeMember?,settledDepth _ _ plain,bind,Option.bind_some,memberStepSteady steady plain]

end

section

variable {home : Codebase} {step : Step}

theorem typePlace {d : Codebase} {path : List String} (found : typeStep? d path = some step) :
    step.IsPlace := by
  obtain ⟨ref,_,rfl⟩ := Option.map_eq_some_iff.mp found
  rfl

theorem topLevelPlace {d : Codebase} {name : String} (found : topLevelStep? d name = some step) :
    step.IsPlace := by
  rcases topLevelCases found with ⟨ref,_,rfl⟩ | rfl
  · rfl
  · trivial

variable (consistent : ∀ d ∈ home.chain, d.table.Consistent) {name : String}
  (free : home.NoVariable name) {below : Answers}
include free

theorem symbolPlace {d : Codebase} {h : Handle} {s : Symbol} (inside : d ∈ home.chain)
    (live : d.table.symbol? h = some s) (named : s.name = name) {bindings : Bindings}
    (found : stepTo home (d.ref h) bindings = some step) : step.IsPlace := by
  have constant : ¬s.kind.isVariable := fun value =>
    free _ (Codebase.memSymbols inside live) value named
  simp only [stepTo,Codebase.resolveRef inside live,bind,Option.bind_some,constant] at found
  split at found
  · cases Option.some.inj found
    rfl
  · cases found

include consistent

theorem declaredPlace {d : Codebase} {p h : Handle} (inside : d ∈ home.chain)
    (listed : h ∈ d.table.declared p name) {bindings : Bindings}
    (found : stepTo home (d.ref h) bindings = some step) : step.IsPlace := by
  obtain ⟨s,live,named⟩ := (consistent d inside).declaredName listed
  exact symbolPlace free inside live named found

theorem memberPlace {t : ResolvedType} {accept : Symbol → Bool}
    (found : memberStep? home below t name accept = some (some step)) : step.IsPlace := by
  obtain ⟨⟨ref,bindings⟩,first,leads⟩ := Option.map_eq_some_iff.mp found
  obtain ⟨d,s,known,named,_⟩ := Completion.foundNamed consistent (List.mem_of_head? first)
  obtain ⟨inside,same,live⟩ := Codebase.resolveChain.mp known
  replace same : ref = d.ref ref.handle := same
  rw [same] at leads
  exact symbolPlace free inside live named leads

theorem importedPlace {d : Codebase} {source : SourceFile} {typeOnly : Bool}
    (found : importedStep? home below d source name typeOnly = some step) : step.IsPlace := by
  rcases importedCases found with ⟨path,type⟩ | ⟨owner,static⟩
  · exact typePlace type
  · simp only [staticStep?,bind,Option.bind_eq_some_iff] at static
    obtain ⟨_,_,member⟩ := static
    exact memberPlace consistent free member

theorem levelPlace {site : Site} (inside : site.codebase ∈ home.chain) {typeOnly : Bool} {h : Handle}
    {s : Symbol} (live : site.codebase.table.symbol? h = some s)
    (found : levelStep? home below site name typeOnly h s = some (some step)) : step.IsPlace := by
  rcases levelCases live found with ⟨_,member⟩ | ⟨c,listed,bound | unbound⟩ | ⟨source,imported⟩ | top
  · exact memberPlace consistent free member
  · exact declaredPlace consistent free inside listed bound
  · exact declaredPlace consistent free inside listed unbound
  · exact importedPlace consistent free imported
  · exact topLevelPlace top

theorem firstPlace {site : Site} (inside : site.codebase ∈ home.chain)
    (unbound : ∀ level ∈ (site.codebase.table.scopeChain site.scope).levels, ∀ p ∈ level.2.typeParameters,
      p.name ≠ name) {typeOnly : Bool} (found : firstStep? home below site name typeOnly = some step) :
    step.IsPlace := by
  have none : typeParameter? site.codebase (site.codebase.table.scopeChain site.scope).levels site.bindings
      name = none := by
    refine List.findSome?_eq_none_iff.mpr fun level listed => ?_
    have undeclared : level.2.typeParameters.any (·.name = name) = false := by
      simpa using unbound level listed
    simp [undeclared]
  rcases firstCases found with ⟨t,parameter,_⟩ | ⟨h,s,live,leads⟩ | top
  · simp [none] at parameter
  · exact levelPlace consistent free inside live leads
  · exact topLevelPlace top

theorem nextPlace {d : Codebase} {before : Step} (place : before.IsPlace) {isLast : Bool}
    (found : nextStep? home below d before name isLast = some step) : step.IsPlace := by
  cases before with
  | value => exact place.elim
  | package path =>
    rcases packageCases found with ⟨ref,_,rfl⟩ | rfl
    · rfl
    · trivial
  | type t =>
    simp only [nextStep?,typeMember?,bind,Option.bind_eq_some_iff] at found
    obtain ⟨owner,_,found⟩ := found
    split at found
    · cases found
    · exact memberPlace consistent free (Option.join_eq_some_iff.mp found)

end

section

variable {home : Codebase} (consistent : ∀ d ∈ home.chain, d.table.Consistent) {depth depth' : Nat}
  (steady : Steady home depth depth')
include consistent steady

theorem followSteady (codebase : Codebase) {step : Step} (place : step.IsPlace) {names : List String}
    (free : ∀ name ∈ names.dropLast, home.NoVariable name) :
    follow? home (atDepth home depth) codebase step names =
      follow? home (atDepth home depth') codebase step names := by
  induction names generalizing step with
  | nil => rfl
  | cons name rest ih =>
    simp only [follow?,nextStepSteady steady codebase place]
    cases rest with
    | nil => rfl
    | cons second later =>
      rw [List.dropLast_cons_cons,List.forall_mem_cons] at free
      refine Option.bind_congr fun next found => ih ?_ free.2
      exact nextPlace consistent free.1 place found

theorem namedSteady {scope : Handle} {bindings : Bindings} {first : String} {rest : List String}
    (placed : ∀ name ∈ (first :: rest).dropLast, home.NoVariable name ∧
      ∀ level ∈ (home.table.scopeChain scope).levels, ∀ p ∈ level.2.typeParameters, p.name ≠ name)
    (typeOnly : Bool) :
    namedType? home (atDepth home depth) ⟨home,scope,bindings,.body⟩ first rest typeOnly =
      namedType? home (atDepth home depth') ⟨home,scope,bindings,.body⟩ first rest typeOnly := by
  simp only [namedType?,firstStepSteady steady]
  refine Option.bind_congr fun step found => ?_
  suffices same : follow? home (atDepth home depth) home step rest =
      follow? home (atDepth home depth') home step rest by rw [same]
  cases rest with
  | nil => rfl
  | cons second later =>
    rw [List.dropLast_cons_cons,List.forall_mem_cons] at placed
    obtain ⟨⟨free,unbound⟩,others⟩ := placed
    have place := firstPlace consistent free (Codebase.chainSelf home) unbound found
    exact followSteady consistent steady home place fun name later => (others name later).1

theorem resolveSteady {scope : Handle} {e : TypeExpr} (placed : home.Placed scope e) (bindings : Bindings) :
    ((Resolver.mk home (depth + 1)).resolve e scope bindings).map (fun t => (t.denoted,t.isArray)) =
      ((Resolver.mk home (depth' + 1)).resolve e scope bindings).map fun t => (t.denoted,t.isArray) := by
  have applied (depth : Nat) (site : Site) (t : ResolvedType) :
      ((applyArguments home (atDepth home depth) site e t).denoted,
        (applyArguments home (atDepth home depth) site e t).isArray) = (t.denoted,t.isArray || e.isArray) := by
    unfold applyArguments
    dsimp only
    split <;> rfl
  change (resolveStep home (atDepth home depth) _ e).map _ = (resolveStep home (atDepth home depth') _ e).map _
  unfold resolveStep
  cases names : e.segments with
  | nil => rfl
  | cons first rest =>
    unfold Codebase.Placed at placed
    rw [names] at placed
    simp only [namedSteady consistent steady placed]
    split
    · rfl
    · simp only [Option.map_map,Function.comp_def,applied]

end

section

variable {home : Codebase}

theorem superclassesAlike {below : Answers} {ref : SymbolRef} {bindings bindings' : Bindings}
    (same : ∀ d s, home.resolve? ref = some (d,s) → ∀ e ∈ s.inherits,
      below.resolve ⟨d,ref.handle,bindings,.header⟩ e = below.resolve ⟨d,ref.handle,bindings',.header⟩ e) :
    superclassesStep home below ref bindings = superclassesStep home below ref bindings' := by
  unfold superclassesStep
  cases found : home.resolve? ref with
  | none => rfl
  | some result =>
    obtain ⟨d,s⟩ := result
    have kept : ∀ e ∈ s.inherits, ((below.resolve ⟨d,ref.handle,bindings,.header⟩ e).filter fun t =>
        t.class?.isSome && t.class? ≠ some ref) = (below.resolve ⟨d,ref.handle,bindings',.header⟩ e).filter
          fun t => t.class?.isSome && t.class? ≠ some ref :=
      fun e written => by rw [same d s found e written]
    dsimp only
    split
    · rename_i kind header members body
      simp only [Symbol.inherits,body,List.mem_append,Option.mem_toList] at kept
      rw [Option.bind_congr fun e written => kept e (.inl written),
        List.filterMap_congr fun e written => kept e (.inr written)]
    · rfl

theorem steadyPlain (reached : home.Reached) (plain : home.PlainHeaders)
    (bare : ∀ entry ∈ home.symbols, ∀ e ∈ entry.2.inherits, e.arguments = []) {depth depth' : Nat}
    (same : ∀ entry ∈ home.symbols, (atDepth home (depth + 1)).superclasses entry.1 {} =
      (atDepth home (depth' + 1)).superclasses entry.1 {}) : Steady home (depth + 1) (depth' + 1) := by
  have unbound (depth : Nat) (ref : SymbolRef) (bindings : Bindings) :
      superclassesStep home (atDepth home depth) ref bindings =
        superclassesStep home (atDepth home depth) ref {} := by
    refine superclassesAlike fun d s found e written => ?_
    obtain ⟨inside,_,live⟩ := Codebase.resolveChain.mp found
    have entry := (Arena.memToList d.table.symbols ref.handle s).mpr live
    have simple := plain d inside _ entry e written
    have none := bare _ (Codebase.memSymbols inside live) e written
    cases depth with
    | zero => rfl
    | succ depth =>
      obtain ⟨name,alone⟩ := List.length_eq_one_iff.mp simple.2.1
      have named := plainNamed home (atDepth home depth) (reached.chain inside) live written simple bindings {}
        alone true
      have applied (site : Site) : applyArguments home (atDepth home depth) site e = _ :=
        funext (applyNone none)
      change resolveStep home (atDepth home depth) _ e = resolveStep home (atDepth home depth) _ e
      simp only [resolveStep,alone,named,applied,List.isEmpty_nil,if_true]
  intro ref bindings
  change superclassesStep home (atDepth home depth) ref bindings =
    superclassesStep home (atDepth home depth') ref bindings
  rw [unbound,unbound depth']
  cases found : home.resolve? ref with
  | none => simp only [superclassesStep,found]
  | some result =>
    obtain ⟨d,s⟩ := result
    obtain ⟨inside,written,live⟩ := Codebase.resolveChain.mp found
    have agree := same _ (Codebase.memSymbols inside live)
    rwa [← written] at agree

end

end Answers

namespace Resolver

/-- What a qualified expression is found to denote at one depth, it denotes at every greater depth; only
its arguments may be resolved further. In any scope, under any bindings, an expression that is read by
packages and classes denotes the same above any two depths at which hierarchies are the same. -/
theorem deeperSharpens (home : Codebase) (e : TypeExpr) :
    (home.Built → home.Unambiguous → home.Qualified e → ∀ {depth depth'}, depth ≤ depth' → ∀ {t},
      (Resolver.mk home depth).resolve e home.table.root {} = some t →
      ∃ u, (Resolver.mk home depth').resolve e home.table.root {} = some u ∧ u.denoted = t.denoted ∧
        u.isArray = t.isArray ∧ ResolvedType.SharpensAll t.bindings.entries u.bindings.entries) ∧
    (home.Reached → ∀ {scope}, home.Placed scope e → ∀ bindings {depth depth'},
      Answers.Steady home depth depth' →
      ((Resolver.mk home (depth + 1)).resolve e scope bindings).map (fun t => (t.denoted,t.isArray)) =
        ((Resolver.mk home (depth' + 1)).resolve e scope bindings).map fun t => (t.denoted,t.isArray)) := by
  constructor
  · intro built clear qualified depth depth' deeper t found
    exact Answers.resolveSharpens built clear qualified deeper found
  · intro reached scope placed bindings depth depth' steady
    exact Answers.resolveSteady (fun d => reached.chain) steady placed bindings

def boxExpr : TypeExpr := { segments := ["Box"], arguments := [{ segments := ["int"], isArray := true }] }

theorem boxExprQualified : boxApp.Qualified boxExpr := by
  have element : boxApp.Qualified { segments := ["int"], isArray := true } :=
    .primitive (p := .int) (by decide +kernel) true {}
  have box : (boxApp.table.symbol? boxRef.handle).any
      (fun s => s.kind.isTypeDecl && s.childQualifiers = ["Box"]) = true := by decide +kernel
  obtain ⟨s,live,facts⟩ := (Option.any_eq_true _ _).mp box
  obtain ⟨type,names⟩ : s.kind.isTypeDecl = true ∧ s.childQualifiers = ["Box"] := by simpa using facts
  have declared := Codebase.Qualified.declared (Codebase.chainSelf boxApp) live type false {}
    (List.forall_mem_singleton.mpr element)
  rwa [names] at declared

def hiddenFile : FileDecl where
  path := "p/Hidden.java"
  package := ["p"]
  types :=
    [{ outline := { name := "Base", kind := .type .classType }
       members := [.type { name := "Item", kind := .type .classType } []] },
     { outline :=
        { name := "Heir", kind := .type .classType, header := { superclass := some (.simple "Base") } } },
     { outline := { name := "Item", kind := .type .classType } }]

def hiddenApp : Codebase :=
  (Codebase.putFile { id := 0, name := "app", language := .bare, settings := default } hiddenFile).2

theorem hiddenAppReached : hiddenApp.Reached := .putFile (.new ..) hiddenFile

theorem hiddenAppFacts :
    hiddenApp.PlainHeaders ∧ (∀ entry ∈ hiddenApp.symbols, ∀ e ∈ entry.2.inherits, e.arguments = []) ∧
    (∀ entry ∈ hiddenApp.symbols, (Answers.atDepth hiddenApp 2).superclasses entry.1 {} =
      (Answers.atDepth hiddenApp 3).superclasses entry.1 {}) ∧
    hiddenApp.Placed ⟨5,0⟩ (.named "Heir.Item") ∧
    (((Resolver.mk hiddenApp 3).resolve (.named "Heir.Item") ⟨5,0⟩ {}).map fun t => (t.denoted,t.isArray)) =
      some (.symbol ⟨0,⟨4,0⟩⟩,false) := by
  decide +kernel

theorem boxExprSharpens :
    (∃ t u, (Resolver.mk boxApp 1).resolve boxExpr boxApp.table.root {} = some t ∧
      t.bindings.values.any (·.isTypeVar) ∧
      (Resolver.mk boxApp 2).resolve boxExpr boxApp.table.root {} = some u ∧ u.denoted = t.denoted ∧
      u.isArray = t.isArray ∧ ResolvedType.SharpensAll t.bindings.entries u.bindings.entries) ∧
    Answers.Steady hiddenApp 2 3 ∧
    ((Resolver.mk hiddenApp 4).resolve (.named "Heir.Item") ⟨5,0⟩ {}).map (fun t => (t.denoted,t.isArray)) =
      some (.symbol ⟨0,⟨4,0⟩⟩,false) := by
  constructor
  · have shallow : ((Resolver.mk boxApp 1).resolve boxExpr boxApp.table.root {}).any
        (fun t => t.bindings.values.any (·.isTypeVar)) = true := by decide +kernel
    obtain ⟨t,found,unresolved⟩ := (Option.any_eq_true _ _).mp shallow
    obtain ⟨u,deeper⟩ := (deeperSharpens boxApp boxExpr).1 boxAppBuilt boxAppUnambiguous boxExprQualified
      (show 1 ≤ 2 by decide) found
    exact ⟨t,u,found,unresolved,deeper⟩
  · obtain ⟨plain,bare,same,placed,found⟩ := hiddenAppFacts
    have steady : Answers.Steady hiddenApp 2 3 := Answers.steadyPlain hiddenAppReached plain bare same
    have alike := (deeperSharpens hiddenApp (.named "Heir.Item")).2 hiddenAppReached placed {} steady
    exact ⟨steady,alike.symm.trans found⟩

theorem hiddenItemFound : ∃ t u,
    (Resolver.mk hiddenApp 2).resolve (.simple "Item") ⟨5,0⟩ {} = some t ∧
    (Resolver.mk hiddenApp 3).resolve (.simple "Item") ⟨5,0⟩ {} = some u ∧
    t.denoted = .symbol ⟨0,⟨6,0⟩⟩ ∧ u.denoted = .symbol ⟨0,⟨4,0⟩⟩ := by
  have shallow : ((Resolver.mk hiddenApp 2).resolve (.simple "Item") ⟨5,0⟩ {}).any
      (·.denoted = .symbol ⟨0,⟨6,0⟩⟩) = true := by decide +kernel
  have deep : ((Resolver.mk hiddenApp 3).resolve (.simple "Item") ⟨5,0⟩ {}).any
      (·.denoted = .symbol ⟨0,⟨4,0⟩⟩) = true := by decide +kernel
  obtain ⟨t,found,outer⟩ := (Option.any_eq_true _ _).mp shallow
  obtain ⟨u,found',inner⟩ := (Option.any_eq_true _ _).mp deep
  exact ⟨t,u,found,found',of_decide_eq_true outer,of_decide_eq_true inner⟩

end Resolver
end CodeIndex
