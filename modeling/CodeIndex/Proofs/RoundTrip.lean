import CodeIndex.Proofs.Reading

/-! Writing a type and reading it back. What is written for a class is its qualified name and what is
written for its arguments, one for each type parameter; reading binds the parameters to the arguments
again, one level deeper for each nesting. -/
namespace CodeIndex
namespace OrderedMap

variable {κ : Type u} {α : Type v} [DecidableEq κ]

def tabulate (f : κ → α) (keys : List κ) : OrderedMap κ α := ⟨keys.eraseDups.map fun k => (k,f k)⟩

theorem eraseDupsConcat (keys : List κ) (key : κ) :
    (keys ++ [key]).eraseDups = if key ∈ keys then keys.eraseDups else keys.eraseDups ++ [key] := by
  rw [List.eraseDups_append]
  split
  · rename_i known
    simp [List.removeAll,known]
  · rename_i fresh
    simp [List.removeAll,fresh,List.eraseDups_cons]

theorem eraseDupsNodup (keys : List κ) : keys.eraseDups.Nodup := by
  induction keys using List.reverseRecOn with
  | nil => simp
  | append_singleton keys key ih =>
    rw [eraseDupsConcat]
    split
    · exact ih
    · rename_i fresh
      refine List.nodup_append.mpr ⟨ih,by simp,?_⟩
      intro k before k' last same
      cases List.mem_singleton.mp last
      exact fresh (same ▸ List.mem_eraseDups.mp before)

theorem putTabulated (f : κ → α) (keys : List κ) (key : κ) :
    put key (fun _ => f key) (keys.map fun k => (k,f k)) =
      (if key ∈ keys then keys else keys ++ [key]).map fun k => (k,f k) := by
  induction keys with
  | nil => simp [put]
  | cons first rest ih =>
    by_cases here : first = key
    · subst here
      simp [put]
    · have other : ¬key = first := fun same => here same.symm
      simp only [List.map_cons,put,here,if_false,ih,List.mem_cons,other,false_or]
      split <;> simp

theorem insertTabulated (f : κ → α) (keys : List κ) (key : κ) :
    (tabulate f keys).insert key (f key) = tabulate f (keys ++ [key]) := by
  simp only [tabulate,insert,alter,putTabulated,eraseDupsConcat,List.mem_eraseDups]

theorem tabulateGet (m : OrderedMap κ α) {keys : List κ} (same : m.keys = keys.eraseDups)
    {f : κ → α} (values : ∀ {k a}, m.get? k = some a → f k = a) : tabulate f keys = m := by
  have unique : m.keys.Nodup := same ▸ eraseDupsNodup keys
  obtain ⟨entries⟩ := m
  simp only [tabulate,← same,OrderedMap.keys,List.map_map,mk.injEq]
  refine (List.map_congr_left ?_).trans (List.map_id entries)
  rintro ⟨k,a⟩ inside
  simp [values ((getEntry unique).mp inside)]

end OrderedMap

namespace Codebase

def typeVars? (home : Codebase) (ref : SymbolRef) : Option (List TypeVar) :=
  match home.resolve? ref with
  | some (_,s) =>
    if s.kind.isTypeDecl then some (s.typeParameters.map fun p => ⟨ref,p.name⟩).eraseDups else none
  | none => none

/-- A type without open type parameters: a primitive that its keyword denotes, or a class with either
no bindings or its own type parameters bound in order. Each may be an array. -/
inductive Ground (home : Codebase) : ResolvedType → Prop where
  | primitive {p isArray} (keyword : home.language.primitive? p.keyword = some p) :
      Ground home ⟨.primitive p,isArray,{}⟩
  | declared {ref isArray bindings} (known : (home.typeVars? ref).isSome)
      (binds : bindings.keys = [] ∨ home.typeVars? ref = some bindings.keys)
      (arguments : ∀ t ∈ bindings.values, Ground home t) : Ground home ⟨.symbol ref,isArray,bindings⟩

theorem typeVarsDeclared {home : Codebase} {ref : SymbolRef} {vars : List TypeVar}
    (parameters : home.typeVars? ref = some vars) : ∃ d s, home.resolve? ref = some (d,s) ∧
      s.kind.isTypeDecl ∧ vars = (s.typeParameters.map fun p => ⟨ref,p.name⟩).eraseDups := by
  unfold typeVars? at parameters
  split at parameters
  · rename_i d s found
    split at parameters
    · rename_i type
      exact ⟨d,s,found,type,(Option.some.inj parameters).symm⟩
    · cases parameters
  · cases parameters

end Codebase

namespace ResolvedType

mutual

def nesting : ResolvedType → Nat
  | ⟨_,_,⟨entries⟩⟩ => nestingIn entries

def nestingIn : List (TypeVar × ResolvedType) → Nat
  | [] => 0
  | (_,t) :: rest => max (nesting t + 1) (nestingIn rest)

end

theorem nestingBound {t : ResolvedType} {bindings : Bindings} (bound : t ∈ bindings.values)
    (denoted : Denoted) (isArray : Bool) : t.nesting < nesting ⟨denoted,isArray,bindings⟩ := by
  obtain ⟨entries⟩ := bindings
  rw [nesting]
  simp only [OrderedMap.values] at bound
  induction entries with
  | nil => cases bound
  | cons entry rest ih =>
    obtain ⟨v,u⟩ := entry
    rw [nestingIn]
    rcases List.mem_cons.mp bound with rfl | later
    · exact Nat.lt_of_lt_of_le (Nat.lt_succ_self _) (Nat.le_max_left _ _)
    · exact Nat.lt_of_lt_of_le (ih later) (Nat.le_max_right _ _)

end ResolvedType

namespace Answers

theorem bindTabulated {below : Answers} {site : Site} {ref : SymbolRef} (f : TypeVar → ResolvedType)
    {parameters : List TypeParameter} {arguments : List TypeExpr}
    (resolved : List.Forall₂ (fun p e => below.resolve site e = some (f ⟨ref,p.name⟩)) parameters arguments)
    (seen : List TypeVar) :
    bindArguments below site ref (parameters.zip arguments) (.tabulate f seen) =
      .tabulate f (seen ++ parameters.map fun p => ⟨ref,p.name⟩) := by
  induction resolved generalizing seen with
  | nil => simp [bindArguments]
  | cons first _ ih =>
    simp only [List.zip_cons_cons,bindArguments,first,Option.getD_some,OrderedMap.insertTabulated,ih]
    simp

section

variable {home : Codebase} (built : home.Built) (clear : home.Unambiguous)
include built clear

theorem resolveNames {below : Answers} (settled : below.Settled) {d : Codebase}
    (inside : d ∈ home.chain) {h : Handle} {s : Symbol} (live : d.table.symbol? h = some s)
    (type : s.kind.isTypeDecl) {e : TypeExpr} (names : e.segments = s.childQualifiers) :
    resolveStep home below (top home) e = some
      { denoted := .symbol (d.ref h)
        isArray := e.isArray
        bindings := bindArguments below (top home) (d.ref h) (s.typeParameters.zip e.arguments) {} } := by
  obtain ⟨first,rest,same,found⟩ := (readsType built clear settled inside live type).named
  have primitive : (if rest.isEmpty && e.arguments.isEmpty then home.language.primitive? first
      else none) = none := by
    split
    · rename_i alone
      have single : s.qualifiers ++ [s.name] = [] ++ [first] := by
        rw [← ((built.chain inside).typeNames live type).2,same]
        simp_all
      obtain ⟨unqualified,named⟩ := List.append_inj' single rfl
      rw [← List.singleton_inj.mp named]
      exact clear.primitives _ (Codebase.memSymbols inside live) type unqualified
    · rfl
  simp only [resolveStep,names,same,primitive,found]
  simp [applyArguments,ResolvedType.class?,ResolvedType.ofSymbol,Codebase.resolveRef inside live]

end

end Answers

namespace Resolver

theorem writeBound (r : Resolver) (v : TypeVar) (entries : List (TypeVar × ResolvedType)) :
    r.writeBound? v entries = (OrderedMap.lookup v entries).bind r.write? := by
  induction entries with
  | nil => rfl
  | cons entry rest ih =>
    obtain ⟨w,t⟩ := entry
    rw [writeBound?,OrderedMap.lookup]
    split
    · rfl
    · exact ih

def writeArguments (r : Resolver) (ref : SymbolRef) (bindings : Bindings)
    (parameters : List TypeParameter) : List TypeExpr :=
  (parameters.mapM fun p => (bindings.get? ⟨ref,p.name⟩).bind r.write?).getD []

theorem writeDeclared {r : Resolver} {ref : SymbolRef} {d : Codebase} {s : Symbol}
    (found : r.home.resolve? ref = some (d,s)) (isArray : Bool) (bindings : Bindings) :
    r.write? ⟨.symbol ref,isArray,bindings⟩ = some { TypeExpr.named s.qualifiedName with
      arguments := r.writeArguments ref bindings s.typeParameters
      isArray } := by
  obtain ⟨entries⟩ := bindings
  simp only [write?,found,Option.map_some,writeBound,writeArguments]
  rfl

theorem writeUnbound (r : Resolver) (ref : SymbolRef) (parameters : List TypeParameter) :
    r.writeArguments ref {} parameters = [] := by
  cases parameters <;> simp [writeArguments,OrderedMap.get?,OrderedMap.lookup]

theorem writeBoundAll {r : Resolver} {ref : SymbolRef} {bindings : Bindings}
    {parameters : List TypeParameter} {P : TypeParameter → TypeExpr → Prop}
    (each : ∀ p ∈ parameters, ∃ t e, bindings.get? ⟨ref,p.name⟩ = some t ∧ r.write? t = some e ∧ P p e) :
    List.Forall₂ P parameters (r.writeArguments ref bindings parameters) := by
  have written : ∃ arguments, (parameters.mapM fun p => (bindings.get? ⟨ref,p.name⟩).bind r.write?) =
      some arguments ∧ List.Forall₂ P parameters arguments := by
    induction parameters with
    | nil => exact ⟨[],rfl,.nil⟩
    | cons first rest ih =>
      obtain ⟨t,e,bound,writes,holds⟩ := each first (by simp)
      obtain ⟨arguments,others,related⟩ := ih fun p later => each p (by simp [later])
      exact ⟨e :: arguments,by simp [bound,writes,others],.cons holds related⟩
  obtain ⟨arguments,all,related⟩ := written
  simpa [writeArguments,all] using related

theorem bindWritten {r : Resolver} {ref : SymbolRef} {bindings : Bindings}
    {parameters : List TypeParameter} {below : Answers} {site : Site}
    (keys : bindings.keys = (parameters.map fun p => (⟨ref,p.name⟩ : TypeVar)).eraseDups)
    (each : ∀ t ∈ bindings.values, ∃ e, r.write? t = some e ∧ below.resolve site e = some t) :
    Answers.bindArguments below site ref (parameters.zip (r.writeArguments ref bindings parameters)) {} =
      bindings := by
  have unique : bindings.keys.Nodup := keys ▸ OrderedMap.eraseDupsNodup _
  have resolved : List.Forall₂
      (fun p e => below.resolve site e = some ((bindings.get? ⟨ref,p.name⟩).getD default)) parameters
      (r.writeArguments ref bindings parameters) := by
    refine writeBoundAll fun p inside => ?_
    have known : (⟨ref,p.name⟩ : TypeVar) ∈ bindings.keys := by
      rw [keys,List.mem_eraseDups]
      exact List.mem_map.mpr ⟨p,inside,rfl⟩
    obtain ⟨⟨v,t⟩,entry,same⟩ := List.mem_map.mp known
    cases same
    have bound := (OrderedMap.getEntry unique).mp entry
    obtain ⟨e,writes,reads⟩ := each t (List.mem_map.mpr ⟨_,entry,rfl⟩)
    exact ⟨t,e,bound,writes,by rw [bound,reads,Option.getD_some]⟩
  refine (Answers.bindTabulated (fun v => (bindings.get? v).getD default) resolved []).trans ?_
  refine OrderedMap.tabulateGet bindings keys ?_
  intro v t bound
  rw [bound,Option.getD_some]

section

variable {r : Resolver} (built : r.home.Built) (clear : r.home.Unambiguous)
include built clear

theorem resolveDeclared {ref : SymbolRef} {d : Codebase} {s : Symbol}
    (found : r.home.resolve? ref = some (d,s)) (type : s.kind.isTypeDecl) (isArray : Bool)
    (bindings : Bindings) (depth : Nat) :
    ∃ e, r.write? ⟨.symbol ref,isArray,bindings⟩ = some e ∧
      (Answers.atDepth r.home (depth + 1)).resolve (Answers.top r.home) e = some ⟨.symbol ref,isArray,
        Answers.bindArguments (.atDepth r.home depth) (Answers.top r.home) ref
          (s.typeParameters.zip (r.writeArguments ref bindings s.typeParameters)) {}⟩ := by
  refine ⟨_,writeDeclared found isArray bindings,?_⟩
  obtain ⟨inside,same,live⟩ := Codebase.resolveChain.mp found
  have orderly := built.chain inside
  have names : Text.segments s.qualifiedName = s.childQualifiers := by
    rw [Codebase.qualifiedNames (SymbolTable.typeKind type).2 (orderly.typeNames live type).1.1,
      Text.segmentsDotted (orderly.plainNames live type)]
  refine (Answers.resolveNames built clear (Answers.settledDepth _ _) inside live type names).trans ?_
  rw [← same]

theorem resolveWritten {t : ResolvedType} (ground : r.home.Ground t) {depth : Nat}
    (deep : t.nesting < depth) : ∃ e, r.write? t = some e ∧
      (Answers.atDepth r.home depth).resolve (Answers.top r.home) e = some t := by
  induction ground generalizing depth with
  | primitive keyword =>
    obtain ⟨below,rfl⟩ := Nat.exists_eq_add_one_of_ne_zero (Nat.ne_zero_of_lt deep)
    refine ⟨_,by rw [write?],?_⟩
    simp [Answers.atDepth,Answers.resolveStep,TypeExpr.simple,keyword,ResolvedType.ofPrimitive]
  | @declared ref isArray bindings known binds arguments ih =>
    obtain ⟨below,rfl⟩ := Nat.exists_eq_add_one_of_ne_zero (Nat.ne_zero_of_lt deep)
    obtain ⟨vars,parameters⟩ := Option.isSome_iff_exists.mp known
    obtain ⟨d,s,found,type,rfl⟩ := Codebase.typeVarsDeclared parameters
    obtain ⟨e,writes,denotes⟩ := resolveDeclared built clear found type isArray bindings below
    refine ⟨e,writes,denotes.trans ?_⟩
    congr 2
    rcases binds with none | all
    -- With a parameter left unbound nothing is written, and with nothing written none is bound.
    · obtain ⟨entries⟩ := bindings
      cases List.map_eq_nil_iff.mp none
      rw [writeUnbound,List.zip_nil_right]
      rfl
    · have keys := Option.some.inj (all.symm.trans parameters)
      refine bindWritten keys fun t bound => ih t bound ?_
      have shallower := ResolvedType.nestingBound bound (.symbol ref) isArray
      omega

end

/-- A ground type is written, and what is written denotes it again at the root. -/
theorem writeResolves (r : Resolver) (built : r.home.Built) (clear : r.home.Unambiguous)
    {t : ResolvedType} (ground : r.home.Ground t) (deep : t.nesting < r.depth) :
    ∃ e, r.write? t = some e ∧ r.resolve e r.home.table.root {} = some t :=
  resolveWritten built clear ground deep

def mapFile : FileDecl where
  path := "util/Map.java"
  package := ["util"]
  types :=
    let header : TypeHeader := { typeParameters := [⟨"K",[]⟩,⟨"V",[]⟩] }
    [{ outline := { name := "Map", kind := .type .classType, header }
       members := [.type { name := "Entry", kind := .type .classType, header } []] }]

def boxFile : FileDecl where
  path := "Box.java"
  types := [{ outline :=
    { name := "Box", kind := .type .classType, header := { typeParameters := [⟨"T",[]⟩] } } }]

def boxApp : Codebase :=
  let library : Codebase := { id := 1, name := "library", language := .java, settings := default }
  let own : Codebase := { id := 0, name := "app", language := .java, settings := default }
  (own.putFile boxFile).2.addDependency (library.putFile mapFile).2

def boxRef : SymbolRef := ⟨0,⟨2,0⟩⟩
def mapRef : SymbolRef := ⟨1,⟨3,0⟩⟩
def entryRef : SymbolRef := ⟨1,⟨4,0⟩⟩

def boxedArray : ResolvedType :=
  ⟨.symbol boxRef,false,⟨[(⟨boxRef,"T"⟩,⟨.primitive .int,true,{}⟩)]⟩⟩

def boxedEntries : ResolvedType :=
  ⟨.symbol entryRef,true,⟨[(⟨entryRef,"K"⟩,boxedArray),(⟨entryRef,"V"⟩,.ofSymbol mapRef)]⟩⟩

theorem boxAppBuilt : boxApp.Built := by
  refine .addDependency (.putFile (.new ..) ⟨by decide,?_⟩) (.putFile (.new ..) ⟨by decide,?_⟩)
  · simp only [boxFile,List.forall_mem_singleton]
    exact ⟨by decide,trivial⟩
  · simp only [mapFile,List.forall_mem_singleton]
    exact ⟨by decide,⟨by decide,trivial⟩,trivial⟩

theorem boxAppUnambiguous : boxApp.Unambiguous :=
  ⟨by decide +kernel,by decide +kernel,by decide +kernel⟩

theorem boxedEntriesGround : boxApp.Ground boxedEntries := by
  have array : boxApp.Ground ⟨.primitive .int,true,{}⟩ := .primitive (by decide +kernel)
  have plain : boxApp.Ground (.ofSymbol mapRef) := .declared (by decide +kernel) (.inl rfl) (by nofun)
  have boxed : boxApp.Ground boxedArray :=
    .declared (by decide +kernel) (.inr (by decide +kernel)) (List.forall_mem_singleton.mpr array)
  exact .declared (by decide +kernel) (.inr (by decide +kernel))
    (List.forall_mem_cons.mpr ⟨boxed,List.forall_mem_singleton.mpr plain⟩)

theorem boxedEntriesResolve : boxedEntries.nesting = 2 ∧ ∃ e,
    (Resolver.mk boxApp 3).write? boxedEntries = some e ∧
      (Resolver.mk boxApp 3).resolve e boxApp.table.root {} = some boxedEntries :=
  ⟨by decide +kernel,
    writeResolves ⟨boxApp,3⟩ boxAppBuilt boxAppUnambiguous boxedEntriesGround (by decide +kernel)⟩

end Resolver
end CodeIndex
