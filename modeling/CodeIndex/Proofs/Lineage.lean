import CodeIndex.Proofs.RoundTrip
import CodeIndex.Proofs.Unqualified

/-! Classes of one package that inherit from one another. Each names its superclass with an argument for
every type parameter there, a type parameter of its own or a class of the package. What the header of
an heir says, under bindings of its own parameters, is the superclass under the bindings that follow from the
arguments; so the bindings under which a class is met are the argument lists of its heirs, composed. -/
namespace CodeIndex

namespace OrderedMap

variable {κ : Type u} {α : Type v} [DecidableEq κ]

theorem getTabulated (f : κ → α) {keys : List κ} {k : κ} (inside : k ∈ keys) :
    (tabulate f keys).get? k = some (f k) := by
  have unique : (tabulate f keys).keys.Nodup := by
    simp [tabulate,OrderedMap.keys,Function.comp_def,eraseDupsNodup]
  refine (getEntry unique).mp (List.mem_map.mpr ⟨k,?_,rfl⟩)
  exact List.mem_eraseDups.mpr inside

end OrderedMap

namespace SymbolTable

theorem typeShape {s : Symbol} (type : s.kind.isTypeDecl) :
    ∃ kind header members, s.body = .type kind header members := by
  obtain ⟨_,_,_,_,_,body⟩ := s
  cases body with
  | type kind header members => exact ⟨kind,header,members,rfl⟩
  | _ => cases type

def topLevel (t : SymbolTable) (package : Handle) : List (Handle × Symbol) :=
  t.symbols.toList.filter fun (_,s) => s.parent.any fun p =>
    (p = package && s.kind ≠ .package && s.kind ≠ .file) ||
      (t.symbol? p).any fun o => o.kind = .file && o.parent = some package

variable {t : SymbolTable} {package h : Handle} {s : Symbol}

theorem topLive (top : (h,s) ∈ t.topLevel package) : t.symbol? h = some s :=
  (Arena.memToList t.symbols h s).mp (List.mem_filter.mp top).1

theorem topFiled {f : Handle} {o : Symbol} (live : t.symbol? h = some s) (parent : s.parent = some f)
    (owner : t.symbol? f = some o) (file : o.kind = .file) (above : o.parent = some package) :
    (h,s) ∈ t.topLevel package := by
  refine List.mem_filter.mpr ⟨(Arena.memToList t.symbols h s).mpr live,?_⟩
  simp [parent,owner,file,above]

namespace Consistent

variable (c : t.Consistent) {o : Symbol} (owner : t.symbol? package = some o)
include c owner

theorem declaredTop {name : String} (listed : h ∈ t.declared package name) :
    ∃ s, (h,s) ∈ t.topLevel package ∧ s.name = name := by
  rw [declaredShelf owner] at listed
  have belongs := (c.listed owner _ h).mp listed
  obtain ⟨s,live⟩ := belongs.live
  have named := belongs.memberName live
  refine ⟨s,?_,named⟩
  generalize spot : Shelf.member name = place at belongs
  cases belongs with
  | own live' parent =>
    cases Option.some.inj (live.symm.trans live')
    refine List.mem_filter.mpr ⟨(Arena.memToList t.symbols h s).mpr live,?_⟩
    obtain ⟨package,file⟩ := c.memberKind owner listed live
    simp [parent,package,file]
  | parameter => cases spot
  | type live' _ parent owner file above =>
    cases Option.some.inj (live.symm.trans live')
    exact topFiled live parent owner file above

theorem topDeclared (top : (h,s) ∈ t.topLevel package) (type : s.kind.isTypeDecl) :
    h ∈ t.declared package s.name := by
  have live := topLive top
  rw [declaredShelf owner]
  refine (c.listed owner _ h).mpr ?_
  obtain ⟨p,parent,place⟩ := (Option.any_eq_true _ _).mp (List.mem_filter.mp top).2
  rcases (Bool.or_eq_true _ _).mp place with direct | filed
  · obtain ⟨⟨rfl,package⟩,file⟩ : (p = package ∧ s.kind ≠ .package) ∧ s.kind ≠ .file := by
      simpa using direct
    have own := Belongs.own live parent
    rwa [Symbol.memberHome package file] at own
  · obtain ⟨f,owner,facts⟩ := (Option.any_eq_true _ _).mp filed
    obtain ⟨file,above⟩ : f.kind = .file ∧ f.parent = some package := by simpa using facts
    exact .type live type parent owner file above

end Consistent

end SymbolTable

def Symbol.superclass? (s : Symbol) : Option TypeExpr :=
  match s.body with
  | .type _ header _ => header.superclass
  | _ => none

namespace Codebase

variable (home c : Codebase) (package : Handle)

def parameters (h : Handle) : List String :=
  match c.table.symbol? h with
  | some s => s.typeParameters.map (·.name)
  | none => []

def superclass? (h : Handle) : Option TypeExpr := (c.table.symbol? h).bind (·.superclass?)

def arguments (h : Handle) : List String :=
  match c.superclass? h with
  | some e => e.arguments.map fun a => Text.dotted a.segments
  | none => []

def under (bindings : Bindings) (h : Handle) : ResolvedType :=
  { ResolvedType.ofSymbol (c.ref h) with bindings }

def Binds (s : Bindings) (h : Handle) : Prop := ∀ name ∈ c.parameters h, (s.get? ⟨c.ref h,name⟩).isSome

instance (s : Bindings) (h : Handle) : Decidable (c.Binds s h) := by
  unfold Binds
  infer_instance

structure Legible : Prop where
  alone : ∀ e ∈ c.table.topLevel package, e.2.kind.isTypeDecl → ∀ e' ∈ c.table.topLevel package,
    e'.2.name = e.2.name → e'.1 = e.1
  plain : ∀ e ∈ c.table.topLevel package, e.2.kind.isTypeDecl →
    Text.IsSegment e.2.name ∧ home.language.primitive? e.2.name = none
  leads : ∀ e ∈ c.table.topLevel package, ∀ f ∈ e.2.parent, ∀ o ∈ c.table.symbol? f,
    ∀ source ∈ o.source?, c.table.along? (source.package.flatMap Text.segments) = some package

structure Filed (h : Handle) : Prop where
  placed : ∃ s ∈ c.table.symbol? h, s.kind.isTypeDecl ∧ ∃ f ∈ s.parent, ∃ o ∈ c.table.symbol? f,
    o.parent = some package ∧ ∃ source ∈ o.source?, source.imports = []
  distinct : (c.parameters h).Nodup
  apart : ∀ name ∈ c.parameters h, home.language.primitive? name = none ∧
    ∀ e ∈ c.table.topLevel package, e.2.kind.isTypeDecl → e.2.name ≠ name

instance (h : Handle) : Decidable (home.Filed c package h) :=
  decidable_of_iff (_ ∧ _ ∧ _) ⟨fun ⟨placed,distinct,apart⟩ => ⟨placed,distinct,apart⟩,
    fun filed => ⟨filed.placed,filed.distinct,filed.apart⟩⟩

def Argument (heir : Handle) (a : TypeExpr) : Prop :=
  ∃ name ∈ a.segments, a.segments = [name] ∧ a.isArray = false ∧ a.arguments = [] ∧
    (name ∈ c.parameters heir ∨
      ∃ e ∈ c.table.topLevel package, e.2.kind.isTypeDecl ∧ e.2.name = name)

instance (heir : Handle) (a : TypeExpr) : Decidable (c.Argument package heir a) := by
  unfold Argument
  infer_instance

def Extends (heir own : Handle) : Prop :=
  ∃ e ∈ c.superclass? heir, (∃ s ∈ c.table.symbol? own, e.segments = [s.name]) ∧ e.isArray = false ∧
    e.arguments.length = (c.parameters own).length ∧ ∀ a ∈ e.arguments, c.Argument package heir a

instance (heir own : Handle) : Decidable (c.Extends package heir own) := by
  unfold Extends
  infer_instance

inductive Lineage : Handle → List Handle → Prop where
  | alone {own} (filed : home.Filed c package own) : Lineage own []
  | heir {own heir rest} (filed : home.Filed c package own) (inherits : c.Extends package heir own)
      (line : Lineage heir rest) : Lineage own (heir :: rest)

variable {home c package}

theorem Lineage.filed {own : Handle} {heirs : List Handle} (line : home.Lineage c package own heirs) :
    home.Filed c package own := by
  cases line <;> assumption

theorem Lineage.tail {own heir : Handle} {rest : List Handle}
    (line : home.Lineage c package own (heir :: rest)) :
    c.Extends package heir own ∧ home.Lineage c package heir rest := by
  cases line with
  | heir _ inherits line => exact ⟨inherits,line⟩

instance decideLineage : (own : Handle) → (heirs : List Handle) →
    Decidable (home.Lineage c package own heirs)
  | own,[] => decidable_of_iff (home.Filed c package own) ⟨.alone,Lineage.filed⟩
  | own,heir :: rest =>
    have := decideLineage heir rest
    decidable_of_iff (home.Filed c package own ∧ c.Extends package heir own ∧
        home.Lineage c package heir rest)
      ⟨fun ⟨filed,inherits,line⟩ => .heir filed inherits line,fun line => ⟨line.filed,line.tail⟩⟩

theorem Lineage.all {own : Handle} {heirs : List Handle} (line : home.Lineage c package own heirs) :
    ∀ h ∈ own :: heirs, home.Filed c package h := by
  induction line with
  | alone filed => exact List.forall_mem_singleton.mpr filed
  | heir filed _ _ ih => exact List.forall_mem_cons.mpr ⟨filed,ih⟩

theorem parametersLive {h : Handle} {s : Symbol} (live : c.table.symbol? h = some s) :
    c.parameters h = s.typeParameters.map (·.name) := by
  simp [parameters,live]

theorem superclassLive {h : Handle} {s : Symbol} (live : c.table.symbol? h = some s) :
    c.superclass? h = s.superclass? := by
  simp [superclass?,live]

section

variable (consistent : c.table.Consistent) {h : Handle} (filed : home.Filed c package h)
include consistent filed

theorem Filed.packageLive : ∃ o, c.table.symbol? package = some o := by
  obtain ⟨s,_,_,f,_,o,owner,above,_⟩ := filed.placed
  obtain ⟨p,live,_⟩ := consistent.parentLive owner above
  exact ⟨p,live⟩

theorem Filed.levels : ∃ s f o outer source members scopes,
    c.table.Outward h ((h,s) :: (f,o) :: outer) ∧ (h,s) ∈ c.table.topLevel package ∧ s.kind.isTypeDecl ∧
    (∀ level ∈ (f,o) :: outer, level.2.typeParameters = []) ∧
    o.body = .file source members scopes ∧ source.imports = [] ∧ s.parent = some f ∧
    c.table.symbol? f = some o ∧ o.parent = some package := by
  obtain ⟨s,live,type,f,parent,o,owner,above,source,held,imports⟩ := filed.placed
  obtain ⟨members,scopes,body⟩ : ∃ members scopes, o.body = .file source members scopes := by
    obtain ⟨_,_,_,_,_,body⟩ := o
    cases body with
    | file source members scopes => cases Option.some.inj held; exact ⟨members,scopes,rfl⟩
    | _ => cases held
  have file : o.kind = .file := by simp [Symbol.kind,body,Body.kind]
  obtain ⟨levels,outward⟩ := consistent.outward owner
  obtain ⟨_,_,outer,_,_,_,rfl,_,packages⟩ := consistent.aroundFile outward owner file
  refine ⟨s,f,o,outer,source,members,scopes,.inner live parent outward,
    SymbolTable.topFiled live parent owner file above,type,?_,body,imports,parent,owner,above⟩
  refine List.forall_mem_cons.mpr ⟨by simp [Symbol.typeParameters,body],fun level inside => ?_⟩
  exact SymbolTable.packageParameters (packages level inside)

end

end Codebase

namespace Answers

variable {home c : Codebase} {package : Handle}

section

variable (consistent : c.table.Consistent) (legible : home.Legible c package) {h : Handle} {s : Symbol}
  (top : (h,s) ∈ c.table.topLevel package) (type : s.kind.isTypeDecl)
include consistent legible top type

theorem classDeclared {o : Symbol} (owner : c.table.symbol? package = some o) :
    ∃ rest, c.table.declared package s.name = h :: rest := by
  have listed := consistent.topDeclared owner top type
  cases members : c.table.declared package s.name with
  | nil => simp [members] at listed
  | cons first rest =>
    obtain ⟨s',top',named⟩ := consistent.declaredTop owner (members ▸ List.mem_cons_self)
    have same : first = h := legible.alone _ top type _ top' named
    exact ⟨rest,by rw [same]⟩

theorem classFound {path : List String} {o : Symbol} (owner : c.table.symbol? package = some o)
    (leads : c.table.along? (path.flatMap Text.segments) = some package) :
    c.type? (path ++ [s.name]) = some (c.ref h) := by
  obtain ⟨rest,members⟩ := classDeclared consistent legible top type owner
  obtain ⟨further,chain⟩ := c.chainFirst
  have names : (path ++ [s.name]).flatMap Text.segments = path.flatMap Text.segments ++ [s.name] := by
    simp [Text.segmentsName (legible.plain _ top type).1]
  have own : c.ownType? (path.flatMap Text.segments ++ [s.name]) = some (c.ref h) := by
    simp [Codebase.ownType?,SymbolTable.alongConcat,leads,SymbolTable.child?,members,
      SymbolTable.topLive top,type]
  simp [Codebase.type?,chain,names,own]

theorem classNamed (inside : c ∈ home.chain) {scope : Handle} (filed : home.Filed c package scope)
    (other : s.name ∉ c.parameters scope) (below : Answers) (bindings : Bindings) :
    firstStep? home below ⟨c,scope,bindings,.header⟩ s.name true =
      some (.type (.ofSymbol (c.ref h))) := by
  obtain ⟨k,f,o,outer,source,members,scopes,outward,own,class',free,body,imports,parent,live,above⟩ :=
    filed.levels consistent
  have leads := legible.leads _ own f parent o live source (by simp [Symbol.source?,body])
  obtain ⟨p,owner⟩ := filed.packageLive consistent
  have file : o.kind = .file := by simp [Symbol.kind,body,Body.kind]
  have step : stepTo home (c.ref h) {} = some (.type (.ofSymbol (c.ref h))) := by
    simp [stepTo,Codebase.resolveRef inside (SymbolTable.topLive top),type,ResolvedType.ofSymbol]
  have found : fileStep? home below c source members s.name true =
      some (.type (.ofSymbol (c.ref h))) := by
    unfold fileStep?
    split
    · rename_i first rest declared
      -- What the file declares under the name is a top-level symbol too.
      have listed : first ∈ o.shelf (.member s.name) := by
        simp [Symbol.shelf,body,Body.shelf,Body.members,Body.members?,declared]
      have belongs := (consistent.listed live _ first).mp listed
      obtain ⟨s',live'⟩ := belongs.live
      have parent := consistent.ownMember live (by simp [file]) _ listed live'
      have same : first = h := legible.alone _ top type _
        (SymbolTable.topFiled live' parent live file above) (belongs.memberName live')
      rw [same,step]
    · simp [importedStep?,singleImports,onDemandImports,staticallyImported?,staticSingleImports,
        staticOnDemandImports,imports,typeStep?,
        classFound consistent legible top type owner leads]
  rw [firstLevels outward]
  · obtain ⟨kind,header,own,shape⟩ := SymbolTable.typeShape class'
    simp only [List.findSome?_cons,levelStep?,shape,body]
    simp [found]
  · refine List.forall_mem_cons.mpr ⟨fun p declared same => other ?_,fun level listed => ?_⟩
    · rw [Codebase.parametersLive (SymbolTable.topLive own)]
      exact List.mem_map.mpr ⟨p,declared,same⟩
    · simp [free level listed]

end

end Answers

namespace Codebase

variable (c : Codebase) (package : Handle) (s : Bindings)

/-- What a type parameter of a class stands for, seen from the last of its heirs: each heir's argument list
says what to look up next, and bindings say what the last one's own parameters stand for. -/
def stands : Handle → List Handle → String → Option ResolvedType
  | own,[],name => s.get? ⟨c.ref own,name⟩
  | own,heir :: rest,name => do
    let argument ← OrderedMap.lookup name ((c.parameters own).zip (c.arguments heir))
    if argument ∈ c.parameters heir then stands heir rest argument
    else (c.table.declared package argument).head?.map fun h => .ofSymbol (c.ref h)

def handed (own : Handle) : List Handle → Bindings
  | [] => s
  | heirs => .tabulate (fun v => (c.stands package s own heirs v.name).getD default)
      ((c.parameters own).map fun name => ⟨c.ref own,name⟩)

end Codebase

namespace Answers

variable {home c : Codebase} {package : Handle}

section

variable {own heir : Handle} (filed : home.Filed c package own) {e : TypeExpr}
  (superclass : c.superclass? heir = some e)
  (count : e.arguments.length = (c.parameters own).length)
include filed superclass count

theorem argumentWritten {name : String} {a : TypeExpr}
    (pair : (name,a) ∈ (c.parameters own).zip e.arguments) {word : String} (names : a.segments = [word]) :
    OrderedMap.lookup name ((c.parameters own).zip (c.arguments heir)) = some word := by
  have written : c.arguments heir = e.arguments.map fun a => Text.dotted a.segments := by
    simp [Codebase.arguments,superclass]
  have keys : (OrderedMap.mk ((c.parameters own).zip (c.arguments heir))).keys = c.parameters own := by
    simp only [OrderedMap.keys]
    exact List.map_fst_zip (by simp [written,count])
  have unique : (OrderedMap.mk ((c.parameters own).zip (c.arguments heir))).keys.Nodup := by
    rw [keys]
    exact filed.distinct
  refine (OrderedMap.getEntry unique).mp ?_
  have pairs : (c.parameters own).zip (c.arguments heir) =
      ((c.parameters own).zip e.arguments).map (Prod.map id fun a => Text.dotted a.segments) := by
    rw [written,List.zip_map_right]
  rw [pairs]
  refine List.mem_map.mpr ⟨(name,a),pair,?_⟩
  simp only [Prod.map,names]
  rfl

variable (consistent : c.table.Consistent) (legible : home.Legible c package) (inside : c ∈ home.chain)
  (filed' : home.Filed c package heir) {s : Bindings} {rest : List Handle}
include consistent legible inside filed'

theorem argumentResolved {bindings : Bindings}
    (bound : ∀ name ∈ c.parameters heir, ∃ u, c.stands package s heir rest name = some u ∧
      bindings.get? ⟨c.ref heir,name⟩ = some u)
    {name : String} {a : TypeExpr} (pair : (name,a) ∈ (c.parameters own).zip e.arguments)
    (argument : c.Argument package heir a) (below : Answers) :
    ∃ u, c.stands package s own (heir :: rest) name = some u ∧
      resolveStep home below ⟨c,heir,bindings,.header⟩ a = some u := by
  obtain ⟨word,_,names,scalar,none,means⟩ := argument
  have written := argumentWritten filed superclass count pair names
  simp only [Codebase.stands,written,bind,Option.bind_some]
  by_cases parameter : word ∈ c.parameters heir
  · obtain ⟨u,stands,binds⟩ := bound word parameter
    have plain := (filed'.apart word parameter).1
    obtain ⟨k,_,_,_,_,_,_,outward,own,_⟩ := filed'.levels consistent
    rw [Codebase.parametersLive (SymbolTable.topLive own)] at parameter
    obtain ⟨q,declares,rfl⟩ := List.mem_map.mp parameter
    refine ⟨u,?_,?_⟩
    · rw [Codebase.parametersLive (SymbolTable.topLive own)]
      simp [parameter,stands]
    · rw [resolveAlone names plain,firstParameter outward rfl declares]
      simp only [Option.bind_some,Step.type?,binds,Option.getD_some,Option.map_some,
        applyNothing none scalar]
  · obtain ⟨⟨h,t⟩,top,type,rfl⟩ := means.resolve_left parameter
    obtain ⟨_,owner⟩ := filed'.packageLive consistent
    obtain ⟨_,declared⟩ := classDeclared consistent legible top type owner
    refine ⟨.ofSymbol (c.ref h),by simp [parameter,declared],?_⟩
    rw [resolveAlone names (legible.plain _ top type).2,
      classNamed consistent legible top type inside filed' parameter]
    simp only [Option.bind_some,Step.type?,Option.map_some,applyNothing none scalar]

end

section

variable (consistent : c.table.Consistent) (legible : home.Legible c package) (inside : c ∈ home.chain)
  {s : Bindings}
include consistent legible inside

theorem handedBinds {own : Handle} {heirs : List Handle} (line : home.Lineage c package own heirs)
    (bound : c.Binds s ((own :: heirs).getLast (by simp))) :
    ∀ name ∈ c.parameters own, ∃ u, c.stands package s own heirs name = some u ∧
      (c.handed package s own heirs).get? ⟨c.ref own,name⟩ = some u := by
  induction line with
  | alone =>
    intro name declared
    obtain ⟨u,found⟩ := Option.isSome_iff_exists.mp (bound name declared)
    exact ⟨u,found,found⟩
  | @heir own heir rest filed inherits line ih =>
    intro name declared
    obtain ⟨e,superclass,_,_,count,arguments⟩ := inherits
    obtain ⟨a,pair⟩ : ∃ a, (name,a) ∈ (c.parameters own).zip e.arguments := by
      have all : ((c.parameters own).zip e.arguments).map Prod.fst = c.parameters own :=
        List.map_fst_zip (by simp [count])
      obtain ⟨⟨_,a⟩,pair,rfl⟩ := List.mem_map.mp (all ▸ declared)
      exact ⟨a,pair⟩
    obtain ⟨u,stands,_⟩ := argumentResolved filed superclass count consistent legible inside line.filed
      (ih bound) pair (arguments a (List.of_mem_zip pair).2) deepest
    refine ⟨u,stands,?_⟩
    rw [Codebase.handed,OrderedMap.getTabulated _ (List.mem_map.mpr ⟨name,declared,rfl⟩),stands,
      Option.getD_some]
    exact nofun

variable {own heir : Handle} {rest : List Handle} (line : home.Lineage c package own (heir :: rest))
  (bound : c.Binds s ((heir :: rest).getLast (by simp))) {e : TypeExpr}
  (superclass : c.superclass? heir = some e)
include line bound superclass

theorem argumentsHanded {t : Symbol} (live : c.table.symbol? own = some t) (depth : Nat) :
    bindArguments (atDepth home (depth + 1)) ⟨c,heir,c.handed package s heir rest,.header⟩ (c.ref own)
      (t.typeParameters.zip e.arguments) {} = c.handed package s own (heir :: rest) := by
  have filed := line.filed
  obtain ⟨⟨e',superclass',_,_,count,arguments⟩,line⟩ := line.tail
  cases Option.some.inj (superclass.symm.trans superclass')
  have binds := handedBinds consistent legible inside line bound
  have resolved : List.Forall₂ (fun p a => (atDepth home (depth + 1)).resolve
        ⟨c,heir,c.handed package s heir rest,.header⟩ a =
      some ((c.stands package s own (heir :: rest) p.name).getD default)) t.typeParameters e.arguments := by
    refine List.forall₂_iff_zip.mpr ⟨?_,fun {p a} pair => ?_⟩
    · rw [count,Codebase.parametersLive live,List.length_map]
    · have pair' : (p.name,a) ∈ (c.parameters own).zip e.arguments := by
        rw [Codebase.parametersLive live,List.zip_map_left]
        exact List.mem_map.mpr ⟨(p,a),pair,rfl⟩
      obtain ⟨u,stands,found⟩ := argumentResolved filed superclass count consistent legible inside
        line.filed binds pair' (arguments a (List.of_mem_zip pair).2) (atDepth home depth)
      rw [stands,Option.getD_some]
      exact found
  refine (bindTabulated (fun v => (c.stands package s own (heir :: rest) v.name).getD default)
    resolved []).trans ?_
  simp [Codebase.handed,Codebase.parametersLive live,Function.comp_def]

theorem superclassResolved (depth : Nat) :
    (atDepth home (depth + 2)).resolve ⟨c,heir,c.handed package s heir rest,.header⟩ e =
      some (c.under (c.handed package s own (heir :: rest)) own) := by
  obtain ⟨t,_,_,_,_,_,_,_,top,type,_⟩ := line.filed.levels consistent
  have live := SymbolTable.topLive top
  have handed := argumentsHanded consistent legible inside line bound superclass live depth
  obtain ⟨⟨e',superclass',⟨t',live',names⟩,scalar,_,_⟩,line⟩ := line.tail
  cases Option.some.inj (superclass.symm.trans superclass')
  cases Option.some.inj (live.symm.trans live')
  have other : t.name ∉ c.parameters heir :=
    fun parameter => (line.filed.apart _ parameter).2 _ top type rfl
  change resolveStep home (atDepth home (depth + 1)) _ e = _
  rw [resolveAlone names (legible.plain _ top type).2,
    classNamed consistent legible top type inside line.filed other]
  simp only [Option.bind_some,Step.type?,Option.map_some,applyClass inside live,scalar,handed]
  rfl

omit superclass

theorem superclassHanded (apart : own ≠ heir) (depth : Nat) : ∃ others,
    supertypes home (atDepth home (depth + 3)) (c.under (c.handed package s heir rest) heir) =
      c.under (c.handed package s own (heir :: rest)) own :: others := by
  obtain ⟨⟨e,superclass,_⟩,further⟩ := line.tail
  have found := superclassResolved consistent legible inside line bound superclass depth
  obtain ⟨k,_,_,_,_,_,_,_,top,type,_⟩ := further.filed.levels consistent
  obtain ⟨kind,header,members,body⟩ := SymbolTable.typeShape type
  have names : header.superclass = some e := by
    rw [Option.mem_def,Codebase.superclassLive (SymbolTable.topLive top)] at superclass
    simpa [Symbol.superclass?,body] using superclass
  have kept : ((atDepth home (depth + 2)).resolve ⟨c,heir,c.handed package s heir rest,.header⟩ e).filter
      (fun t => t.class?.isSome && t.class? ≠ some (c.ref heir)) =
      some (c.under (c.handed package s own (heir :: rest)) own) := by
    have different : c.ref own ≠ c.ref heir := fun same => apart (congrArg SymbolRef.handle same)
    rw [found]
    simp [Option.filter,Codebase.under,ResolvedType.class?,ResolvedType.ofSymbol,different]
  change ∃ others, superclassesStep home (atDepth home (depth + 2)) (c.ref heir) _ = _
  simp only [superclassesStep,Codebase.resolveRef inside (SymbolTable.topLive top),body,names,
    Option.bind_some]
  change ∃ others, (Option.filter _ ((atDepth home (depth + 2)).resolve
    ⟨c,heir,c.handed package s heir rest,.header⟩ e)).toList ++ _ ++ _ = _
  rw [kept]
  exact ⟨_,rfl⟩

end

end Answers

end CodeIndex
