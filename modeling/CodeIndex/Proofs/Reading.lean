import CodeIndex.Proofs.Chain
import CodeIndex.Resolver

/-! Reading qualified names. The name of a type is read piece by piece: packages as far as they go, across
all codebases of the chain, then types one inside another. If no two types share a qualified name, and
none has that of a package, every piece can only mean what it stands for in the name. -/
namespace CodeIndex
namespace Codebase

def symbols (c : Codebase) : List (SymbolRef × Symbol) :=
  c.chain.flatMap fun d => d.table.symbols.toList.map fun (h,s) => (d.ref h,s)

theorem memSymbols {c d : Codebase} {h : Handle} {s : Symbol} (inside : d ∈ c.chain)
    (live : d.table.symbol? h = some s) : (d.ref h,s) ∈ c.symbols :=
  List.mem_flatMap.mpr ⟨d,inside,
    List.mem_map.mpr ⟨(h,s),(Arena.memToList d.table.symbols h s).mpr live,rfl⟩⟩

structure Distinguished (c : Codebase) : Prop where
  types : ((c.symbols.filter (·.2.kind.isTypeDecl)).map (·.2.qualifiedName)).Nodup
  packages : ∀ e ∈ c.symbols, ∀ e' ∈ c.symbols, e.2.kind.isTypeDecl → e'.2.kind = .package →
    e.2.qualifiedName ≠ e'.2.qualifiedName

structure Unambiguous (c : Codebase) : Prop where
  types : ((c.symbols.filter (·.2.kind.isTypeDecl)).map (·.2.qualifiedName)).Nodup
  packages : ∀ e ∈ c.symbols, ∀ e' ∈ c.symbols, e.2.kind.isTypeDecl → e'.2.kind = .package →
    e.2.qualifiedName ≠ e'.2.qualifiedName
  primitives : ∀ e ∈ c.symbols, e.2.kind.isTypeDecl → e.2.qualifiers = [] →
    c.language.primitive? e.2.name = none

theorem Unambiguous.distinguished {c : Codebase} (clear : c.Unambiguous) : c.Distinguished :=
  ⟨clear.types,clear.packages⟩

theorem qualifiedNames {s : Symbol} (file : s.kind ≠ .file) (named : s.name ≠ "") :
    s.qualifiedName = Text.dotted s.childQualifiers := by
  obtain ⟨name,_,_,_,_,body⟩ := s
  have filled : name ≠ "" := named
  cases body with
  | file => exact absurd rfl file
  | _ => simp [Symbol.qualifiedName,Symbol.childQualifiers,filled]

section

variable {home : Codebase} (built : home.Built) (clear : home.Distinguished)
include built clear

theorem typesAlone {d d' : Codebase} {h h' : Handle} {s s' : Symbol} (inside : d ∈ home.chain)
    (inside' : d' ∈ home.chain) (live : d.table.symbol? h = some s)
    (live' : d'.table.symbol? h' = some s') (type : s.kind.isTypeDecl) (type' : s'.kind.isTypeDecl)
    (names : s.childQualifiers = s'.childQualifiers) : d.ref h = d'.ref h' := by
  obtain ⟨segment,_⟩ := (built.chain inside).typeNames live type
  obtain ⟨segment',_⟩ := (built.chain inside').typeNames live' type'
  have same : s.qualifiedName = s'.qualifiedName := by
    rw [qualifiedNames (SymbolTable.typeKind type).2 segment.1,
      qualifiedNames (SymbolTable.typeKind type').2 segment'.1,names]
  have entries := List.inj_on_of_nodup_map clear.types
    (List.mem_filter.mpr ⟨memSymbols inside live,type⟩)
    (List.mem_filter.mpr ⟨memSymbols inside' live',type'⟩) same
  exact congrArg Prod.fst entries

theorem typesApart {d d' : Codebase} {h h' : Handle} {s s' : Symbol} (inside : d ∈ home.chain)
    (inside' : d' ∈ home.chain) (live : d.table.symbol? h = some s)
    (live' : d'.table.symbol? h' = some s') (type : s.kind.isTypeDecl) (package : s'.kind = .package) :
    s.childQualifiers ≠ s'.childQualifiers := by
  intro names
  obtain ⟨segment,ends⟩ := (built.chain inside).typeNames live type
  by_cases root : s'.name = ""
  · rw [SymbolTable.rootNames package root,ends] at names
    simp at names
  · refine clear.packages _ (memSymbols inside live) _ (memSymbols inside' live') type package ?_
    rw [qualifiedNames (SymbolTable.typeKind type).2 segment.1,
      qualifiedNames (by simp [package]) root,names]

omit clear

theorem ownTypeNames {d : Codebase} (inside : d ∈ home.chain) {path : List String} {ref : SymbolRef}
    (found : d.ownType? path = some ref) : ∃ h s, ref = d.ref h ∧ d.table.symbol? h = some s ∧
      s.kind.isTypeDecl ∧ s.childQualifiers = path := by
  simp only [ownType?,bind,Option.bind_eq_some_iff] at found
  obtain ⟨h,along,s,live,last⟩ := found
  split at last
  · rename_i type
    cases Option.some.inj last
    obtain ⟨s',live',_,names⟩ := (built.chain inside).alongNames along
    cases Option.some.inj (live.symm.trans live')
    exact ⟨h,s,rfl,live,type,names⟩
  · cases last

theorem typePath {path : List String} (plain : ∀ name ∈ path, Text.IsSegment name) {ref : SymbolRef}
    (found : home.type? path = some ref) : ∃ d h s, d ∈ home.chain ∧ ref = d.ref h ∧
      d.table.symbol? h = some s ∧ s.kind.isTypeDecl ∧ s.childQualifiers = path := by
  unfold type? at found
  split at found
  · cases found
  · rw [Text.flatSegments plain] at found
    obtain ⟨d,inside,own⟩ := List.exists_of_findSome?_eq_some found
    obtain ⟨h,s,same,live,type,names⟩ := ownTypeNames built inside own
    exact ⟨d,h,s,inside,same,live,type,names⟩

include clear

theorem typeAbsent {d : Codebase} {h : Handle} {s : Symbol} (inside : d ∈ home.chain)
    (live : d.table.symbol? h = some s) (package : s.kind = .package) :
    home.type? s.childQualifiers = none := by
  refine Option.eq_none_iff_forall_ne_some.mpr fun ref found => ?_
  obtain ⟨d',h',s',inside',_,live',type,names⟩ :=
    typePath built ((built.chain inside).packageNames live package).1 found
  exact typesApart built clear inside' inside live' live type package names

theorem typeFound {d : Codebase} {h f : Handle} {s o : Symbol} (inside : d ∈ home.chain)
    (live : d.table.symbol? h = some s) (type : s.kind.isTypeDecl) (parent : s.parent = some f)
    (owner : d.table.symbol? f = some o) (file : o.kind = .file) :
    home.type? s.childQualifiers = some (d.ref h) := by
  have orderly := built.chain inside
  have along := orderly.alongType
    (fun live type live' package => typesApart built clear inside inside live live' type package)
    live type parent owner file (fun live' type' names =>
      (congrArg SymbolRef.handle (typesAlone built clear inside inside live' live type' type names)))
  have own : d.ownType? s.childQualifiers = some (d.ref h) := by simp [ownType?,along,live,type]
  have plain := orderly.plainNames live type
  cases found : home.type? s.childQualifiers with
  | none =>
    have filled : s.childQualifiers.isEmpty = false := by simp [(orderly.typeNames live type).2]
    simp only [type?,filled,Bool.false_eq_true,if_false,Text.flatSegments plain,
      List.findSome?_eq_none_iff] at found
    simp [found d inside] at own
  | some ref =>
    obtain ⟨d',h',s',inside',same,live',type',names⟩ := typePath built plain found
    rw [same,typesAlone built clear inside' inside live' live type' type names]

omit clear

theorem packageFound {d : Codebase} {h : Handle} {s : Symbol} (inside : d ∈ home.chain)
    (live : d.table.symbol? h = some s) (package : s.kind = .package) :
    home.hasPackage (Text.dotted s.childQualifiers) = true := by
  obtain ⟨plain,leads⟩ := (built.chain inside).packageNames live package
  refine List.any_eq_true.mpr ⟨d,inside,?_⟩
  simp [SymbolTable.package?,Text.segmentsDotted plain,leads]

end

end Codebase

namespace ResolvedType

variable (ref : SymbolRef)

@[simp] theorem classOfSymbol : (ofSymbol ref).class? = some ref := rfl

@[simp] theorem arrayOfSymbol : (ofSymbol ref).isArray = false := rfl

@[simp] theorem primitiveOfSymbol : (ofSymbol ref).primitive? = none := rfl

end ResolvedType

namespace Answers

def top (home : Codebase) : Site := ⟨home,home.table.root,{},.body⟩

inductive Reads (home : Codebase) (below : Answers) : List String → Step → Prop where
  | first {name step} (start : firstStep? home below (top home) name true = some step) :
      Reads home below [name] step
  | next {names step name further} (earlier : Reads home below names step)
      (leads : ∀ isLast, nextStep? home below home step name isLast = some further) :
      Reads home below (names ++ [name]) further

theorem Reads.follow {home : Codebase} {below : Answers} {names : List String} {step : Step}
    (reads : Reads home below names step) :
    ∃ first rest start, names = first :: rest ∧
      firstStep? home below (top home) first true = some start ∧
      ∀ more, follow? home below home start (rest ++ more) = follow? home below home step more := by
  induction reads with
  | first start => exact ⟨_,[],_,rfl,start,fun _ => rfl⟩
  | @next names step name further earlier leads ih =>
    obtain ⟨first,rest,start,rfl,found,follows⟩ := ih
    refine ⟨first,rest ++ [name],start,rfl,found,fun more => ?_⟩
    rw [List.append_assoc,follows]
    simp [follow?,leads]

theorem Reads.named {home : Codebase} {below : Answers} {names : List String} {t : ResolvedType}
    (reads : Reads home below names (.type t)) :
    ∃ first rest, names = first :: rest ∧ namedType? home below (top home) first rest true = some t := by
  obtain ⟨first,rest,start,same,found,follows⟩ := reads.follow
  have all := follows []
  rw [List.append_nil] at all
  refine ⟨first,rest,same,?_⟩
  simp only [namedType?,found]
  change (follow? home below home start rest).bind _ = _
  rw [all]
  rfl

def Settled (below : Answers) : Prop := ∀ {t : ResolvedType}, t.isTypeVar = false → below.owner t = some t

theorem settledDepth (home : Codebase) (depth : Nat) : (atDepth home depth).Settled := by
  intro t plain
  cases depth with
  | zero => simp [atDepth,deepest,plain]
  | succ depth => simp [atDepth,ownerStep,plain]

section
variable {home : Codebase} (built : home.Built) (clear : home.Unambiguous)
include built

theorem unpackaged {d : Codebase} (inside : d ∈ home.chain) {name : String} {h : Handle}
    (listed : h ∈ d.table.declared d.table.root name) :
    ∃ s, d.table.symbol? h = some s ∧ s.kind.isTypeDecl ∧ s.childQualifiers = [name] := by
  have orderly := built.chain inside
  obtain ⟨root,live,package,top,_⟩ := orderly.rootChain
  rw [SymbolTable.declaredShelf live] at listed
  obtain ⟨s,live',_,names,type⟩ := orderly.memberNames live listed
  exact ⟨s,live',type package,by rw [names,top]; rfl⟩

theorem topTypeNames {name : String} {ref : SymbolRef} (found : topLevelType? home name = some ref) :
    ∃ d h s, d ∈ home.chain ∧ ref = d.ref h ∧ d.table.symbol? h = some s ∧ s.kind.isTypeDecl ∧
      s.childQualifiers = [name] := by
  obtain ⟨d,inside,own⟩ := List.exists_of_findSome?_eq_some found
  obtain ⟨h,first,same⟩ := Option.map_eq_some_iff.mp own
  obtain ⟨s,live,type,names⟩ := unpackaged built inside (List.mem_of_find?_eq_some first)
  exact ⟨d,h,s,inside,same.symm,live,type,names⟩

include clear

theorem topTypeFound {d : Codebase} (inside : d ∈ home.chain) {name : String} {h : Handle}
    (listed : h ∈ d.table.declared d.table.root name) : topLevelType? home name = some (d.ref h) := by
  obtain ⟨s,live,type,names⟩ := unpackaged built inside listed
  cases found : topLevelType? home name with
  | none =>
    have nothing := List.findSome?_eq_none_iff.mp found d inside
    rw [Option.map_eq_none_iff,List.find?_eq_none] at nothing
    simpa [live,type] using nothing h listed
  | some ref =>
    obtain ⟨d',h',s',inside',same,live',type',names'⟩ := topTypeNames built found
    rw [same,Codebase.typesAlone built clear.distinguished inside' inside live' live type' type
      (names'.trans names.symm)]

theorem firstTop (below : Answers) (name : String) :
    firstStep? home below (top home) name true = topLevelStep? home name := by
  obtain ⟨s,live,package,_,scopes⟩ := built.orderly.rootChain
  obtain ⟨_,_,_,_,_,body⟩ := s
  cases body with
  | package members files subpackages =>
    simp only [firstStep?,top,scopes,typeParameter?,Symbol.typeParameters,List.findSome?_cons,
      List.any_nil,Bool.false_eq_true,if_false,List.findSome?_nil,levelStep?]
    cases found : (home.table.declared home.table.root name).find? _ with
    | none => rfl
    | some h =>
      have listed := List.mem_of_find?_eq_some found
      obtain ⟨s,live',type,_⟩ := unpackaged built (Codebase.chainSelf home) listed
      simp only [Option.map_some,stepTo,topLevelStep?,
        topTypeFound built clear (Codebase.chainSelf home) listed]
      simp [Codebase.resolveRef (Codebase.chainSelf home) live',type,ResolvedType.ofSymbol]
  | _ => cases package

theorem readsPackage (below : Answers) {d : Codebase} (inside : d ∈ home.chain) {h : Handle}
    {s : Symbol} (live : d.table.symbol? h = some s) (package : s.kind = .package)
    (named : s.childQualifiers ≠ []) :
    Reads home below s.childQualifiers (.package s.childQualifiers) := by
  have orderly := built.chain inside
  induction orderly.rooted live generalizing s with
  | root =>
    obtain ⟨root,live',_,top,_⟩ := orderly.rootChain
    obtain rfl := Option.some.inj (live.symm.trans live')
    exact absurd top named
  | @child h s' p live' parent outer ih =>
    obtain rfl := Option.some.inj (live.symm.trans live')
    obtain ⟨o,owner,_⟩ := orderly.parentLive live parent
    obtain ⟨isPackage,segment,names⟩ := orderly.packageParent live package parent owner
    have absent := Codebase.typeAbsent built clear.distinguished inside live package
    have present := Codebase.packageFound built inside live package
    rw [names] at absent present ⊢
    by_cases top : o.childQualifiers = []
    · rw [top,List.nil_append] at absent present ⊢
      -- A type without a package would be read before the package.
      refine .first ?_
      rw [firstTop built clear,topLevelStep?]
      cases found : topLevelType? home s.name with
      | some ref =>
        obtain ⟨d',h',s',inside',_,live',type,names'⟩ := topTypeNames built found
        have same : s'.childQualifiers = s.childQualifiers := by rw [names',names,top]; rfl
        exact absurd same
          (Codebase.typesApart built clear.distinguished inside' inside live' live type package)
      | none => simpa [Text.dotted] using present
    · refine .next (ih owner isPackage top) fun isLast => ?_
      simp [nextStep?,absent,present]

omit clear

theorem typeDeclared {d : Codebase} (inside : d ∈ home.chain) {p h : Handle} {o s : Symbol}
    (owner : d.table.symbol? p = some o) (outer : o.kind.isTypeDecl) (live : d.table.symbol? h = some s)
    (type : s.kind.isTypeDecl) (parent : s.parent = some p) (typeOnly : Bool) :
    ∃ rest, declaredMembers home s.name (Symbol.isStep typeOnly) (.ofSymbol (d.ref p)) =
      (d.ref h,{}) :: rest := by
  have orderly := built.chain inside
  have listed : h ∈ o.shelf (.member s.name) := by
    have shelved := orderly.onShelf live parent owner
    rwa [orderly.ownHome live parent owner (SymbolTable.typeKind outer).1] at shelved
  have only : ∀ h' ∈ o.shelf (.member s.name), ∀ {s'}, d.table.symbol? h' = some s' →
      s'.isStep typeOnly → h' = h := by
    intro h' listed' s' live' step
    refine orderly.single owner (SymbolTable.typeKind outer).1 listed' listed live' live ?_ ?_
    · intro method
      simp [Symbol.isStep,method,SymbolKind.isTypeDecl,SymbolKind.isVariable] at step
    · intro method
      simp [method,SymbolKind.isTypeDecl] at type
  simp only [declaredMembers,ResolvedType.classOfSymbol,declaringCodebase?,bind,Option.bind_some,
    Codebase.ref,Codebase.memberChain inside,SymbolTable.declaredShelf owner]
  cases kept : (o.shelf (.member s.name)).filter _ with
  | nil =>
    have dropped := List.filter_eq_nil_iff.mp kept h listed
    simp [live,Symbol.isStep,type] at dropped
  | cons first rest =>
    obtain ⟨listed',accepted⟩ := List.mem_filter.mp (kept ▸ List.mem_cons_self)
    split at accepted
    · rename_i s' live'
      rw [only first listed' live' accepted]
      exact ⟨_,rfl⟩
    · cases accepted

theorem memberFound {below : Answers} (settled : below.Settled) {d : Codebase}
    (inside : d ∈ home.chain) {p h : Handle} {o s : Symbol} (owner : d.table.symbol? p = some o)
    (outer : o.kind.isTypeDecl) (live : d.table.symbol? h = some s) (type : s.kind.isTypeDecl)
    (parent : s.parent = some p) (isLast : Bool) :
    typeMember? home below (.ofSymbol (d.ref p)) s.name isLast =
      some (.type (.ofSymbol (d.ref h))) := by
  obtain ⟨rest,members⟩ := typeDeclared built inside owner outer live type parent isLast
  have start : below.owner (.ofSymbol (d.ref p)) = some (.ofSymbol (d.ref p)) := settled rfl
  have walk : walkStart? below (.ofSymbol (d.ref p)) = some (.ofSymbol (d.ref p)) := by
    simp [walkStart?,start]
  have step : stepTo home (d.ref h) {} = some (.type (.ofSymbol (d.ref h))) := by
    simp [stepTo,Codebase.resolveRef inside live,type,ResolvedType.ofSymbol]
  have found : membersWhere home below (.ofSymbol (d.ref p)) s.name (Symbol.isStep isLast) =
      (d.ref h,{}) :: rest := by
    simp [membersWhere,walk,reach,firstFound,nextClass,members]
  simp [typeMember?,start,memberStep?,found,step]

include clear

theorem readsType {below : Answers} (settled : below.Settled) {d : Codebase}
    (inside : d ∈ home.chain) {h : Handle} {s : Symbol} (live : d.table.symbol? h = some s)
    (type : s.kind.isTypeDecl) :
    Reads home below s.childQualifiers (.type (.ofSymbol (d.ref h))) := by
  have orderly := built.chain inside
  induction orderly.rooted live generalizing s with
  | root =>
    obtain ⟨root,live',package,_⟩ := orderly.root
    obtain rfl := Option.some.inj (live.symm.trans live')
    exact absurd package (SymbolTable.typeKind type).1
  | @child h s' f live' parent outer ih =>
    obtain rfl := Option.some.inj (live.symm.trans live')
    obtain ⟨o,owner,qualifiers⟩ := orderly.parentLive live parent
    rcases ((orderly.declared live parent owner).type type).2 with file | outer
    · have found := Codebase.typeFound built clear.distinguished inside live type parent owner file
      obtain ⟨p,package,above,isPackage,names,listed⟩ :=
        orderly.typePackage live type parent owner file
      rw [names] at found ⊢
      by_cases top : package.childQualifiers = []
      · rw [top]
        refine .first ?_
        have root : d.table.root = p := by
          simpa [top] using (orderly.packageNames above isPackage).2
        have declared : h ∈ d.table.declared d.table.root s.name := by
          rw [root,SymbolTable.declaredShelf above]
          exact listed
        rw [firstTop built clear,topLevelStep?,topTypeFound built clear inside declared]
      · refine .next (readsPackage built clear below inside above isPackage top) fun isLast => ?_
        simp [nextStep?,found]
    · rw [(orderly.typeNames live type).2,qualifiers]
      exact .next (ih owner outer) (memberFound built settled inside owner outer live type parent)

end
end Answers
end CodeIndex
