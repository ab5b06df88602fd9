import CodeIndex.Proofs.Offers
import Mathlib.Tactic.MkIffOfInductiveProp

/-! What packages and imports make of a name. A package is opened by its dotted name; offers come from the
package so named, while a type is sought along the path, so both must lead to one place. -/
namespace CodeIndex

theorem SymbolTable.Consistent.childCases {t : SymbolTable} (c : t.Consistent) {p h : Handle} {name : String}
    (child : t.child? p name = some h) :
    h ∈ t.declared p name ∨ ∃ s, t.symbol? h = some s ∧ s.kind = .package := by
  unfold SymbolTable.child? at child
  split at child
  · rename_i first rest listed
    cases Option.some.inj child
    exact .inl (by simp [listed])
  · obtain ⟨o,owner,bound⟩ := Option.bind_eq_some_iff.mp child
    rw [Symbol.subpackagesBody] at bound
    obtain ⟨s,live,package,_⟩ := c.subpackage owner (Symbol.subpackageShelf bound)
    exact .inr ⟨s,live,package⟩

namespace Codebase

variable {home : Codebase}

theorem typeUnder {name : String} (segment : Text.IsSegment name) (path : List String) :
    home.type? (path ++ [name]) =
      home.chain.findSome? (·.ownType? (Text.segments (Text.dotted path) ++ [name])) := by
  simp [type?,Text.segmentsJoined,Text.segmentsName segment]

theorem ownTypeFacts {d : Codebase} {path : List String} {ref : SymbolRef}
    (found : d.ownType? path = some ref) : ∃ h s, ref = d.ref h ∧ d.table.along? path = some h ∧
      d.table.symbol? h = some s ∧ s.kind.isTypeDecl := by
  simp only [ownType?,bind,Option.bind_eq_some_iff] at found
  obtain ⟨h,leads,s,live,last⟩ := found
  split at last
  · rename_i type
    exact ⟨h,s,(Option.some.inj last).symm,leads,live,type⟩
  · cases last

section

variable (consistent : ∀ d ∈ home.chain, d.table.Consistent)
include consistent

theorem typeDotted (path : List String) : home.type? (Text.segments (Text.dotted path)) = home.type? path := by
  have same : (Text.segments (Text.dotted path)).flatMap Text.segments = path.flatMap Text.segments := by
    rw [Text.flatSegments (Text.segmentsPlain _),Text.segmentsJoined]
  cases path with
  | nil => simp [Text.segmentsJoined]
  | cons first rest =>
    simp only [type?,same,List.isEmpty_cons]
    split
    · rename_i empty
      refine (List.findSome?_eq_none_iff.mpr fun d inside => ?_).symm
      rw [← Text.segmentsJoined,List.isEmpty_iff.mp empty]
      obtain ⟨root,live,package,_⟩ := (consistent d inside).root
      simp [ownType?,SymbolTable.along?,live,package,SymbolKind.isTypeDecl]
    · rfl

theorem typeLast {name : String} (segment : Text.IsSegment name) {path : List String} {ref : SymbolRef}
    (found : home.type? (path ++ [name]) = some ref) :
    ∃ d s, home.resolve? ref = some (d,s) ∧ s.kind.isTypeDecl ∧ s.name = name := by
  rw [typeUnder segment] at found
  obtain ⟨d,inside,own⟩ := List.exists_of_findSome?_eq_some found
  obtain ⟨h,s,rfl,leads,live,type⟩ := ownTypeFacts own
  refine ⟨d,s,resolveRef inside live,type,?_⟩
  rw [SymbolTable.alongConcat] at leads
  obtain ⟨p,_,child⟩ := Option.bind_eq_some_iff.mp leads
  rcases (consistent d inside).childCases child with listed | ⟨s',live',package⟩
  · obtain ⟨s',live',named⟩ := (consistent d inside).declaredName listed
    cases Option.some.inj (live.symm.trans live')
    exact named
  · cases Option.some.inj (live.symm.trans live')
    exact absurd package (SymbolTable.typeKind type).1

end

end Codebase

namespace Completion

def Opens (home : Codebase) (dotted : String) : Prop :=
  ∀ d ∈ home.chain, d.table.qualified? dotted = d.table.package? dotted

def TypesAlone (home : Codebase) (name dotted : String) : Prop :=
  ∀ d ∈ home.chain, ∀ p ∈ d.table.package? dotted, ∀ h ∈ d.table.declared p name,
    (d.table.symbol? h).any (·.kind.isTypeDecl)

instance (home : Codebase) (dotted : String) : Decidable (Opens home dotted) := by
  unfold Opens
  infer_instance

instance (home : Codebase) (name dotted : String) : Decidable (TypesAlone home name dotted) := by
  unfold TypesAlone
  infer_instance

variable {home : Codebase} {name : String} {sure : Prop}

theorem typesThemselves : TypesOf (fun s => s.kind.isTypeDecl) fun s => s.kind.isTypeDecl :=
  fun _ => (Bool.and_self _).symm

section

variable {d : Codebase} (consistent : d.table.Consistent) {p : Handle} {path : List String}
  (leads : d.table.along? path = some p)
include consistent leads

theorem childNone (none : firstOf? d (fun s => s.kind.isTypeDecl) (d.table.declared p name) = none) :
    d.ownType? (path ++ [name]) = .none := by
  refine Option.eq_none_iff_forall_ne_some.mpr fun ref found => ?_
  obtain ⟨h,s,rfl,along,live,type⟩ := Codebase.ownTypeFacts found
  rw [SymbolTable.alongConcat,leads] at along
  rcases consistent.childCases along with listed | ⟨s',live',package⟩
  · rw [firstOf?,Option.map_eq_none_iff,List.find?_eq_none] at none
    simpa [live,type] using none h listed
  · cases Option.some.inj (live.symm.trans live')
    exact absurd package (SymbolTable.typeKind type).1

theorem childType (types : ∀ h ∈ d.table.declared p name, (d.table.symbol? h).any (·.kind.isTypeDecl)) :
    d.ownType? (path ++ [name]) = firstOf? d (fun s => s.kind.isTypeDecl) (d.table.declared p name) := by
  cases listed : d.table.declared p name with
  | nil => exact childNone consistent leads (by rw [listed]; rfl)
  | cons h rest =>
    have first := types h (by simp [listed])
    obtain ⟨s,live,type⟩ := (Option.any_eq_true _ _).mp first
    simp [Codebase.ownType?,SymbolTable.alongConcat,leads,SymbolTable.child?,listed,live,type,firstOf?]

end

section

variable (consistent : ∀ d ∈ home.chain, d.table.Consistent) (depth : Nat)
include consistent

theorem packageShows {dotted : String} (opens : Opens home dotted)
    (types : sure → TypesAlone home name dotted) :
    Shows sure (firstNamed name (packageOffers ⟨home,depth⟩ dotted))
      (home.chain.findSome? (·.ownType? (Text.segments dotted ++ [name]))) := by
  rw [packageOffers,firstNamedFlat]
  refine .findSome fun d inside => ?_
  have leads := opens d inside
  cases package : d.table.package? dotted with
  | none =>
    rw [package,SymbolTable.qualified?] at leads
    simp only [Codebase.ownType?,SymbolTable.alongConcat,leads]
    exact .nothing
  | some p =>
    rw [package] at leads
    have own : Shows sure _ _ := scopeShows (consistent d inside) typesThemselves p name
    refine ⟨fun absent => childNone (consistent d inside) leads (own.absent absent),fun given => ?_⟩
    rw [childType (consistent d inside) leads (types given d inside p package)]
    exact own.type given

end

theorem declaredAccepted {accept : Symbol → Bool} {t : ResolvedType} {found : SymbolRef × Bindings} :
    found ∈ Answers.declaredMembers home name accept t ↔
      found ∈ Answers.declaredMembers home name (fun _ => true) t ∧
        (home.resolve? found.1).any fun known => accept known.2 := by
  unfold Answers.declaredMembers
  cases t.class? with
  | none => simp
  | some c =>
    cases declaring : Answers.declaringCodebase? home t with
    | none => simp
    | some d =>
      have inside := Answers.declaringChain declaring
      simp only [List.mem_map,List.mem_filter]
      constructor
      · rintro ⟨h,⟨listed,accepted⟩,rfl⟩
        cases live : d.table.symbol? h with
        | none => simp [live] at accepted
        | some s =>
          rw [live] at accepted
          exact ⟨⟨h,⟨listed,by simp [live]⟩,rfl⟩,by simpa [resolveOwn inside,live] using accepted⟩
      · rintro ⟨⟨h,⟨listed,_⟩,rfl⟩,accepted⟩
        refine ⟨h,⟨listed,?_⟩,rfl⟩
        cases live : d.table.symbol? h with
        | none => simp [resolveOwn inside,live] at accepted
        | some s => simpa [resolveOwn inside,live] using accepted

def staticType (s : Symbol) : Bool := s.isStatic && s.isStep true

theorem typesStatic : TypesOf (·.isStatic) staticType := by simp [TypesOf,staticType,Symbol.isStep]

def importType? (home : Codebase) (below : Answers) (name : String) (i : Import) : Option SymbolRef :=
  if i.isOnDemand then
    if i.isStatic then
      (home.type? i.path).bind fun owner => memberType? home below (.ofSymbol owner) name staticType
    else home.type? (i.path ++ [name])
  else if i.simpleName? = some name then
    if i.isStatic then
      (home.type? i.path.dropLast).bind fun owner => memberType? home below (.ofSymbol owner) name staticType
    else home.type? i.path
  else none

section

variable (consistent : ∀ d ∈ home.chain, d.table.Consistent) {depth : Nat} {keep accept : Symbol → Bool}
  (types : TypesOf keep accept)
include consistent types

theorem declaredShows (name : String) (depth : Nat) (t : ResolvedType) : Shows sure
    (firstNamed name (itemsOfRefs ⟨home,depth⟩ keep (Answers.declaredMembers home name (fun _ => true) t)))
    ((Answers.declaredMembers home name accept t).head?.map Prod.fst) := by
  cases denotes : t.class? with
  | none =>
    simp only [Answers.declaredMembers,denotes]
    exact .nothing
  | some ref =>
    cases declaring : Answers.declaringCodebase? home t with
    | none =>
      simp only [Answers.declaredMembers,denotes,declaring]
      exact .nothing
    | some d =>
      have inside := Answers.declaringChain declaring
      have named : ∀ h ∈ d.table.declared ref.handle name, ∃ s, d.table.symbol? h = some s ∧ s.name = name :=
        fun h listed => (consistent d inside).declaredName listed
      rw [declaredHead denotes declaring]
      simp only [Answers.declaredMembers,denotes,declaring]
      rw [List.filter_eq_self.mpr,refsItems inside]
      · exact handlesShow types named
      · intro h listed
        obtain ⟨s,live,_⟩ := named h listed
        simp [live]

theorem firstHitShows {ts : List ResolvedType}
    (among : ∀ found ∈ Answers.firstHit (Answers.declaredMembers home name accept) ts,
      found.1 ∈ (Answers.firstHit (Answers.declaredMembers home name fun _ => true) ts).map Prod.fst) :
    Shows sure
    (firstNamed name (itemsOfRefs ⟨home,depth⟩ keep
      (Answers.firstHit (Answers.declaredMembers home name fun _ => true) ts)))
    ((Answers.firstHit (Answers.declaredMembers home name accept) ts).head?.map Prod.fst) := by
  induction ts with
  | nil => exact .nothing
  | cons t rest ih =>
    cases all : Answers.declaredMembers home name (fun _ => true) t with
    | nil =>
      have none : Answers.declaredMembers home name accept t = [] := by
        refine List.eq_nil_iff_forall_not_mem.mpr fun found inside => ?_
        simpa [all] using (declaredAccepted.mp inside).1
      simp only [Answers.firstHit,all,none] at among ⊢
      exact ih among
    | cons first others =>
      have here : Shows sure _ _ := declaredShows consistent types name depth t
      have hit : Answers.firstHit (Answers.declaredMembers home name fun _ => true) (t :: rest) =
          Answers.declaredMembers home name (fun _ => true) t := by simp [Answers.firstHit,all]
      rw [hit] at among ⊢
      cases own : Answers.declaredMembers home name accept t with
      | nil =>
        simp only [Answers.firstHit,own] at among ⊢
        -- Anything accepted further up would be among what is found here, and accepted here.
        have none : Answers.firstHit (Answers.declaredMembers home name accept) rest = [] := by
          refine List.eq_nil_iff_forall_not_mem.mpr fun found later => ?_
          obtain ⟨u,_,inside⟩ := Answers.firstHitMem later
          obtain ⟨found',known,same⟩ := List.mem_map.mp (among found later)
          have accepted := declaredAccepted.mpr ⟨known,same ▸ (declaredAccepted.mp inside).2⟩
          simp [own] at accepted
        rw [none]
        rwa [own] at here
      | cons accepted others =>
        simp only [Answers.firstHit,own]
        rwa [own] at here

end

theorem foundNamed (consistent : ∀ d ∈ home.chain, d.table.Consistent) {below : Answers} {t : ResolvedType}
    {accept : Symbol → Bool} {found : SymbolRef × Bindings}
    (inside : found ∈ below.membersWhere home t name accept) :
    ∃ d s, home.resolve? found.1 = some (d,s) ∧ s.name = name ∧ accept s := by
  rw [Answers.membersHit] at inside
  obtain ⟨level,_,declared⟩ := Answers.firstHitMem inside
  unfold Answers.declaredMembers at declared
  split at declared
  · rename_i c d denotes declaring
    obtain ⟨h,listed,rfl⟩ := List.mem_map.mp declared
    obtain ⟨listed,accepted⟩ := List.mem_filter.mp listed
    have known := Answers.declaringChain declaring
    obtain ⟨s,live,named⟩ := (consistent d known).declaredName listed
    rw [live] at accepted
    exact ⟨d,s,Codebase.resolveRef known live,named,accepted⟩
  · cases declared

/-- Imports that offer what they give. What is opened is a package. A static type that a class has under an
imported name is not behind other members of that name in the hierarchy. -/
@[mk_iff] structure Forthright (home : Codebase) (depth : Nat) (name : String) (i : Import) : Prop where
  opens : i.isStatic = false → i.isOnDemand = true → Opens home (Text.dotted i.path)
  nearest : i.isStatic = true → i.isOnDemand = false → i.simpleName? = some name →
    ∀ owner ∈ home.type? i.path.dropLast,
    ∀ found ∈ (Answers.atDepth home depth).membersWhere home (.ofSymbol owner) name staticType,
      found.1 ∈ ((Resolver.mk home depth).members (.ofSymbol owner) name).map Prod.fst

instance (home : Codebase) (depth : Nat) (name : String) (i : Import) :
    Decidable (Forthright home depth name i) := decidable_of_iff' _ (forthright_iff home depth name i)

section

variable (consistent : ∀ d ∈ home.chain, d.table.Consistent)
include consistent

theorem typeDotted (depth : Nat) (path : List String) :
    (Resolver.mk home depth).type? (Text.dotted path) = (home.type? path).map .ofSymbol := by
  rw [Resolver.type?,Codebase.typeDotted consistent]

theorem singleShows (segment : Text.IsSegment name) (depth : Nat) {i : Import} (plain : i.isStatic = false)
    (ends : sure → ∀ last ∈ i.simpleName?, Text.IsSegment last) :
    Shows sure (firstNamed name (singleImportOffers ⟨home,depth⟩ i))
      (if i.simpleName? = some name then home.type? i.path else none) := by
  simp only [singleImportOffers,plain,typeDotted consistent,Bool.false_eq_true,if_false]
  cases found : home.type? i.path with
  | none => simpa [firstNamed] using Shows.nothing
  | some ref =>
    have offers : ∀ last, i.simpleName? = some last → Text.IsSegment last → ∃ s : Symbol, s.kind ≠ .method ∧
        s.name = last ∧ itemsOfRefs ⟨home,depth⟩ (fun _ => true) [(ref,{})] = [.ofSymbol ref s] := by
      intro last simple segment
      obtain ⟨before,path⟩ := List.getLast?_eq_some_iff.mp simple
      rw [path] at found
      obtain ⟨d,s,known,type,named⟩ := Codebase.typeLast consistent segment found
      exact ⟨s,SymbolKind.typeMethod type,named,by simp [itemsOfRefs,known]⟩
    simp only [Option.map_some,ResolvedType.classOfSymbol,Option.toList_some,List.map_cons,List.map_nil]
    cases simple : i.simpleName? with
    | none => simp [List.getLast?_eq_none_iff.mp simple,Codebase.type?] at found
    | some last =>
      by_cases same : last = name
      · obtain ⟨s,method,named,only⟩ := offers last simple (same ▸ segment)
        have first : firstNamed name [.ofSymbol ref s] = some (.ofSymbol ref s) := by
          simp [firstNamed,Item.ofSymbol,method,named,same]
        rw [only,first,same,if_pos rfl]
        exact .item fun _ _ => rfl
      · rw [if_neg (by simpa using same)]
        refine ⟨fun _ => rfl,fun given item first => ?_⟩
        obtain ⟨s,_,named,only⟩ := offers last simple (ends given last simple)
        simp [only,firstNamed,Item.ofSymbol,named,same] at first

variable {near depth : Nat} (steady : Answers.Steady home near depth)
include steady

theorem singleStaticShows {owner : SymbolRef} {last : String}
    (nearest : last = name →
      ∀ found ∈ (Answers.atDepth home depth).membersWhere home (.ofSymbol owner) name staticType,
        found.1 ∈ ((Resolver.mk home depth).members (.ofSymbol owner) name).map Prod.fst) : Shows sure
    (firstNamed name (itemsOfRefs ⟨home,depth⟩ (·.isStatic)
      ((Resolver.mk home depth).members (.ofSymbol owner) last)))
    (if last = name then memberType? home (.atDepth home near) (.ofSymbol owner) name staticType
      else none) := by
  by_cases same : last = name
  · subst same
    rw [if_pos rfl,memberType?,Answers.membersHit,Answers.levelsSteady steady (t := .ofSymbol owner) rfl,
      Resolver.members,Answers.membersHit]
    have among := nearest rfl
    rw [Resolver.members,Answers.membersHit,Answers.membersHit] at among
    exact firstHitShows consistent typesStatic among
  · have none : firstNamed name (itemsOfRefs ⟨home,depth⟩ (·.isStatic)
        ((Resolver.mk home depth).members (.ofSymbol owner) last)) = none := by
      refine firstNamedNone.mpr fun item offered _ named => same ?_
      obtain ⟨found,inside,read⟩ := List.mem_filterMap.mp offered
      obtain ⟨d,s,known,rfl,_⟩ := foundNamed consistent inside
      simp only [known,bind,Option.bind_some] at read
      split at read
      · rw [← named,← Option.some.inj read]
        rfl
      · cases read
    rw [none,if_neg same]
    exact .nothing

def importOffers (r : Resolver) (i : Import) : List Item :=
  if i.isOnDemand then onDemandImportOffers r i else singleImportOffers r i

theorem importShows (segment : Text.IsSegment name) {i : Import} (forthright : Forthright home depth name i)
    (ends : sure → i.isStatic = false → i.isOnDemand = false → ∀ last ∈ i.simpleName?, Text.IsSegment last)
    (types : sure → i.isStatic = false → i.isOnDemand = true → TypesAlone home name (Text.dotted i.path)) :
    Shows sure (firstNamed name (importOffers ⟨home,depth⟩ i))
      (importType? home (.atDepth home near) name i) := by
  unfold importOffers importType?
  cases demand : i.isOnDemand with
  | true =>
    simp only [if_true,onDemandImportOffers,typeDotted consistent]
    cases isStatic : i.isStatic with
    | true =>
      simp only [if_true]
      cases home.type? i.path with
      | none => exact .nothing
      | some owner => exact memberShows consistent steady owner name typesStatic
    | false =>
      simp only [Bool.false_eq_true,if_false]
      rw [Codebase.typeUnder segment]
      exact packageShows consistent depth (forthright.opens isStatic demand) fun given =>
        types given isStatic demand
  | false =>
    simp only [Bool.false_eq_true,if_false]
    cases isStatic : i.isStatic with
    | true =>
      simp only [if_true,singleImportOffers,isStatic,typeDotted consistent]
      cases found : home.type? i.path.dropLast with
      | none => simpa [firstNamed] using Shows.nothing
      | some owner =>
        cases simple : i.simpleName? with
        | none => simpa [firstNamed] using Shows.nothing
        | some last =>
          simp only [Option.map_some,Option.bind_some,Option.some.injEq]
          refine singleStaticShows consistent steady fun same => ?_
          exact forthright.nearest isStatic demand (same ▸ simple) owner found
    | false => exact singleShows consistent segment depth isStatic fun given => ends given isStatic demand

end

theorem findSomeFiltered {f g : α → Option β} {p q : α → Bool} {xs : List α}
    (same : ∀ x ∈ xs, (if p x then f x else none) = if q x then g x else none) :
    (xs.filter p).findSome? f = (xs.filter q).findSome? g := by
  induction xs with
  | nil => rfl
  | cons x rest ih =>
    have later := ih fun y inside => same y (by simp [inside])
    have here := same x (by simp)
    simp only [List.filter_cons]
    split at here <;> split at here <;> simp_all [List.findSome?_cons]

def importedBy (home : Codebase) (below : Answers) (name : String) (imports : List Import)
    (form : Import → Bool) : Option SymbolRef :=
  (imports.filter form).findSome? (importType? home below name)

def importsType? (home : Codebase) (below : Answers) (name : String) (imports : List Import) :
    Option SymbolRef :=
  (importedBy home below name imports fun i => !i.isStatic && !i.isOnDemand).or
    ((importedBy home below name imports fun i => !i.isStatic && i.isOnDemand).or
      ((importedBy home below name imports fun i => i.isStatic && !i.isOnDemand).or
        (importedBy home below name imports fun i => i.isStatic && i.isOnDemand)))

def Uncontested (home : Codebase) (below : Answers) (name : String) (imports : List Import) : Prop :=
  ∀ i ∈ imports, ∀ j ∈ imports, i.isStatic = true → j.isStatic = false →
    importType? home below name i = none ∨ importType? home below name j = none

instance (home : Codebase) (below : Answers) (name : String) (imports : List Import) :
    Decidable (Uncontested home below name imports) := by
  unfold Uncontested
  infer_instance

section

variable {below : Answers} {imports : List Import}

theorem importedNone {form : Import → Bool}
    (none : ∀ i ∈ imports, form i → importType? home below name i = none) :
    importedBy home below name imports form = .none :=
  List.findSome?_eq_none_iff.mpr fun i inside =>
    none i (List.mem_filter.mp inside).1 (List.mem_filter.mp inside).2

theorem importedBoth (form : Import → Bool)
    (none : ∀ i ∈ imports, form i → importType? home below name i = none) (demand : Import → Bool) :
    importedBy home below name imports (fun i => form i && demand i) = .none :=
  importedNone fun i inside both => none i inside (Bool.and_eq_true_iff.mp both).1

theorem importedAnyway (form : Import → Bool)
    (others : ∀ i ∈ imports, form i = false → importType? home below name i = none) (demand : Import → Bool) :
    importedBy home below name imports (fun i => form i && demand i) =
      importedBy home below name imports demand := by
  refine findSomeFiltered fun i inside => ?_
  cases formed : form i with
  | true => rfl
  | false => simp [others i inside formed]

theorem uncontestedImports (uncontested : Uncontested home below name imports) :
    importsType? home below name imports = (importedBy home below name imports (!·.isOnDemand)).or
      (importedBy home below name imports (·.isOnDemand)) := by
  unfold importsType?
  by_cases statics : ∀ i ∈ imports, i.isStatic = true → importType? home below name i = none
  · have plain := importedAnyway (!·.isStatic) fun i inside isStatic =>
      statics i inside (by simpa using isStatic)
    rw [plain,plain,importedBoth _ statics,importedBoth _ statics,Option.or_none,Option.or_none]
  · obtain ⟨s,listed,isStatic,given⟩ : ∃ s ∈ imports, s.isStatic = true ∧
        importType? home below name s ≠ none := by simpa using statics
    have plain : ∀ i ∈ imports, i.isStatic = false → importType? home below name i = none :=
      fun i inside plain => (uncontested s listed i inside isStatic plain).resolve_left given
    have none := importedBoth (!·.isStatic) fun i inside notStatic =>
      plain i inside (by simpa using notStatic)
    rw [importedAnyway _ plain,importedAnyway _ plain,none,none,Option.none_or,Option.none_or]

theorem importsShow {offered : Import → Option Item}
    (each : ∀ i ∈ imports, Shows sure (offered i) (importType? home below name i))
    (uncontested : sure → Uncontested home below name imports) : Shows sure
    (((imports.filter (!·.isOnDemand)).findSome? offered).or
      ((imports.filter (·.isOnDemand)).findSome? offered)) (importsType? home below name imports) := by
  have mixed := Shows.or
    (.findSome fun i (inside : i ∈ imports.filter (!·.isOnDemand)) => each i (List.mem_filter.mp inside).1)
    (.findSome fun i (inside : i ∈ imports.filter (·.isOnDemand)) => each i (List.mem_filter.mp inside).1)
  refine ⟨fun absent => ?_,fun given => ?_⟩
  · obtain ⟨singles,demands⟩ := Option.or_eq_none_iff.mp absent
    have none : ∀ i ∈ imports, importType? home below name i = none := by
      intro i inside
      refine (each i inside).absent ?_
      cases demand : i.isOnDemand with
      | true =>
        exact List.findSome?_eq_none_iff.mp demands i (List.mem_filter.mpr ⟨inside,by simp [demand]⟩)
      | false =>
        exact List.findSome?_eq_none_iff.mp singles i (List.mem_filter.mpr ⟨inside,by simp [demand]⟩)
    simp [importsType?,importedNone fun i inside _ => none i inside]
  · rw [uncontestedImports (uncontested given)]
    exact mixed.type given

end

section

variable (consistent : ∀ d ∈ home.chain, d.table.Consistent) (below : Answers)

theorem typeStepClass (path : List String) :
    (Answers.typeStep? home path).map Step.class? = (home.type? path).map some := by
  rw [Answers.typeStep?,Option.map_map]
  rfl

include consistent

theorem memberStepClass {t : ResolvedType} {accept : Symbol → Bool}
    (types : ∀ s, accept s → s.kind.isTypeDecl) :
    (Answers.memberStep? home below t name accept).map (Option.map Step.class?) =
      (memberType? home below t name accept).map fun ref => some (some ref) := by
  unfold Answers.memberStep? memberType?
  cases first : (below.membersWhere home t name accept).head? with
  | none => rfl
  | some found =>
    obtain ⟨d,s,known,_,accepted⟩ := foundNamed consistent (List.mem_of_head? first)
    simp [Answers.stepTo,known,types s accepted,Step.class?,Step.type?,ResolvedType.class?,
      ResolvedType.ofSymbol]

theorem staticStepClass (owner : List String) :
    (Answers.staticStep? home below home owner name true).map (Option.map Step.class?) =
      ((home.type? owner).bind fun ref => memberType? home below (.ofSymbol ref) name staticType).map
        fun ref => some (some ref) := by
  unfold Answers.staticStep?
  cases home.type? owner with
  | none => rfl
  | some ref =>
    refine memberStepClass consistent below fun s accepted => ?_
    rw [Symbol.stepType,Bool.and_eq_true] at accepted
    exact accepted.2

theorem staticallyImportedClass (name : String) (source : SourceFile) :
    (Answers.staticallyImported? home below home source name true).map (Option.map Step.class?) =
      ((importedBy home below name source.imports fun i => i.isStatic && !i.isOnDemand).or
        (importedBy home below name source.imports fun i => i.isStatic && i.isOnDemand)).map
          fun ref => some (some ref) := by
  simp only [Answers.staticallyImported?,Option.orElse_eq_orElse,Option.orElse_eq_or,Option.map_or,
    importedBy,List.map_findSome?]
  congr 1
  · refine findSomeFiltered fun i _ => ?_
    simp only [Function.comp_apply,staticStepClass consistent]
    unfold importType?
    cases i.isStatic <;> cases i.isOnDemand <;> by_cases simple : i.simpleName? = some name <;> simp [simple]
  · refine findSomeFiltered fun i _ => ?_
    simp only [Function.comp_apply,staticStepClass consistent]
    unfold importType?
    cases i.isStatic <;> cases i.isOnDemand <;> simp

def packagesType? (home : Codebase) (name : String) (source : SourceFile) : Option SymbolRef :=
  (home.type? (source.package ++ [name])).or
    (home.language.implicitPackages.findSome? fun package => home.type? (Text.segments package ++ [name]))

theorem importedClass (source : SourceFile) :
    (Answers.importedStep? home below home source name true).map Step.class? =
      ((importsType? home below name source.imports).or (packagesType? home name source)).map some := by
  have singles : ((Answers.singleImports source name).findSome? fun i =>
        Answers.typeStep? home i.path).map Step.class? =
      (importedBy home below name source.imports fun i => !i.isStatic && !i.isOnDemand).map some := by
    rw [importedBy,List.map_findSome?,List.map_findSome?]
    refine findSomeFiltered fun i _ => ?_
    simp only [Function.comp_apply,typeStepClass]
    unfold importType?
    cases i.isStatic <;> cases i.isOnDemand <;> by_cases simple : i.simpleName? = some name <;> simp [simple]
  have demands : ((Answers.onDemandImports source).findSome? fun i =>
        Answers.typeStep? home (i.path ++ [name])).map Step.class? =
      (importedBy home below name source.imports fun i => !i.isStatic && i.isOnDemand).map some := by
    rw [importedBy,List.map_findSome?,List.map_findSome?]
    refine findSomeFiltered fun i _ => ?_
    simp only [Function.comp_apply,typeStepClass]
    unfold importType?
    cases i.isStatic <;> cases i.isOnDemand <;> simp
  have packages : ((Answers.typeStep? home (source.package ++ [name])).or
        (home.language.implicitPackages.findSome? fun package =>
          Answers.typeStep? home (Text.segments package ++ [name]))).map Step.class? =
      (packagesType? home name source).map some := by
    simp only [packagesType?,Option.map_or,List.map_findSome?,typeStepClass,Function.comp_def]
  have statics := staticallyImportedClass consistent below name source
  simp only [Answers.importedStep?,importsType?,Option.orElse_eq_orElse,Option.orElse_eq_or,Option.map_or,
    singles,demands,Option.or_assoc]
  congr 2
  rw [← Option.or_assoc,← Option.map_or]
  generalize (importedBy home below name source.imports _).or _ = given at statics ⊢
  cases found : Answers.staticallyImported? home below home source name true with
  | none =>
    rw [found,Option.map_none,eq_comm,Option.map_eq_none_iff] at statics
    simp [statics,packages]
  | some step =>
    rw [found] at statics
    cases given with
    | none => cases statics
    | some ref => exact Option.some.inj statics

end

end Completion
end CodeIndex
