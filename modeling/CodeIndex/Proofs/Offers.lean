import CodeIndex.Query
import CodeIndex.Proofs.Reading
import CodeIndex.Proofs.Unqualified
import CodeIndex.Proofs.WellFormed
import Mathlib.Data.List.Find

/-! What is offered under a name, and what the name means as a type. Only the first offer counts, methods
aside, since it hides the others. -/
namespace CodeIndex

theorem SymbolKind.typeMethod {kind : SymbolKind} (type : kind.isTypeDecl) : kind ≠ .method := by
  rintro rfl
  cases type

theorem Symbol.stepType (s : Symbol) : s.isStep true = s.kind.isTypeDecl := by simp [isStep]

namespace Members

theorem filterHandles {m : Members} (unique : m.keys.Nodup) {accept : Handle → Bool} {name : String}
    (own : ∀ {key declared}, (key,declared) ∈ m.entries → ∀ h ∈ declared, accept h → key = name) :
    m.handles.filter accept = (m.under name).filter accept := by
  obtain ⟨entries⟩ := m
  simp only [handles,OrderedMap.values,under,OrderedMap.get?]
  simp only [OrderedMap.keys] at unique
  induction entries with
  | nil => rfl
  | cons entry rest ih =>
    obtain ⟨key,declared⟩ := entry
    obtain ⟨fresh,unique⟩ := List.nodup_cons.mp unique
    have others := ih unique fun inside => own (List.mem_cons_of_mem _ inside)
    simp only [List.map_cons,List.flatten_cons,List.filter_append,OrderedMap.lookup,others]
    by_cases here : key = name
    · subst here
      have none : OrderedMap.lookup key rest = none := by
        refine Option.eq_none_iff_forall_ne_some.mpr fun declared bound => fresh ?_
        exact List.mem_map.mpr ⟨_,(OrderedMap.getEntry (m := ⟨rest⟩) unique).mpr bound,rfl⟩
      simp [none]
    · have nothing : declared.filter accept = [] :=
        List.filter_eq_nil_iff.mpr fun h inside accepted => here (own (by simp) h inside accepted)
      simp [here,nothing]

end Members

namespace SymbolTable

theorem membersBody {t : SymbolTable} {p : Handle} {o : Symbol} (owner : t.symbol? p = some o) :
    t.membersOf p = o.body.members := by
  simp only [membersOf,owner]
  rfl

theorem Consistent.filterMember {t : SymbolTable} (c : t.Consistent) (p : Handle) {accept : Handle → Bool}
    {name : String} (named : ∀ h s, t.symbol? h = some s → accept h → s.name = name) :
    (t.membersOf p).handles.filter accept = (t.declared p name).filter accept := by
  cases owner : t.symbol? p with
  | none => simp [declared,membersOf,owner,Members.handles,OrderedMap.values,Members.under,OrderedMap.get?,
      OrderedMap.lookup]
  | some o =>
    rw [declared,membersBody owner]
    refine Members.filterHandles (c.tidy owner).members fun inside h listed accepted => ?_
    have belongs := (c.listed owner (.member _) h).mp
      ((Members.memUnder (c.tidy owner).members).mpr ⟨_,inside,listed⟩)
    obtain ⟨s,live⟩ := belongs.live
    exact (belongs.memberName live).symm.trans (named h s live accepted)

theorem Consistent.findMember {t : SymbolTable} (c : t.Consistent) (p : Handle) {accept : Handle → Bool}
    {name : String} (named : ∀ h s, t.symbol? h = some s → accept h → s.name = name) :
    (t.membersOf p).handles.find? accept = (t.declared p name).find? accept := by
  rw [← List.head?_filter,c.filterMember p named,List.head?_filter]

theorem Consistent.declaredName {t : SymbolTable} (c : t.Consistent) {p h : Handle} {name : String}
    (listed : h ∈ t.declared p name) : ∃ s, t.symbol? h = some s ∧ s.name = name := by
  obtain ⟨s,live⟩ := Option.isSome_iff_exists.mp (c.declaredLive listed)
  refine ⟨s,live,?_⟩
  cases owner : t.symbol? p with
  | none => simp [declared,membersOf,owner,Members.under,OrderedMap.get?,OrderedMap.lookup] at listed
  | some o =>
    rw [declaredShelf owner] at listed
    exact ((c.listed owner _ h).mp listed).memberName live

end SymbolTable

namespace Completion

def firstNamed (name : String) (items : List Item) : Option Item :=
  items.find? fun item => item.kind ≠ .method && item.name = name

variable {name : String}

theorem firstNamedFacts {items : List Item} {item : Item} (found : firstNamed name items = some item) :
    item ∈ items ∧ item.kind ≠ .method ∧ item.name = name := by
  have facts := List.find?_some found
  simp only [ne_eq,decide_not,Bool.and_eq_true,Bool.not_eq_true',decide_eq_false_iff_not,
    decide_eq_true_eq] at facts
  exact ⟨List.mem_of_find?_eq_some found,facts⟩

theorem firstNamedNone {items : List Item} : firstNamed name items = none ↔
    ∀ item ∈ items, item.kind ≠ .method → item.name ≠ name := by
  simp [firstNamed,List.find?_eq_none]

theorem unhiddenFirst {items : List Item} {names : List String} {methods : List SymbolRef} {item : Item}
    (inside : item ∈ unhidden names methods items) (hides : item.kind ≠ .method) :
    item.name ∉ names ∧ firstNamed item.name items = some item := by
  induction items generalizing names methods with
  | nil => cases inside
  | cons first rest ih =>
    unfold unhidden at inside
    have later : ∀ {names methods}, item ∈ unhidden names methods rest →
        (first.kind = .method ∨ first.name ∈ names) →
        item.name ∉ names ∧ firstNamed item.name (first :: rest) = some item := by
      intro names methods inside passed
      obtain ⟨fresh,found⟩ := ih inside
      refine ⟨fresh,?_⟩
      have other : (first.kind ≠ .method && first.name = item.name) = false := by
        rcases passed with method | known
        · simp [method]
        · have different : first.name ≠ item.name := fun same => fresh (same ▸ known)
          simp [different]
      rw [firstNamed,List.find?_cons,other]
      exact found
    split at inside
    · rename_i method
      split at inside
      · exact later inside (.inl method)
      · rcases List.mem_cons.mp inside with rfl | inside
        · exact absurd method hides
        · exact later inside (.inl method)
    · split at inside
      · rename_i known
        exact later inside (.inr known)
      · rename_i kept fresh
        rcases List.mem_cons.mp inside with rfl | inside
        · exact ⟨fresh,by simp [firstNamed,hides]⟩
        · obtain ⟨new,found⟩ := later inside (.inr (by simp))
          exact ⟨fun known => new (by simp [known]),found⟩

theorem firstUnhidden {items : List Item} {names : List String} {methods : List SymbolRef} {item : Item}
    (found : firstNamed name items = some item) (fresh : name ∉ names) :
    item ∈ unhidden names methods items := by
  induction items generalizing names methods with
  | nil => cases found
  | cons first rest ih =>
    unfold unhidden
    rw [firstNamed,List.find?_cons] at found
    split at found
    · rename_i accepted
      cases Option.some.inj found
      simp only [ne_eq,decide_not,Bool.and_eq_true,Bool.not_eq_true',decide_eq_false_iff_not,
        decide_eq_true_eq] at accepted
      obtain ⟨hides,rfl⟩ := accepted
      simp [hides,fresh]
    · rename_i passed
      split
      · split
        · exact ih found fresh
        · exact List.mem_cons_of_mem _ (ih found fresh)
      · rename_i hides
        have different : first.name ≠ name := fun same => by simp [hides,same] at passed
        split
        · exact ih found fresh
        · refine List.mem_cons_of_mem _ (ih found ?_)
          simp [fresh,different.symm]

theorem firstNamedAppend (xs ys : List Item) :
    firstNamed name (xs ++ ys) = (firstNamed name xs).or (firstNamed name ys) := List.find?_append

theorem firstNamedFlat (xs : List α) (items : α → List Item) :
    firstNamed name (xs.flatMap items) = xs.findSome? fun x => firstNamed name (items x) := List.find?_flatMap

/-- Where nothing is offered nothing is meant, and, given `sure`, a type that is offered is the one that is
meant. -/
structure Shows (sure : Prop) (offered : Option Item) (meant : Option SymbolRef) : Prop where
  absent : offered = none → meant = none
  type : sure → ∀ item, offered = some item → item.kind.isTypeDecl → meant = some item.symbol

variable {sure : Prop}

namespace Shows

theorem nothing : Shows sure none none := ⟨fun _ => rfl,by simp⟩

theorem item {item : Item} {meant : Option SymbolRef}
    (type : sure → item.kind.isTypeDecl → meant = some item.symbol) : Shows sure (some item) meant := by
  refine ⟨by simp,fun given item' same type' => ?_⟩
  cases Option.some.inj same
  exact type given type'

theorem or {offered offered' : Option Item} {meant meant' : Option SymbolRef}
    (first : Shows sure offered meant) (second : Shows sure offered' meant') :
    Shows sure (offered.or offered') (meant.or meant') := by
  cases offered with
  | none => simpa [first.absent rfl] using second
  | some item => exact .item fun given type => by simp [first.type given item rfl type]

theorem findSome {xs : List α} {offered : α → Option Item} {meant : α → Option SymbolRef}
    (each : ∀ x ∈ xs, Shows sure (offered x) (meant x)) :
    Shows sure (xs.findSome? offered) (xs.findSome? meant) := by
  induction xs with
  | nil => exact nothing
  | cons x rest ih =>
    rw [← List.singleton_append,List.findSome?_append,List.findSome?_append,List.findSome?_singleton,
      List.findSome?_singleton]
    exact (each x (by simp)).or (ih fun y later => each y (by simp [later]))

end Shows

def firstOf? (c : Codebase) (accept : Symbol → Bool) (handles : List Handle) : Option SymbolRef :=
  (handles.find? fun h => (c.table.symbol? h).any accept).map c.ref

def TypesOf (keep accept : Symbol → Bool) : Prop := ∀ s, accept s = (keep s && s.kind.isTypeDecl)

theorem handlesShow {c : Codebase} {keep accept : Symbol → Bool} (types : TypesOf keep accept)
    {handles : List Handle} (named : ∀ h ∈ handles, ∃ s, c.table.symbol? h = some s ∧ s.name = name) :
    Shows sure (firstNamed name (itemsOf c keep handles)) (firstOf? c accept handles) := by
  induction handles with
  | nil => exact .nothing
  | cons h rest ih =>
    obtain ⟨s,live,rfl⟩ := named h (by simp)
    have later := ih fun h later => named h (by simp [later])
    rw [← List.singleton_append,itemsOf,List.filterMap_append,firstNamedAppend,firstOf?,List.find?_append,
      Option.map_or]
    refine .or ?_ later
    by_cases kept : keep s
    · by_cases method : s.kind = .method
      · simpa [live,kept,method,firstNamed,Item.ofSymbol,types s,SymbolKind.isTypeDecl] using Shows.nothing
      · have first : firstNamed s.name (itemsOf c keep [h]) = some (.ofSymbol (c.ref h) s) := by
          simp [itemsOf,live,kept,firstNamed,Item.ofSymbol,method]
        rw [itemsOf] at first
        rw [first]
        refine .item fun _ type => ?_
        have accepted : accept s = true := by
          rw [types s,kept]
          exact type
        simp [live,accepted,Item.ofSymbol]
    · simpa [live,kept,firstNamed,types s] using Shows.nothing

section

variable {c : Codebase} (consistent : c.table.Consistent)
include consistent

theorem firstMember (keep : Symbol → Bool) (scope : Handle) (name : String) :
    firstNamed name (itemsOf c keep (c.table.membersOf scope).handles) =
      firstNamed name (itemsOf c keep (c.table.declared scope name)) := by
  rw [firstNamed,firstNamed,itemsOf,itemsOf,List.find?_filterMap,List.find?_filterMap,
    consistent.findMember scope fun h s live accepted => ?_]
  simp only [live,Option.bind_eq_bind,Option.bind_some] at accepted
  split at accepted
  · simp only [pure,Option.any_some,Bool.and_eq_true,decide_eq_true_eq] at accepted
    exact accepted.2
  · cases accepted

theorem scopeShows {keep accept : Symbol → Bool} (types : TypesOf keep accept) (scope : Handle)
    (name : String) : Shows sure (firstNamed name (itemsOf c keep (c.table.membersOf scope).handles))
      (firstOf? c accept (c.table.declared scope name)) := by
  rw [firstMember consistent]
  exact handlesShow types fun h listed => consistent.declaredName listed

end

theorem resolveOwn {home d : Codebase} (inside : d ∈ home.chain) (h : Handle) :
    home.resolve? (d.ref h) = (d.table.symbol? h).map fun s => (d,s) := by
  cases live : d.table.symbol? h with
  | some s => exact Codebase.resolveRef inside live
  | none =>
    refine Option.eq_none_iff_forall_ne_some.mpr fun found resolved => ?_
    obtain ⟨inside',same,live'⟩ := Codebase.resolveChain.mp resolved
    cases Codebase.chainId inside inside' (congrArg SymbolRef.codebase same)
    simp [Codebase.ref,live] at live'

theorem refsItems {r : Resolver} {d : Codebase} (inside : d ∈ r.home.chain) (keep : Symbol → Bool)
    (handles : List Handle) (bindings : Bindings) :
    itemsOfRefs r keep (handles.map fun h => (d.ref h,bindings)) = itemsOf d keep handles := by
  rw [itemsOfRefs,List.filterMap_map]
  refine List.filterMap_congr fun h _ => ?_
  simp only [Function.comp_apply,resolveOwn inside]
  cases d.table.symbol? h <;> rfl

end Completion

namespace Answers

theorem firstHitHead {found : ResolvedType → List β} (ts : List ResolvedType) :
    (firstHit found ts).head? = ts.findSome? fun t => (found t).head? := by
  induction ts with
  | nil => rfl
  | cons t rest ih => cases hit : found t <;> simp [firstHit,hit,ih]

theorem membersHit (home : Codebase) (below : Answers) (t : ResolvedType) (name : String)
    (accept : Symbol → Bool) : membersWhere home below t name accept =
      firstHit (declaredMembers home name accept) (memberLevels home below t) := by
  unfold membersWhere memberLevels
  cases walkStart? below t with
  | none => rfl
  | some start => exact firstFoundHit ..

def Steady (home : Codebase) (depth depth' : Nat) : Prop := ∀ ref bindings,
  (atDepth home depth).superclasses ref bindings = (atDepth home depth').superclasses ref bindings

theorem startOf (home : Codebase) (depth : Nat) {t : ResolvedType} (plain : t.isTypeVar = false) :
    walkStart? (atDepth home depth) t = if t.isArray then none else some t := by
  rw [walkStart?,settledDepth home depth plain]
  rfl

theorem ownLevel (home : Codebase) (depth : Nat) (ref : SymbolRef) :
    ∃ above, memberLevels home (atDepth home depth) (.ofSymbol ref) = .ofSymbol ref :: above := by
  simp only [memberLevels,startOf home depth (t := .ofSymbol ref) rfl]
  exact ⟨_,rfl⟩

theorem levelsSteady {home : Codebase} {depth depth' : Nat} (steady : Steady home depth depth')
    {t : ResolvedType} (plain : t.isTypeVar = false) :
    memberLevels home (atDepth home depth) t = memberLevels home (atDepth home depth') t := by
  simp only [memberLevels,startOf _ _ plain]
  split
  · rfl
  refine closureCongr (fun u denotes => ?_) _ _ _
  -- Only classes are walked over, and their supertypes are all that the depth decides.
  have same : supertypes home (atDepth home depth) u = supertypes home (atDepth home depth') u := by
    obtain ⟨denoted,isArray,bindings⟩ := u
    cases denoted with
    | symbol ref => simp only [supertypes,steady ref bindings]
    | typeVar | primitive => simp [ResolvedType.class?] at denotes
  simp only [homeSupertypes,same]

end Answers

namespace Completion

def memberType? (home : Codebase) (below : Answers) (t : ResolvedType) (name : String)
    (accept : Symbol → Bool) : Option SymbolRef :=
  (below.membersWhere home t name accept).head?.map Prod.fst

theorem declaredHead {home d : Codebase} {level : ResolvedType} {ref : SymbolRef}
    (denotes : level.class? = some ref) (declaring : Answers.declaringCodebase? home level = some d)
    (name : String) (accept : Symbol → Bool) :
    (Answers.declaredMembers home name accept level).head?.map Prod.fst =
      firstOf? d accept (d.table.declared ref.handle name) := by
  simp only [Answers.declaredMembers,denotes,declaring,List.head?_map,List.head?_filter,Option.map_map,
    firstOf?]
  refine congrArg (Option.map d.ref) (List.find?_congr fun h _ => ?_)
  cases d.table.symbol? h <;> rfl

theorem memberOwn {home : Codebase} {p : Handle} {name : String} {accept : Symbol → Bool} {ref : SymbolRef}
    (first : firstOf? home accept (home.table.declared p name) = some ref) (depth : Nat) :
    memberType? home (.atDepth home depth) (.ofSymbol (home.ref p)) name accept = some ref := by
  obtain ⟨above,own⟩ := Answers.ownLevel home depth (home.ref p)
  have declaring : Answers.declaringCodebase? home (.ofSymbol (home.ref p)) = some home :=
    Codebase.memberChain (Codebase.chainSelf home)
  have head := declaredHead (ResolvedType.classOfSymbol _) declaring name accept
  rw [show (home.ref p).handle = p from rfl,first] at head
  rw [memberType?,Answers.membersHit,own,Answers.firstHitHead,List.map_findSome?,List.findSome?_cons,
    Function.comp_apply,head]

section

variable {home : Codebase} (consistent : ∀ d ∈ home.chain, d.table.Consistent) {near depth : Nat}
  (steady : Answers.Steady home near depth) (owner : SymbolRef) (name : String) {keep accept : Symbol → Bool}
  (types : TypesOf keep accept)
include consistent steady types

theorem memberShows : Shows sure
    (firstNamed name (itemsOfRefs ⟨home,depth⟩ keep ((Resolver.mk home depth).membersOf (.ofSymbol owner))))
    (memberType? home (.atDepth home near) (.ofSymbol owner) name accept) := by
  rw [memberType?,Answers.membersHit,Answers.levelsSteady steady (t := .ofSymbol owner) rfl,
    Answers.firstHitHead,List.map_findSome?]
  rw [itemsOfRefs,Resolver.membersOf,Answers.membersOf,List.filterMap_flatMap,firstNamedFlat]
  refine .findSome fun level _ => ?_
  simp only [Function.comp_apply]
  cases denotes : level.class? with
  | none =>
    simp only [Answers.declaredMembers,denotes]
    exact .nothing
  | some ref =>
    cases declaring : Answers.declaringCodebase? home level with
    | none =>
      simp only [Answers.declaredMembers,denotes,declaring]
      exact .nothing
    | some d =>
      have inside := Answers.declaringChain declaring
      have own : Shows sure _ _ := scopeShows (consistent d inside) types ref.handle name
      rw [declaredHead denotes declaring]
      rwa [← refsItems (r := ⟨home,depth⟩) inside _ _ level.bindings] at own

end

end Completion
end CodeIndex
