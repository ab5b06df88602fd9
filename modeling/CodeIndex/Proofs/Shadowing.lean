import CodeIndex.Proofs.MemberLevels
import CodeIndex.Proofs.Scopes

/-! What is offered at a place, and what hides what. Inner names hide outer ones, except that methods hide
nothing and are never hidden. A local variable that the cursor has not come to yet is not there at all, so it
hides nothing either. -/
namespace CodeIndex

namespace SymbolTable.Consistent

variable {t : SymbolTable} (c : t.Consistent)
include c

theorem memberParent {p h : Handle} {o s : Symbol} (owner : t.symbol? p = some o) (plain : o.kind ≠ .package)
    (listed : h ∈ (t.membersOf p).handles) (live : t.symbol? h = some s) : s.parent = some p := by
  rw [membersBody owner] at listed
  obtain ⟨name,shelved⟩ := (Members.memHandles (c.tidy owner).members).mp listed
  exact c.ownMember owner plain (.member name) shelved live

theorem innerLevels {scope : Handle} {before after : List (Handle × Symbol)} {level : Handle × Symbol}
    (outward : t.Outward scope (before ++ level :: after)) (inner : level.2.kind ≠ .package) :
    ∀ below ∈ before, below.2.kind ≠ .file := by
  intro below listed file
  obtain ⟨first,last,rfl⟩ := List.append_of_mem listed
  have parts : (first ++ below :: last) ++ level :: after = first ++ below :: (last ++ level :: after) := by
    simp
  have around := outward.tail parts
  obtain ⟨_,_,outer,_,_,_,same,_,packages⟩ := c.aroundFile around (around.live below (by simp)) file
  obtain ⟨_,rfl⟩ := List.cons.inj same
  exact inner (packages level (by simp))

end SymbolTable.Consistent

def Symbol.startsLater (cursor : Option UInt32) (s : Symbol) : Bool :=
  s.kind = .value .localVariable && cursor.any (· < s.span.start)

namespace Codebase

variable (home : Codebase)

def item? (ref : SymbolRef) : Option Completion.Item :=
  (home.resolve? ref).map fun found => .ofSymbol ref found.2

def isMethod (ref : SymbolRef) : Bool := (home.resolve? ref).any (·.2.kind = .method)

def hides (name : String) (ref : SymbolRef) : Bool :=
  (home.resolve? ref).any fun found => found.2.kind ≠ .method && found.2.name = name

def Outside (ref : SymbolRef) : Prop := ∀ d s p o, home.resolve? ref = some (d,s) →
  s.kind = .value .localVariable → s.parent = some p → d.table.symbol? p = some o → o.kind ≠ .method

variable {home}

theorem kindOutside {d : Codebase} {ref : SymbolRef} {s : Symbol} (found : home.resolve? ref = some (d,s))
    (other : s.kind ≠ .value .localVariable) : home.Outside ref := by
  intro e s' p o found' kind
  cases Option.some.inj (found.symm.trans found')
  exact absurd kind other

theorem typeOutside {d : Codebase} {ref : SymbolRef} {s : Symbol} (found : home.resolve? ref = some (d,s))
    (type : s.kind.isTypeDecl) : home.Outside ref :=
  kindOutside found fun kind => by simp [kind,SymbolKind.isTypeDecl] at type

theorem typeWellFormed {d : Codebase} {ref : SymbolRef} {s : Symbol} (found : home.resolve? ref = some (d,s))
    (type : s.kind.isTypeDecl) : home.WellFormed (.ofSymbol ref) :=
  ResolvedType.overOf ⟨d,s,found,type⟩ Bindings.overEmpty

theorem itemSymbol {ref : SymbolRef} {item : Completion.Item} (made : home.item? ref = some item) :
    item.symbol = ref := by
  obtain ⟨found,_,rfl⟩ := Option.map_eq_some_iff.mp made
  rfl

end Codebase

namespace Resolver

def offered (r : Resolver) (cursor : Option UInt32) (h : Handle) (s : Symbol) : List SymbolRef :=
  match s.kind with
  | .method =>
    ((r.home.table.membersOf h).handles.filter fun m =>
      !(r.home.table.symbol? m).any (·.startsLater cursor)).map r.home.ref
  | .type _ =>
    let t := ResolvedType.ofSymbol (r.home.ref h)
    ((t :: r.ancestors t).flatMap r.home.ownMembers).map Prod.fst ++ [r.home.ref h]
  | _ => []

variable {r : Resolver}

section

variable (reached : r.home.Reached)
include reached

theorem memberOutside {d : Codebase} (inside : d ∈ r.home.chain) {p h : Handle} {o : Symbol}
    (owner : d.table.symbol? p = some o) (method : o.kind ≠ .method) (package : o.kind ≠ .package)
    (listed : h ∈ (d.table.membersOf p).handles) : r.home.Outside (d.ref h) := by
  intro e s q o' found _ parent owner'
  rw [Completion.resolveOwn inside] at found
  obtain ⟨_,live,pair⟩ := Option.map_eq_some_iff.mp found
  cases pair
  cases Option.some.inj (parent.symm.trans ((reached.chain inside).memberParent owner package listed live))
  cases Option.some.inj (owner.symm.trans owner')
  exact method

variable (distinct : r.home.Distinct)
include distinct

theorem membersOutside {t : ResolvedType} (formed : r.home.WellFormed t) :
    ∀ member ∈ r.membersOf t, r.home.Outside member.1 := by
  intro member inside
  obtain ⟨level,above,found⟩ := List.mem_flatMap.mp inside
  have known := Answers.memberLevelsOver r.home.vocabularyCovers distinct (answersOver distinct) formed
    level above
  split at found
  · rename_i c d denotes declaring
    obtain ⟨h,listed,rfl⟩ := List.mem_map.mp found
    obtain ⟨e,o,found,type⟩ := known.class denotes
    cases Option.some.inj (declaring.symm.trans (Answers.declaringFound denotes found))
    obtain ⟨inside,_,live⟩ := Codebase.resolveChain.mp found
    have package : o.kind ≠ .package := fun package => by simp [package,SymbolKind.isTypeDecl] at type
    exact memberOutside reached inside live (SymbolKind.typeMethod type) package listed
  · cases found

theorem namedOutside {t : ResolvedType} (formed : r.home.WellFormed t) (name : String) :
    ∀ member ∈ r.members t name, r.home.Outside member.1 := by
  intro member inside
  rw [Resolver.members,Answers.membersHit] at inside
  obtain ⟨level,above,found⟩ := Answers.firstHitMem inside
  rw [Answers.declaredNamed reached] at found
  have own := (List.mem_filter.mp found).1
  exact membersOutside reached distinct formed member (List.mem_flatMap.mpr ⟨level,above,own⟩)

omit reached in
theorem typeFormed {dotted : String} {t : ResolvedType} (found : r.type? dotted = some t) :
    r.home.WellFormed t := by
  obtain ⟨ref,type,rfl⟩ := Option.map_eq_some_iff.mp found
  exact ResolvedType.overOf (Answers.typeOver r.home.vocabularyCovers distinct (Codebase.chainSelf _) type)
    Bindings.overEmpty

end

end Resolver

namespace Completion

theorem unhiddenFrom (names : List String) (methods : List SymbolRef) (items : List Item) :
    unhidden names methods items ⊆ items := by
  fun_induction unhidden names methods items with
  | case1 => exact List.Subset.refl _
  | case2 _ _ _ _ _ _ ih | case4 _ _ _ _ _ _ ih => exact List.subset_cons_of_subset _ ih
  | case3 _ _ _ _ _ _ ih | case5 _ _ _ _ _ _ ih => exact List.cons_subset_cons _ ih

theorem unhiddenNew {names : List String} {methods : List SymbolRef} {items : List Item} {item : Item}
    (inside : item ∈ unhidden names methods items) (method : item.kind = .method) : item.symbol ∉ methods := by
  fun_induction unhidden names methods items with
  | case1 => cases inside
  | case2 _ _ _ _ _ _ ih | case4 _ _ _ _ _ _ ih => exact ih inside
  | case3 _ _ first _ _ fresh ih =>
    rcases List.mem_cons.mp inside with rfl | later
    · exact fresh
    · exact fun known => ih later (List.mem_cons_of_mem _ known)
  | case5 _ _ first _ other _ ih =>
    rcases List.mem_cons.mp inside with rfl | later
    · exact absurd method other
    · exact ih later

theorem unhiddenKeeps {names : List String} {methods : List SymbolRef} {items : List Item} {item : Item}
    (inside : item ∈ items) (method : item.kind = .method) (fresh : item.symbol ∉ methods) :
    item.symbol ∈ (unhidden names methods items).map Item.symbol := by
  fun_induction unhidden names methods items with
  | case1 => cases inside
  | case2 _ _ first _ _ known ih =>
    rcases List.mem_cons.mp inside with rfl | later
    · exact absurd known fresh
    · exact ih later fresh
  | case3 _ methods first _ _ _ ih =>
    by_cases same : item.symbol = first.symbol
    · simp [same]
    · have later := List.mem_of_ne_of_mem (fun here => same (congrArg Item.symbol here)) inside
      exact List.mem_cons_of_mem _ (ih later (by simp [same,fresh]))
  | case4 _ _ first _ other _ ih | case5 _ _ first _ other _ ih =>
    have apart : item ≠ first := fun here => other (here ▸ method)
    simp [ih (List.mem_of_ne_of_mem apart inside) fresh]

theorem unhiddenNames (names : List String) (methods : List SymbolRef) (items : List Item) :
    (((unhidden names methods items).filter (·.kind ≠ .method)).map Item.name).Nodup := by
  fun_induction unhidden names methods items with
  | case1 => simp
  | case2 _ _ _ _ _ _ ih | case4 _ _ _ _ _ _ ih => exact ih
  | case3 _ _ first _ method _ ih => simpa [method] using ih
  | case5 _ _ first _ other _ ih =>
    rw [List.filter_cons_of_pos (by simpa using other),List.map_cons,List.nodup_cons]
    refine ⟨fun again => ?_,ih⟩
    obtain ⟨item,listed,same⟩ := List.mem_map.mp again
    obtain ⟨later,hides⟩ := List.mem_filter.mp listed
    exact (unhiddenFirst later (by simpa using hides)).1 (by simp [same])

theorem unhiddenMethods (names : List String) (methods : List SymbolRef) (items : List Item) :
    (((unhidden names methods items).filter (·.kind = .method)).map Item.symbol).Nodup := by
  fun_induction unhidden names methods items with
  | case1 => simp
  | case2 _ _ _ _ _ _ ih | case4 _ _ _ _ _ _ ih => exact ih
  | case3 _ _ first _ method _ ih =>
    rw [List.filter_cons_of_pos (by simpa using method),List.map_cons,List.nodup_cons]
    refine ⟨fun again => ?_,ih⟩
    obtain ⟨item,listed,same⟩ := List.mem_map.mp again
    obtain ⟨later,kind⟩ := List.mem_filter.mp listed
    exact unhiddenNew later (by simpa using kind) (by simp [same])
  | case5 _ _ first _ other _ ih => simpa [other] using ih

variable {r : Resolver}

theorem declaredLater (cursor : Option UInt32) (s : Symbol) : isDeclared cursor s = !s.startsLater cursor := by
  unfold isDeclared Symbol.startsLater
  cases cursor with
  | none => simp
  | some offset => by_cases inner : s.kind = .value .localVariable <;> simp [inner,← UInt32.not_lt]

structure Item.Plain (home : Codebase) (item : Item) : Prop where
  named : home.item? item.symbol = some item
  outside : home.Outside item.symbol

theorem refsNamed {keep : Symbol → Bool} {members : List (SymbolRef × Bindings)} {item : Item}
    (inside : item ∈ itemsOfRefs r keep members) : r.home.item? item.symbol = some item ∧
      ∃ member ∈ members, member.1 = item.symbol ∧ ∃ d s, r.home.resolve? member.1 = some (d,s) ∧ keep s := by
  obtain ⟨member,listed,made⟩ := List.mem_filterMap.mp inside
  simp only [bind,Option.bind_eq_some_iff] at made
  obtain ⟨⟨d,s⟩,found,last⟩ := made
  split at last
  · rename_i kept
    cases Option.some.inj last
    exact ⟨by simp [Codebase.item?,Item.ofSymbol,found],member,listed,rfl,d,s,found,kept⟩
  · cases last

theorem everyItem (members : List (SymbolRef × Bindings)) :
    itemsOfRefs r (fun _ => true) members = (members.map Prod.fst).filterMap r.home.item? := by
  rw [itemsOfRefs,List.filterMap_map]
  refine List.filterMap_congr fun member _ => ?_
  simp only [Function.comp_apply,Codebase.item?]
  cases r.home.resolve? member.1 <;> rfl

theorem refsPlain {keep : Symbol → Bool} {members : List (SymbolRef × Bindings)}
    (outside : ∀ member ∈ members, r.home.Outside member.1) :
    ∀ item ∈ itemsOfRefs r keep members, item.Plain r.home := by
  intro item inside
  obtain ⟨named,member,listed,same,_⟩ := refsNamed inside
  exact ⟨named,same ▸ outside member listed⟩

theorem ownPlain {d : Codebase} (inside : d ∈ r.home.chain) {keep : Symbol → Bool} {handles : List Handle}
    (outside : ∀ h ∈ handles, ∀ s, d.table.symbol? h = some s → keep s → r.home.Outside (d.ref h)) :
    ∀ item ∈ itemsOf d keep handles, item.Plain r.home := by
  intro item offered
  rw [← refsItems (r := r) inside keep handles {}] at offered
  obtain ⟨named,member,listed,same,_,s,found,kept⟩ := refsNamed offered
  obtain ⟨h,within,rfl⟩ := List.mem_map.mp listed
  rw [resolveOwn inside] at found
  obtain ⟨_,live,pair⟩ := Option.map_eq_some_iff.mp found
  cases pair
  exact ⟨named,same ▸ outside h within s live kept⟩

theorem packagePlain (dotted : String) : ∀ item ∈ packageOffers r dotted, item.Plain r.home := by
  intro item inside
  obtain ⟨d,chained,offered⟩ := List.mem_flatMap.mp inside
  split at offered
  · refine ownPlain chained (fun h _ s live type => ?_) item offered
    exact Codebase.typeOutside (Codebase.resolveRef chained live) type
  · cases offered

section

variable (reached : r.home.Reached) (distinct : r.home.Distinct)
include reached distinct

theorem singlePlain (i : Import) : ∀ item ∈ singleImportOffers r i, item.Plain r.home := by
  intro item inside
  unfold singleImportOffers at inside
  split at inside
  · split at inside
    · rename_i owner name found _
      have formed := Resolver.typeFormed distinct found
      exact refsPlain (Resolver.namedOutside reached distinct formed name) item inside
    · cases inside
  · split at inside
    · rename_i t found
      refine refsPlain (fun member listed => ?_) item inside
      obtain ⟨ref,denotes,rfl⟩ := List.mem_map.mp listed
      obtain ⟨d,s,resolved,type⟩ := (Resolver.typeFormed distinct found).class (Option.mem_toList.mp denotes)
      exact Codebase.typeOutside resolved type
    · cases inside

theorem onDemandPlain (i : Import) : ∀ item ∈ onDemandImportOffers r i, item.Plain r.home := by
  intro item inside
  unfold onDemandImportOffers at inside
  split at inside
  · split at inside
    · rename_i owner found
      have formed := Resolver.typeFormed distinct found
      exact refsPlain (Resolver.membersOutside reached distinct formed) item inside
    · cases inside
  · exact packagePlain _ item inside

theorem filePlain {f : Handle} {o : Symbol} (live : r.home.table.symbol? f = some o) {source : SourceFile}
    {members : Members} {scopes : SpanMap Handle} (body : o.body = .file source members scopes) :
    ∀ item ∈ fileOffers r source members, item.Plain r.home := by
  intro item inside
  simp only [fileOffers,List.mem_append,List.mem_flatMap] at inside
  rcases inside with (((own | ⟨i,_,single⟩) | ⟨i,_,all⟩) | package) | ⟨package,_,implicit⟩
  · have kind : o.kind = .file := by rw [Symbol.kind,body]; rfl
    have same : r.home.table.membersOf f = members := by rw [SymbolTable.membersBody live,body]; rfl
    refine ownPlain (Codebase.chainSelf _) (fun h listed _ _ _ => ?_) item own
    rw [← same] at listed
    exact Resolver.memberOutside reached (Codebase.chainSelf _) live (by simp [kind]) (by simp [kind]) listed
  · exact singlePlain reached distinct i item single
  · exact onDemandPlain reached distinct i item all
  · exact packagePlain _ item package
  · exact packagePlain _ item implicit

omit distinct in
theorem topLevelPlain : ∀ item ∈ topLevelOffers r, item.Plain r.home := by
  intro item inside
  rcases List.mem_append.mp inside with type | package
  · exact packagePlain _ item type
  · obtain ⟨d,chained,offered⟩ := List.mem_flatMap.mp package
    split at offered
    · rename_i root live
      obtain ⟨⟨name,h⟩,entry,rfl⟩ := List.mem_map.mp offered
      have consistent := reached.chain chained
      rw [Symbol.subpackagesBody] at entry
      have bound := (OrderedMap.getEntry (consistent.tidy live).subpackages).mp entry
      obtain ⟨s,held,kind,rfl,_⟩ := consistent.subpackage live (Symbol.subpackageShelf bound)
      have found := Codebase.resolveRef chained held
      exact ⟨by simp [Codebase.item?,found,Item.ofSymbol,kind],Codebase.kindOutside found (by simp [kind])⟩
    · cases offered

variable {cursor : Option UInt32} {h : Handle} {s : Symbol}

omit reached in
theorem levelOffered (live : r.home.table.symbol? h = some s) (other : s.kind ≠ .file) :
    levelOffers r cursor h s = (r.offered cursor h s).filterMap r.home.item? := by
  cases body : s.body with
  | method header parameters members =>
    have kind : s.kind = .method := by rw [Symbol.kind,body]; rfl
    have inner : r.home.table.membersOf h = members := by rw [SymbolTable.membersBody live,body]; rfl
    simp only [levelOffers,body,Resolver.offered,kind,inner,itemsOf,List.filterMap_map,List.filterMap_filter]
    refine List.filterMap_congr fun m _ => ?_
    simp only [Function.comp_apply,Codebase.item?,resolveOwn (Codebase.chainSelf _),declaredLater]
    cases r.home.table.symbol? m with
    | none => rfl
    | some inner => cases later : inner.startsLater cursor <;> simp [later]
  | type typeKind header members =>
    have kind : s.kind = .type typeKind := by rw [Symbol.kind,body]; rfl
    have found := Codebase.resolveRef (Codebase.chainSelf _) live
    have formed := Codebase.typeWellFormed found (by rw [kind]; rfl)
    have every := Resolver.membersAncestors distinct rfl rfl (Resolver.formedKnown distinct formed)
    simp only [levelOffers,body,memberOffers,everyItem,every,Resolver.offered,kind,List.filterMap_append]
    simp [Codebase.item?,found]
  | file => simp [Symbol.kind,body,Body.kind] at other
  | package | value | primitive => simp [levelOffers,body,Resolver.offered,Symbol.kind,Body.kind]

theorem levelPlain (live : r.home.table.symbol? h = some s) (other : s.kind ≠ .method) :
    ∀ item ∈ levelOffers r cursor h s, item.Plain r.home := by
  intro item inside
  unfold levelOffers at inside
  split at inside
  · rename_i body
    simp [Symbol.kind,body,Body.kind] at other
  · rename_i body
    have found := Codebase.resolveRef (Codebase.chainSelf _) live
    have type : s.kind.isTypeDecl := by rw [Symbol.kind,body]; rfl
    have formed := Codebase.typeWellFormed found type
    rcases List.mem_append.mp inside with member | self
    · exact refsPlain (Resolver.membersOutside reached distinct formed) item member
    · cases List.mem_singleton.mp self
      exact ⟨by simp [Codebase.item?,Item.ofSymbol,found],Codebase.typeOutside found type⟩
  · rename_i body
    exact filePlain reached distinct live body item inside
  · cases inside

theorem levelNamed (live : r.home.table.symbol? h = some s) :
    ∀ item ∈ levelOffers r cursor h s, r.home.item? item.symbol = some item := by
  intro item inside
  by_cases method : s.kind = .method
  · rw [levelOffered distinct live (by simp [method])] at inside
    obtain ⟨ref,_,made⟩ := List.mem_filterMap.mp inside
    exact (Codebase.itemSymbol made).symm ▸ made
  · exact (levelPlain reached distinct live method item inside).named

end

theorem visibleOffers (cursor : Option UInt32) (scope : Handle) : visible r cursor scope = unhidden [] []
    ((r.home.table.scopeChain scope).levels.flatMap (fun level => levelOffers r cursor level.1 level.2) ++
      topLevelOffers r) := rfl

theorem visibleFrom {cursor : Option UInt32} {scope : Handle} {item : Item}
    (inside : item ∈ visible r cursor scope) : item ∈ topLevelOffers r ∨
      ∃ level ∈ (r.home.table.scopeChain scope).levels, item ∈ levelOffers r cursor level.1 level.2 := by
  rw [visibleOffers] at inside
  rcases List.mem_append.mp (unhiddenFrom _ _ _ inside) with level | top
  · exact .inr (List.mem_flatMap.mp level)
  · exact .inl top

theorem firstOffered (home : Codebase) (name : String) (refs : List SymbolRef) :
    firstNamed name (refs.filterMap home.item?) = (refs.find? (home.hides name)).bind home.item? := by
  have same : home.hides name = fun ref =>
      (home.item? ref).any fun item => item.kind ≠ .method && item.name = name := by
    funext ref
    simp only [Codebase.hides,Codebase.item?,Option.any_map]
    rfl
  rw [firstNamed,List.find?_filterMap,same]

structure Shadowing (r : Resolver) (cursor : Option UInt32) (scope : Handle) (items : List Item) : Prop where
  names : ((items.filter (·.kind ≠ .method)).map Item.name).Nodup
  methods : ((items.filter (·.kind = .method)).map Item.symbol).Nodup
  named : ∀ item ∈ items, r.home.item? item.symbol = some item
  innermost : ∀ {before h s after name ref}, r.home.table.Outward scope (before ++ (h,s) :: after) →
    (∀ level ∈ before, ∀ ref ∈ r.offered cursor level.1 level.2, ¬r.home.hides name ref) →
    (r.offered cursor h s).find? (r.home.hides name) = some ref →
    ∃ item ∈ items, r.home.item? ref = some item ∧
      ∀ other ∈ items, other.kind ≠ .method → other.name = name → other = item
  overloads : ∀ {levels h s}, r.home.table.Outward scope levels → (h,s) ∈ levels →
    ∀ ref ∈ r.offered cursor h s, r.home.isMethod ref → ref ∈ items.map Item.symbol
  later : ∀ {levels h s}, r.home.table.Outward scope levels → (h,s) ∈ levels → s.kind = .method →
    ∀ m ∈ (r.home.table.membersOf h).handles, (r.home.table.symbol? m).any (·.startsLater cursor) →
      r.home.ref m ∉ items.map Item.symbol

section

variable (distinct : r.home.Distinct) (reached : r.home.Reached) {cursor : Option UInt32} {scope : Handle}
include distinct reached

theorem visibleNamed : ∀ item ∈ visible r cursor scope, r.home.item? item.symbol = some item := by
  intro item inside
  rcases visibleFrom inside with top | ⟨level,around,offered⟩
  · exact (topLevelPlain reached item top).named
  · exact levelNamed reached distinct (SymbolTable.climbLive _ _ _ level around) item offered

theorem visibleInnermost {before after : List (Handle × Symbol)} {h : Handle} {s : Symbol} {name : String}
    {ref : SymbolRef} (outward : r.home.table.Outward scope (before ++ (h,s) :: after))
    (passed : ∀ level ∈ before, ∀ ref ∈ r.offered cursor level.1 level.2, ¬r.home.hides name ref)
    (first : (r.offered cursor h s).find? (r.home.hides name) = some ref) :
    ∃ item ∈ visible r cursor scope, r.home.item? ref = some item ∧
      ∀ other ∈ visible r cursor scope, other.kind ≠ .method → other.name = name → other = item := by
  have live := outward.live
  have among := List.mem_of_find?_eq_some first
  have inner : s.kind ≠ .package ∧ s.kind ≠ .file := by
    constructor <;> intro kind <;> simp [Resolver.offered,kind] at among
  have files := reached.consistent.innerLevels outward inner.1
  have hidden : r.home.hides name ref := List.find?_some first
  obtain ⟨found,resolved,_⟩ := (Option.any_eq_true _ _).mp hidden
  obtain ⟨item,made⟩ : ∃ item, r.home.item? ref = some item := ⟨_,by rw [Codebase.item?,resolved]; rfl⟩
  have hit : firstNamed name (levelOffers r cursor h s) = some item := by
    rw [levelOffered distinct (live (h,s) (by simp)) inner.2,firstOffered,first,Option.bind_some,made]
  have missed : before.findSome? (fun level => firstNamed name (levelOffers r cursor level.1 level.2)) =
      none := by
    refine List.findSome?_eq_none_iff.mpr fun level listed => ?_
    rw [levelOffered distinct (live level (by simp [listed])) (files level listed),firstOffered,
      List.find?_eq_none.mpr (passed level listed),Option.bind_none]
  have whole : firstNamed name ((r.home.table.scopeChain scope).levels.flatMap
      (fun level => levelOffers r cursor level.1 level.2) ++ topLevelOffers r) = some item := by
    rw [firstNamedAppend,firstNamedFlat,outward.chain,List.findSome?_append,missed,List.findSome?_cons,hit]
    rfl
  rw [visibleOffers]
  refine ⟨item,firstUnhidden whole (by simp),made,fun other inside hides same => ?_⟩
  have again := (unhiddenFirst inside hides).2
  rw [same,whole] at again
  exact (Option.some.inj again).symm

omit reached in
theorem visibleOverloads {levels : List (Handle × Symbol)} {h : Handle} {s : Symbol}
    (outward : r.home.table.Outward scope levels) (around : (h,s) ∈ levels) :
    ∀ ref ∈ r.offered cursor h s, r.home.isMethod ref → ref ∈ (visible r cursor scope).map Item.symbol := by
  intro ref offered method
  have other : s.kind ≠ .file := fun kind => by simp [Resolver.offered,kind] at offered
  obtain ⟨⟨d,m⟩,found,kind⟩ := (Option.any_eq_true _ _).mp method
  have inside : Item.ofSymbol ref m ∈ levelOffers r cursor h s := by
    rw [levelOffered distinct (outward.live _ around) other]
    exact List.mem_filterMap.mpr ⟨ref,offered,by simp [Codebase.item?,found]⟩
  have listed : Item.ofSymbol ref m ∈ (r.home.table.scopeChain scope).levels.flatMap fun level =>
      levelOffers r cursor level.1 level.2 := by
    rw [outward.chain]
    exact List.mem_flatMap.mpr ⟨_,around,inside⟩
  rw [visibleOffers]
  exact unhiddenKeeps (List.mem_append_left _ listed) (by simpa [Item.ofSymbol] using kind) (by simp)

theorem visibleLater {levels : List (Handle × Symbol)} {h : Handle} {s : Symbol}
    (outward : r.home.table.Outward scope levels) (around : (h,s) ∈ levels) (method : s.kind = .method) :
    ∀ m ∈ (r.home.table.membersOf h).handles, (r.home.table.symbol? m).any (·.startsLater cursor) →
      r.home.ref m ∉ (visible r cursor scope).map Item.symbol := by
  intro m listed later inside
  obtain ⟨v,held,starts⟩ := (Option.any_eq_true _ _).mp later
  obtain ⟨item,visible_,same⟩ := List.mem_map.mp inside
  have live := outward.live _ around
  have found := Codebase.resolveRef (Codebase.chainSelf r.home) held
  have kind : v.kind = .value .localVariable := by
    simp only [Symbol.startsLater,Bool.and_eq_true,decide_eq_true_eq] at starts
    exact starts.1
  have parent := reached.consistent.memberParent live (by simp [method]) listed held
  have plain : ¬item.Plain r.home := fun plain =>
    plain.outside _ _ _ _ (same ▸ found) kind parent live method
  rcases visibleFrom visible_ with top | ⟨⟨h',s'⟩,around',offered⟩
  · exact plain (topLevelPlain reached item top)
  · rw [outward.chain] at around'
    have live' := outward.live _ around'
    by_cases method' : s'.kind = .method
    · rw [levelOffered distinct live' (by simp [method'])] at offered
      obtain ⟨ref,among,made⟩ := List.mem_filterMap.mp offered
      simp only [Resolver.offered,method'] at among
      obtain ⟨m',kept,rfl⟩ := List.mem_map.mp among
      obtain rfl : m' = m := congrArg SymbolRef.handle ((Codebase.itemSymbol made).symm.trans same)
      simp [held,starts] at kept
    · exact plain (levelPlain reached distinct live' method' item offered)

end

/-- Whatever the scope and the cursor, inner names hide outer ones, methods and later locals aside. -/
theorem visibleShadowing (r : Resolver) (distinct : r.home.Distinct) (reached : r.home.Reached)
    (cursor : Option UInt32) (scope : Handle) : Shadowing r cursor scope (visible r cursor scope) where
  names := unhiddenNames ..
  methods := unhiddenMethods ..
  named := visibleNamed distinct reached
  innermost := visibleInnermost distinct reached
  overloads := visibleOverloads distinct
  later := visibleLater distinct reached

def dockFile : FileDecl where
  path := "port/Dock.java"
  package := ["port"]
  types :=
    let int (name : String) (span : Span) : VariableDecl := { name, type := .simple "int", span }
    let fill : MethodDecl := { name := "fill", locals := [int "load" ⟨40,44⟩,int "name" ⟨10,14⟩] }
    let header : TypeHeader := { superclass := some (.simple "Yard") }
    [{ outline := { name := "Yard", kind := .type .classType }
       members := [.field (int "name" {}),.method { name := "fill" }] },
     { outline := { name := "Dock", kind := .type .classType, header }
       members := [.field (int "load" {}),.method fill] }]

@[irreducible]
def dockApp : Codebase :=
  (Codebase.putFile { id := 0, name := "app", language := .bare, settings := default } dockFile).2

theorem dockAppReached : dockApp.Reached := by
  unfold dockApp
  exact .putFile (.new ..) dockFile

theorem dockShadowing :
    let r : Resolver := ⟨dockApp,8⟩
    let fill : Handle := ⟨8,0⟩
    let shown (cursor : Option UInt32) :=
      (visible r cursor fill).map fun item => (item.name,item.symbol.handle.index)
    dockApp.Distinct ∧ dockApp.Reached ∧
    shown (some 20) = [("name",10),("load",7),("fill",8),("fill",5),("Dock",6),("Yard",3),("port",1)] ∧
    shown none = [("load",9),("name",10),("fill",8),("fill",5),("Dock",6),("Yard",3),("port",1)] ∧
    Shadowing r (some 20) fill (visible r (some 20) fill) := by
  intro r fill shown
  have facts : dockApp.dependencies = [] ∧
      shown (some 20) = [("name",10),("load",7),("fill",8),("fill",5),("Dock",6),("Yard",3),("port",1)] ∧
      shown none = [("load",9),("name",10),("fill",8),("fill",5),("Dock",6),("Yard",3),("port",1)] := by
    decide +kernel
  obtain ⟨alone,hidden,whole⟩ := facts
  have distinct : dockApp.Distinct := Codebase.distinctAlone alone
  exact ⟨distinct,dockAppReached,hidden,whole,visibleShadowing r distinct dockAppReached (some 20) fill⟩

end Completion
end CodeIndex
