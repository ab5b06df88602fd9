import CodeIndex.Proofs.Applicability
import Mathlib.Data.List.Nodup
import Mathlib.Data.List.Perm.Basic

/-! The most specific of the methods that apply. Of two methods at most one is more specific than the other, so
at most one is more specific than all others. A call chooses that one in whatever order the candidates stand;
only where there is none does the order decide. -/
namespace CodeIndex.Resolver

variable {r : Resolver}

theorem specificOneWay {left right : Option (List ResolvedType)} (more : r.isMoreSpecific left right) :
    ¬r.isMoreSpecific right left := by
  cases left <;> cases right <;> simp_all [isMoreSpecific]

theorem specificNever (types : Option (List ResolvedType)) : ¬r.isMoreSpecific types types :=
  fun more => specificOneWay more more

theorem placeWins {arity : Nat} {signatures : List Signature} {i : Nat} {s : Signature}
    (found : signatures[i]? = some s) :
    r.isMostSpecificAt (signatures.map (·.expanded? arity)) i ↔
      ∀ j other, signatures[j]? = some other → j ≠ i →
        r.isMoreSpecific (s.expanded? arity) (other.expanded? arity) := by
  have own : (signatures.map (·.expanded? arity))[i]? = some (s.expanded? arity) := by simp [found]
  simp only [isMostSpecificAt,own,List.all_eq_true]
  constructor
  · intro all j other found' away
    have placed : (other.expanded? arity,j) ∈ (signatures.map (·.expanded? arity)).zipIdx :=
      List.mem_zipIdx_iff_getElem?.mpr (by simp [found'])
    simpa [Ne.symm away] using all _ placed
  · rintro beats ⟨types,j⟩ placed
    obtain ⟨other,found',rfl⟩ : ∃ other, signatures[j]? = some other ∧ other.expanded? arity = types := by
      simpa using List.mem_zipIdx_iff_getElem?.mp placed
    by_cases same : i = j
    · simp [same]
    · simp [beats j other found' (Ne.symm same)]

theorem placeFilled {arity : Nat} {signatures : List Signature} {i : Nat}
    (wins : r.isMostSpecificAt (signatures.map (·.expanded? arity)) i) : ∃ s, signatures[i]? = some s := by
  cases placed : signatures[i]? with
  | none =>
    have beyond : (signatures.map (·.expanded? arity))[i]? = none := by rw [List.getElem?_map,placed]; rfl
    simp only [isMostSpecificAt,beyond,Bool.false_eq_true] at wins
  | some s => exact ⟨s,rfl⟩

theorem selectPlaces (r : Resolver) (arity : Nat) (signatures : List Signature) :
    (∃ i s, signatures[i]? = some s ∧ r.isMostSpecificAt (signatures.map (·.expanded? arity)) i ∧
      r.selectMostSpecific arity signatures = some s.method) ∨
    (∀ i, ¬r.isMostSpecificAt (signatures.map (·.expanded? arity)) i) ∧
      r.selectMostSpecific arity signatures = signatures.head?.map (·.method) := by
  unfold selectMostSpecific
  split
  · exact .inr ⟨by simp [isMostSpecificAt],rfl⟩
  · rename_i only
    refine .inl ⟨0,only,rfl,(placeWins rfl).mpr fun j other found away => ?_,rfl⟩
    simp [away] at found
  · rename_i first rest _
    dsimp only
    cases found : (first :: rest).zipIdx.find? fun e =>
        r.isMostSpecificAt ((first :: rest).map (·.expanded? arity)) e.2 with
    | some entry =>
      have placed := List.mem_zipIdx_iff_getElem?.mp (List.mem_of_find?_eq_some found)
      have wins := List.find?_some found
      exact .inl ⟨entry.2,entry.1,placed,wins,rfl⟩
    | none =>
      refine .inr ⟨fun i wins => ?_,rfl⟩
      obtain ⟨s,placed⟩ := placeFilled wins
      exact List.find?_eq_none.mp found (s,i) (List.mem_zipIdx_iff_getElem?.mpr placed) wins

variable (r) in
def Leads (arity : Nat) (signatures : List Signature) (s : Signature) : Prop :=
  s ∈ signatures ∧ ∀ other ∈ signatures, other.method ≠ s.method →
    r.isMoreSpecific (s.expanded? arity) (other.expanded? arity)

theorem Leads.unique {arity : Nat} {signatures : List Signature} {s s' : Signature}
    (leads : r.Leads arity signatures s) (leads' : r.Leads arity signatures s') : s.method = s'.method := by
  by_contra apart
  exact specificOneWay (leads.2 s' leads'.1 (Ne.symm apart)) (leads'.2 s leads.1 apart)

section

variable {arity : Nat} {signatures : List Signature} (once : (signatures.map (·.method)).Nodup)
include once

theorem samePlace {i j : Nat} {s s' : Signature} (found : signatures[i]? = some s)
    (found' : signatures[j]? = some s') : s.method = s'.method ↔ i = j := by
  have first : (signatures.map (·.method))[i]? = some s.method := by simp [found]
  have second : (signatures.map (·.method))[j]? = some s'.method := by simp [found']
  constructor
  · intro same
    obtain ⟨inside,_⟩ := List.getElem?_eq_some_iff.mp first
    exact (List.getElem?_inj inside once).mp (by rw [first,second,same])
  · rintro rfl
    rw [Option.some.inj (found.symm.trans found')]

theorem leadsAt {i : Nat} {s : Signature} (found : signatures[i]? = some s) :
    r.isMostSpecificAt (signatures.map (·.expanded? arity)) i ↔ r.Leads arity signatures s := by
  rw [placeWins found]
  constructor
  · intro beats
    refine ⟨List.mem_of_getElem? found,fun other listed apart => ?_⟩
    obtain ⟨j,found'⟩ := List.mem_iff_getElem?.mp listed
    exact beats j other found' fun same => apart ((samePlace once found' found).mpr same)
  · intro leads j other found' away
    exact leads.2 other (List.mem_of_getElem? found') fun same => away ((samePlace once found' found).mp same)

theorem selectCases (r : Resolver) (arity : Nat) :
    (∃ s, r.Leads arity signatures s ∧ r.selectMostSpecific arity signatures = some s.method) ∨
    (∀ s, ¬r.Leads arity signatures s) ∧
      r.selectMostSpecific arity signatures = signatures.head?.map (·.method) := by
  rcases selectPlaces r arity signatures with ⟨i,s,placed,wins,selected⟩ | ⟨nobody,selected⟩
  · exact .inl ⟨s,(leadsAt once placed).mp wins,selected⟩
  · refine .inr ⟨fun s leads => ?_,selected⟩
    obtain ⟨i,placed⟩ := List.mem_iff_getElem?.mp leads.1
    exact nobody i ((leadsAt once placed).mpr leads)

end

variable (r) in
def effective? (name : String) (receiver : Bindings) (arity : Nat) (m : SymbolRef) :
    Option (List ResolvedType) := (r.signature? name receiver m).bind (·.expanded? arity)

structure MostSpecific (r : Resolver) (name : String) (receiver : Bindings) (args : List ResolvedType)
    (candidates : List SymbolRef) (phase : Phase) (m : SymbolRef) : Prop where
  listed : m ∈ candidates
  applies : r.Applicable name receiver args phase m
  beats : ∀ other ∈ candidates, other ≠ m → r.Applicable name receiver args phase other →
    let arity := comparedArity args (r.matched name receiver args candidates phase) phase
    r.isMoreSpecific (r.effective? name receiver arity m) (r.effective? name receiver arity other)

section

variable {name : String} {receiver : Bindings} {args : List ResolvedType} {candidates others : List SymbolRef}
  {phase : Phase}

theorem mostSpecificIff {m : SymbolRef} : r.MostSpecific name receiver args candidates phase m ↔
    ∃ s, s.method = m ∧
      r.Leads (comparedArity args (r.matched name receiver args candidates phase) phase)
        (r.matched name receiver args candidates phase) s := by
  constructor
  · rintro ⟨listed,applies,beats⟩
    obtain ⟨s,found,fits⟩ := applicableIff.mp applies
    cases signatureMethod found
    refine ⟨s,rfl,memMatched.mpr ⟨listed,found,fits⟩,fun other inside apart => ?_⟩
    obtain ⟨listed',found',fits'⟩ := memMatched.mp inside
    simpa [effective?,found,found'] using
      beats other.method listed' apart (applicableIff.mpr ⟨other,found',fits'⟩)
  · rintro ⟨s,rfl,inside,beats⟩
    obtain ⟨listed,found,fits⟩ := memMatched.mp inside
    refine ⟨listed,applicableIff.mpr ⟨s,found,fits⟩,fun other listed' apart applies => ?_⟩
    obtain ⟨s',found',fits'⟩ := applicableIff.mp applies
    cases signatureMethod found'
    simpa [effective?,found,found'] using beats s' (memMatched.mpr ⟨listed',found',fits'⟩) apart

theorem matchedOnce (once : candidates.Nodup) (r : Resolver) (name : String) (receiver : Bindings)
    (args : List ResolvedType) (phase : Phase) :
    ((r.matched name receiver args candidates phase).map (·.method)).Nodup := by
  rw [matched,List.filter_filterMap,List.map_filterMap]
  have itself : ∀ m m', m' ∈ ((r.signature? name receiver m).filter (r.appliesIn args phase)).map
      (·.method) → m' = m := by
    intro m m' named
    obtain ⟨s,kept,rfl⟩ := Option.map_eq_some_iff.mp named
    exact signatureMethod (Option.filter_eq_some_iff.mp kept).1
  exact List.Nodup.filterMap (fun m m' n first second => (itself m n first).symm.trans (itself m' n second)) once

theorem matchedPerm (perm : others.Perm candidates) (r : Resolver) (name : String) (receiver : Bindings)
    (args : List ResolvedType) (phase : Phase) :
    (r.matched name receiver args others phase).Perm (r.matched name receiver args candidates phase) :=
  (perm.filterMap _).filter _

theorem arityPerm {signatures signatures' : List Signature} (perm : signatures.Perm signatures')
    (args : List ResolvedType) (phase : Phase) :
    comparedArity args signatures phase = comparedArity args signatures' phase := by
  cases phase with
  | strict | loose => rfl
  | variadic => rw [comparedArity,comparedArity,(perm.map _).foldl_eq]

theorem Decides.perm (decides : r.Decides name receiver args candidates phase)
    (perm : others.Perm candidates) : r.Decides name receiver args others phase := by
  obtain ⟨⟨m,listed,applies⟩,none⟩ := decides
  exact ⟨⟨m,perm.mem_iff.mpr listed,applies⟩,fun earlier inside m listed =>
    none earlier inside m (perm.mem_iff.mp listed)⟩

theorem MostSpecific.perm {m : SymbolRef} (perm : others.Perm candidates) :
    r.MostSpecific name receiver args others phase m ↔ r.MostSpecific name receiver args candidates phase m := by
  have same := arityPerm (matchedPerm perm r name receiver args phase) args phase
  constructor
  · rintro ⟨listed,applies,beats⟩
    refine ⟨perm.mem_iff.mp listed,applies,fun other listed' => ?_⟩
    rw [← same]
    exact beats other (perm.mem_iff.mpr listed')
  · rintro ⟨listed,applies,beats⟩
    refine ⟨perm.mem_iff.mpr listed,applies,fun other listed' => ?_⟩
    rw [same]
    exact beats other (perm.mem_iff.mp listed')

def FirstApplicable (r : Resolver) (name : String) (receiver : Bindings) (args : List ResolvedType)
    (candidates : List SymbolRef) (phase : Phase) (m : SymbolRef) : Prop :=
  ∃ before after, candidates = before ++ m :: after ∧ r.Applicable name receiver args phase m ∧
    ∀ earlier ∈ before, ¬r.Applicable name receiver args phase earlier

theorem headMatched {m : SymbolRef}
    (head : (r.matched name receiver args candidates phase).head?.map (·.method) = some m) :
    r.FirstApplicable name receiver args candidates phase m := by
  obtain ⟨s,first,rfl⟩ := Option.map_eq_some_iff.mp head
  obtain ⟨rest,listed⟩ := List.head?_eq_some_iff.mp first
  rw [matched,List.filter_filterMap,List.filterMap_eq_cons_iff] at listed
  obtain ⟨before,m,after,rfl,skipped,kept,_⟩ := listed
  obtain ⟨found,applies⟩ := Option.filter_eq_some_iff.mp kept
  cases signatureMethod found
  refine ⟨before,after,rfl,applicableIff.mpr ⟨s,found,applies⟩,fun earlier inside applicable => ?_⟩
  obtain ⟨s',found',applies'⟩ := applicableIff.mp applicable
  simpa [found',Option.filter,applies'] using skipped earlier inside

theorem chooseCases (once : candidates.Nodup) (decides : r.Decides name receiver args candidates phase) :
    ∃ m, r.chooseOverload name candidates args receiver = some m ∧
      (r.MostSpecific name receiver args candidates phase m ∨
        (∀ m', ¬r.MostSpecific name receiver args candidates phase m') ∧
          r.FirstApplicable name receiver args candidates phase m) := by
  rw [chooseDecided decides]
  rcases selectCases (matchedOnce once r name receiver args phase) r _ with
    ⟨s,leads,selected⟩ | ⟨nobody,selected⟩
  · exact ⟨s.method,selected,.inl (mostSpecificIff.mpr ⟨s,rfl,leads⟩)⟩
  · obtain ⟨m,chosen⟩ := Option.ne_none_iff_exists'.mp (chooseSomething decides)
    rw [chooseDecided decides] at chosen
    refine ⟨m,chosen,.inr ⟨fun m' specific => ?_,headMatched (selected.symm.trans chosen)⟩⟩
    obtain ⟨s,_,leads⟩ := mostSpecificIff.mp specific
    exact nobody s leads

theorem MostSpecific.unique {m m' : SymbolRef} (specific : r.MostSpecific name receiver args candidates phase m)
    (specific' : r.MostSpecific name receiver args candidates phase m') : m = m' := by
  obtain ⟨s,rfl,leads⟩ := mostSpecificIff.mp specific
  obtain ⟨s',rfl,leads'⟩ := mostSpecificIff.mp specific'
  exact leads.unique leads'

end

/-- At most one candidate is most specific in the phase that decides. A call chooses it in every order of the
candidates; if there is none, it chooses the first candidate in that order that applies. -/
theorem mostSpecificChosen (r : Resolver) (name : String) (receiver : Bindings) (args : List ResolvedType)
    (candidates : List SymbolRef) (once : candidates.Nodup) (phase : Phase)
    (decides : r.Decides name receiver args candidates phase) :
    (∀ m m', r.MostSpecific name receiver args candidates phase m →
      r.MostSpecific name receiver args candidates phase m' → m = m') ∧
    ∀ others, others.Perm candidates →
      (∀ m, r.MostSpecific name receiver args candidates phase m →
        r.chooseOverload name others args receiver = some m) ∧
      ((∀ m, ¬r.MostSpecific name receiver args candidates phase m) →
        ∃ m, r.FirstApplicable name receiver args others phase m ∧
          r.chooseOverload name others args receiver = some m) := by
  refine ⟨fun m m' => MostSpecific.unique,fun others perm => ?_⟩
  obtain ⟨chosen,chooses,which⟩ := chooseCases (perm.nodup_iff.mpr once) (decides.perm perm)
  simp only [MostSpecific.perm perm] at which
  constructor
  · intro m specific
    rcases which with best | ⟨nobody,_⟩
    · rw [chooses,best.unique specific]
    · exact absurd specific (nobody m)
  · intro nobody
    rcases which with best | ⟨_,first⟩
    · exact absurd best (nobody chosen)
    · exact ⟨chosen,first,chooses⟩

def plotApp : Codebase :=
  let number (type : String) : VariableDecl := { name := type, type := .simple type }
  let plot : FileDecl :=
    { path := "io/Plot.java", package := ["io"]
      types := [{ outline := { name := "Plot", kind := .type .classType }
                  members := [.method { name := "at", parameters := [number "long",number "double"] },
                    .method { name := "at", parameters := [number "double",number "long"] }] }] }
  (Codebase.putFile printerApp plot).2

theorem plotAnyOrder :
    let r : Resolver := ⟨plotApp,5⟩
    r.FirstApplicable "print" {} [.ofPrimitive .int] ([10,4,3,6,8].map printerSymbol) .loose (printerSymbol 4) ∧
    r.chooseOverload "print" ([10,4,3,6,8].map printerSymbol) [.ofPrimitive .int] {} =
      some (printerSymbol 6) ∧
    ∃ m, r.FirstApplicable "at" {} [.ofPrimitive .int,.ofPrimitive .int] ([17,14].map printerSymbol) .loose m ∧
      r.chooseOverload "at" ([17,14].map printerSymbol) [.ofPrimitive .int,.ofPrimitive .int] {} = some m := by
  refine ⟨⟨[printerSymbol 10],[3,6,8].map printerSymbol,rfl,by decide +kernel,by decide +kernel⟩,?_,?_⟩
  · have chosen := (mostSpecificChosen ⟨plotApp,5⟩ "print" {} [.ofPrimitive .int]
      ([4,6,8,10,3].map printerSymbol) (by decide) .loose (by decide +kernel)).2
    exact (chosen _ (by decide)).1 _ ⟨by decide,by decide +kernel,by decide +kernel⟩
  · have chosen := (mostSpecificChosen ⟨plotApp,5⟩ "at" {} [.ofPrimitive .int,.ofPrimitive .int]
      ([14,17].map printerSymbol) (by decide) .loose (by decide +kernel)).2
    refine (chosen _ (List.reverse_perm _)).2 ?_
    rintro m ⟨listed,_,beats⟩
    have nobody : ∀ m ∈ [14,17].map printerSymbol, ∃ other ∈ [14,17].map printerSymbol, other ≠ m ∧
        Resolver.Applicable ⟨plotApp,5⟩ "at" {} [.ofPrimitive .int,.ofPrimitive .int] .loose other ∧
        ¬Resolver.isMoreSpecific ⟨plotApp,5⟩ (Resolver.effective? ⟨plotApp,5⟩ "at" {} 2 m)
          (Resolver.effective? ⟨plotApp,5⟩ "at" {} 2 other) := by
      decide +kernel
    obtain ⟨other,listed',apart,applies,fails⟩ := nobody m listed
    exact fails (beats other listed' apart applies)

end CodeIndex.Resolver
