import CodeIndex.Proofs.BindingOrder
import CodeIndex.Proofs.Specificity

/-! Methods that a call cannot tell apart, as a type has them that overrides what it inherits. Neither of two
such methods is more specific than the other. One more of them takes the lead from the other, if that had
it, and does not get it either; the choice then falls to the first candidate that applies. -/
namespace CodeIndex

structure Signature.Alike (s s' : Signature) : Prop where
  parameters : List.Forall₂ (Option.Rel ResolvedType.Same) s.parameters s'.parameters
  isVariadic : s.isVariadic = s'.isVariadic

section

variable {α : Type} {R : α → α → Prop}

theorem relLast {l k : List α} (each : List.Forall₂ R l k) : Option.Rel R l.getLast? k.getLast? := by
  rw [← List.head?_reverse,← List.head?_reverse]
  exact Answers.relHead (List.forall₂_reverse_iff.mpr each)

theorem relDropLast {l k : List α} (each : List.Forall₂ R l k) : List.Forall₂ R l.dropLast k.dropLast := by
  rw [List.dropLast_eq_take,List.dropLast_eq_take,each.length_eq]
  exact List.forall₂_take _ each

theorem relReplicate {a b : α} (related : R a b) (n : Nat) :
    List.Forall₂ R (List.replicate n a) (List.replicate n b) := by
  induction n with
  | zero => exact .nil
  | succ n ih => exact .cons related ih

theorem relAll {l k : List (Option α)} (each : List.Forall₂ (Option.Rel R) l k) :
    Option.Rel (List.Forall₂ R) (l.mapM id) (k.mapM id) := by
  induction each with
  | nil => exact .some .nil
  | cons first _ ih =>
    simp only [List.mapM_cons,id]
    exact Answers.relBind first fun first => Answers.relBind ih fun rest => .some (.cons first rest)

end

namespace Resolver

variable (r : Resolver)

theorem acceptsSame {assignable : ResolvedType → ResolvedType → Bool}
    (goes : ∀ (arg : ResolvedType) {p q : ResolvedType}, p.Same q → assignable arg p = assignable arg q)
    {param param' : Option ResolvedType} (same : Option.Rel ResolvedType.Same param param') (arg : ResolvedType) :
    accepts assignable param arg = accepts assignable param' arg := by
  cases same with
  | some same => exact goes arg same
  | none => rfl

theorem acceptsEachSame {assignable : ResolvedType → ResolvedType → Bool}
    (goes : ∀ (arg : ResolvedType) {p q : ResolvedType}, p.Same q → assignable arg p = assignable arg q)
    {params params' : List (Option ResolvedType)} (each : List.Forall₂ (Option.Rel ResolvedType.Same) params params')
    (args : List ResolvedType) : acceptsEach assignable params args = acceptsEach assignable params' args := by
  induction each generalizing args with
  | nil => rfl
  | cons same _ ih =>
    cases args with
    | nil => rfl
    | cons arg args =>
      have first := acceptsSame goes same arg
      have rest := ih args
      simp only [acceptsEach] at rest
      simp only [acceptsEach,List.zip_cons_cons,List.all_cons,first,rest]

theorem denotedSame {params params' : List (Option ResolvedType)}
    (each : List.Forall₂ (Option.Rel ResolvedType.Same) params params') :
    params.map (Option.map (·.denoted)) = params'.map (Option.map (·.denoted)) := by
  induction each with
  | nil => rfl
  | cons first _ ih =>
    cases first with
    | some same => simp only [List.map_cons,Option.map_some,same.denoted,ih]
    | none => simp only [List.map_cons,Option.map_none,ih]

theorem allSame {ss ss' ts ts' : List ResolvedType} (sources : List.Forall₂ ResolvedType.Same ss ss')
    (targets : List.Forall₂ ResolvedType.Same ts ts') : r.allAssignable ss ts = r.allAssignable ss' ts' := by
  induction sources generalizing ts ts' with
  | nil => rfl
  | cons source _ ih =>
    cases targets with
    | nil => rfl
    | cons target targets =>
      have rest := ih targets
      simp only [allAssignable] at rest
      simp only [allAssignable,List.zip_cons_cons,List.all_cons,r.looseSame source target,rest]

theorem specificSame {left left' right right' : Option (List ResolvedType)}
    (first : Option.Rel (List.Forall₂ ResolvedType.Same) left left')
    (second : Option.Rel (List.Forall₂ ResolvedType.Same) right right') :
    r.isMoreSpecific left right = r.isMoreSpecific left' right' := by
  cases first with
  | none => rfl
  | some first =>
    cases second with
    | none => rfl
    | some second =>
      simp only [isMoreSpecific,first.length_eq,second.length_eq,r.allSame first second,r.allSame second first]

end Resolver

namespace Signature.Alike

variable {s s' : Signature} (alike : s.Alike s')
include alike

theorem expanded (arity : Nat) :
    Option.Rel (List.Forall₂ ResolvedType.Same) (s.expanded? arity) (s'.expanded? arity) := by
  refine Answers.relBind (relAll alike.parameters) fun each => ?_
  rw [← alike.isVariadic,← each.length_eq]
  split
  · split
    · exact .some each
    · exact .none
  · refine Answers.relBind (relLast each) fun last => ?_
    have fixed := relDropLast each
    simp only [← fixed.length_eq]
    split
    · exact .none
    · exact .some (List.rel_append fixed (relReplicate (last.marked false) _))

theorem specificLeft (r : Resolver) (arity : Nat) (types : Option (List ResolvedType)) :
    r.isMoreSpecific (s.expanded? arity) types = r.isMoreSpecific (s'.expanded? arity) types :=
  r.specificSame (alike.expanded arity) (Answers.relRefl (fun _ => List.forall₂_refl _) types)

theorem specificRight (r : Resolver) (arity : Nat) (types : Option (List ResolvedType)) :
    r.isMoreSpecific types (s.expanded? arity) = r.isMoreSpecific types (s'.expanded? arity) :=
  r.specificSame (Answers.relRefl (fun _ => List.forall₂_refl _) types) (alike.expanded arity)

theorem applies (r : Resolver) (args : List ResolvedType) (phase : Phase) :
    r.appliesIn args phase s = r.appliesIn args phase s' := by
  have strictly (arg : ResolvedType) {p q : ResolvedType} (same : p.Same q) := r.strictSame (.refl arg) same
  have loosely (arg : ResolvedType) {p q : ResolvedType} (same : p.Same q) := r.looseSame (.refl arg) same
  have count := alike.parameters.length_eq
  cases phase with
  | strict =>
    simp only [Resolver.appliesIn,Resolver.appliesFixed,alike.isVariadic,count,
      Resolver.acceptsEachSame strictly alike.parameters]
  | loose =>
    simp only [Resolver.appliesIn,Resolver.appliesFixed,alike.isVariadic,count,
      Resolver.acceptsEachSame loosely alike.parameters]
  | variadic =>
    have fixed := relDropLast alike.parameters
    have last := relLast alike.parameters
    simp only [Resolver.appliesIn,Resolver.appliesVariadic,alike.isVariadic,fixed.length_eq,
      Resolver.acceptsEachSame loosely fixed]
    generalize s.parameters.getLast? = x, s'.parameters.getLast? = y at last
    cases last with
    | none => rfl
    | some last =>
      have whole := funext (Resolver.acceptsSame loosely last)
      have element := funext (Resolver.acceptsSame loosely (Answers.relMap last fun same => same.marked false))
      simp only [ResolvedType.element,whole,element]

end Signature.Alike

namespace Resolver

variable {r : Resolver}

section

variable {arity : Nat} {signatures : List Signature}

theorem placesOne {i j : Nat} (wins : r.isMostSpecificAt (signatures.map (·.expanded? arity)) i)
    (wins' : r.isMostSpecificAt (signatures.map (·.expanded? arity)) j) : i = j := by
  obtain ⟨s,found⟩ := placeFilled wins
  obtain ⟨s',found'⟩ := placeFilled wins'
  by_contra apart
  exact specificOneWay ((placeWins found).mp wins j s' found' (Ne.symm apart))
    ((placeWins found').mp wins' i s found apart)

theorem appendedWins {n : Signature} {i : Nat} {s : Signature} (found : signatures[i]? = some s) :
    r.isMostSpecificAt ((signatures ++ [n]).map (·.expanded? arity)) i ↔
      r.isMostSpecificAt (signatures.map (·.expanded? arity)) i ∧
        r.isMoreSpecific (s.expanded? arity) (n.expanded? arity) := by
  obtain ⟨within,_⟩ := List.getElem?_eq_some_iff.mp found
  have there : (signatures ++ [n])[i]? = some s := by rw [List.getElem?_append_left within,found]
  rw [placeWins found,placeWins there]
  constructor
  · intro beats
    refine ⟨fun j other placed away => ?_,beats signatures.length n (by simp) (by omega)⟩
    obtain ⟨inside,_⟩ := List.getElem?_eq_some_iff.mp placed
    exact beats j other (by rw [List.getElem?_append_left inside,placed]) away
  · intro both j other placed away
    rw [List.getElem?_append] at placed
    split at placed
    · exact both.1 j other placed away
    · cases List.mem_singleton.mp (List.mem_of_getElem? placed)
      exact both.2

variable {m n : Signature} (listed : m ∈ signatures) (alike : m.Alike n)
include listed alike

theorem appendedLoses : ¬r.isMostSpecificAt ((signatures ++ [n]).map (·.expanded? arity)) signatures.length := by
  intro wins
  obtain ⟨k,placed⟩ := List.mem_iff_getElem?.mp listed
  obtain ⟨inside,_⟩ := List.getElem?_eq_some_iff.mp placed
  have there : (signatures ++ [n])[k]? = some m := by rw [List.getElem?_append_left inside,placed]
  have beats := (placeWins (s := n) (by simp)).mp wins k m there (by omega)
  rw [alike.specificRight] at beats
  exact specificNever _ beats

theorem selectUnled (even : ∀ i s, signatures[i]? = some s →
      r.isMostSpecificAt (signatures.map (·.expanded? arity)) i → s.Alike n) :
    r.selectMostSpecific arity (signatures ++ [n]) = signatures.head?.map (·.method) := by
  have nobody : ∀ i, ¬r.isMostSpecificAt ((signatures ++ [n]).map (·.expanded? arity)) i := by
    intro i wins
    obtain ⟨s,placed⟩ := placeFilled wins
    rw [List.getElem?_append] at placed
    split at placed
    · obtain ⟨leads,beats⟩ := (appendedWins placed).mp wins
      rw [(even i s placed leads).specificLeft] at beats
      exact specificNever _ beats
    · obtain ⟨inside,_⟩ := List.getElem?_eq_some_iff.mp placed
      obtain rfl : i = signatures.length := by simp at inside; omega
      exact appendedLoses listed alike wins
  rcases selectPlaces r arity (signatures ++ [n]) with ⟨i,_,_,wins,_⟩ | ⟨_,selected⟩
  · exact absurd wins (nobody i)
  · rw [selected]
    cases signatures with
    | nil => cases listed
    | cons => rfl

theorem selectLed {i : Nat} {s : Signature} (found : signatures[i]? = some s)
    (wins : r.isMostSpecificAt (signatures.map (·.expanded? arity)) i) (other : ¬s.Alike n) :
    r.selectMostSpecific arity (signatures ++ [n]) = some s.method := by
  obtain ⟨k,placed⟩ := List.mem_iff_getElem?.mp listed
  have away : k ≠ i := by
    rintro rfl
    exact other (Option.some.inj (found.symm.trans placed) ▸ alike)
  have beats := (placeWins found).mp wins k m placed away
  rw [alike.specificRight] at beats
  have leads := (appendedWins found).mpr ⟨wins,beats⟩
  rcases selectPlaces r arity (signatures ++ [n]) with ⟨j,s',found',wins',selected⟩ | ⟨nobody,_⟩
  · obtain rfl := placesOne leads wins'
    obtain ⟨inside,_⟩ := List.getElem?_eq_some_iff.mp found
    rw [List.getElem?_append_left inside,found] at found'
    rw [selected,Option.some.inj found']
  · exact absurd leads (nobody i)

theorem selectAppended {w : SymbolRef} (selected : r.selectMostSpecific arity signatures = some w) :
    ∃ s ∈ signatures, s.method = w ∧
      (¬s.Alike n → r.selectMostSpecific arity (signatures ++ [n]) = some w) ∧
      (s.Alike n → r.selectMostSpecific arity (signatures ++ [n]) = signatures.head?.map (·.method)) := by
  rcases selectPlaces r arity signatures with ⟨i,s,placed,leads,chosen⟩ | ⟨nobody,chosen⟩
  · cases Option.some.inj (selected.symm.trans chosen)
    refine ⟨s,List.mem_of_getElem? placed,rfl,selectLed listed alike placed leads,fun even => ?_⟩
    refine selectUnled listed alike fun j other placed' leads' => ?_
    cases placesOne leads leads'
    cases Option.some.inj (placed.symm.trans placed')
    exact even
  · have unled := selectUnled listed alike fun j other _ leads => absurd leads (nobody j)
    rw [selected] at chosen
    obtain ⟨s,first,rfl⟩ := Option.map_eq_some_iff.mp chosen.symm
    exact ⟨s,List.mem_of_head? first,rfl,fun _ => unled.trans chosen.symm,fun _ => unled⟩

theorem comparedAppended (args : List ResolvedType) (phase : Phase) :
    comparedArity args (signatures ++ [n]) phase = comparedArity args signatures phase := by
  cases phase with
  | strict | loose => rfl
  | variadic =>
    have most : m.parameters.length ≤ (signatures.map (·.parameters.length)).foldl max 0 :=
      (List.max?_eq_some_iff.mp List.max?_cons').2 _ (List.mem_cons_of_mem _ (List.mem_map_of_mem listed))
    rw [alike.parameters.length_eq] at most
    simp only [comparedArity,List.map_append,List.map_cons,List.map_nil,List.foldl_append,List.foldl_cons,
      List.foldl_nil,Nat.max_eq_left most]

end

variable (r) in
def Interchangeable (name : String) (receiver : Bindings) (m n : SymbolRef) : Prop :=
  ∃ s s', r.signature? name receiver m = some s ∧ r.signature? name receiver n = some s' ∧ s.Alike s'

section

variable {name : String} {receiver : Bindings} {args : List ResolvedType} {candidates : List SymbolRef}
  {phase : Phase} {m n : SymbolRef}

theorem interchangeableOf (equal : (r.signature? name receiver m).any fun s =>
      (r.signature? name receiver n).any fun s' => s.parameters = s'.parameters ∧ s.isVariadic = s'.isVariadic) :
    r.Interchangeable name receiver m n := by
  obtain ⟨s,found,equal⟩ := (Option.any_eq_true _ _).mp equal
  obtain ⟨s',found',equal⟩ := (Option.any_eq_true _ _).mp equal
  obtain ⟨parameters,isVariadic⟩ := of_decide_eq_true equal
  refine ⟨s,s',found,found',?_,isVariadic⟩
  rw [parameters]
  exact List.forall₂_same.mpr fun param _ => Answers.relRefl ResolvedType.Same.refl param

theorem Interchangeable.denoted (same : r.Interchangeable name receiver m n) :
    (r.signature? name receiver m).map (·.parameters.map (Option.map (·.denoted))) =
      (r.signature? name receiver n).map (·.parameters.map (Option.map (·.denoted))) := by
  obtain ⟨s,s',found,found',alike⟩ := same
  rw [found,found',Option.map_some,Option.map_some,denotedSame alike.parameters]

theorem Interchangeable.applicable (same : r.Interchangeable name receiver m n) (args : List ResolvedType)
    (phase : Phase) : r.Applicable name receiver args phase m ↔ r.Applicable name receiver args phase n := by
  obtain ⟨s,s',found,found',alike⟩ := same
  have fits : r.appliesIn args phase s ↔ r.appliesIn args phase s' := by rw [alike.applies]
  simpa [applicableIff,found,found'] using fits

theorem firstMatched (first : r.FirstApplicable name receiver args candidates phase m) :
    (r.matched name receiver args candidates phase).head?.map (·.method) = some m := by
  obtain ⟨before,after,rfl,applies,none⟩ := first
  obtain ⟨s,found,fits⟩ := applicableIff.mp applies
  have skipped : r.matched name receiver args before phase = [] := matchedNil.mpr none
  rw [matched] at skipped
  simp [matched,skipped,found,fits,signatureMethod found]

theorem matchedAppended {s : Signature} (found : r.signature? name receiver n = some s) :
    r.matched name receiver args (candidates ++ [n]) phase =
      r.matched name receiver args candidates phase ++ [s].filter (r.appliesIn args phase) := by
  simp [matched,found]

variable (listed : m ∈ candidates) (same : r.Interchangeable name receiver m n)
include listed same

theorem appendedApplicable (args : List ResolvedType) (phase : Phase) :
    (∃ x ∈ candidates ++ [n], r.Applicable name receiver args phase x) ↔
      ∃ x ∈ candidates, r.Applicable name receiver args phase x := by
  constructor
  · rintro ⟨x,inside,applies⟩
    rcases List.mem_append.mp inside with old | new
    · exact ⟨x,old,applies⟩
    · cases List.mem_singleton.mp new
      exact ⟨m,listed,(same.applicable args phase).mpr applies⟩
  · rintro ⟨x,inside,applies⟩
    exact ⟨x,List.mem_append_left _ inside,applies⟩

theorem Decides.appended (decides : r.Decides name receiver args candidates phase) :
    r.Decides name receiver args (candidates ++ [n]) phase := by
  refine ⟨(appendedApplicable listed same args phase).mpr decides.some,fun earlier before x inside applies => ?_⟩
  obtain ⟨y,old,applies⟩ := (appendedApplicable listed same args earlier).mp ⟨x,inside,applies⟩
  exact decides.none earlier before y old applies

theorem chooseAppended (decides : r.Decides name receiver args candidates phase) {w : SymbolRef}
    (chosen : r.chooseOverload name candidates args receiver = some w) :
    (¬r.Interchangeable name receiver w n →
      r.chooseOverload name (candidates ++ [n]) args receiver = some w) ∧
    (r.Interchangeable name receiver w n → ∃ f, r.FirstApplicable name receiver args candidates phase f ∧
      r.chooseOverload name (candidates ++ [n]) args receiver = some f) := by
  obtain ⟨s,s',found,found',alike⟩ := same
  have decides' := decides.appended listed ⟨s,s',found,found',alike⟩
  rw [chooseDecided decides] at chosen
  rw [chooseDecided decides',matchedAppended found']
  by_cases applies : r.appliesIn args phase s'
  · have member : s ∈ r.matched name receiver args candidates phase := by
      cases signatureMethod found
      exact memMatched.mpr ⟨listed,found,(alike.applies r args phase).trans applies⟩
    rw [List.filter_cons_of_pos applies,List.filter_nil,comparedAppended member alike]
    obtain ⟨t,inside,rfl,stays,falls⟩ := selectAppended member alike chosen
    have own := (memMatched.mp inside).2.1
    refine ⟨fun other => stays fun even => other ⟨t,s',own,found',even⟩,?_⟩
    rintro ⟨u,u',own',found'',even⟩
    cases Option.some.inj (own.symm.trans own')
    cases Option.some.inj (found'.symm.trans found'')
    have first := congrArg (Option.map (·.method)) (List.head?_eq_some_head (List.ne_nil_of_mem member))
    exact ⟨_,headMatched first,(falls even).trans first⟩
  · rw [List.filter_cons_of_neg applies,List.filter_nil,List.append_nil]
    refine ⟨fun _ => chosen,fun even => ?_⟩
    obtain ⟨t,inside,rfl⟩ := selectMember chosen
    obtain ⟨_,own,fits⟩ := memMatched.mp inside
    obtain ⟨u,found'',fits⟩ := applicableIff.mp ((even.applicable args phase).mp (applicableIff.mpr ⟨t,own,fits⟩))
    cases Option.some.inj (found'.symm.trans found'')
    exact absurd fits applies

end

/-- A method is appended to the candidates that a call cannot tell from one of them. The choice stays, unless
the chosen method itself is not to be told from it and other candidates stand before it that apply; then the
first candidate that applies is chosen. -/
theorem overrideAppended (r : Resolver) (name : String) (candidates : List SymbolRef) (args : List ResolvedType)
    (receiver : Bindings) (m n : SymbolRef) (listed : m ∈ candidates)
    (same : r.Interchangeable name receiver m n) :
    ((∀ w phase, r.chooseOverload name candidates args receiver = some w →
        r.Decides name receiver args candidates phase → r.Interchangeable name receiver w n →
        r.FirstApplicable name receiver args candidates phase w) →
      r.chooseOverload name (candidates ++ [n]) args receiver =
        r.chooseOverload name candidates args receiver) ∧
    ∀ w phase, r.chooseOverload name candidates args receiver = some w →
      r.Decides name receiver args candidates phase → r.Interchangeable name receiver w n →
      ∃ f, r.FirstApplicable name receiver args candidates phase f ∧
        r.chooseOverload name (candidates ++ [n]) args receiver = some f := by
  refine ⟨fun first => ?_,fun w phase chosen decides => (chooseAppended listed same decides chosen).2⟩
  rcases decidesUnless r name receiver args candidates with ⟨phase,decides⟩ | nothing
  · obtain ⟨w,chosen⟩ := Option.ne_none_iff_exists'.mp (chooseSomething decides)
    obtain ⟨stays,falls⟩ := chooseAppended listed same decides chosen
    by_cases even : r.Interchangeable name receiver w n
    · obtain ⟨f,first',chosen'⟩ := falls even
      have heads := firstMatched first'
      rw [firstMatched (first w phase chosen decides even)] at heads
      rw [chosen,chosen',Option.some.inj heads]
    · rw [chosen,stays even]
  · rw [chooseNothing nothing,chooseNothing]
    intro phase x inside applies
    obtain ⟨y,old,applies⟩ := (appendedApplicable listed same args phase).mp ⟨x,inside,applies⟩
    exact nothing phase y old applies

def dialApp : Codebase :=
  let show_ (type : String) : MemberDecl :=
    .method { name := "show", parameters := [{ name := "value", type := .simple type }] }
  let dial : FileDecl :=
    { path := "io/Dial.java", package := ["io"]
      types := [{ outline := { name := "Gauge", kind := .type .classType }
                  members := [show_ "long",show_ "double"] },
                { outline := { name := "Dial", kind := .type .classType
                               header := { superclass := some (.simple "Gauge") } }
                  members := [show_ "double",show_ "long"] }] }
  (Codebase.putFile { id := 0, name := "app", language := .java, settings := default } dial).2

def dialSymbol (index : Nat) : SymbolRef := ⟨0,⟨index,0⟩⟩

theorem dialOverrides :
    let r : Resolver := ⟨dialApp,5⟩
    let chosen candidates := r.chooseOverload "show" (candidates.map dialSymbol) [.ofPrimitive .int] {}
    chosen [9,11,6] = chosen [9,11] ∧
    ∃ f, r.FirstApplicable "show" {} [.ofPrimitive .int] ([9,11].map dialSymbol) .loose f ∧
      chosen [9,11,4] = some f := by
  have chooses : Resolver.chooseOverload ⟨dialApp,5⟩ "show" ([9,11].map dialSymbol) [.ofPrimitive .int] {} =
      some (dialSymbol 11) := by decide +kernel
  constructor
  · refine (overrideAppended ⟨dialApp,5⟩ "show" ([9,11].map dialSymbol) [.ofPrimitive .int] {} (dialSymbol 9)
      (dialSymbol 6) (by decide) (interchangeableOf (by decide +kernel))).1 fun w phase chosen _ same => ?_
    cases Option.some.inj (chooses.symm.trans chosen)
    exact absurd same.denoted (by decide +kernel)
  · exact (overrideAppended ⟨dialApp,5⟩ "show" ([9,11].map dialSymbol) [.ofPrimitive .int] {} (dialSymbol 11)
      (dialSymbol 4) (by decide) (interchangeableOf (by decide +kernel))).2 _ .loose chooses (by decide +kernel)
      (interchangeableOf (by decide +kernel))

theorem dialDisturbed :
    let r : Resolver := ⟨dialApp,5⟩
    let chosen candidates := r.chooseOverload "show" (candidates.map dialSymbol) [.ofPrimitive .int] {}
    (r.allMembers (.ofSymbol (dialSymbol 8)) "show").map Prod.fst = [9,11,4,6].map dialSymbol ∧
    r.Interchangeable "show" {} (dialSymbol 11) (dialSymbol 4) ∧
    chosen [9,11] = some (dialSymbol 11) ∧ chosen [9,11,4] = some (dialSymbol 9) :=
  ⟨by decide +kernel,interchangeableOf (by decide +kernel),by decide +kernel,by decide +kernel⟩

end Resolver
end CodeIndex
