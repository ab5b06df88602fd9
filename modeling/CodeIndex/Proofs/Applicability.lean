import CodeIndex.Overload
import Mathlib.Data.List.Forall2

/-! When a method applies to a call, and what the choice among methods depends on. The first phase in which
some candidate applies decides. The choice is one of the candidates that apply in that phase, and those that
do not apply in it have no say, wherever they stand. -/
namespace CodeIndex

inductive Phase where
  | strict
  | loose
  | variadic
  deriving DecidableEq

def Phase.earlier : Phase → List Phase
  | .strict => []
  | .loose => [.strict]
  | .variadic => [.strict,.loose]

namespace Resolver

variable (r : Resolver)

def Goes (assignable : ResolvedType → ResolvedType → Bool) (arg : ResolvedType)
    (param : Option ResolvedType) : Prop := ∃ t, param = some t ∧ assignable arg t

def Trails (last : Option ResolvedType) (trailing : List ResolvedType) : Prop :=
  trailing = [] ∨ (∃ arg, trailing = [arg] ∧ Goes r.isLooselyAssignable arg last) ∨
    ∀ arg ∈ trailing, Goes r.isLooselyAssignable arg (last.map (·.element))

def Fits (args : List ResolvedType) (params : List (Option ResolvedType)) (isVariadic : Bool) : Phase → Prop
  | .strict => isVariadic = false ∧ List.Forall₂ (Goes r.isStrictlyAssignable) args params
  | .loose => isVariadic = false ∧ List.Forall₂ (Goes r.isLooselyAssignable) args params
  | .variadic => isVariadic = true ∧ ∃ fixed last leading trailing, params = fixed ++ [last] ∧
      args = leading ++ trailing ∧ List.Forall₂ (Goes r.isLooselyAssignable) leading fixed ∧
      r.Trails last trailing

def Applicable (name : String) (receiver : Bindings) (args : List ResolvedType) (phase : Phase)
    (m : SymbolRef) : Prop :=
  ∃ codebase s header parameters members, r.home.resolve? m = some (codebase,s) ∧ s.name = name ∧
    s.body = .method header parameters members ∧
    r.Fits args (parameters.map fun p => r.typeOf (codebase.ref p) receiver) header.isVariadic phase

structure Decides (name : String) (receiver : Bindings) (args : List ResolvedType)
    (candidates : List SymbolRef) (phase : Phase) : Prop where
  some : ∃ m ∈ candidates, r.Applicable name receiver args phase m
  none : ∀ earlier ∈ phase.earlier, ∀ m ∈ candidates, ¬r.Applicable name receiver args earlier m

/-- The second list is the first one with idle entries put in and left out, anywhere. -/
inductive Padded (idle : α → Prop) : List α → List α → Prop where
  | nil : Padded idle [] []
  | keep {as bs} (a : α) (rest : Padded idle as bs) : Padded idle (a :: as) (a :: bs)
  | put {as bs b} (out : idle b) (rest : Padded idle as bs) : Padded idle as (b :: bs)
  | leave {as bs a} (out : idle a) (rest : Padded idle as bs) : Padded idle (a :: as) bs

theorem Padded.filtered {idle : α → Prop} {as bs : List α} (padded : Padded idle as bs) (f : α → Option β)
    (nothing : ∀ a, idle a → f a = none) : bs.filterMap f = as.filterMap f := by
  induction padded with
  | nil => rfl
  | keep a rest ih => rw [List.filterMap_cons,List.filterMap_cons,ih]
  | put out rest ih => rw [List.filterMap_cons_none (nothing _ out),ih]
  | leave out rest ih => rw [List.filterMap_cons_none (nothing _ out),ih]

theorem acceptsIff {assignable : ResolvedType → ResolvedType → Bool} {param : Option ResolvedType}
    {arg : ResolvedType} : accepts assignable param arg ↔ Goes assignable arg param := by
  cases param <;> simp [accepts,Goes]

theorem acceptsEachIff {assignable : ResolvedType → ResolvedType → Bool}
    {params : List (Option ResolvedType)} {args : List ResolvedType} :
    params.length = args.length ∧ acceptsEach assignable params args ↔
      List.Forall₂ (Goes assignable) args params := by
  induction params generalizing args with
  | nil => cases args <;> simp [acceptsEach]
  | cons param params ih =>
    cases args with
    | nil => simp
    | cons arg args =>
      have rest := @ih args
      simp only [acceptsEach,List.zip_cons_cons,List.all_cons,Bool.and_eq_true,List.length_cons,
        Nat.add_right_cancel_iff,List.forall₂_cons,acceptsIff] at rest ⊢
      rw [← rest]
      exact and_left_comm

theorem acceptsEachTake {assignable : ResolvedType → ResolvedType → Bool}
    (params : List (Option ResolvedType)) (args : List ResolvedType) :
    acceptsEach assignable params args = acceptsEach assignable params (args.take params.length) := by
  unfold acceptsEach
  congr 1
  induction params generalizing args with
  | nil => rfl
  | cons param params ih =>
    cases args with
    | nil => rfl
    | cons arg args => rw [List.zip_cons_cons,ih,List.length_cons,List.take_succ_cons,List.zip_cons_cons]

def appliesIn (args : List ResolvedType) : Phase → Signature → Bool
  | .strict => appliesFixed r.isStrictlyAssignable args
  | .loose => appliesFixed r.isLooselyAssignable args
  | .variadic => r.appliesVariadic args

variable {r}

theorem fixedIff {assignable : ResolvedType → ResolvedType → Bool} {args : List ResolvedType}
    {s : Signature} : appliesFixed assignable args s ↔
      s.isVariadic = false ∧ List.Forall₂ (Goes assignable) args s.parameters := by
  simp [appliesFixed,← acceptsEachIff,and_assoc]

theorem trailsIff {last : Option ResolvedType} {trailing : List ResolvedType} :
    (trailing.isEmpty ||
      (match trailing with
        | [only] => accepts r.isLooselyAssignable last only
        | _ => false) ||
      trailing.all (accepts r.isLooselyAssignable (last.map (·.element)))) ↔ r.Trails last trailing := by
  match trailing with
  | [] => simp [Trails]
  | [only] => simp [Trails,acceptsIff]
  | first :: second :: rest => simp [Trails,acceptsIff]

theorem variadicIff {args : List ResolvedType} {s : Signature} : r.appliesVariadic args s ↔
    s.isVariadic = true ∧ ∃ fixed last leading trailing, s.parameters = fixed ++ [last] ∧
      args = leading ++ trailing ∧ List.Forall₂ (Goes r.isLooselyAssignable) leading fixed ∧
      r.Trails last trailing := by
  rw [appliesVariadic,Bool.and_eq_true]
  refine and_congr_right fun _ => ?_
  constructor
  · intro applies
    split at applies
    · contradiction
    · rename_i last found
      obtain ⟨fixed,split⟩ := List.getLast?_eq_some_iff.mp found
      rw [split,List.dropLast_concat,Bool.and_eq_true,Bool.and_eq_true,acceptsEachTake] at applies
      obtain ⟨⟨enough,each⟩,trails⟩ := applies
      have count := (List.length_take_of_le (of_decide_eq_true enough)).symm
      exact ⟨fixed,last,_,_,split,(List.take_append_drop fixed.length args).symm,
        acceptsEachIff.mp ⟨count,each⟩,trailsIff.mp trails⟩
  · rintro ⟨fixed,last,leading,trailing,split,rfl,each,trails⟩
    obtain ⟨count,each⟩ := acceptsEachIff.mpr each
    simp only [split,List.getLast?_concat,List.dropLast_concat]
    rw [Bool.and_eq_true,Bool.and_eq_true,acceptsEachTake,count,List.take_left,List.drop_left,
      List.length_append]
    exact ⟨⟨decide_eq_true (Nat.le_add_right _ _),each⟩,trailsIff.mpr trails⟩

theorem fitsIff {args : List ResolvedType} {phase : Phase} {s : Signature} :
    r.appliesIn args phase s ↔ r.Fits args s.parameters s.isVariadic phase := by
  cases phase with
  | strict => exact fixedIff
  | loose => exact fixedIff
  | variadic => exact variadicIff

theorem signatureIff {name : String} {receiver : Bindings} {m : SymbolRef} {sig : Signature} :
    r.signature? name receiver m = some sig ↔ ∃ codebase s header parameters members,
      r.home.resolve? m = some (codebase,s) ∧ s.name = name ∧ s.body = .method header parameters members ∧
      sig = ⟨m,parameters.map fun p => r.typeOf (codebase.ref p) receiver,header.isVariadic⟩ := by
  constructor
  · intro found
    obtain ⟨⟨codebase,s⟩,resolved,found⟩ := Option.bind_eq_some_iff.mp found
    dsimp only at found
    split at found
    · rename_i header parameters members body
      split at found
      · rename_i named
        exact ⟨codebase,s,header,parameters,members,resolved,named,body,(Option.some.inj found).symm⟩
      · contradiction
    · contradiction
  · rintro ⟨codebase,s,header,parameters,members,resolved,named,body,rfl⟩
    simp [signature?,resolved,body,named]

theorem applicableIff {name : String} {receiver : Bindings} {args : List ResolvedType} {phase : Phase}
    {m : SymbolRef} : r.Applicable name receiver args phase m ↔
      ∃ sig, r.signature? name receiver m = some sig ∧ r.appliesIn args phase sig := by
  constructor
  · rintro ⟨codebase,s,header,parameters,members,resolved,named,body,fits⟩
    exact ⟨_,signatureIff.mpr ⟨codebase,s,header,parameters,members,resolved,named,body,rfl⟩,fitsIff.mpr fits⟩
  · rintro ⟨sig,found,applies⟩
    obtain ⟨codebase,s,header,parameters,members,resolved,named,body,rfl⟩ := signatureIff.mp found
    exact ⟨codebase,s,header,parameters,members,resolved,named,body,fitsIff.mp applies⟩

instance {name : String} {receiver : Bindings} {args : List ResolvedType} {phase : Phase} {m : SymbolRef} :
    Decidable (r.Applicable name receiver args phase m) :=
  decidable_of_iff ((r.signature? name receiver m).any (r.appliesIn args phase))
    ((Option.any_eq_true _ _).trans applicableIff.symm)

instance {name : String} {receiver : Bindings} {args : List ResolvedType} {candidates : List SymbolRef}
    {phase : Phase} : Decidable (r.Decides name receiver args candidates phase) :=
  decidable_of_iff (_ ∧ _) ⟨fun both => ⟨both.1,both.2⟩,fun decides => ⟨decides.some,decides.none⟩⟩

variable (r) in
def matched (name : String) (receiver : Bindings) (args : List ResolvedType) (candidates : List SymbolRef)
    (phase : Phase) : List Signature :=
  (candidates.filterMap (r.signature? name receiver)).filter (r.appliesIn args phase)

def comparedArity (args : List ResolvedType) (signatures : List Signature) : Phase → Nat
  | .variadic => max ((signatures.map (·.parameters.length)).foldl max 0) args.length
  | _ => args.length

theorem selectNone {arity : Nat} {signatures : List Signature} :
    r.selectMostSpecific arity signatures = none ↔ signatures = [] := by
  unfold selectMostSpecific
  split
  · simp
  · simp
  · dsimp only
    split <;> simp

theorem selectMember {arity : Nat} {signatures : List Signature} {m : SymbolRef}
    (selected : r.selectMostSpecific arity signatures = some m) : ∃ s ∈ signatures, s.method = m := by
  unfold selectMostSpecific at selected
  split at selected
  · contradiction
  · exact ⟨_,List.mem_singleton_self _,Option.some.inj selected⟩
  · dsimp only at selected
    split at selected
    · rename_i winner i found
      have listed := List.mem_of_find?_eq_some found
      exact ⟨winner,(List.mem_zipIdx' listed).2 ▸ List.getElem_mem _,Option.some.inj selected⟩
    · exact ⟨_,List.mem_cons_self,Option.some.inj selected⟩

section

variable {name : String} {receiver : Bindings} {args : List ResolvedType} {candidates : List SymbolRef}
  {phase : Phase}

theorem signatureMethod {m : SymbolRef} {s : Signature} (found : r.signature? name receiver m = some s) :
    s.method = m := by
  obtain ⟨_,_,_,_,_,_,_,_,rfl⟩ := signatureIff.mp found
  rfl

theorem memMatched {s : Signature} : s ∈ r.matched name receiver args candidates phase ↔
    s.method ∈ candidates ∧ r.signature? name receiver s.method = some s ∧ r.appliesIn args phase s := by
  rw [matched,List.mem_filter,List.mem_filterMap]
  constructor
  · rintro ⟨⟨m,listed,found⟩,applies⟩
    cases signatureMethod found
    exact ⟨listed,found,applies⟩
  · rintro ⟨listed,found,applies⟩
    exact ⟨⟨_,listed,found⟩,applies⟩

theorem matchedNil : r.matched name receiver args candidates phase = [] ↔
    ∀ m ∈ candidates, ¬r.Applicable name receiver args phase m := by
  rw [List.eq_nil_iff_forall_not_mem]
  constructor
  · intro none m listed applicable
    obtain ⟨s,found,applies⟩ := applicableIff.mp applicable
    cases signatureMethod found
    exact none s (memMatched.mpr ⟨listed,found,applies⟩)
  · intro none s inside
    obtain ⟨listed,found,applies⟩ := memMatched.mp inside
    exact none _ listed (applicableIff.mpr ⟨s,found,applies⟩)

theorem matchedPadded {others : List SymbolRef}
    (padded : Padded (¬r.Applicable name receiver args phase ·) candidates others) :
    r.matched name receiver args others phase = r.matched name receiver args candidates phase := by
  simp only [matched,List.filter_filterMap]
  refine padded.filtered _ fun m idle => ?_
  cases found : r.signature? name receiver m with
  | none => rfl
  | some s =>
    have fails : ¬r.appliesIn args phase s := fun applies => idle (applicableIff.mpr ⟨s,found,applies⟩)
    simp [Option.filter,fails]

theorem choosePhases (r : Resolver) (name : String) (receiver : Bindings) (args : List ResolvedType)
    (candidates : List SymbolRef) : r.chooseOverload name candidates args receiver =
      let matched := r.matched name receiver args candidates
      let select phase := r.selectMostSpecific (comparedArity args (matched phase) phase) (matched phase)
      if !(matched .strict).isEmpty then select .strict
      else if !(matched .loose).isEmpty then select .loose
      else select .variadic := rfl

theorem chooseDecided (decides : r.Decides name receiver args candidates phase) :
    r.chooseOverload name candidates args receiver =
      r.selectMostSpecific (comparedArity args (r.matched name receiver args candidates phase) phase)
        (r.matched name receiver args candidates phase) := by
  obtain ⟨⟨m,listed,applicable⟩,before⟩ := decides
  have here : r.matched name receiver args candidates phase ≠ [] :=
    fun none => matchedNil.mp none m listed applicable
  rw [choosePhases]
  cases phase with
  | strict => simp [here]
  | loose =>
    have strict := matchedNil.mpr (before .strict (by simp [Phase.earlier]))
    simp [here,strict]
  | variadic =>
    have strict := matchedNil.mpr (before .strict (by simp [Phase.earlier]))
    have loose := matchedNil.mpr (before .loose (by simp [Phase.earlier]))
    simp [strict,loose]

theorem decidesUnless (r : Resolver) (name : String) (receiver : Bindings) (args : List ResolvedType)
    (candidates : List SymbolRef) : (∃ phase, r.Decides name receiver args candidates phase) ∨
      ∀ phase, ∀ m ∈ candidates, ¬r.Applicable name receiver args phase m := by
  by_cases strict : ∃ m ∈ candidates, r.Applicable name receiver args .strict m
  · exact .inl ⟨.strict,strict,by simp [Phase.earlier]⟩
  by_cases loose : ∃ m ∈ candidates, r.Applicable name receiver args .loose m
  · exact .inl ⟨.loose,loose,by simpa [Phase.earlier] using strict⟩
  by_cases variadic : ∃ m ∈ candidates, r.Applicable name receiver args .variadic m
  · exact .inl ⟨.variadic,variadic,by simpa [Phase.earlier] using And.intro strict loose⟩
  push Not at strict loose variadic
  refine .inr fun phase => ?_
  cases phase with
  | strict => exact strict
  | loose => exact loose
  | variadic => exact variadic

theorem chooseNothing (none : ∀ phase, ∀ m ∈ candidates, ¬r.Applicable name receiver args phase m) :
    r.chooseOverload name candidates args receiver = Option.none := by
  rw [choosePhases]
  simp [matchedNil.mpr (none _),selectNone]

theorem chooseSomething (decides : r.Decides name receiver args candidates phase) :
    r.chooseOverload name candidates args receiver ≠ none := by
  rw [chooseDecided decides,Ne,selectNone,matchedNil]
  intro nothing
  obtain ⟨m,listed,applicable⟩ := decides.some
  exact nothing m listed applicable

theorem Decides.padded {others : List SymbolRef} (decides : r.Decides name receiver args candidates phase)
    (padded : Padded (¬r.Applicable name receiver args phase ·) candidates others)
    (none : ∀ earlier ∈ phase.earlier, ∀ m ∈ others, ¬r.Applicable name receiver args earlier m) :
    r.Decides name receiver args others phase := by
  refine ⟨?_,none⟩
  by_contra nothing
  have empty := matchedNil.mpr fun m listed applicable => nothing ⟨m,listed,applicable⟩
  rw [matchedPadded padded] at empty
  obtain ⟨m,listed,applicable⟩ := decides.some
  exact matchedNil.mp empty m listed applicable

end

/-- A call chooses nothing only if no candidate applies in any phase, and otherwise a candidate that applies in
the first phase in which one does. Candidates that do not apply in that phase may be put in and left out
anywhere, as long as none applies in an earlier one. -/
theorem choosesApplicable (r : Resolver) (name : String) (candidates : List SymbolRef)
    (args : List ResolvedType) (receiver : Bindings) :
    (r.chooseOverload name candidates args receiver = none ↔
      ∀ phase, ∀ m ∈ candidates, ¬r.Applicable name receiver args phase m) ∧
    (∀ m, r.chooseOverload name candidates args receiver = some m →
      ∃ phase, r.Decides name receiver args candidates phase ∧ m ∈ candidates ∧
        r.Applicable name receiver args phase m) ∧
    ∀ phase others, r.Decides name receiver args candidates phase →
      Padded (¬r.Applicable name receiver args phase ·) candidates others →
      (∀ earlier ∈ phase.earlier, ∀ m ∈ others, ¬r.Applicable name receiver args earlier m) →
      r.chooseOverload name others args receiver = r.chooseOverload name candidates args receiver := by
  refine ⟨⟨fun nothing => ?_,chooseNothing⟩,fun m chosen => ?_,fun phase others decides padded none => ?_⟩
  · refine (decidesUnless r name receiver args candidates).resolve_left ?_
    rintro ⟨phase,decides⟩
    exact chooseSomething decides nothing
  · rcases decidesUnless r name receiver args candidates with ⟨phase,decides⟩ | nothing
    · rw [chooseDecided decides] at chosen
      obtain ⟨s,inside,rfl⟩ := selectMember chosen
      obtain ⟨listed,found,applies⟩ := memMatched.mp inside
      exact ⟨phase,decides,listed,applicableIff.mpr ⟨s,found,applies⟩⟩
    · rw [chooseNothing nothing] at chosen
      contradiction
  · rw [chooseDecided decides,chooseDecided (decides.padded padded none),matchedPadded padded]

def printerApp : Codebase :=
  let print (type : String) : MethodDecl :=
    { name := "print", parameters := [{ name := "value", type := .simple type }] }
  let printer : FileDecl :=
    { path := "io/Printer.java", package := ["io"]
      types := [{ outline := { name := "Printer", kind := .type .classType }
                  members := [.method (print "double"),.method (print "long"),.method (print "Missing"),
                    .method (MethodDecl.withVariadic { name := "print" } "values" (.simple "int"))] }] }
  (Codebase.putFile { id := 0, name := "app", language := .java, settings := default } printer).2

def printerSymbol (index : Nat) : SymbolRef := ⟨0,⟨index,0⟩⟩

theorem printerUndisturbed :
    let r : Resolver := ⟨printerApp,5⟩
    r.chooseOverload "print" ([10,4,8,6,3].map printerSymbol) [.ofPrimitive .int] {} =
      r.chooseOverload "print" ([4,6].map printerSymbol) [.ofPrimitive .int] {} ∧
    r.chooseOverload "print" ([4,6].map printerSymbol) [.ofPrimitive .int] {} = some (printerSymbol 6) := by
  constructor
  · refine (choosesApplicable ⟨printerApp,5⟩ "print" _ _ {}).2.2 .loose _ (by decide +kernel) ?_
      (by decide +kernel)
    exact .put (by decide +kernel) (.keep _ (.put (by decide +kernel) (.keep _ (.put (by decide +kernel) .nil))))
  · decide +kernel

end Resolver
end CodeIndex
