import CodeIndex.Proofs.Applicability
import CodeIndex.Proofs.Placement

/-! The parameters of a chosen method. An argument goes only to a parameter whose type resolves, so every
parameter that takes one resolves. What is left is a last parameter for any number of arguments that gets none:
nothing asks for its type. -/
namespace CodeIndex.Resolver

variable {r : Resolver}

theorem goesResolved {assignable : ResolvedType → ResolvedType → Bool} {args : List ResolvedType}
    {params : List (Option ResolvedType)} (each : List.Forall₂ (Goes assignable) args params) :
    ∀ param ∈ params, param.isSome := by
  induction each with
  | nil => simp
  | cons goes _ ih =>
    obtain ⟨t,rfl,_⟩ := goes
    intro param inside
    rcases List.mem_cons.mp inside with rfl | later
    · rfl
    · exact ih param later

theorem Trails.resolved {last : Option ResolvedType} {trailing : List ResolvedType}
    (trails : r.Trails last trailing) (some : trailing ≠ []) : last.isSome := by
  rcases trails with none | ⟨arg,_,t,rfl,_⟩ | each
  · exact absurd none some
  · rfl
  · obtain ⟨arg,rest,rfl⟩ := List.exists_cons_of_ne_nil some
    obtain ⟨t,element,_⟩ := each arg List.mem_cons_self
    obtain ⟨array,rfl,_⟩ := Option.map_eq_some_iff.mp element
    rfl

theorem Fits.resolved {args : List ResolvedType} {params : List (Option ResolvedType)} {isVariadic : Bool}
    {phase : Phase} (fits : r.Fits args params isVariadic phase) {i : Nat} {param : Option ResolvedType}
    (placed : params[i]? = some param) :
    param.isSome ∨ isVariadic = true ∧ i + 1 = params.length ∧ args.length = i := by
  cases phase with
  | strict => exact .inl (goesResolved fits.2 param (List.mem_of_getElem? placed))
  | loose => exact .inl (goesResolved fits.2 param (List.mem_of_getElem? placed))
  | variadic =>
    obtain ⟨variadic,fixed,last,leading,trailing,rfl,rfl,each,trails⟩ := fits
    rw [List.getElem?_append] at placed
    split at placed
    · exact .inl (goesResolved each param (List.mem_of_getElem? placed))
    · obtain ⟨inside,_⟩ := List.getElem?_eq_some_iff.mp placed
      cases List.mem_singleton.mp (List.mem_of_getElem? placed)
      by_cases none : trailing = []
      · have count := each.length_eq
        simp only [List.length_append,List.length_singleton,none,List.length_nil] at inside ⊢
        exact .inr ⟨variadic,by omega,by omega⟩
      · exact .inl (trails.resolved none)

/-- Every parameter of a chosen method has a type that resolves, but for the last one of a method that takes any
number of arguments there, when the call has none for it. -/
theorem chosenResolves (r : Resolver) (name : String) (candidates : List SymbolRef) (args : List ResolvedType)
    (receiver : Bindings) (m : SymbolRef) (chosen : r.chooseOverload name candidates args receiver = some m) :
    ∃ codebase s header parameters members, r.home.resolve? m = some (codebase,s) ∧
      s.body = .method header parameters members ∧
      ∀ i p, parameters[i]? = some p → (r.typeOf (codebase.ref p) receiver).isSome ∨
        header.isVariadic = true ∧ i + 1 = parameters.length ∧ args.length = i := by
  rcases decidesUnless r name receiver args candidates with ⟨phase,decides⟩ | nothing
  · rw [chooseDecided decides] at chosen
    obtain ⟨sig,inside,rfl⟩ := selectMember chosen
    obtain ⟨_,found,applies⟩ := memMatched.mp inside
    obtain ⟨codebase,s,header,parameters,members,resolved,_,body,fits⟩ :=
      applicableIff.mpr ⟨sig,found,applies⟩
    refine ⟨codebase,s,header,parameters,members,resolved,body,fun i p placed => ?_⟩
    have typed : (parameters.map fun p => r.typeOf (codebase.ref p) receiver)[i]? =
        some (r.typeOf (codebase.ref p) receiver) := by
      rw [List.getElem?_map,placed]
      rfl
    simpa using fits.resolved typed
  · rw [chooseNothing nothing] at chosen
    contradiction

def logApp : Codebase :=
  let log : FileDecl :=
    { path := "io/Log.java", package := ["io"]
      types := [{ outline := { name := "Log", kind := .type .classType }
                  members := [.method { name := "log", parameters := [{ name := "level", type := .simple "long" }] },
                    .method (MethodDecl.withVariadic { name := "log" } "values" (.simple "Missing"))] }] }
  (Codebase.putFile { id := 0, name := "app", language := .java, settings := default } log).2

theorem logLevelResolves :
    let r : Resolver := ⟨logApp,5⟩
    r.chooseOverload "log" [⟨0,⟨6,0⟩⟩,⟨0,⟨4,0⟩⟩] [.ofPrimitive .int] {} = some ⟨0,⟨4,0⟩⟩ ∧
    ∃ codebase s header parameters members, r.home.resolve? ⟨0,⟨4,0⟩⟩ = some (codebase,s) ∧
      s.body = .method header parameters members ∧
      ∀ i p, parameters[i]? = some p → (r.typeOf (codebase.ref p) {}).isSome ∨
        header.isVariadic = true ∧ i + 1 = parameters.length ∧ [ResolvedType.ofPrimitive .int].length = i := by
  have chosen : Resolver.chooseOverload ⟨logApp,5⟩ "log" [⟨0,⟨6,0⟩⟩,⟨0,⟨4,0⟩⟩] [.ofPrimitive .int] {} =
      some ⟨0,⟨4,0⟩⟩ := by decide +kernel
  exact ⟨chosen,chosenResolves ⟨logApp,5⟩ "log" _ _ {} _ chosen⟩

theorem logMissingChosen :
    Resolver.chooseOverload ⟨logApp,5⟩ "log" [⟨0,⟨6,0⟩⟩,⟨0,⟨4,0⟩⟩] [] {} = some ⟨0,⟨6,0⟩⟩ ∧
    logApp.table.parametersOf ⟨6,0⟩ = [⟨7,0⟩] ∧ (Resolver.typeOf ⟨logApp,5⟩ ⟨0,⟨7,0⟩⟩ {}).isNone := by
  decide +kernel

end CodeIndex.Resolver
