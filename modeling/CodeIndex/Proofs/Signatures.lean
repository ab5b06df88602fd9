import CodeIndex.Proofs.Applicability
import CodeIndex.Proofs.Chain
import CodeIndex.Proofs.Standing

/-! The signature of a method. Parameters and locals share the scope of their method, where a later one
takes the place of an earlier one of its name. A method has those of its declared parameters that keep
their place, in order and with their types, and this is what a call is matched with. -/
namespace CodeIndex

def VariableDecl.lasting (others : List VariableDecl) : List VariableDecl → List VariableDecl
  | [] => []
  | v :: rest =>
    if (rest ++ others).any (v.name = ·.name) then lasting others rest else v :: lasting others rest

def MethodDecl.lasting (decl : MethodDecl) : List VariableDecl :=
  VariableDecl.lasting decl.locals decl.parameters

theorem VariableDecl.lastingDistinct {others vs : List VariableDecl}
    (names : ((vs ++ others).map (·.name)).Nodup) : lasting others vs = vs := by
  induction vs with
  | nil => rfl
  | cons v rest ih =>
    obtain ⟨new,distinct⟩ := List.nodup_cons.mp names
    have stays : ((rest ++ others).any (v.name = ·.name)) = false := by
      refine List.any_eq_false.mpr fun w inside same => new ?_
      exact List.mem_map.mpr ⟨w,inside,(of_decide_eq_true same).symm⟩
    rw [lasting,stays,ih distinct]
    rfl

namespace Draft

theorem keptParameters (locals : List VariableDecl) (parameters : List VariableDecl) :
    (kept id (parameters.map (ofVariable .parameter) ++ locals.map (ofVariable .localVariable))).filter
      (·.kind = .value .parameter) =
      (VariableDecl.lasting locals parameters).map (ofVariable .parameter) := by
  induction parameters with
  | nil =>
    refine List.filter_eq_nil_iff.mpr fun d inside => ?_
    obtain ⟨v,_,rfl⟩ := List.mem_map.mp ((keptSublist _ _).subset inside)
    simp [ofVariable]
  | cons v rest ih =>
    have replaced : ((rest.map (ofVariable .parameter) ++ locals.map (ofVariable .localVariable)).any
        fun later => later.replaces (ofVariable .parameter v)) = (rest ++ locals).any (v.name = ·.name) := by
      rw [List.any_append,List.any_append,List.any_map,List.any_map]
      rfl
    simp only [List.map_cons,List.cons_append,kept,id,replaced,VariableDecl.lasting]
    split
    · exact ih
    · rw [List.filter_cons_of_pos (by simp [ofVariable]),ih,List.map_cons]

end Draft

namespace SymbolTable

def Takes (t : SymbolTable) (h : Handle) (vs : List VariableDecl) : Prop :=
  ∃ parameters : List (Handle × VariableDecl), parameters.map Prod.snd = vs ∧
    t.parametersOf h = parameters.map Prod.fst ∧ ∀ e ∈ parameters, t.Holds h e.1 (.ofVariable .parameter e.2)

theorem Mirrors.takes {t : SymbolTable} {p h : Handle} {decl : MethodDecl}
    (mirrors : t.Mirrors p h (MemberDecl.method decl).plan) : t.Takes h decl.lasting := by
  obtain ⟨held,entries,kept,lines,each⟩ := mirrorsIff.mp mirrors
  have method : t.Kinded h (· = .method) := by
    obtain ⟨s,live,fits⟩ := held
    exact ⟨s,live,fits.kind⟩
  have drafts : (entries.filter (·.2.draft.kind = .value .parameter)).map Prod.snd =
      decl.lasting.map fun v => .leaf (.ofVariable .parameter v) := calc
    _ = (entries.map Prod.snd).filter (·.draft.kind = .value .parameter) := List.filter_map.symm
    _ = ((Draft.kept id decl.inner).map .leaf).filter (·.draft.kind = .value .parameter) := by
      rw [kept,Draft.keptMap]
      rfl
    _ = ((Draft.kept id decl.inner).filter (·.kind = .value .parameter)).map .leaf := List.filter_map
    _ = _ := by
      rw [MethodDecl.inner,Draft.keptParameters,List.map_map]
      rfl
  obtain ⟨parameters,all,same⟩ := entriesPulled drafts
  refine ⟨parameters,all,?_,fun e inside => ?_⟩
  · rw [lines.ordered method,same,List.map_map]
    rfl
  · have listed : (e.1,Plan.leaf (.ofVariable .parameter e.2)) ∈ entries := by
      refine List.mem_of_mem_filter (p := (·.2.draft.kind = .value .parameter)) ?_
      rw [same]
      exact List.mem_map.mpr ⟨e,inside,rfl⟩
    exact (each _ listed).held

theorem Carries.method {t : SymbolTable} (c : t.Consistent) {p x : Handle} {o s : Symbol}
    {members : List MemberDecl} (carries : t.Carries p (MemberDecl.plans members))
    (owner : t.symbol? p = some o) (body : IsBody o.kind) (within : t.Within p x)
    (live : t.symbol? x = some s) (method : s.kind = .method) :
    ∃ decl, (.method decl,some x) ∈ t.standingsAll (some p) members := by
  have plain : o.kind ≠ .package := by
    rcases body with file | type
    · simp [file]
    · exact (typeKind type).1
  rcases carries.within c owner plain within live with rfl | isVariable | ⟨d,stands⟩
  · cases Option.some.inj (owner.symm.trans live)
    simp [IsBody,method,SymbolKind.isTypeDecl] at body
  · simp [method,SymbolKind.isVariable] at isVariable
  · obtain ⟨q,mirrors⟩ := carries.stands (standsMembers members) stands
    obtain ⟨s',live',fits⟩ := mirrors.held
    cases Option.some.inj (live.symm.trans live')
    cases d with
    | field decl => cases method.symm.trans fits.kind
    | method decl => exact ⟨decl,stands⟩
    | type outline inner =>
      have type : s.kind.isTypeDecl := Symbol.Matches.type fits
      simp [method,SymbolKind.isTypeDecl] at type

end SymbolTable

namespace Resolver

section

variable {r : Resolver} {c : Codebase} (inside : c ∈ r.home.chain) (receiver : Bindings)
include inside

theorem parameterTyped {h x : Handle} {v : VariableDecl}
    (held : c.table.Holds h x (.ofVariable .parameter v)) :
    r.typeOf (c.ref x) receiver = r.answers.resolve ⟨c,h,receiver,.body⟩ v.type := by
  obtain ⟨s,live,fits⟩ := held
  have body : s.body = .value .parameter v.type := by
    have bare : s.body.bare = .value .parameter v.type := (Option.some.inj fits.body).symm
    cases made : s.body <;> simp_all [Body.bare]
  simp only [typeOf,Answers.typeOf,Codebase.resolveRef inside live,body,fits.parent,bind,Option.bind_some]

theorem signatureTaken {p h : Handle} {decl : MethodDecl} (held : c.table.Holds p h (.ofMethod decl))
    {vs : List VariableDecl} (takes : c.table.Takes h vs) :
    r.signature? decl.name receiver (c.ref h) = some {
      method := c.ref h
      parameters := vs.map fun v => r.answers.resolve ⟨c,h,receiver,.body⟩ v.type
      isVariadic := decl.header.isVariadic } := by
  obtain ⟨s,live,fits⟩ := held
  obtain ⟨parameters,rfl,ordered,each⟩ := takes
  obtain ⟨handles,members,body⟩ : ∃ handles members, s.body = .method decl.header handles members := by
    have bare : s.body.bare = .method decl.header [] {} := (Option.some.inj fits.body).symm
    cases made : s.body <;> simp_all [Body.bare]
  have listed : handles = parameters.map Prod.fst := by
    rw [← ordered]
    simp [SymbolTable.parametersOf,live,body,Body.parameters]
  refine signatureIff.mpr ⟨c,s,_,_,_,Codebase.resolveRef inside live,fits.name,body,?_⟩
  rw [listed,List.map_map,List.map_map]
  congr 1
  refine List.map_congr_left fun e taken => ?_
  exact (parameterTyped inside receiver (each e taken)).symm

end

end Resolver

namespace Codebase

/-- The methods of a file that was just indexed are those it declares that nothing replaces, each with the
parameters it declares whose name no later parameter and no local of it has, in order and with their types.
Calls are matched with these. -/
theorem declaredSignatures (id : Nat) (name : String) (language : Language) (settings : Settings)
    (changes : List Change) (decl : FileDecl) (file : SymbolRef) :
    let c := run { id, name, language, settings } changes
    let c' := (c.putFile decl).2
    let methods := c'.table.standingsAll (some file.handle) decl.members
    (c.putFile decl).1 = .ok file →
    (∀ h, c'.table.Kinded h (· = .method) → c'.table.fileOf? h = some file.handle →
      ∃ m, (.method m,some h) ∈ methods) ∧
    ∀ m h, (.method m,some h) ∈ methods →
      (∃ p, c'.table.Holds p h (.ofMethod m)) ∧ c'.table.Takes h m.lasting ∧
      (((m.parameters ++ m.locals).map (·.name)).Nodup → m.lasting = m.parameters) ∧
      ∀ r : Resolver, c' ∈ r.home.chain → ∀ receiver, r.signature? m.name receiver (c'.ref h) = some {
        method := c'.ref h
        parameters := m.lasting.map fun v => r.answers.resolve ⟨c',h,receiver,.body⟩ v.type
        isVariadic := m.header.isVariadic } := by
  intro c c' methods ok
  have consistent : c.table.Consistent := runConsistent _ SymbolTable.emptyConsistent changes
  have consistent' : c'.table.Consistent := (applySteps c consistent (.putFile decl)).consistent consistent
  obtain ⟨f,put,rfl⟩ := putFileTable ok
  have indexed := (SymbolTable.putFileIndexes consistent put).indexed
  obtain ⟨o,q,live,isFile,_⟩ := indexed.entry
  constructor
  · rintro h ⟨s,held,method⟩ lies
    exact indexed.carries.method consistent' live (.inl isFile) ((consistent'.inFile live isFile).mp lies) held method
  · intro m h listed
    obtain ⟨p,mirrors⟩ := indexed.carries.stands (SymbolTable.standsMembers decl.members) listed
    have takes := mirrors.takes
    refine ⟨⟨p,mirrors.held⟩,takes,VariableDecl.lastingDistinct,fun r inside receiver => ?_⟩
    exact Resolver.signatureTaken inside receiver mirrors.held takes

def timerShort : MethodDecl where
  name := "wait"
  parameters := [{ name := "millis", type := .simple "long" }]
  locals := [{ name := "millis", type := .simple "long" }]

def timerLong : MethodDecl where
  name := "wait"
  parameters := [{ name := "millis", type := .simple "long" },{ name := "nanos", type := .simple "int" }]
  locals := [{ name := "left", type := .simple "long" }]

def timerFile : FileDecl where
  path := "time/Timer.java"
  package := ["time"]
  types := [{ outline := { name := "Timer", kind := .type .classType }
              members := [.method timerShort,.method timerLong] }]

def timerApp : Codebase := ((ledgerApp []).putFile timerFile).2

theorem timerMethods :
    (.method timerShort,some ⟨4,0⟩) ∈ timerApp.table.standingsAll (some ⟨2,0⟩) timerFile.members ∧
    (.method timerLong,some ⟨6,0⟩) ∈ timerApp.table.standingsAll (some ⟨2,0⟩) timerFile.members := by
  have type : timerApp.table.standing? ⟨2,0⟩ (.type { name := "Timer", kind := .type .classType }
      [.method timerShort,.method timerLong]) [] = some ⟨3,0⟩ := by decide +kernel
  have first : timerApp.table.standing? ⟨3,0⟩ (.method timerShort) [.method timerLong] = some ⟨4,0⟩ := by
    decide +kernel
  have second : timerApp.table.standing? ⟨3,0⟩ (.method timerLong) [] = some ⟨6,0⟩ := by decide +kernel
  simp [timerFile,FileDecl.members,SymbolTable.standingsAll,SymbolTable.standings,type,first,second]

theorem timerParameterReplaced : ((ledgerApp []).putFile timerFile).1 = .ok ⟨0,⟨2,0⟩⟩ ∧
    (.method timerShort,some ⟨4,0⟩) ∈ timerApp.table.standingsAll (some ⟨2,0⟩) timerFile.members ∧
    timerShort.parameters.length = 1 ∧ timerApp.table.parametersOf ⟨4,0⟩ = [] ∧
    Resolver.chooseOverload ⟨timerApp,5⟩ "wait" [⟨0,⟨4,0⟩⟩] [.ofPrimitive .long] {} = none :=
  ⟨by decide +kernel,timerMethods.1,rfl,by decide +kernel,by decide +kernel⟩

theorem timerSignature : timerApp.table.Takes ⟨6,0⟩ timerLong.parameters ∧
    ∃ types, Resolver.signature? ⟨timerApp,5⟩ "wait" {} (timerApp.ref ⟨6,0⟩) =
      some ⟨timerApp.ref ⟨6,0⟩,types,false⟩ := by
  have ok : ((ledgerApp []).putFile timerFile).1 = .ok ⟨0,⟨2,0⟩⟩ := by decide +kernel
  have listed := timerMethods.2
  unfold timerApp ledgerApp at listed ⊢
  unfold ledgerApp at ok
  obtain ⟨_,takes,distinct,signature⟩ :=
    (declaredSignatures 0 "app" .java default [] timerFile ⟨0,⟨2,0⟩⟩ ok).2 timerLong ⟨6,0⟩ listed
  generalize ((run _ []).putFile timerFile).2 = app at takes signature ⊢
  exact ⟨distinct (by decide) ▸ takes,_,signature ⟨app,5⟩ (chainSelf app) {}⟩

end Codebase
end CodeIndex
