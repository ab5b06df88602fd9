import CodeIndex.Proofs.BreadthFirst
import CodeIndex.Proofs.Offers
import CodeIndex.Proofs.WellFormed

/-! Members and the hierarchy they are inherited in. The walk over members and the walk over ancestors start at
different places, and only the one over members stops at classes from outside the chain. Unless an array of such
a class is among the ancestors, they come to the same types in the same order. -/
namespace CodeIndex

namespace Codebase

variable (home : Codebase)

def ownMembers (t : ResolvedType) : List (SymbolRef × Bindings) :=
  match t.class?, Answers.declaringCodebase? home t with
  | some c, some d => (d.table.membersOf c.handle).handles.map fun h => (d.ref h,t.bindings)
  | _, _ => []

def named (name : String) (member : SymbolRef × Bindings) : Bool :=
  (home.resolve? member.1).any (·.2.name = name)

end Codebase

namespace SymbolTable

theorem Consistent.membersNamed {t : SymbolTable} (c : t.Consistent) (p : Handle) (name : String) :
    (t.membersOf p).handles.filter (fun h => (t.symbol? h).any (·.name = name)) = t.declared p name := by
  rw [c.filterMember p fun h s live accepted => by simpa [live] using accepted]
  refine List.filter_eq_self.mpr fun h listed => ?_
  obtain ⟨s,live,same⟩ := c.declaredName listed
  simp [live,same]

end SymbolTable

namespace Answers

variable {home : Codebase} (below : Answers)

theorem declaringFound {t : ResolvedType} {c : SymbolRef} {d : Codebase} {s : Symbol}
    (denotes : t.class? = some c) (found : home.resolve? c = some (d,s)) : declaringCodebase? home t = some d := by
  obtain ⟨inside,same,_⟩ := Codebase.resolveChain.mp found
  simp only [declaringCodebase?,denotes,bind,Option.bind_some]
  rw [same]
  exact Codebase.memberChain inside

section

variable (reached : home.Reached)
include reached

theorem namedOwn {d : Codebase} (inside : d ∈ home.chain) (h : Handle) (name : String) (bindings : Bindings) :
    ((d.table.membersOf h).handles.map fun m => (d.ref m,bindings)).filter (home.named name) =
      (d.table.declared h name).map fun m => (d.ref m,bindings) := by
  have same : ∀ m, home.named name (d.ref m,bindings) = (d.table.symbol? m).any (·.name = name) := by
    intro m
    rw [Codebase.named,Completion.resolveOwn inside]
    cases d.table.symbol? m <;> rfl
  rw [List.filter_map,← (reached.chain inside).membersNamed h name]
  exact congrArg (List.map _) (List.filter_congr fun m _ => same m)

theorem declaredNamed (name : String) (t : ResolvedType) : declaredMembers home name (fun _ => true) t =
    (home.ownMembers t).filter (home.named name) := by
  unfold declaredMembers Codebase.ownMembers
  cases denotes : t.class? with
  | none => rfl
  | some c =>
    cases declaring : declaringCodebase? home t with
    | none => rfl
    | some d =>
      have inside := declaringChain declaring
      simp only [namedOwn reached inside]
      refine congrArg (List.map _) (List.filter_eq_self.mpr fun h listed => ?_)
      obtain ⟨s,live,_⟩ := (reached.chain inside).declaredName listed
      simp [live]

theorem allNamed (t : ResolvedType) (name : String) : allMembers home below t name =
    (membersOf home below t).filter (home.named name) := by
  unfold allMembers membersOf
  rw [List.filter_flatMap]
  refine List.flatMap_congr fun level _ => ?_
  cases denotes : level.class? with
  | none => rfl
  | some c =>
    cases declaring : declaringCodebase? home level with
    | none => rfl
    | some d => simp only [namedOwn reached (declaringChain declaring)]

end
end Answers

namespace Resolver

variable {r : Resolver}

theorem foreignSupertypes {t : ResolvedType} {c : SymbolRef} (denotes : t.class? = some c)
    (flat : t.isArray = false) (foreign : Answers.declaringCodebase? r.home t = none) : r.supertypes t = [] := by
  refine List.eq_nil_iff_forall_not_mem.mpr fun u above => ?_
  obtain ⟨d,s,found,_⟩ := supertypeCases denotes flat above
  cases foreign.symm.trans (Answers.declaringFound denotes found)

variable (distinct : r.home.Distinct) {t : ResolvedType} (class_ : t.class?.isSome) (flat : t.isArray = false)
include distinct class_ flat

theorem levelsWalk : Answers.Walk ResolvedType.class? (r.answers.homeSupertypes r.home) [] [t]
    (r.answers.memberLevels r.home t) := by
  have covers := r.home.aroundCovers t
  have own : r.answers.walkStart? t = some t := by
    have plain : t.isTypeVar = false := by
      obtain ⟨denoted,_,_⟩ := t
      cases denoted with
      | typeVar => cases class_
      | symbol | primitive => rfl
    have settled : r.answers.owner t = some t := Answers.settledDepth r.home r.depth plain
    simp [Answers.walkStart?,settled,flat]
  simp only [Answers.memberLevels,own]
  refine Answers.aroundWalk (Answers.homeSupertypesOver covers distinct ?_) [] ?_
  · exact Answers.depthOver covers distinct r.depth
  · exact List.forall_mem_singleton.mpr (r.home.overAround t)

theorem levelsAncestors
    (known : ∀ u ∈ r.ancestors t, u.isArray → (Answers.declaringCodebase? r.home u).isSome) :
    r.answers.memberLevels r.home t = t :: r.ancestors t := by
  obtain ⟨c,denotes⟩ := Option.isSome_iff_exists.mp class_
  have walks := ancestorsWalk distinct t
  rw [denotes] at walks
  have whole : Answers.Walk ResolvedType.class? r.supertypes [] [t] (t :: r.ancestors t) :=
    .met denotes (by simp) walks
  refine (levelsWalk distinct class_ flat).unique (whole.congr fun u met => ?_)
  unfold Answers.homeSupertypes
  split
  · rfl
  · rename_i foreign
    obtain ⟨c',denotes',_⟩ := whole.keys u met
    refine (foreignSupertypes denotes' ?_ foreign).symm
    rcases List.mem_cons.mp met with rfl | above
    · exact flat
    · by_contra array
      have declared := known u above (by simpa using array)
      simp [foreign] at declared

theorem membersAncestors
    (known : ∀ u ∈ r.ancestors t, u.isArray → (Answers.declaringCodebase? r.home u).isSome) :
    r.membersOf t = (t :: r.ancestors t).flatMap r.home.ownMembers := by
  rw [membersOf,Answers.membersOf,levelsAncestors distinct class_ flat known]
  rfl

omit class_ flat in
theorem formedKnown (formed : r.home.WellFormed t) :
    ∀ u ∈ r.ancestors t, u.isArray → (Answers.declaringCodebase? r.home u).isSome := by
  intro u above _
  have formed' := Answers.ancestorsOver r.home.vocabularyCovers distinct (answersOver distinct) formed u above
  obtain ⟨c,denotes,_⟩ := (ancestorsWalk distinct t).keys u above
  obtain ⟨d,_,found,_⟩ := formed'.class denotes
  exact Option.isSome_of_eq_some (Answers.declaringFound denotes found)

/-- The members of a type are those that it and its ancestors declare, in this order, under the bindings with
which they are inherited. The members of a name are those that the first of them with any has. -/
theorem membersByLevel (reached : r.home.Reached)
    (known : ∀ u ∈ r.ancestors t, u.isArray → (Answers.declaringCodebase? r.home u).isSome) :
    r.membersOf t = (t :: r.ancestors t).flatMap r.home.ownMembers ∧
    (∀ name, r.allMembers t name = (r.membersOf t).filter (r.home.named name)) ∧
    ∀ name, r.members t name =
      Answers.firstHit (fun u => (r.home.ownMembers u).filter (r.home.named name)) (t :: r.ancestors t) := by
  refine ⟨membersAncestors distinct class_ flat known,Answers.allNamed _ reached t,fun name => ?_⟩
  rw [members,Answers.membersHit,levelsAncestors distinct class_ flat known]
  exact Answers.firstHitCongr fun u _ => Answers.declaredNamed reached name u

omit distinct class_ flat

theorem tankerMembers :
    let r : Resolver := ⟨fleetApp,8⟩
    let tanker := ResolvedType.ofSymbol ⟨0,⟨3,0⟩⟩
    tanker.class?.isSome ∧ tanker.isArray = false ∧ fleetApp.Distinct ∧ fleetApp.Reached ∧
    (∀ u ∈ r.ancestors tanker, u.isArray → (Answers.declaringCodebase? fleetApp u).isSome) ∧
    (r.membersOf tanker).map (·.1.handle.index) = [4,6,8,10] ∧
    r.membersOf tanker = (tanker :: r.ancestors tanker).flatMap fleetApp.ownMembers ∧
    (r.allMembers tanker "sail").map (·.1.handle.index) = [6,10] ∧
    r.allMembers tanker "sail" = (r.membersOf tanker).filter (fleetApp.named "sail") ∧
    (r.members tanker "sail").map (·.1.handle.index) = [6] ∧
    r.members tanker "sail" = Answers.firstHit
      (fun u => (fleetApp.ownMembers u).filter (fleetApp.named "sail")) (tanker :: r.ancestors tanker) := by
  intro r tanker
  obtain ⟨alone,type,_,members,sails,sail⟩ := fleetAppFacts
  have distinct : fleetApp.Distinct := Codebase.distinctAlone alone
  obtain ⟨⟨d,s⟩,live,kind⟩ := (Option.any_eq_true _ _).mp type
  have formed : fleetApp.WellFormed tanker := ResolvedType.overOf ⟨d,s,live,kind⟩ Bindings.overEmpty
  have known := formedKnown (r := r) distinct formed
  obtain ⟨every,named,first⟩ := membersByLevel (r := r) distinct (t := tanker) rfl rfl fleetAppReached known
  exact ⟨rfl,rfl,distinct,fleetAppReached,known,members,every,sails,named "sail",sail,first "sail"⟩

def objectFile : FileDecl where
  path := "java/lang/Object.java"
  package := ["java","lang"]
  types :=
    [{ outline := { name := "Object", kind := .type .classType }, members := [.method { name := "hash" }] }]

def wrapFile : FileDecl where
  path := "p/Wrap.java"
  package := ["p"]
  types :=
    let header : TypeHeader := { superclass := some (.simple "T"), typeParameters := [⟨"T",[]⟩] }
    [{ outline := { name := "Wrap", kind := .type .classType, header } }]

@[irreducible]
def wrapApp : Codebase :=
  let empty : Codebase := { id := 0, name := "app", language := .java, settings := default }
  ((empty.putFile objectFile).2.putFile wrapFile).2

theorem wrapAppReached : wrapApp.Reached := by
  unfold wrapApp
  exact .putFile (.putFile (.new ..) objectFile) wrapFile

theorem foreignArrayPassed :
    let r : Resolver := ⟨wrapApp,8⟩
    let crates : ResolvedType := { denoted := .symbol ⟨1,⟨3,0⟩⟩, isArray := true }
    let t : ResolvedType :=
      { denoted := .symbol ⟨0,⟨8,0⟩⟩, bindings := ⟨[(⟨⟨0,⟨8,0⟩⟩,"T"⟩,crates)]⟩ }
    wrapApp.Distinct ∧ wrapApp.Reached ∧ t.class?.isSome ∧ t.isArray = false ∧
    r.ancestors t = [crates,.ofSymbol ⟨0,⟨4,0⟩⟩] ∧
    r.membersOf t ≠ (t :: r.ancestors t).flatMap wrapApp.ownMembers := by
  intro r crates t
  have facts : wrapApp.dependencies = [] ∧ r.ancestors t = [crates,.ofSymbol ⟨0,⟨4,0⟩⟩] ∧
      r.membersOf t ≠ (t :: r.ancestors t).flatMap wrapApp.ownMembers := by decide +kernel
  obtain ⟨alone,rest⟩ := facts
  exact ⟨Codebase.distinctAlone alone,wrapAppReached,rfl,rfl,rest⟩

end Resolver
end CodeIndex
