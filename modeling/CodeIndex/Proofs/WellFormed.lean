import CodeIndex.Proofs.Provenance

/-! Resolved types are well formed: the classes in them are live types of the chain, and their type
parameters are declared by live symbols of it. This holds in every codebase that changes lead to, in any
scope, at any depth, for what is resolved and for all that hierarchies and members lead to from there. -/
namespace CodeIndex
namespace Codebase

def vocabulary (home : Codebase) : Vocabulary where
  types := fun ref => ∃ d s, home.resolve? ref = some (d,s) ∧ s.kind.isTypeDecl
  vars := fun v => ∃ d s, home.resolve? v.owner = some (d,s) ∧ ∃ p ∈ s.typeParameters, p.name = v.name

theorem vocabularyCovers (home : Codebase) : home.vocabulary.Covers home where
  types := fun inside live type => ⟨_,_,resolveRef inside live,type⟩
  vars := fun inside live declares => ⟨_,_,resolveRef inside live,_,declares,rfl⟩

abbrev WellFormed (home : Codebase) (t : ResolvedType) : Prop := t.Over home.vocabulary

abbrev WellBound (home : Codebase) (bindings : Bindings) : Prop :=
  Bindings.Over home.vocabulary bindings

end Codebase

namespace SymbolTable.Consistent

variable {t : SymbolTable} (c : t.Consistent)
include c

theorem declaredLive {p h : Handle} {name : String} (listed : h ∈ t.declared p name) :
    (t.symbol? h).isSome := by
  cases owner : t.symbol? p with
  | none => simp [declared,membersOf,owner,Members.under,OrderedMap.get?,OrderedMap.lookup] at listed
  | some o =>
    rw [declaredShelf owner] at listed
    exact c.shelfLive owner _ listed

theorem memberLive {p h : Handle} (listed : h ∈ (t.membersOf p).handles) : (t.symbol? h).isSome := by
  cases owner : t.symbol? p with
  | none => simp [membersOf,owner,Members.handles,OrderedMap.values] at listed
  | some o =>
    simp only [membersOf,owner] at listed
    exact (c.memberHandles owner).2 h listed

end SymbolTable.Consistent

namespace Resolver

variable {r : Resolver} (distinct : r.home.Distinct)
include distinct

theorem answersOver : r.answers.Over r.home.vocabulary r.home :=
  Answers.depthOver r.home.vocabularyCovers distinct r.depth

theorem levelsWellFormed {t : ResolvedType} (formed : r.home.WellFormed t)
    {listed : Codebase → SymbolRef → List Handle}
    (live : ∀ d ∈ r.home.chain, ∀ c, ∀ h ∈ listed d c, (d.table.symbol? h).isSome)
    {member : SymbolRef × Bindings}
    (inside : member ∈ (r.answers.memberLevels r.home t).flatMap fun level =>
      match level.class?, Answers.declaringCodebase? r.home level with
      | some c, some d => (listed d c).map fun h => (d.ref h,level.bindings)
      | _, _ => []) :
    (r.home.resolve? member.1).isSome ∧ r.home.WellBound member.2 := by
  obtain ⟨level,above,found⟩ := List.mem_flatMap.mp inside
  have known := Answers.memberLevelsOver r.home.vocabularyCovers distinct (answersOver distinct) formed
    level above
  split at found
  · rename_i c d _ declaring
    obtain ⟨h,within,rfl⟩ := List.mem_map.mp found
    have chained := Answers.declaringChain declaring
    obtain ⟨s,held⟩ := Option.isSome_iff_exists.mp (live d chained c h within)
    exact ⟨by simp [Codebase.resolveRef chained held],known.bindings⟩
  · cases found

variable (reached : r.home.Reached)
include reached

theorem membersWellFormed {t : ResolvedType} (formed : r.home.WellFormed t) (name : String) :
    ∀ member ∈ r.members t name ++ r.allMembers t name ++ r.membersOf t,
      (r.home.resolve? member.1).isSome ∧ r.home.WellBound member.2 := by
  intro member inside
  simp only [List.mem_append] at inside
  rcases inside with (first | all) | every
  · exact (Answers.membersWhereOver r.home.vocabularyCovers distinct (answersOver distinct) formed
      first).symm
  · exact levelsWellFormed distinct formed
      (fun d chained c h listed => (reached.chain chained).declaredLive listed) all
  · exact levelsWellFormed distinct formed
      (fun d chained c h listed => (reached.chain chained).memberLive listed) every

/-- What is resolved under well-formed bindings is well formed, and so is whatever a well-formed type
leads to: its supertypes, and its members with their types. -/
theorem resolvedWellFormed :
    (∀ {e scope bindings t}, r.home.WellBound bindings → r.resolve e scope bindings = some t →
      r.home.WellFormed t) ∧
    ∀ {t}, r.home.WellFormed t →
      (∀ u ∈ r.supertypes t, r.home.WellFormed u) ∧
      (∀ u ∈ r.ancestors t, r.home.WellFormed u) ∧
      ∀ name, ∀ member ∈ r.members t name ++ r.allMembers t name ++ r.membersOf t,
        (r.home.resolve? member.1).isSome ∧ r.home.WellBound member.2 ∧
        ∀ u, r.typeOf member.1 member.2 = some u → r.home.WellFormed u := by
  have covers := r.home.vocabularyCovers
  have worded := answersOver distinct
  refine ⟨fun bound found => worded.resolve (Codebase.chainSelf r.home) bound found,fun formed => ?_⟩
  refine ⟨Answers.supertypesOver covers distinct worded formed,
    Answers.ancestorsOver covers distinct worded formed,fun name member inside => ?_⟩
  obtain ⟨live,bound⟩ := membersWellFormed distinct reached formed name member inside
  exact ⟨live,bound,fun u found => Answers.typeOfOver covers worded bound found⟩

omit distinct reached

def holderFile : FileDecl where
  path := "util/Holder.java"
  package := ["util"]
  types :=
    let header : TypeHeader := { typeParameters := [⟨"T",[]⟩] }
    [{ outline := { name := "Holder", kind := .type .classType, header }
       members := [.field { name := "content", type := .simple "T" }] }]

def crateFile : FileDecl where
  path := "Crate.java"
  types :=
    let superclass : TypeExpr := { segments := ["util","Holder"], arguments := [.simple "Item"] }
    [{ outline := { name := "Item", kind := .type .classType } },
     { outline := { name := "Crate", kind := .type .classType, header := { superclass } } }]

def holderLibrary : Codebase :=
  (Codebase.putFile { id := 1, name := "library", language := .java, settings := default } holderFile).2

def crateApp : Codebase :=
  let own : Codebase := { id := 0, name := "app", language := .java, settings := default }
  (own.putFile crateFile).2.addDependency holderLibrary

theorem crateAppReached : crateApp.Reached :=
  .addDependency (.putFile (.new ..) crateFile) (.putFile (.new ..) holderFile)

theorem crateAppDistinct : crateApp.Distinct :=
  Codebase.distinctPair (d := holderLibrary) rfl rfl (by decide)

def itemType : ResolvedType := .ofSymbol ⟨0,⟨2,0⟩⟩

def crateType : ResolvedType := .ofSymbol ⟨0,⟨3,0⟩⟩

theorem crateTypeFormed : crateApp.WellFormed crateType := by
  have type : (crateApp.resolve? ⟨0,⟨3,0⟩⟩).any (·.2.kind.isTypeDecl) = true := by decide +kernel
  obtain ⟨⟨d,s⟩,live,kind⟩ := (Option.any_eq_true _ _).mp type
  exact ResolvedType.overOf ⟨d,s,live,kind⟩ Bindings.overEmpty

theorem crateContentWellFormed : ∃ member ∈ (Resolver.mk crateApp 8).members crateType "content",
    ∃ u, (Resolver.mk crateApp 8).typeOf member.1 member.2 = some u ∧ u.sameType itemType ∧
      crateApp.WellFormed u := by
  have hit : ((Resolver.mk crateApp 8).members crateType "content").any (fun member =>
      ((Resolver.mk crateApp 8).typeOf member.1 member.2).any (·.sameType itemType)) = true := by
    decide +kernel
  obtain ⟨member,inside,typed⟩ := List.any_eq_true.mp hit
  obtain ⟨u,found,same⟩ := (Option.any_eq_true _ _).mp typed
  obtain ⟨_,_,members⟩ :=
    (resolvedWellFormed (r := ⟨crateApp,8⟩) crateAppDistinct crateAppReached).2 crateTypeFormed
  exact ⟨member,inside,u,found,same,(members "content" member (by simp [inside])).2.2 u found⟩

end Resolver
end CodeIndex
