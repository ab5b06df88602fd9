import CodeIndex.Proofs.Lineage
import CodeIndex.Proofs.Vantage
import CodeIndex.Proofs.WellFormed
import Mathlib.Data.List.Chain
import Mathlib.Logic.Relation

/-! Members found up a line of classes. A walk goes level by level and takes interfaces in before superclasses
further up; if nothing that they lead to has the member or belongs to the line, it comes to the base all the
same, under the bindings that the heirs hand down. -/
namespace CodeIndex

namespace Answers

variable {next : ResolvedType → List ResolvedType}

theorem nextClassBefore {visited : List SymbolRef} {t : ResolvedType} {c : SymbolRef}
    (denotes : t.class? = some c) (new : c ∉ visited) (before after : List ResolvedType) :
    nextClass visited (before ++ t :: after) = some (c,t,after) ∨
    ∃ d u rest, u ∈ before ∧ (∀ v ∈ rest, v ∈ before) ∧
      nextClass visited (before ++ t :: after) = some (d,u,rest ++ t :: after) := by
  induction before with
  | nil => exact .inl (by simp [nextClass,denotes,new])
  | cons first others ih =>
    have skipped : nextClass visited (others ++ t :: after) = some (c,t,after) ∨
        ∃ d u rest, u ∈ first :: others ∧ (∀ v ∈ rest, v ∈ first :: others) ∧
          nextClass visited (others ++ t :: after) = some (d,u,rest ++ t :: after) := by
      rcases ih with here | ⟨d,u,rest,inside,remain,found⟩
      · exact .inl here
      · exact .inr ⟨d,u,rest,by simp [inside],fun v behind => by simp [remain v behind],found⟩
    rw [List.cons_append,nextClass]
    split
    · rename_i d denotes'
      split
      · exact skipped
      · exact .inr ⟨d,first,others,by simp,fun v behind => by simp [behind],rfl⟩
    · exact skipped

section

variable (aside : ResolvedType → Prop) {found : ResolvedType → List β}

def Hands (next : ResolvedType → List ResolvedType) (found : ResolvedType → List β) (t u : ResolvedType) :
    Prop :=
  found t = [] ∧ ∃ others, next t = u :: others ∧ ∀ v ∈ others, aside v

variable {aside}

theorem firstFoundLine {within : List SymbolRef} {first : ResolvedType} {line : List ResolvedType}
    (closed : ∀ {t}, aside t → ∀ u ∈ next t, aside u) (silent : ∀ {t}, aside t → found t = [])
    (inside : ∀ {t c}, aside t → t.class? = some c → c ∈ within)
    (apart : ∀ {t}, aside t → t.class? ∉ (first :: line).map ResolvedType.class?)
    (chain : List.IsChain (Hands aside next found) (first :: line))
    (classes : ∀ t ∈ first :: line, ∃ c, t.class? = some c ∧ c ∈ within)
    (distinct : ((first :: line).map ResolvedType.class?).Nodup)
    (hit : found ((first :: line).getLast (by simp)) ≠ [])
    {visited : List SymbolRef} (unseen : ∀ c ∈ visited, some c ∉ (first :: line).map ResolvedType.class?)
    {before after : List ResolvedType} (prior : ∀ t ∈ before, aside t) (later : ∀ t ∈ after, aside t)
    {fuel : Nat} (enough : (unvisited within visited).length ≤ fuel) :
    firstFound next found fuel visited (before ++ first :: after) =
      found ((first :: line).getLast (by simp)) := by
  induction fuel generalizing first line visited before after with
  | zero =>
    obtain ⟨c,denotes,known⟩ := classes first (by simp)
    have new : c ∉ visited := fun old => unseen c old (by simp [denotes])
    have fewer := unvisitedFewer known new
    omega
  | succ fuel ih =>
    obtain ⟨c,denotes,known⟩ := classes first (by simp)
    have new : c ∉ visited := fun old => unseen c old (by simp [denotes])
    rcases nextClassBefore denotes new before after with next' | ⟨d,u,rest,beside,remain,next'⟩
    · have fewer := unvisitedFewer known new
      unfold firstFound
      simp only [next']
      cases line with
      | nil =>
        split
        · rename_i nothing
          exact absurd nothing hit
        · rfl
      | cons second line =>
        obtain ⟨⟨nothing,others,up,rest⟩,chain⟩ := List.isChain_cons_cons.mp chain
        simp only [nothing,up]
        refine ih (fun a => ?_) chain (fun t inside => classes t (by simp [inside]))
          (List.nodup_cons.mp distinct).2 hit ?_ later rest (by omega)
        · exact fun inside => apart a (List.mem_cons_of_mem _ inside)
        · intro e seen inside
          rcases List.mem_cons.mp seen with rfl | old
          · exact (List.nodup_cons.mp distinct).1 (denotes ▸ inside)
          · exact unseen e old (List.mem_cons_of_mem _ inside)
    · have asides := prior u beside
      obtain ⟨new',denotes',_⟩ := nextClassFound next'
      have fewer := unvisitedFewer (inside asides denotes') new'
      unfold firstFound
      simp only [next',silent asides]
      rw [List.append_assoc,List.cons_append]
      refine ih apart chain classes distinct hit ?_ (fun t behind => prior t (remain t behind)) ?_
        (by omega)
      · intro e seen
        rcases List.mem_cons.mp seen with rfl | old
        · exact denotes' ▸ apart asides
        · exact unseen e old
      · intro t behind
        rcases List.mem_append.mp behind with old | reached
        · exact later t old
        · exact closed asides t reached

end

end Answers

namespace ResolvedType

mutual

theorem overEverything : (t : ResolvedType) → t.Over ⟨fun _ => True,fun _ => True⟩
  | ⟨denoted,_,⟨entries⟩⟩ =>
    .made (by cases denoted <;> trivial) (fun _ _ => trivial) (overEverythingIn entries)

theorem overEverythingIn : (entries : List (TypeVar × ResolvedType)) →
    ∀ t ∈ entries.map Prod.snd, t.Over ⟨fun _ => True,fun _ => True⟩
  | [] => by simp
  | (_,u) :: rest => List.forall_mem_cons.mpr ⟨overEverything u,overEverythingIn rest⟩

end

end ResolvedType

namespace Answers

variable {home c : Codebase} (inside : c ∈ home.chain) (bindings : Bindings) (h : Handle)
include inside

theorem declaringUnder : declaringCodebase? home (c.under bindings h) = some c :=
  Codebase.memberChain inside

theorem declaredUnder (consistent : c.table.Consistent) (name : String) :
    declaredMembers home name (fun _ => true) (c.under bindings h) =
      (c.table.declared h name).map fun m => (c.ref m,bindings) := by
  have denotes : (c.under bindings h).class? = some (c.ref h) := rfl
  simp only [declaredMembers,denotes,declaringUnder inside]
  refine congrArg (List.map _) (List.filter_eq_self.mpr fun m listed => ?_)
  obtain ⟨s,live⟩ := Option.isSome_iff_exists.mp (consistent.declaredLive listed)
  simp [live]

end Answers

namespace Codebase

variable (c : Codebase) (package : Handle) (s : Bindings)

def line : Handle → List Handle → List ResolvedType
  | own,[] => [c.under s own]
  | own,heir :: rest => line heir rest ++ [c.under (c.handed package s own (heir :: rest)) own]

theorem lineLast (own : Handle) (heirs : List Handle) :
    (c.line package s own heirs).getLast? = some (c.under (c.handed package s own heirs) own) := by
  cases heirs with
  | nil => rfl
  | cons => simp [line]

theorem lineFirst (own : Handle) (heirs : List Handle) :
    (c.line package s own heirs).head? = some (c.under s ((own :: heirs).getLast (by simp))) := by
  induction heirs generalizing own with
  | nil => rfl
  | cons heir rest ih => simp [line,List.head?_append,ih]

theorem lineClasses (own : Handle) (heirs : List Handle) :
    (c.line package s own heirs).map ResolvedType.class? =
      ((own :: heirs).map fun h => some (c.ref h)).reverse := by
  induction heirs generalizing own with
  | nil => rfl
  | cons heir rest ih =>
    simp only [line,List.map_append,ih,List.map_cons,List.map_nil,List.reverse_cons]
    rfl

end Codebase

namespace Codebase

def around (home : Codebase) (t : ResolvedType) : Vocabulary where
  types := fun ref => ref ∈ home.symbols.map Prod.fst ++ t.classes
  vars := fun _ => True

variable (home : Codebase) (t : ResolvedType)

theorem aroundCovers : (home.around t).Covers home where
  types := fun inside live _ =>
    List.mem_append_left _ (List.mem_map.mpr ⟨_,memSymbols inside live,rfl⟩)
  vars := fun _ _ _ => trivial

theorem overAround : t.Over (home.around t) := by
  refine t.overEverything.narrow (fun ref mentioned => ?_) fun _ _ => trivial
  exact List.mem_append_right _ mentioned

theorem aroundCount : (Answers.unvisited (home.symbols.map Prod.fst ++ t.classes) []).length ≤
    Answers.reach home t := by
  have symbols := home.symbolsCount
  have classes := t.classesCount
  simp only [Answers.unvisited,List.not_mem_nil,not_false_eq_true,decide_true,List.filter_true,
    List.length_append,List.length_map,Answers.reach]
  omega

end Codebase

def Symbol.interfaces (s : Symbol) : List TypeExpr :=
  match s.body with
  | .type _ header _ => header.interfaces
  | _ => []

namespace Resolver

abbrev Inherits (r : Resolver) : ResolvedType → ResolvedType → Prop :=
  Relation.ReflTransGen fun t u => u ∈ r.supertypes t

structure Unrelated (r : Resolver) (c : Codebase) (kin : List Handle) (name : String) (t : ResolvedType) :
    Prop where
  other : t.class? ∉ kin.map fun h => some (c.ref h)
  silent : Answers.declaredMembers r.home name (fun _ => true) t = []

section

variable {r : Resolver} (deep : 3 ≤ r.depth) {c : Codebase} {package : Handle}
  (consistent : c.table.Consistent) (legible : r.home.Legible c package) (inside : c ∈ r.home.chain)
  {s : Bindings}
include deep consistent legible inside

theorem superclassFirst {own heir : Handle} {rest : List Handle}
    (line : r.home.Lineage c package own (heir :: rest)) (distinct : (own :: heir :: rest).Nodup)
    (bound : c.Binds s ((heir :: rest).getLast (by simp))) :
    ∃ others, r.supertypes (c.under (c.handed package s heir rest) heir) =
      c.under (c.handed package s own (heir :: rest)) own :: others := by
  obtain ⟨home,depth⟩ := r
  obtain ⟨depth,rfl⟩ := Nat.exists_eq_add_of_le' deep
  refine Answers.superclassHanded consistent legible inside line bound ?_ depth
  rintro rfl
  simp at distinct

theorem lineReached {own : Handle} {heirs : List Handle} (line : r.home.Lineage c package own heirs)
    (distinct : (own :: heirs).Nodup)
    (bound : c.Binds s ((own :: heirs).getLast (by simp))) :
    r.Inherits (c.under s ((own :: heirs).getLast (by simp)))
      (c.under (c.handed package s own heirs) own) := by
  induction line with
  | alone => exact .refl
  | heir filed inherits line ih =>
    obtain ⟨others,up⟩ :=
      superclassFirst deep consistent legible inside (.heir filed inherits line) distinct bound
    refine .tail (ih (List.nodup_cons.mp distinct).2 bound) ?_
    simp [up]

variable {kin : List Handle} {name : String} {aside : ResolvedType → Prop}

theorem lineHands {own : Handle} {heirs : List Handle} (line : r.home.Lineage c package own heirs)
    (distinct : (own :: heirs).Nodup)
    (bound : c.Binds s ((own :: heirs).getLast (by simp)))
    (silent : ∀ h ∈ heirs, c.table.declared h name = [])
    (beside : ∀ h ∈ heirs, ∀ bindings, r.Inherits (c.under s ((own :: heirs).getLast (by simp)))
      (c.under bindings h) → ∀ t ∈ (r.supertypes (c.under bindings h)).tail, aside t) :
    List.IsChain (Answers.Hands aside (r.answers.homeSupertypes r.home)
      (Answers.declaredMembers r.home name fun _ => true)) (c.line package s own heirs) := by
  induction line with
  | alone => exact .singleton _
  | @heir own heir rest filed inherits line ih =>
    have fewer := (List.nodup_cons.mp distinct).2
    obtain ⟨others,up⟩ :=
      superclassFirst deep consistent legible inside (.heir filed inherits line) distinct bound
    have reached := lineReached deep consistent legible inside line fewer bound
    refine List.isChain_append.mpr ⟨ih fewer bound (fun h later => silent h (by simp [later])) ?_,
      .singleton _,?_⟩
    · exact fun h later => beside h (by simp [later])
    · rw [Codebase.lineLast]
      simp only [Option.mem_def,Option.some.injEq,List.head?_cons]
      rintro _ rfl _ rfl
      refine ⟨?_,others,?_,fun t other => ?_⟩
      · simp [Answers.declaredUnder inside _ _ consistent,silent heir (by simp)]
      · rw [← up]
        simp only [Answers.homeSupertypes,Answers.declaringUnder inside]
        rfl
      · refine beside heir (by simp) _ reached t ?_
        simp [up,other]

end

structure Aside (r : Resolver) (c : Codebase) (kin : List Handle) (member : String) (t u : ResolvedType) :
    Prop where
  near : u.Over (r.home.around t)
  unrelated : ∀ v, r.Inherits u v → r.Unrelated c kin member v

section

variable {r : Resolver} (distinct : r.home.Distinct) {c : Codebase} {kin : List Handle} {member : String}
  {t : ResolvedType}
include distinct

theorem inheritsNear {u v : ResolvedType} (near : u.Over (r.home.around t)) (above : r.Inherits u v) :
    v.Over (r.home.around t) := by
  have covers := r.home.aroundCovers t
  induction above with
  | refl => exact near
  | tail _ super ih =>
    exact Answers.supertypesOver covers distinct (Answers.depthOver covers distinct r.depth) ih _ super

theorem asideSupertypes {u : ResolvedType} (aside : r.Aside c kin member t u) :
    ∀ v ∈ r.answers.homeSupertypes r.home u, r.Aside c kin member t v := by
  intro v super
  unfold Answers.homeSupertypes at super
  split at super
  · exact ⟨inheritsNear distinct aside.near (.single super),
      fun w above => aside.unrelated w (.head super above)⟩
  · cases super

end

section

variable {r : Resolver} (distinct : r.home.Distinct) (deep : 3 ≤ r.depth) {c : Codebase}
  (inside : c ∈ r.home.chain) (consistent : c.table.Consistent) {package : Handle}
  (legible : r.home.Legible c package) {base : Handle} {heirs : List Handle}
  (line : r.home.Lineage c package base heirs) (each : (base :: heirs).Nodup) {s : Bindings}
  (bound : c.Binds s ((base :: heirs).getLast (by simp)))
  {member : String} (declared : c.table.declared base member ≠ [])
  (silent : ∀ h ∈ heirs, c.table.declared h member = [])
  (beside : ∀ h ∈ heirs, ∀ bindings,
    r.Inherits (c.under s ((base :: heirs).getLast (by simp))) (c.under bindings h) →
    ∀ t ∈ (r.supertypes (c.under bindings h)).tail, ∀ u, r.Inherits t u →
      r.Unrelated c (base :: heirs) member u)
include distinct deep inside consistent legible line each bound declared silent beside

theorem membersInherited : r.members (c.under s ((base :: heirs).getLast (by simp))) member =
    (c.table.declared base member).map fun m => (c.ref m,c.handed package s base heirs) := by
  generalize start : c.under s ((base :: heirs).getLast (by simp)) = t at beside
  have near : t.Over (r.home.around t) := r.home.overAround t
  have chain : List.IsChain (Answers.Hands (r.Aside c (base :: heirs) member t)
      (r.answers.homeSupertypes r.home) (Answers.declaredMembers r.home member fun _ => true))
      (c.line package s base heirs) := by
    refine lineHands deep consistent legible inside line each bound silent ?_
    intro h heir bindings above u listed
    rw [start] at above
    refine ⟨inheritsNear distinct near (above.tail (List.mem_of_mem_tail listed)),?_⟩
    exact beside h heir bindings above u listed
  have first := c.lineFirst package s base heirs
  have last := c.lineLast package s base heirs
  have classes := c.lineClasses package s base heirs
  rw [start] at first
  cases met : c.line package s base heirs with
  | nil => simp [met] at first
  | cons t' others =>
    rw [met] at first last classes chain
    cases Option.some.inj first
    have ends : Answers.declaredMembers r.home member (fun _ => true) ((t :: others).getLast (by simp)) =
        (c.table.declared base member).map fun m => (c.ref m,c.handed package s base heirs) := by
      rw [List.getLast?_eq_getLast_of_ne_nil (by simp)] at last
      rw [Option.some.inj last,Answers.declaredUnder inside _ _ consistent]
    have walk : Answers.firstFound (r.answers.homeSupertypes r.home)
        (Answers.declaredMembers r.home member fun _ => true) (Answers.reach r.home t) [] ([] ++ t :: []) =
          Answers.declaredMembers r.home member (fun _ => true) ((t :: others).getLast (by simp)) := by
      refine Answers.firstFoundLine (fun aside => asideSupertypes distinct aside)
        (fun aside => (aside.unrelated _ .refl).silent) (fun aside denotes => aside.near.class denotes)
        (fun aside => ?_) chain (fun u met => ?_) ?_ ?_ (by simp) (by simp) (by simp)
        (r.home.aroundCount t)
      · rw [classes,List.mem_reverse]
        exact (aside.unrelated _ .refl).other
      · have listed := List.mem_map_of_mem (f := ResolvedType.class?) met
        rw [classes,List.mem_reverse] at listed
        obtain ⟨h,kin,denotes⟩ := List.mem_map.mp listed
        obtain ⟨s,live,_⟩ := (line.all h kin).placed
        have symbol := List.mem_map_of_mem (f := Prod.fst) (Codebase.memSymbols inside live)
        exact ⟨c.ref h,denotes.symm,List.mem_append_left _ symbol⟩
      · rw [classes,List.nodup_reverse]
        exact each.map fun h h' same => congrArg SymbolRef.handle (Option.some.inj same)
      · rw [ends]
        simpa using declared
    have own : r.answers.walkStart? t = some t := by
      have settled : r.answers.owner t = some t := Answers.settledDepth r.home r.depth (by rw [← start]; rfl)
      have scalar : t.isArray = false := by rw [← start]; rfl
      simp [Answers.walkStart?,settled,scalar]
    simp only [members,Answers.membersWhere,own]
    exact walk.trans ends

end

theorem fieldTyped {r : Resolver} (deep : r.depth ≠ 0) {c : Codebase} (inside : c ∈ r.home.chain)
    (consistent : c.table.Consistent) {package base field : Handle} (filed : r.home.Filed c package base)
    {member : String} {declaration : Symbol} {type : TypeExpr} (declared : field ∈ c.table.declared base member)
    (live : c.table.symbol? field = some declaration) (body : declaration.body = .value .field type)
    {parameter : String} (names : type.segments = [parameter]) (plain : type.arguments = [])
    (own : parameter ∈ c.parameters base) {bindings : Bindings} {u : ResolvedType}
    (binds : bindings.get? ⟨c.ref base,parameter⟩ = some u) :
    r.typeOf (c.ref field) bindings = some { u with isArray := u.isArray || type.isArray } := by
  have primitive := (filed.apart parameter own).1
  obtain ⟨s,_,_,_,_,_,_,outward,top,class',_⟩ := filed.levels consistent
  rw [Codebase.parametersLive (SymbolTable.topLive top)] at own
  obtain ⟨p,declares,rfl⟩ := List.mem_map.mp own
  have parent : declaration.parent = some base := by
    rw [SymbolTable.declaredShelf (SymbolTable.topLive top)] at declared
    exact consistent.ownMember (SymbolTable.topLive top) (SymbolTable.typeKind class').1 _ declared live
  obtain ⟨home,depth⟩ := r
  obtain ⟨depth,rfl⟩ := Nat.exists_eq_add_one_of_ne_zero deep
  simp only [typeOf,Answers.typeOf,Codebase.resolveRef inside live,body,parent,bind,Option.bind_some]
  change Answers.resolveStep home (Answers.atDepth home depth) _ type = _
  rw [Answers.resolveAlone names primitive,Answers.firstParameter outward rfl declares]
  simp only [Option.bind_some,Step.type?,binds,Option.getD_some,Option.map_some,Answers.applyNone plain]

/-- Type arguments are handed down a line of classes of any length. A field that the base declares with one
of its type parameters for a type is found from the last heir, and its type is what the argument
lists of the heirs, one after another, make of the parameter. -/
theorem fieldInherited (r : Resolver) (distinct : r.home.Distinct) (reached : r.home.Reached)
    (deep : 3 ≤ r.depth) {c : Codebase} (inside : c ∈ r.home.chain) {package : Handle}
    (legible : r.home.Legible c package) {base : Handle} {heirs : List Handle}
    (line : r.home.Lineage c package base heirs) (each : (base :: heirs).Nodup) {s : Bindings}
    (bound : c.Binds s ((base :: heirs).getLast (by simp)))
    {member : String} {field : Handle} {declaration : Symbol} {type : TypeExpr}
    (declared : c.table.declared base member = [field])
    (live : c.table.symbol? field = some declaration) (body : declaration.body = .value .field type)
    {parameter : String} (names : type.segments = [parameter]) (plain : type.arguments = [])
    (own : parameter ∈ c.parameters base) (silent : ∀ h ∈ heirs, c.table.declared h member = [])
    (beside : ∀ h ∈ heirs, ∀ bindings,
      r.Inherits (c.under s ((base :: heirs).getLast (by simp))) (c.under bindings h) →
      ∀ t ∈ (r.supertypes (c.under bindings h)).tail, ∀ u, r.Inherits t u →
        r.Unrelated c (base :: heirs) member u) :
    ∃ bindings u, r.members (c.under s ((base :: heirs).getLast (by simp))) member =
        [(c.ref field,bindings)] ∧
      c.stands package s base heirs parameter = some u ∧
      r.typeOf (c.ref field) bindings = some { u with isArray := u.isArray || type.isArray } := by
  have consistent := reached.chain inside
  obtain ⟨u,stands,binds⟩ := Answers.handedBinds consistent legible inside line bound parameter own
  refine ⟨c.handed package s base heirs,u,?_,stands,?_⟩
  · rw [membersInherited distinct deep inside consistent legible line each bound (by simp [declared]) silent
      beside,declared]
    rfl
  · exact fieldTyped (by omega) inside consistent line.filed (declared ▸ List.mem_singleton_self _) live body names
      plain own binds

theorem supertypesTail (r : Resolver) {c : Codebase} (inside : c ∈ r.home.chain) {h : Handle}
    (none : ∀ s ∈ c.table.symbol? h, s.interfaces = []) (bindings : Bindings) :
    (r.supertypes (c.under bindings h)).tail = [] := by
  obtain ⟨home,depth⟩ := r
  cases depth with
  | zero => rfl
  | succ depth =>
    change (Answers.superclassesStep home (Answers.atDepth home depth) (c.ref h) bindings).tail = []
    unfold Answers.superclassesStep
    split
    · rfl
    · rename_i d s found
      obtain ⟨inside',same,live⟩ := Codebase.resolveChain.mp found
      cases Codebase.chainId inside inside' (congrArg SymbolRef.codebase same)
      have alone := none s live
      split
      · rename_i body
        simp only [Symbol.interfaces,body] at alone
        simp only [alone,List.filterMap_nil,List.append_nil]
        -- The root type stands in only where there is no superclass.
        cases Option.bind _ _ with
        | none => cases Option.filter _ _ <;> rfl
        | some => rfl
      · rfl

def pairFile : FileDecl where
  path := "p/Pair.java"
  package := ["p"]
  types :=
    let typeParameters : List TypeParameter := [⟨"K",[]⟩,⟨"V",[]⟩]
    [{ outline := { name := "Pair", kind := .type .classType, header := { typeParameters } }
       members := [.field { name := "kept", type := { segments := ["V"], isArray := true } }] }]

def swapFile : FileDecl where
  path := "p/Swap.java"
  package := ["p"]
  types :=
    let superclass : TypeExpr := { segments := ["Pair"], arguments := [.simple "B",.simple "A"] }
    let typeParameters : List TypeParameter := [⟨"A",[]⟩,⟨"B",[]⟩,⟨"C",[]⟩]
    [{ outline := { name := "Swap", kind := .type .classType, header := { typeParameters, superclass } } }]

def leafFile : FileDecl where
  path := "p/Leaf.java"
  package := ["p"]
  types :=
    let superclass : TypeExpr :=
      { segments := ["Swap"], arguments := [.simple "T",.simple "Item",.simple "T"] }
    let typeParameters : List TypeParameter := [⟨"T",[]⟩]
    [{ outline := { name := "Leaf", kind := .type .classType, header := { typeParameters, superclass } } },
     { outline := { name := "Item", kind := .type .classType } }]

def swapApp : Codebase :=
  let own : Codebase := { id := 0, name := "app", language := .java, settings := default }
  (((own.putFile pairFile).2.putFile swapFile).2.putFile leafFile).2

def leafBindings : Bindings := ⟨[(⟨⟨0,⟨8,0⟩⟩,"T"⟩,.ofPrimitive .int)]⟩

theorem swapAppReached : swapApp.Reached :=
  .putFile (.putFile (.putFile (.new ..) pairFile) swapFile) leafFile

theorem swapAppLegible : swapApp.Legible swapApp ⟨1,0⟩ :=
  ⟨by decide +kernel,by decide +kernel,by decide +kernel⟩

theorem swapLineage : swapApp.Lineage swapApp ⟨1,0⟩ ⟨3,0⟩ [⟨6,0⟩,⟨8,0⟩] ∧
    swapApp.Binds leafBindings ⟨8,0⟩ ∧ swapApp.table.declared ⟨3,0⟩ "kept" = [⟨4,0⟩] ∧
    (swapApp.table.symbol? ⟨4,0⟩).any (fun s => match s.body with
      | .value .field type => type.segments = ["V"] && type.arguments.isEmpty && type.isArray
      | _ => false) = true ∧
    "V" ∈ swapApp.parameters ⟨3,0⟩ ∧ (∀ h ∈ [⟨6,0⟩,⟨8,0⟩], swapApp.table.declared h "kept" = []) ∧
    (∀ h ∈ [⟨6,0⟩,⟨8,0⟩], ∀ s ∈ swapApp.table.symbol? h, s.interfaces = []) ∧
    (swapApp.stands ⟨1,0⟩ leafBindings ⟨3,0⟩ [⟨6,0⟩,⟨8,0⟩] "V").any (·.denoted = .primitive .int) = true := by
  decide +kernel

theorem leafKeepsArrays : ∃ (bindings : Bindings) (u : ResolvedType),
    (Resolver.mk swapApp 3).members (swapApp.under leafBindings ⟨8,0⟩) "kept" =
      [(swapApp.ref ⟨4,0⟩,bindings)] ∧ u.denoted = .primitive .int ∧
    (Resolver.mk swapApp 3).typeOf (swapApp.ref ⟨4,0⟩) bindings = some { u with isArray := true } := by
  obtain ⟨line,bound,declared,field,own,silent,plain,last⟩ := swapLineage
  have beside : ∀ h ∈ [⟨6,0⟩,⟨8,0⟩], ∀ bindings, (Resolver.mk swapApp 3).Inherits
      (swapApp.under leafBindings ⟨8,0⟩) (swapApp.under bindings h) →
      ∀ t ∈ ((Resolver.mk swapApp 3).supertypes (swapApp.under bindings h)).tail, ∀ u,
        (Resolver.mk swapApp 3).Inherits t u →
          (Resolver.mk swapApp 3).Unrelated swapApp [⟨3,0⟩,⟨6,0⟩,⟨8,0⟩] "kept" u := by
    intro h heir bindings _ t listed
    rw [supertypesTail _ (Codebase.chainSelf swapApp) (plain h heir)] at listed
    cases listed
  obtain ⟨s,live,body⟩ := (Option.any_eq_true _ _).mp field
  split at body
  · rename_i type body'
    simp only [Bool.and_eq_true,decide_eq_true_eq,List.isEmpty_iff] at body
    obtain ⟨⟨names,plain⟩,array⟩ := body
    obtain ⟨bindings,u,found,stands,typed⟩ := fieldInherited ⟨swapApp,3⟩ (Codebase.distinctAlone rfl)
      swapAppReached (by decide) (Codebase.chainSelf swapApp) swapAppLegible line (by decide) bound declared live
      body' names plain own silent beside
    rw [stands] at last
    rw [array,Bool.or_true] at typed
    exact ⟨bindings,u,found,of_decide_eq_true last,typed⟩
  · cases body

def Strays (home : Codebase) (package base : Handle) (heirs : List Handle) (s : Bindings) (member : String)
    (field : Handle) : Prop :=
  (((home.table.topLevel package).filter (·.2.kind.isTypeDecl)).map (·.2.name)).Nodup ∧
  home.Lineage home package base heirs ∧ (base :: heirs).Nodup ∧
  home.Binds s ((base :: heirs).getLast (by simp)) ∧ home.table.declared base member = [field] ∧
  (∀ h ∈ heirs, home.table.declared h member = []) ∧
  ((Resolver.mk home 3).members (home.under s ((base :: heirs).getLast (by simp))) member).map Prod.fst ≠
    [home.ref field]

instance (home package base heirs s member field) :
    Decidable (Strays home package base heirs s member field) := by
  unfold Strays
  infer_instance

def basedApp (base : String) (others : List FileDecl) : Codebase :=
  let typeParameters : List TypeParameter := [⟨"T",[]⟩]
  let superclass : TypeExpr := { segments := [base], arguments := [.simple "T"] }
  let own : FileDecl :=
    { path := "p/Base.java"
      package := ["p"]
      types := [{ outline := { name := base, kind := .type .classType, header := { typeParameters } }
                  members := [.field { name := "kept", type := .simple "T" }] }] }
  let heir : FileDecl :=
    { path := "p/Heir.java"
      package := ["p"]
      types := [{ outline := { name := "Heir", kind := .type .classType
                               header := { typeParameters, superclass } } }] }
  ([own,heir] ++ others).foldl (fun c decl => (c.putFile decl).2)
    { id := 0, name := "app", language := .bare, settings := default }

def tagFile : FileDecl where
  path := "p/Leaf.java"
  package := ["p"]
  types :=
    let superclass : TypeExpr := { segments := ["Heir"], arguments := [.simple "T"] }
    let header : TypeHeader := { typeParameters := [⟨"T",[]⟩], superclass, interfaces := [.simple "Tag"] }
    [{ outline := { name := "Tag", kind := .type .interfaceType }
       members := [.field { name := "kept", type := .simple "Tag" }] },
     { outline := { name := "Leaf", kind := .type .classType, header } }]

def shadowFile : FileDecl where
  path := "p.java"
  types := [{ outline := { name := "p", kind := .type .classType } }]

def methodApp : Codebase :=
  let app := basedApp "Base" []
  match app.attach ⟨5,0⟩ { name := "Base", kind := .method, content := .method {} } with
  | .ok (_,app) => app
  | .error _ => app

def intBound (h : Handle) : Bindings := ⟨[(⟨⟨0,h⟩,"T"⟩,.ofPrimitive .int)]⟩

theorem lineagesStray :
    Strays (basedApp "Base" [tagFile]) ⟨1,0⟩ ⟨3,0⟩ [⟨6,0⟩,⟨10,0⟩] (intBound ⟨10,0⟩) "kept" ⟨4,0⟩ ∧
    Strays (basedApp "Base" [shadowFile]) ⟨1,0⟩ ⟨3,0⟩ [⟨6,0⟩] (intBound ⟨6,0⟩) "kept" ⟨4,0⟩ ∧
    Strays (basedApp "Base.Kept" []) ⟨1,0⟩ ⟨3,0⟩ [⟨6,0⟩] (intBound ⟨6,0⟩) "kept" ⟨4,0⟩ ∧
    Strays methodApp ⟨1,0⟩ ⟨3,0⟩ [⟨6,0⟩] (intBound ⟨6,0⟩) "kept" ⟨4,0⟩ :=
  by decide +kernel

end Resolver

end CodeIndex
