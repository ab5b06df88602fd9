import CodeIndex.Assignability
import CodeIndex.Proofs.Members
import CodeIndex.Proofs.Walks
import Mathlib.Data.List.Forall2

/-! Bindings in another order. Nothing that is looked up depends on the order in which type parameters were bound:
if the bindings that a question starts from differ in their order at most, so do those of the answers. Walks are
bounded by how many types are mentioned, so that number is compared as well. What a value may be passed for is
the same in the end. -/
namespace CodeIndex

inductive ResolvedType.Same : ResolvedType → ResolvedType → Prop where
  | made {denoted isArray} {b c : Bindings} (size : mentionsIn b.entries = mentionsIn c.entries)
      (bound : ∀ v, Option.Rel Same (b.get? v) (c.get? v)) : Same ⟨denoted,isArray,b⟩ ⟨denoted,isArray,c⟩

structure Bindings.Same (b c : Bindings) : Prop where
  size : ResolvedType.mentionsIn b.entries = ResolvedType.mentionsIn c.entries
  bound : ∀ v, Option.Rel ResolvedType.Same (b.get? v) (c.get? v)

inductive Step.Same : Step → Step → Prop where
  | package (path : List String) : Same (.package path) (.package path)
  | type {t u : ResolvedType} (same : t.Same u) : Same (.type t) (.type u)
  | value (ref : SymbolRef) {b c : Bindings} (same : b.Same c) : Same (.value ref b) (.value ref c)

namespace ResolvedType

variable {t u : ResolvedType}

theorem boundSmaller {entries : List (TypeVar × ResolvedType)} {v : TypeVar}
    (found : OrderedMap.lookup v entries = some t) : t.mentions ≤ mentionsIn entries := by
  induction entries with
  | nil => cases found
  | cons entry rest ih =>
    obtain ⟨w,first⟩ := entry
    simp only [OrderedMap.lookup] at found
    simp only [mentionsIn]
    split at found
    · cases Option.some.inj found
      omega
    · have later := ih found
      omega

theorem mentionsPut (v : TypeVar) (t : ResolvedType) (entries : List (TypeVar × ResolvedType)) :
    mentionsIn (OrderedMap.put v (fun _ => t) entries) + ((OrderedMap.lookup v entries).map mentions).getD 0 =
      mentionsIn entries + t.mentions := by
  induction entries with
  | nil => simp [OrderedMap.put,OrderedMap.lookup,mentionsIn]
  | cons entry rest ih =>
    obtain ⟨w,first⟩ := entry
    simp only [OrderedMap.put,OrderedMap.lookup]
    split
    · simp only [mentionsIn,Option.map_some,Option.getD_some]
      omega
    · simp only [mentionsIn]
      omega

namespace Same

theorem refl (t : ResolvedType) : t.Same t := by
  obtain ⟨denoted,isArray,⟨entries⟩⟩ := t
  refine .made rfl fun v => ?_
  cases found : OrderedMap.get? ⟨entries⟩ v with
  | none => exact .none
  | some x =>
    have smaller : x.mentions ≤ mentionsIn entries := boundSmaller found
    exact .some (refl x)
termination_by t.mentions
decreasing_by
  simp only [mentions]
  omega

instance : Std.Refl Same := ⟨refl⟩

variable (same : t.Same u)
include same

theorem denoted : t.denoted = u.denoted := by
  cases same
  rfl

theorem isArray : t.isArray = u.isArray := by
  cases same
  rfl

theorem bindings : Bindings.Same t.bindings u.bindings := by
  cases same with
  | made size bound => exact ⟨size,bound⟩

theorem mentions : t.mentions = u.mentions := by
  cases same with
  | made size bound => simpa [ResolvedType.mentions] using size

theorem denotes : t.class? = u.class? := by
  simp only [class?,same.denoted]

theorem typeVar : t.isTypeVar = u.isTypeVar := by
  simp only [isTypeVar,same.denoted]

theorem primitive : t.primitive? = u.primitive? := by
  simp only [primitive?,same.denoted,same.isArray]

theorem reference : t.isReference = u.isReference := by
  simp only [isReference,same.primitive]

theorem rebound {b c : Bindings} (bindings : Bindings.Same b c) :
    ResolvedType.Same { t with bindings := b } { u with bindings := c } := by
  cases same
  exact .made bindings.size bindings.bound

theorem marked (isArray : Bool) : ResolvedType.Same { t with isArray } { u with isArray } := by
  cases same with
  | made size bound => exact .made size bound

end Same

end ResolvedType

namespace Bindings

theorem Same.refl (b : Bindings) : b.Same b :=
  (ResolvedType.Same.refl { denoted := default, bindings := b }).bindings

theorem Same.insert {b c : Bindings} (same : b.Same c) (v : TypeVar) {t u : ResolvedType} (bound : t.Same u) :
    Bindings.Same (OrderedMap.insert b v t) (OrderedMap.insert c v u) where
  size := by
    have old : ((OrderedMap.lookup v b.entries).map ResolvedType.mentions).getD 0 =
        ((OrderedMap.lookup v c.entries).map ResolvedType.mentions).getD 0 := by
      have related := same.bound v
      simp only [OrderedMap.get?] at related
      generalize OrderedMap.lookup v b.entries = x, OrderedMap.lookup v c.entries = y at related
      cases related with
      | some found => simp [found.mentions]
      | none => rfl
    have left := ResolvedType.mentionsPut v t b.entries
    have right := ResolvedType.mentionsPut v u c.entries
    have size := same.size
    have mentions := bound.mentions
    simp only [OrderedMap.insert,OrderedMap.alter]
    omega
  bound := by
    intro w
    rw [OrderedMap.getInsert,OrderedMap.getInsert]
    split
    · exact .some bound
    · exact same.bound w

end Bindings

theorem Step.Same.refl : (s : Step) → s.Same s
  | .package path => .package path
  | .type t => .type (.refl t)
  | .value ref b => .value ref (.refl b)

namespace Answers

section

variable {α β γ δ : Type} {R : α → β → Prop} {S : γ → δ → Prop}

theorem relBind {x : Option α} {y : Option β} {f : α → Option γ} {g : β → Option δ} (start : Option.Rel R x y)
    (step : ∀ {a b}, R a b → Option.Rel S (f a) (g b)) : Option.Rel S (x.bind f) (y.bind g) := by
  cases start with
  | some related => exact step related
  | none => exact .none

theorem relEach {f : γ → Option α} {g : γ → Option β} (each : ∀ a, Option.Rel R (f a) (g a)) (x : Option γ) :
    Option.Rel R (x.bind f) (x.bind g) := by
  cases x with
  | none => exact .none
  | some a => exact each a

theorem relMap {x : Option α} {y : Option β} {f : α → γ} {g : β → δ} (start : Option.Rel R x y)
    (step : ∀ {a b}, R a b → S (f a) (g b)) : Option.Rel S (x.map f) (y.map g) := by
  cases start with
  | some related => exact .some (step related)
  | none => exact .none

theorem relOr {x x' : Option α} {y y' : Option β} (first : Option.Rel R x y) (second : Option.Rel R x' y') :
    Option.Rel R (x <|> x') (y <|> y') := by
  cases first with
  | some related => exact .some related
  | none => exact second

theorem relFilter {x : Option α} {y : Option β} {p : α → Bool} {q : β → Bool} (start : Option.Rel R x y)
    (same : ∀ {a b}, R a b → p a = q b) : Option.Rel R (x.filter p) (y.filter q) := by
  cases start with
  | none => exact .none
  | some related =>
    simp only [Option.filter,same related]
    split
    · exact .some related
    · exact .none

theorem relJoin {x : Option (Option α)} {y : Option (Option β)} (related : Option.Rel (Option.Rel R) x y) :
    Option.Rel R x.join y.join := by
  cases related with
  | some related => exact related
  | none => exact .none

theorem relToList {x : Option α} {y : Option β} (related : Option.Rel R x y) :
    List.Forall₂ R x.toList y.toList := by
  cases related with
  | some related => exact .cons related .nil
  | none => exact .nil

theorem relFindSome {l : List γ} {f : γ → Option α} {g : γ → Option β}
    (each : ∀ a, Option.Rel R (f a) (g a)) : Option.Rel R (l.findSome? f) (l.findSome? g) := by
  induction l with
  | nil => exact .none
  | cons a rest ih =>
    have here := each a
    simp only [List.findSome?_cons]
    generalize f a = x, g a = y at here
    cases here with
    | some related => exact .some related
    | none => exact ih

theorem relFilterMap {l : List γ} {f : γ → Option α} {g : γ → Option β}
    (each : ∀ a, Option.Rel R (f a) (g a)) : List.Forall₂ R (l.filterMap f) (l.filterMap g) := by
  induction l with
  | nil => exact .nil
  | cons a rest ih =>
    have here := each a
    simp only [List.filterMap_cons]
    generalize f a = x, g a = y at here
    cases here with
    | some related => exact .cons related ih
    | none => exact ih

theorem relHead {l : List α} {k : List β} (each : List.Forall₂ R l k) : Option.Rel R l.head? k.head? := by
  cases each with
  | nil => exact .none
  | cons related _ => exact .some related

theorem relRefl {R : α → α → Prop} (refl : ∀ a, R a a) (x : Option α) : Option.Rel R x x := by
  cases x with
  | none => exact .none
  | some a => exact .some (refl a)

end

section

variable {next : ResolvedType → List ResolvedType}
  (step : ∀ {t u : ResolvedType}, t.Same u → List.Forall₂ ResolvedType.Same (next t) (next u))

theorem nextClassSame (visited : List SymbolRef) {queue queue' : List ResolvedType}
    (each : List.Forall₂ ResolvedType.Same queue queue') :
    Option.Rel (fun a b => a.1 = b.1 ∧ a.2.1.Same b.2.1 ∧ List.Forall₂ ResolvedType.Same a.2.2 b.2.2)
      (nextClass visited queue) (nextClass visited queue') := by
  induction each with
  | nil => exact .none
  | cons same rest ih =>
    unfold nextClass
    rw [same.denotes]
    split
    · split
      · exact ih
      · exact .some ⟨rfl,same,rest⟩
    · exact ih

include step

theorem closureSame {fuel : Nat} {visited : List SymbolRef} {queue queue' : List ResolvedType}
    (each : List.Forall₂ ResolvedType.Same queue queue') :
    List.Forall₂ ResolvedType.Same (closure next fuel visited queue) (closure next fuel visited queue') := by
  induction fuel generalizing visited queue queue' with
  | zero => exact .nil
  | succ fuel ih =>
    have related := nextClassSame visited each
    unfold closure
    generalize nextClass visited queue = x, nextClass visited queue' = y at related
    cases related with
    | none => exact .nil
    | @some a b found =>
      obtain ⟨c,t,rest⟩ := a
      obtain ⟨c',u,rest'⟩ := b
      obtain ⟨rfl,same,behind⟩ := found
      exact .cons same (ih (List.rel_append behind (step same)))

end

theorem firstHitSame {β : Type} {R : β → β → Prop} {found : ResolvedType → List β}
    (hit : ∀ {t u : ResolvedType}, t.Same u → List.Forall₂ R (found t) (found u)) {ts us : List ResolvedType}
    (each : List.Forall₂ ResolvedType.Same ts us) : List.Forall₂ R (firstHit found ts) (firstHit found us) := by
  induction each with
  | nil => exact .nil
  | @cons t u _ _ same rest ih =>
    have related := hit same
    unfold firstHit
    generalize found t = x, found u = y at related
    cases related with
    | nil => exact ih
    | cons first later => exact .cons first later

structure Orderless (a : Answers) : Prop where
  resolve : ∀ (site : Site) {b e}, Bindings.Same site.bindings b →
    Option.Rel ResolvedType.Same (a.resolve site e) (a.resolve { site with bindings := b } e)
  superclasses : ∀ {ref} {b c : Bindings}, b.Same c →
    List.Forall₂ ResolvedType.Same (a.superclasses ref b) (a.superclasses ref c)
  owner : ∀ {t u}, t.Same u → Option.Rel ResolvedType.Same (a.owner t) (a.owner u)

section

variable (home : Codebase) {below : Answers} (orderless : below.Orderless)
include orderless

theorem upperBoundSame {t u : ResolvedType} (same : t.Same u) :
    Option.Rel ResolvedType.Same (upperBound home below t) (upperBound home below u) := by
  unfold upperBound
  rw [← same.denoted]
  split
  · cases home.resolve? _ with
    | none => exact .none
    | some found =>
      obtain ⟨d,s⟩ := found
      simp only [bind,Option.bind_some,same.isArray]
      split
      · exact relBind (orderless.resolve ⟨d,_,_,_⟩ same.bindings) fun bound => .some (bound.marked _)
      · exact relBind (relRefl ResolvedType.Same.refl _) fun root => .some (root.marked _)
  · exact .some same

theorem supertypesSame {t u : ResolvedType} (same : t.Same u) :
    List.Forall₂ ResolvedType.Same (supertypes home below t) (supertypes home below u) := by
  unfold supertypes
  rw [← same.denoted,← same.isArray]
  split
  · exact relToList (relRefl ResolvedType.Same.refl _)
  · split
    · exact orderless.superclasses same.bindings
    · exact relToList (upperBoundSame home orderless same)
    · exact .nil

theorem ancestorsSame {t u : ResolvedType} (same : t.Same u) :
    List.Forall₂ ResolvedType.Same (ancestors home below t) (ancestors home below u) := by
  unfold ancestors reach
  rw [← same.denotes,← same.mentions]
  exact closureSame (supertypesSame home orderless) (supertypesSame home orderless same)

theorem homeSupertypesSame {t u : ResolvedType} (same : t.Same u) :
    List.Forall₂ ResolvedType.Same (homeSupertypes home below t) (homeSupertypes home below u) := by
  unfold homeSupertypes declaringCodebase?
  rw [← same.denotes]
  split
  · exact supertypesSame home orderless same
  · exact .nil

omit orderless in
theorem declaredSame {name : String} {accept : Symbol → Bool} {t u : ResolvedType} (same : t.Same u) :
    List.Forall₂ (fun a b => a.1 = b.1 ∧ Bindings.Same a.2 b.2) (declaredMembers home name accept t)
      (declaredMembers home name accept u) := by
  unfold declaredMembers declaringCodebase?
  rw [← same.denotes]
  split
  · rw [List.forall₂_map_left_iff,List.forall₂_map_right_iff]
    exact List.forall₂_same.mpr fun _ _ => ⟨rfl,same.bindings⟩
  · exact .nil

theorem walkStartSame {t u : ResolvedType} (same : t.Same u) :
    Option.Rel ResolvedType.Same (walkStart? below t) (walkStart? below u) := by
  refine relBind (orderless.owner same) fun start => ?_
  rw [← start.isArray]
  split
  · exact .none
  · exact .some start

theorem membersSame {name : String} {accept : Symbol → Bool} {t u : ResolvedType} (same : t.Same u) :
    List.Forall₂ (fun a b => a.1 = b.1 ∧ Bindings.Same a.2 b.2) (membersWhere home below t name accept)
      (membersWhere home below u name accept) := by
  have start := walkStartSame orderless same
  unfold membersWhere reach
  rw [← same.mentions]
  generalize walkStart? below t = x, walkStart? below u = y at start
  cases start with
  | none => exact .nil
  | some start =>
    simp only [firstFoundHit]
    exact firstHitSame (declaredSame home) (closureSame (homeSupertypesSame home orderless) (.cons start .nil))

omit orderless in
theorem stepToSame (ref : SymbolRef) {b c : Bindings} (same : b.Same c) :
    Option.Rel Step.Same (stepTo home ref b) (stepTo home ref c) := by
  unfold stepTo
  cases home.resolve? ref with
  | none => exact .none
  | some found =>
    simp only [bind,Option.bind_some]
    split
    · exact .some (.type ((ResolvedType.Same.refl _).rebound same))
    · split
      · exact .some (.value ref same)
      · exact .none

theorem memberStepSame {name : String} {accept : Symbol → Bool} {t u : ResolvedType} (same : t.Same u) :
    Option.Rel (Option.Rel Step.Same) (memberStep? home below t name accept)
      (memberStep? home below u name accept) := by
  refine relMap (relHead (membersSame home orderless same)) fun {a b} found => ?_
  obtain ⟨ref,_⟩ := a
  obtain ⟨ref',_⟩ := b
  obtain ⟨equal,same⟩ := found
  cases equal
  exact stepToSame home ref same

section

variable {site : Site} {b : Bindings} (same : Bindings.Same site.bindings b)
include same

theorem levelSame (name : String) (typeOnly : Bool) (h : Handle) (s : Symbol) :
    Option.Rel (Option.Rel Step.Same) (levelStep? home below site name typeOnly h s)
      (levelStep? home below { site with bindings := b } name typeOnly h s) := by
  unfold levelStep?
  split
  · dsimp only
    split
    · exact memberStepSame home orderless ((ResolvedType.Same.refl _).rebound same)
    · exact .none
  · exact .some (relRefl Step.Same.refl _)
  · exact relMap (relRefl Eq.refl _) fun equal => equal ▸ stepToSame home _ same
  · exact relMap (relRefl Eq.refl _) fun equal => equal ▸ stepToSame home _ same
  · exact .none
  · exact .none

omit orderless in
theorem typeParameterSame (levels : List (Handle × Symbol)) (name : String) :
    Option.Rel ResolvedType.Same (typeParameter? site.codebase levels site.bindings name)
      (typeParameter? site.codebase levels b name) := by
  refine relFindSome fun (h,s) => ?_
  dsimp only
  split
  · have related := same.bound ⟨site.codebase.ref h,name⟩
    generalize site.bindings.get? _ = x, b.get? _ = y at related
    cases related with
    | none => exact .some (.refl _)
    | some bound => exact .some bound
  · exact .none

theorem firstStepSame (name : String) (typeOnly : Bool) :
    Option.Rel Step.Same (firstStep? home below site name typeOnly)
      (firstStep? home below { site with bindings := b } name typeOnly) := by
  have parameter := typeParameterSame same (site.codebase.table.scopeChain site.scope).levels name
  unfold firstStep?
  dsimp only
  generalize typeParameter? _ _ site.bindings name = x, typeParameter? _ _ b name = y at parameter
  cases parameter with
  | some found => exact .some (.type found)
  | none =>
    have level := relFindSome (l := (site.codebase.table.scopeChain site.scope).levels) fun x =>
      levelSame home orderless same name typeOnly x.1 x.2
    dsimp only
    generalize List.findSome? _ _ = x at level ⊢
    generalize List.findSome? _ _ = y at level ⊢
    cases level with
    | some found => exact found
    | none => exact relRefl Step.Same.refl _

end

theorem typeMemberSame {t u : ResolvedType} (same : t.Same u) (name : String) (isLast : Bool) :
    Option.Rel Step.Same (typeMember? home below t name isLast) (typeMember? home below u name isLast) := by
  refine relBind (orderless.owner same) fun owner => ?_
  rw [← owner.isArray,← owner.primitive]
  split
  · exact .none
  · exact relJoin (memberStepSame home orderless owner)

theorem typeOfSame (ref : SymbolRef) {b c : Bindings} (same : b.Same c) :
    Option.Rel ResolvedType.Same (typeOf home below ref b) (typeOf home below ref c) := by
  unfold typeOf
  cases home.resolve? ref with
  | none => exact .none
  | some found =>
    obtain ⟨d,s⟩ := found
    simp only [bind,Option.bind_some]
    split
    · cases s.parent with
      | none => exact .none
      | some parent => exact orderless.resolve ⟨d,parent,b,.body⟩ same
    · rename_i header _ _ _
      cases header.returnType with
      | none => exact .none
      | some result => exact orderless.resolve ⟨d,ref.handle,b,.body⟩ same
    · exact .some ((ResolvedType.Same.refl _).rebound same)
    · exact .none

theorem nextStepSame (codebase : Codebase) {step step' : Step} (same : step.Same step') (name : String)
    (isLast : Bool) : Option.Rel Step.Same (nextStep? home below codebase step name isLast)
      (nextStep? home below codebase step' name isLast) := by
  cases same with
  | package path => exact relRefl Step.Same.refl _
  | type same => exact typeMemberSame home orderless same name isLast
  | value ref same =>
    exact relBind (typeOfSame home orderless ref same) fun type => typeMemberSame home orderless type name isLast

theorem followSame (codebase : Codebase) (names : List String) {step step' : Step} (same : step.Same step') :
    Option.Rel Step.Same (follow? home below codebase step names) (follow? home below codebase step' names) := by
  induction names generalizing step step' with
  | nil => exact .some same
  | cons name rest ih => exact relBind (nextStepSame home orderless codebase same name rest.isEmpty) ih

section

variable {site : Site} {b : Bindings} (same : Bindings.Same site.bindings b)
include same

theorem namedSame (first : String) (rest : List String) (typeOnly : Bool) :
    Option.Rel ResolvedType.Same (namedType? home below site first rest typeOnly)
      (namedType? home below { site with bindings := b } first rest typeOnly) := by
  refine relBind (firstStepSame home orderless same first typeOnly) fun start => ?_
  refine relBind (followSame home orderless site.codebase rest start) fun last => ?_
  cases last with
  | package => exact .none
  | type last => exact .some last
  | value => exact .none

theorem bindSame (ref : SymbolRef) (pairs : List (TypeParameter × TypeExpr)) {c c' : Bindings}
    (start : c.Same c') : Bindings.Same (bindArguments below site ref pairs c)
      (bindArguments below { site with bindings := b } ref pairs c') := by
  induction pairs generalizing c c' with
  | nil => exact start
  | cons pair rest ih =>
    obtain ⟨parameter,argument⟩ := pair
    refine ih (start.insert _ ?_)
    have bound := orderless.resolve site (e := argument) same
    generalize below.resolve site argument = x, below.resolve { site with bindings := b } argument = y at bound
    cases bound with
    | none => exact .refl _
    | some bound => exact bound

theorem applySame (e : TypeExpr) {t u : ResolvedType} (start : t.Same u) :
    (applyArguments home below site e t).Same
      (applyArguments home below { site with bindings := b } e u) := by
  unfold applyArguments
  dsimp only
  have marked := start.marked (t.isArray || e.isArray)
  rw [← start.isArray,← marked.denotes]
  split
  · rename_i ref s _
    exact marked.rebound (bindSame orderless same ref _ start.bindings)
  · exact marked

theorem resolveSame (e : TypeExpr) : Option.Rel ResolvedType.Same (resolveStep home below site e)
    (resolveStep home below { site with bindings := b } e) := by
  unfold resolveStep
  split
  · exact .none
  · dsimp only
    split
    · exact relRefl ResolvedType.Same.refl _
    · refine relMap (relOr (namedSame home orderless same _ _ true) ?_) (applySame home orderless same e)
      split
      · exact .none
      · exact namedSame home orderless same _ _ false

end

theorem superclassesSame (ref : SymbolRef) {b c : Bindings} (same : b.Same c) :
    List.Forall₂ ResolvedType.Same (superclassesStep home below ref b) (superclassesStep home below ref c) := by
  unfold superclassesStep
  cases home.resolve? ref with
  | none => exact .nil
  | some found =>
    obtain ⟨d,s⟩ := found
    dsimp only
    split
    · rename_i kind header members _
      have named (e : TypeExpr) := relFilter (p := fun t => t.class?.isSome && t.class? ≠ some ref)
        (q := fun t => t.class?.isSome && t.class? ≠ some ref)
        (orderless.resolve ⟨d,ref.handle,b,.header⟩ (e := e) same) fun found => by rw [found.denotes]
      have superclass := relEach named header.superclass
      have interfaces := relFilterMap (l := header.interfaces) named
      generalize header.superclass.bind _ = x at superclass ⊢
      generalize header.superclass.bind _ = y at superclass ⊢
      refine List.rel_append (List.rel_append (relToList superclass) interfaces) ?_
      cases superclass with
      | some => exact .nil
      | none => exact relToList (relRefl ResolvedType.Same.refl _)
    · exact .nil

theorem ownerSame {t u : ResolvedType} (same : t.Same u) :
    Option.Rel ResolvedType.Same (ownerStep home below t) (ownerStep home below u) := by
  unfold ownerStep
  rw [← same.typeVar]
  split
  · exact relBind (upperBoundSame home orderless same) orderless.owner
  · exact .some same

end

theorem depthOrderless (home : Codebase) (depth : Nat) : (atDepth home depth).Orderless := by
  induction depth with
  | zero =>
    refine ⟨fun _ => fun _ => .none,fun _ => .nil,fun {t u} same => ?_⟩
    simp only [atDepth,deepest,← same.typeVar]
    split
    · exact .none
    · exact .some same
  | succ depth ih =>
    exact ⟨fun site _ _ same => resolveSame home ih same _,superclassesSame home ih _,ownerSame home ih⟩

end Answers

namespace Resolver

variable (r : Resolver) {t u p q : ResolvedType}

theorem takesAnySame (same : p.Same q) : r.takesAnyReference p = r.takesAnyReference q := by
  cases same
  rfl

theorem classesSame {ts us : List ResolvedType} (each : List.Forall₂ ResolvedType.Same ts us) (d : SymbolRef) :
    ts.any (·.class? = some d) = us.any (·.class? = some d) := by
  induction each with
  | nil => rfl
  | cons same _ ih => simp only [List.any_cons,same.denotes,ih]

variable (same : t.Same u) (same' : p.Same q)
include same same'

theorem subclassSame : r.isSubclass t p = r.isSubclass u q := by
  have above := Answers.ancestorsSame r.home (Answers.depthOrderless r.home r.depth) (same.marked false)
  simp only [isSubclass,Answers.isSubclass,← same.denotes,← same'.denotes]
  split
  · exact congrArg (_ || ·) (classesSame above _)
  · rfl

theorem elementSame : r.widensElement t p = r.widensElement u q := by
  have bound := Answers.upperBoundSame r.home (Answers.depthOrderless r.home r.depth) same
  simp only [widensElement,upperBound,answers,same.reference,same'.reference,r.takesAnySame same']
  generalize Answers.upperBound _ _ t = x, Answers.upperBound _ _ u = y at bound
  cases bound with
  | some bound => simp only [r.subclassSame bound same']
  | none => rfl

theorem widensSame : r.widensReference t p = r.widensReference u q := by
  have inner := r.elementSame (same.marked false) (same'.marked false)
  have outer := r.elementSame same same'
  have any := r.takesAnySame same'
  cases same
  cases same'
  simp only [widensReference,ResolvedType.element,ResolvedType.sameType,inner,outer,any]
  rfl

theorem strictSame : r.isStrictlyAssignable t p = r.isStrictlyAssignable u q := by
  have widens := r.widensSame same same'
  cases same
  cases same'
  simp only [isStrictlyAssignable,ResolvedType.sameType,widens]

theorem looseSame : r.isLooselyAssignable t p = r.isLooselyAssignable u q := by
  have strict := r.strictSame same same'
  have any := r.takesAnySame same'
  have boxed (x : ResolvedType) := r.strictSame (.refl x) same'
  cases same
  cases same'
  simp only [isLooselyAssignable,widensPrimitive,boxes,unboxes,strict,any,boxed]
  rfl

end Resolver

end CodeIndex
