import CodeIndex.Proofs.Inheritance

/-! The classes of a hierarchy. A walk comes to everything that lies ahead of it. Where the
classes that a type inherits from depend on nothing but its class, walks follow one relation between classes,
cycles or not, and a class is a subclass of what that relation leads to. -/
namespace CodeIndex

namespace Answers

def Met (visited : List SymbolRef) (walk : List ResolvedType) (c : SymbolRef) : Prop :=
  c ∈ visited ∨ ∃ t ∈ walk, t.class? = some c

theorem superclassCases {home : Codebase} {below : Answers} {ref : SymbolRef} {bindings : Bindings}
    {u : ResolvedType} (listed : u ∈ superclassesStep home below ref bindings) :
    ∃ d s, home.resolve? ref = some (d,s) ∧
      ((∃ e ∈ s.inherits, below.resolve ⟨d,ref.handle,bindings,.header⟩ e = some u ∧ u.class?.isSome) ∨
        home.rootType? d = some u) := by
  unfold superclassesStep at listed
  split at listed
  · cases listed
  · rename_i d s found
    refine ⟨d,s,found,?_⟩
    split at listed
    · rename_i kind header members body
      simp only [List.mem_append,Option.mem_toList,List.mem_filterMap] at listed
      simp only [Symbol.inherits,body,List.mem_append,Option.mem_toList]
      rcases listed with (superclass | ⟨e,written,interface⟩) | root
      · obtain ⟨e,written,kept⟩ := Option.bind_eq_some_iff.mp superclass
        obtain ⟨resolved,denotes⟩ := Option.filter_eq_some_iff.mp kept
        exact .inl ⟨e,.inl written,resolved,(Bool.and_eq_true_iff.mp denotes).1⟩
      · obtain ⟨resolved,denotes⟩ := Option.filter_eq_some_iff.mp interface
        exact .inl ⟨e,.inr written,resolved,(Bool.and_eq_true_iff.mp denotes).1⟩
      · split at root
        · cases root
        · exact .inr (Option.filter_eq_some_iff.mp root).1
    · cases listed

theorem aroundWalk {home : Codebase} {t : ResolvedType} {next : ResolvedType → List ResolvedType}
    (step : ∀ {u : ResolvedType}, u.Over (home.around t) → ∀ v ∈ next u, v.Over (home.around t))
    (visited : List SymbolRef) {queue : List ResolvedType} (start : ∀ u ∈ queue, u.Over (home.around t)) :
    Walk ResolvedType.class? next visited queue (closure next (reach home t) visited queue) := by
  have inside : ∀ {u : ResolvedType} {c}, u.Over (home.around t) → u.class? = some c →
      c ∈ home.symbols.map Prod.fst ++ t.classes := fun near denotes => near.class denotes
  have world := home.aroundCount t
  simp only [unvisited,List.not_mem_nil,not_false_eq_true,decide_true,List.filter_true] at world
  exact closureWalk inside (fun near _ => step near) start ((List.length_filter_le _ _).trans world)

theorem rootDenotes {home d : Codebase} {t : ResolvedType} (found : home.rootType? d = some t) :
    ∃ ref, t = .ofSymbol ref := by
  simp only [Codebase.rootType?,bind,Option.bind_eq_some_iff] at found
  obtain ⟨_,_,ref,_,last⟩ := found
  exact ⟨ref,(Option.some.inj last).symm⟩

end Answers

namespace Resolver

variable {r : Resolver}

theorem supertypesOf {t : ResolvedType} {c : SymbolRef} (denotes : t.class? = some c)
    (flat : t.isArray = false) : r.supertypes t = r.answers.superclasses c t.bindings := by
  obtain ⟨denoted,isArray,bindings⟩ := t
  cases denoted with
  | symbol ref =>
    cases Option.some.inj denotes
    simp only [supertypes,Answers.supertypes,show isArray = false from flat,Bool.false_eq_true,if_false]
  | primitive | typeVar => cases denotes

theorem supertypeCases {t u : ResolvedType} {c : SymbolRef} (denotes : t.class? = some c)
    (flat : t.isArray = false) (above : u ∈ r.supertypes t) : ∃ d s, r.home.resolve? c = some (d,s) ∧
      ((∃ e ∈ s.inherits, ∃ below : Nat, r.depth = below + 1 ∧ (Answers.atDepth r.home below).resolve
        ⟨d,c.handle,t.bindings,.header⟩ e = some u ∧ u.class?.isSome) ∨ r.home.rootType? d = some u) := by
  rw [supertypesOf denotes flat] at above
  obtain ⟨home,depth⟩ := r
  cases depth with
  | zero => cases above
  | succ depth =>
    obtain ⟨d,s,found,named | root⟩ := Answers.superclassCases above
    · obtain ⟨e,written,resolved,class_⟩ := named
      exact ⟨d,s,found,.inl ⟨e,written,depth,rfl,resolved,class_⟩⟩
    · exact ⟨d,s,found,.inr root⟩

theorem supertypesDenote {t u : ResolvedType} (denotes : t.class?.isSome) (flat : t.isArray = false)
    (above : u ∈ r.supertypes t) : u.class?.isSome := by
  obtain ⟨c,denotes⟩ := Option.isSome_iff_exists.mp denotes
  obtain ⟨d,s,_,⟨_,_,_,_,_,class_⟩ | root⟩ := supertypeCases denotes flat above
  · exact class_
  · obtain ⟨ref,rfl⟩ := Answers.rootDenotes root
    rfl

theorem ancestorsWalk (distinct : r.home.Distinct) (t : ResolvedType) :
    Answers.Walk ResolvedType.class? r.supertypes t.class?.toList (r.supertypes t) (r.ancestors t) := by
  have covers := r.home.aroundCovers t
  have step : ∀ {u : ResolvedType}, u.Over (r.home.around t) → ∀ v ∈ r.supertypes u, v.Over (r.home.around t) :=
    Answers.supertypesOver covers distinct (Answers.depthOver covers distinct r.depth)
  exact Answers.aroundWalk step _ (step (r.home.overAround t))

theorem ancestorsMeet (distinct : r.home.Distinct) (t : ResolvedType) :
    (∀ u ∈ r.supertypes t, ∀ d, u.class? = some d → Answers.Met t.class?.toList (r.ancestors t) d) ∧
    ∀ u ∈ r.ancestors t, ∀ v ∈ r.supertypes u, ∀ d, v.class? = some d →
      Answers.Met t.class?.toList (r.ancestors t) d :=
  (ancestorsWalk distinct t).meets

theorem subclassMeets {t u : ResolvedType} {c d : SymbolRef} (denotes : t.class? = some c)
    (denotes' : u.class? = some d) :
    r.isSubclass t u ↔ c = d ∨ ∃ v ∈ r.ancestors t.element, v.class? = some d := by
  simp [isSubclass,Answers.isSubclass,denotes,denotes',ancestors]

structure Classwise (r : Resolver) : Prop where
  flat : ∀ {t u : ResolvedType}, t.class?.isSome → t.isArray = false → u ∈ r.supertypes t → u.isArray = false
  classes : ∀ {t t' u : ResolvedType}, t.class?.isSome → t.isArray = false → t'.isArray = false →
    t.class? = t'.class? → u ∈ r.supertypes t → ∃ u' ∈ r.supertypes t', u'.class? = u.class?

def Extends (r : Resolver) (c d : SymbolRef) : Prop :=
  ∃ u ∈ r.supertypes (.ofSymbol c), u.class? = some d

namespace Classwise

variable (classwise : r.Classwise)
include classwise

theorem extendsIff {t : ResolvedType} {c d : SymbolRef} (denotes : t.class? = some c)
    (flat : t.isArray = false) : (∃ u ∈ r.supertypes t, u.class? = some d) ↔ r.Extends c d := by
  have bare : (ResolvedType.ofSymbol c).class? = t.class? := denotes.symm
  constructor
  · rintro ⟨u,above,class_⟩
    obtain ⟨u',above',same⟩ := classwise.classes (by simp [denotes]) flat rfl bare.symm above
    exact ⟨u',above',same.trans class_⟩
  · rintro ⟨u,above,class_⟩
    obtain ⟨u',above',same⟩ := classwise.classes (by simp [bare,denotes]) rfl flat bare above
    exact ⟨u',above',same.trans class_⟩

theorem ancestorsFollow {t : ResolvedType} {c : SymbolRef} (denotes : t.class? = some c)
    (flat : t.isArray = false) : ∀ u ∈ r.ancestors t,
      u.isArray = false ∧ ∃ d, u.class? = some d ∧ Relation.ReflTransGen r.Extends c d := by
  have step : ∀ {u : ResolvedType},
      (u.isArray = false ∧ ∃ d, u.class? = some d ∧ Relation.ReflTransGen r.Extends c d) →
      ∀ v ∈ r.supertypes u, v.isArray = false ∧ ∃ d, v.class? = some d ∧ Relation.ReflTransGen r.Extends c d := by
    rintro u ⟨flat,d,denotes,follows⟩ v above
    have some : u.class?.isSome := by simp [denotes]
    obtain ⟨e,denotes'⟩ := Option.isSome_iff_exists.mp (supertypesDenote some flat above)
    exact ⟨classwise.flat some flat above,e,denotes',
      follows.tail ((classwise.extendsIff denotes flat).mp ⟨v,above,denotes'⟩)⟩
  exact fun u met => (Answers.closureAll step (step ⟨flat,c,denotes,.refl⟩) u met).1

theorem followedMet (distinct : r.home.Distinct) {t : ResolvedType} {c d : SymbolRef}
    (denotes : t.class? = some c) (flat : t.isArray = false) (follows : Relation.ReflTransGen r.Extends c d) :
    c = d ∨ ∃ u ∈ r.ancestors t, u.class? = some d := by
  obtain ⟨first,onward⟩ := ancestorsMeet distinct t
  have met : ∀ {e}, Answers.Met t.class?.toList (r.ancestors t) e →
      c = e ∨ ∃ u ∈ r.ancestors t, u.class? = some e := by
    simp [Answers.Met,denotes,eq_comm]
  -- Where the last step starts was met, so where it ends was queued there.
  induction follows with
  | refl => exact .inl rfl
  | tail _ last ih =>
    rcases ih with rfl | ⟨u,seen,class_⟩
    · obtain ⟨v,above,class_⟩ := (classwise.extendsIff denotes flat).mpr last
      exact met (first v above _ class_)
    · have flat' := (classwise.ancestorsFollow denotes flat u seen).1
      obtain ⟨v,above,class_'⟩ := (classwise.extendsIff class_ flat').mpr last
      exact met (onward u seen v above _ class_')

theorem subclassIff (distinct : r.home.Distinct) {t u : ResolvedType} {c d : SymbolRef}
    (denotes : t.class? = some c) (denotes' : u.class? = some d) :
    r.isSubclass t u ↔ Relation.ReflTransGen r.Extends c d := by
  have own : t.element.class? = some c := denotes
  rw [subclassMeets denotes denotes']
  constructor
  · rintro (rfl | ⟨v,met,class_⟩)
    · exact .refl
    · obtain ⟨_,e,denotes,follows⟩ := classwise.ancestorsFollow own rfl v met
      exact Option.some.inj (denotes.symm.trans class_) ▸ follows
  · exact classwise.followedMet distinct own rfl

end Classwise

end Resolver

def SymbolTable.Plain (t : SymbolTable) (scope : Handle) (e : TypeExpr) : Prop :=
  t.Scalar scope e ∧ e.segments.length = 1 ∧
    ∃ s ∈ t.symbol? scope, ∃ f ∈ s.parent, ∃ o ∈ t.symbol? f, o.kind = .file

instance (t : SymbolTable) (scope : Handle) (e : TypeExpr) : Decidable (t.Plain scope e) := by
  unfold SymbolTable.Plain SymbolTable.Scalar
  infer_instance

def Codebase.PlainHeaders (home : Codebase) : Prop :=
  ∀ d ∈ home.chain, ∀ entry ∈ d.table.symbols.toList, ∀ e ∈ entry.2.inherits, d.table.Plain entry.1 e

instance (home : Codebase) : Decidable home.PlainHeaders := by
  unfold Codebase.PlainHeaders
  infer_instance

namespace Answers

variable (home : Codebase) {d : Codebase} (below : Answers) {h : Handle} {e : TypeExpr}

theorem applyDenotes (site : Site) (e : TypeExpr) (t : ResolvedType) :
    (applyArguments home below site e t).class? = t.class? := by
  unfold applyArguments
  dsimp only
  split <;> rfl

theorem inheritsBody {s : Symbol} (written : e ∈ s.inherits) :
    ∃ kind header members, s.body = .type kind header members := by
  unfold Symbol.inherits at written
  split at written
  · exact ⟨_,_,_,by assumption⟩
  · cases written

theorem inheritedAlike {f f' : TypeExpr → Option ResolvedType} {header : TypeHeader} (root : Option ResolvedType)
    (same : ∀ e ∈ header.superclass.toList ++ header.interfaces,
      (f e).map ResolvedType.class? = (f' e).map ResolvedType.class?) :
    let inherited f := (header.superclass.bind f).toList ++ header.interfaces.filterMap f ++
      (match header.superclass.bind f with
        | some _ => none
        | none => root).toList
    (inherited f).map ResolvedType.class? = (inherited f').map ResolvedType.class? := by
  have superclass : (header.superclass.bind f).map ResolvedType.class? =
      (header.superclass.bind f').map ResolvedType.class? := by
    cases written : header.superclass with
    | none => rfl
    | some e => exact same e (by simp [written])
  have interfaces : (header.interfaces.filterMap f).map ResolvedType.class? =
      (header.interfaces.filterMap f').map ResolvedType.class? := by
    rw [List.map_filterMap,List.map_filterMap]
    exact List.filterMap_congr fun e inside => same e (by simp [inside])
  simp only [List.map_append,interfaces]
  generalize header.superclass.bind f = found, header.superclass.bind f' = found' at superclass ⊢
  cases found <;> cases found' <;> simp_all

section

variable (consistent : d.table.Consistent) {s : Symbol} (live : d.table.symbol? h = some s)
  (written : e ∈ s.inherits) (plain : d.table.Plain h e) (bindings bindings' : Bindings)
include consistent live written plain

theorem plainNamed {name : String} (alone : e.segments = [name]) (typeOnly : Bool) :
    namedType? home below ⟨d,h,bindings,.header⟩ name [] typeOnly =
      namedType? home below ⟨d,h,bindings',.header⟩ name [] typeOnly := by
  obtain ⟨⟨_,free⟩,_,s',live',f,parent,o,owner,file⟩ := plain
  cases Option.some.inj (live.symm.trans live')
  obtain ⟨levels,around⟩ := consistent.outward owner
  have outward := SymbolTable.Outward.inner live parent around
  obtain ⟨_,rest,rfl,owner'⟩ := around.head
  cases Option.some.inj (owner.symm.trans owner')
  simp only [outward.chain,alone] at free
  have undeclared : ∀ level ∈ (h,s) :: (f,o) :: rest, ∀ p ∈ level.2.typeParameters, p.name ≠ name :=
    fun level inside p declared same => free level inside p declared (by rw [same])
  obtain ⟨_,_,_,body⟩ := inheritsBody written
  obtain ⟨source,members,scopes,body'⟩ : ∃ source members scopes, o.body = .file source members scopes := by
    unfold Symbol.kind at file
    cases made : o.body <;> simp_all [Body.kind]
  have decided (b : Bindings) : firstStep? home below ⟨d,h,b,.header⟩ name typeOnly = _ :=
    firstLevels outward undeclared typeOnly
  rw [namedAlone,namedAlone,decided,decided]
  simp [levelStep?,body,body']

theorem plainResolved (depth : Nat) :
    ((atDepth home depth).resolve ⟨d,h,bindings,.header⟩ e).map ResolvedType.class? =
      ((atDepth home depth).resolve ⟨d,h,bindings',.header⟩ e).map ResolvedType.class? := by
  cases depth with
  | zero => rfl
  | succ depth =>
    obtain ⟨name,alone⟩ := List.length_eq_one_iff.mp plain.2.1
    change (resolveStep home (atDepth home depth) ⟨d,h,bindings,.header⟩ e).map _ =
      (resolveStep home (atDepth home depth) ⟨d,h,bindings',.header⟩ e).map _
    have same := plainNamed home (atDepth home depth) consistent live written plain bindings bindings' alone true
    simp only [resolveStep,alone,same,List.isEmpty_nil,if_true]
    split
    · rfl
    · simp only [Option.map_map,Function.comp_def,applyDenotes]

theorem plainInherited (depth : Nat) (ref : SymbolRef) :
    (((atDepth home depth).resolve ⟨d,h,bindings,.header⟩ e).filter fun t =>
        t.class?.isSome && t.class? ≠ some ref).map ResolvedType.class? =
      (((atDepth home depth).resolve ⟨d,h,bindings',.header⟩ e).filter fun t =>
        t.class?.isSome && t.class? ≠ some ref).map ResolvedType.class? := by
  have same := plainResolved home consistent live written plain bindings bindings' depth
  generalize (atDepth home depth).resolve ⟨d,h,bindings,.header⟩ e = found at same ⊢
  generalize (atDepth home depth).resolve ⟨d,h,bindings',.header⟩ e = found' at same ⊢
  cases found <;> cases found' <;> simp_all [Option.filter]

end

theorem plainSuperclasses (reached : home.Reached) (plain : home.PlainHeaders) (depth : Nat) (ref : SymbolRef)
    (bindings bindings' : Bindings) :
    ((atDepth home depth).superclasses ref bindings).map ResolvedType.class? =
      ((atDepth home depth).superclasses ref bindings').map ResolvedType.class? := by
  cases depth with
  | zero => rfl
  | succ depth =>
    change (superclassesStep home (atDepth home depth) ref bindings).map _ =
      (superclassesStep home (atDepth home depth) ref bindings').map _
    unfold superclassesStep
    cases found : home.resolve? ref with
    | none => rfl
    | some result =>
      obtain ⟨d,s⟩ := result
      obtain ⟨inside,_,live⟩ := Codebase.resolveChain.mp found
      have entry := (Arena.memToList d.table.symbols ref.handle s).mpr live
      have same : ∀ e ∈ s.inherits, _ := fun e written =>
        plainInherited home (reached.chain inside) live written (plain d inside _ entry e written) bindings
          bindings' depth ref
      dsimp only
      split
      · rename_i kind header members body
        simp only [Symbol.inherits,body] at same
        exact inheritedAlike _ same
      · rfl

end Answers

namespace Resolver

theorem plainClasswise {r : Resolver} (distinct : r.home.Distinct) (reached : r.home.Reached)
    (plain : r.home.PlainHeaders) : r.Classwise where
  flat := by
    intro t u denotes flat above
    obtain ⟨c,denotes⟩ := Option.isSome_iff_exists.mp denotes
    rw [supertypesOf denotes flat] at above
    have scalar : r.home.ScalarHeaders := fun d inside entry held e written =>
      (plain d inside entry held e written).1
    have known := (r.home.overAround t).bindings
    exact Answers.superclassesScalar (r.home.aroundCovers t) distinct scalar r.depth known u above
  classes := by
    intro t t' u denotes flat flat' same above
    obtain ⟨c,denotes⟩ := Option.isSome_iff_exists.mp denotes
    have classes := Answers.plainSuperclasses r.home reached plain r.depth c t.bindings t'.bindings
    rw [supertypesOf denotes flat] at above
    rw [supertypesOf (same ▸ denotes) flat']
    have listed : u.class? ∈ (r.answers.superclasses c t.bindings).map ResolvedType.class? :=
      List.mem_map_of_mem above
    rw [answers,classes] at listed
    obtain ⟨u',above',same'⟩ := List.mem_map.mp listed
    exact ⟨u',above',same'⟩

end Resolver
end CodeIndex
