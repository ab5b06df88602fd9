import CodeIndex.Proofs.Acceptance
import CodeIndex.Proofs.Fidelity
import CodeIndex.Proofs.Scopes

/-! The symbol that stands for a declaration. A scope lists what it keeps of its members name by name, in the
order of declaration, so the place of a member among those of its name tells which symbol is its own. The
types and methods found in an indexed file are exactly the symbols of its declarations. -/
namespace CodeIndex
namespace SymbolTable

def standing? (t : SymbolTable) (p : Handle) (m : MemberDecl) (later : List MemberDecl) : Option Handle :=
  if later.any fun other => other.draft.replaces m.draft then none
  else
    let after := (Draft.kept MemberDecl.draft later).filter fun other => other.draft.name = m.draft.name
    (t.declared p m.draft.name).reverse[after.length]?

mutual

def standings (t : SymbolTable) (h : Option Handle) : MemberDecl → List (MemberDecl × Option Handle)
  | .field _ => []
  | .method decl => [(.method decl,h)]
  | .type outline members => (.type outline members,h) :: t.standingsAll h members

def standingsAll (t : SymbolTable) (p : Option Handle) : List MemberDecl → List (MemberDecl × Option Handle)
  | [] => []
  | m :: rest => t.standings (p.bind fun p => t.standing? p m rest) m ++ t.standingsAll p rest

end

theorem Lists.standing {t : SymbolTable} {p h : Handle} {m : MemberDecl} {later : List MemberDecl}
    {early late : List (Handle × MemberDecl)} (lists : t.Lists p MemberDecl.draft (early ++ (h,m) :: late))
    (kept : late.map Prod.snd = Draft.kept MemberDecl.draft later)
    (stays : (later.any fun other => other.draft.replaces m.draft) = false) :
    t.standing? p m later = some h := by
  have count : ((Draft.kept MemberDecl.draft later).filter fun other =>
      other.draft.name = m.draft.name).length =
      (late.filter fun e => e.2.draft.name = m.draft.name).length := by
    rw [← kept,List.filter_map,List.length_map]
    rfl
  rw [standing?,stays,if_neg Bool.false_ne_true]
  dsimp only
  rw [count,lists,List.filter_append,List.filter_cons_of_pos (by simp)]
  simp

mutual

theorem standingsNone (t : SymbolTable) : (m : MemberDecl) → ∀ e ∈ t.standings none m, e.2 = none
  | .field _ => fun _ => List.not_mem_nil.elim
  | .method _ => List.forall_mem_singleton.mpr rfl
  | .type _ members => List.forall_mem_cons.mpr ⟨rfl,standingsAllNone t members⟩

theorem standingsAllNone (t : SymbolTable) :
    (members : List MemberDecl) → ∀ e ∈ t.standingsAll none members, e.2 = none
  | [] => fun _ => List.not_mem_nil.elim
  | m :: rest => List.forall_mem_append.mpr ⟨standingsNone t m,standingsAllNone t rest⟩

end

theorem memStandings {t : SymbolTable} {p : Handle} {members : List MemberDecl}
    (early : List (Handle × MemberDecl)) {entries : List (Handle × MemberDecl)}
    (lists : t.Lists p MemberDecl.draft (early ++ entries))
    (kept : entries.map Prod.snd = Draft.kept MemberDecl.draft members) {d : MemberDecl} {x : Handle} :
    (d,some x) ∈ t.standingsAll (some p) members ↔
      ∃ e ∈ entries, (d,some x) ∈ t.standings (some e.1) e.2 := by
  induction members generalizing early entries with
  | nil =>
    rw [List.map_eq_nil_iff.mp kept]
    simp [standingsAll]
  | cons m rest ih =>
    rw [standingsAll,List.mem_append,Option.bind_some]
    unfold Draft.kept at kept
    split at kept
    · rename_i replaced
      have nothing : (d,some x) ∉ t.standings (t.standing? p m rest) m := by
        rw [standing?,if_pos replaced]
        intro listed
        cases standingsNone t m _ listed
      rw [ih early lists kept]
      simp [nothing]
    · rename_i stays
      obtain ⟨⟨h,m'⟩,others,rfl,rfl,tail⟩ := List.map_eq_cons_iff.mp kept
      have lists' : t.Lists p MemberDecl.draft ((early ++ [(h,m')]) ++ others) := by simpa using lists
      rw [ih _ lists' tail,lists.standing tail (Bool.eq_false_iff.mpr stays)]
      simp

theorem Carries.stands {t : SymbolTable} {p : Handle} {members : List MemberDecl}
    (each : ∀ m ∈ members, ∀ p h, t.Mirrors p h m.plan → ∀ d x, (d,some x) ∈ t.standings (some h) m →
      ∃ q, t.Mirrors q x d.plan)
    (carries : t.Carries p (MemberDecl.plans members)) {d : MemberDecl} {x : Handle}
    (listed : (d,some x) ∈ t.standingsAll (some p) members) : ∃ q, t.Mirrors q x d.plan := by
  obtain ⟨entries,kept,lists,mirrors⟩ := carries.entries
  obtain ⟨e,inside,stands⟩ := (memStandings [] lists kept).mp listed
  have declared := (Draft.keptSublist _ _).subset (kept ▸ List.mem_map.mpr ⟨e,inside,rfl⟩)
  exact each e.2 declared p e.1 (mirrors e inside) d x stands

mutual

theorem standsMember {t : SymbolTable} : (m : MemberDecl) → ∀ p h, t.Mirrors p h m.plan →
    ∀ d x, (d,some x) ∈ t.standings (some h) m → ∃ q, t.Mirrors q x d.plan
  | .field _ => fun _ _ _ _ _ => List.not_mem_nil.elim
  | .method _ => fun p h mirrors d x listed => by
    cases List.mem_singleton.mp listed
    exact ⟨p,mirrors⟩
  | .type outline members => fun p h mirrors d x listed => by
    rcases List.mem_cons.mp listed with self | inner
    · cases self
      exact ⟨p,mirrors⟩
    · exact (mirrorsIff.mp mirrors).2.stands (standsMembers members) inner

theorem standsMembers {t : SymbolTable} : (members : List MemberDecl) → ∀ m ∈ members, ∀ p h,
    t.Mirrors p h m.plan → ∀ d x, (d,some x) ∈ t.standings (some h) m → ∃ q, t.Mirrors q x d.plan
  | [] => fun _ => List.not_mem_nil.elim
  | m :: rest => List.forall_mem_cons.mpr ⟨standsMember m,standsMembers rest⟩

end

mutual

theorem standingsInner {t : SymbolTable} {q : Handle} {outline : TypeOutline} {inner : List MemberDecl} :
    (m : MemberDecl) → ∀ h, (.type outline inner,some q) ∈ t.standings h m →
      t.standingsAll (some q) inner ⊆ t.standings h m
  | .field _ => fun _ => List.not_mem_nil.elim
  | .method _ => fun h listed => by cases List.mem_singleton.mp listed
  | .type _ members => fun h listed => by
    rw [standings] at listed ⊢
    rcases List.mem_cons.mp listed with self | deeper
    · cases self
      exact List.subset_cons_self _ _
    · exact List.subset_cons_of_subset _ (standingsAllInner members h deeper)

theorem standingsAllInner {t : SymbolTable} {q : Handle} {outline : TypeOutline} {inner : List MemberDecl} :
    (members : List MemberDecl) → ∀ p, (.type outline inner,some q) ∈ t.standingsAll p members →
      t.standingsAll (some q) inner ⊆ t.standingsAll p members
  | [] => fun _ => List.not_mem_nil.elim
  | m :: rest => fun p listed => by
    rw [standingsAll] at listed ⊢
    rcases List.mem_append.mp listed with first | later
    · exact List.subset_append_of_subset_left _ (standingsInner m _ first)
    · exact List.subset_append_of_subset_right _ (standingsAllInner rest p later)

end

section

variable {t : SymbolTable} (c : t.Consistent) {p x : Handle} {o s : Symbol}
  (owner : t.symbol? p = some o) (plain : o.kind ≠ .package) (live : t.symbol? x = some s)
  (parent : s.parent = some p)
include c owner plain live parent

theorem Consistent.declaredOwn : x ∈ t.declared p s.name := by
  rw [declaredShelf owner]
  exact c.ownHome live parent owner plain ▸ c.onShelf live parent owner

theorem Carries.child {plans : List Plan} (carries : t.Carries p plans) :
    ∃ plan ∈ plans, t.Mirrors p x plan := by
  obtain ⟨entries,kept,lines,each⟩ := carries
  have listed := c.declaredOwn owner plain live parent
  rw [lines.lists] at listed
  obtain ⟨e,inside,rfl⟩ := List.mem_map.mp listed
  have entry := List.mem_of_mem_filter inside
  exact ⟨e.2,(Draft.keptSublist _ _).subset (kept ▸ List.mem_map.mpr ⟨e,entry,rfl⟩),each e entry⟩

theorem Carries.member {members : List MemberDecl} (carries : t.Carries p (MemberDecl.plans members)) :
    ∃ m, t.Mirrors p x m.plan ∧ (m.draft.kind.isVariable ∨ (m,some x) ∈ t.standingsAll (some p) members) := by
  obtain ⟨entries,kept,lists,each⟩ := carries.entries
  have listed := c.declaredOwn owner plain live parent
  rw [lists] at listed
  obtain ⟨e,inside,rfl⟩ := List.mem_map.mp listed
  have entry := List.mem_of_mem_filter inside
  refine ⟨e.2,each e entry,?_⟩
  cases member : e.2 with
  | field decl => exact .inl rfl
  | method | type =>
    refine .inr ((memStandings [] lists kept).mpr ⟨e,entry,?_⟩)
    simp [member,standings]

theorem Consistent.ownerNoVariable : ¬o.kind.isVariable := by
  intro variable'
  have listed := c.declaredOwn owner plain live parent
  rw [declaredShelf owner] at listed
  obtain ⟨_,_,_,_,_,body⟩ := o
  cases body with
  | value => exact List.not_mem_nil listed
  | _ => simp [Symbol.kind,Body.kind,SymbolKind.isVariable] at variable'

end

theorem Carries.within {t : SymbolTable} (c : t.Consistent) {p x : Handle} {o s : Symbol}
    {members : List MemberDecl} (carries : t.Carries p (MemberDecl.plans members))
    (owner : t.symbol? p = some o) (plain : o.kind ≠ .package) (within : t.Within p x)
    (live : t.symbol? x = some s) :
    x = p ∨ s.kind.isVariable ∨ ∃ d, (d,some x) ∈ t.standingsAll (some p) members := by
  induction within generalizing s with
  | self => exact .inl rfl
  | @inner x s' q live' parent outer ih =>
    obtain rfl : s' = s := Option.some.inj (live'.symm.trans live)
    obtain ⟨above,holder,_⟩ := c.parentLive live parent
    have plain' := c.noPackageWithin owner plain outer holder
    have kind : ∀ {plan}, t.Mirrors q x plan → s'.kind = plan.draft.kind := by
      intro plan mirrors
      obtain ⟨s₀,live₀,fits⟩ := mirrors.held
      cases Option.some.inj (live.symm.trans live₀)
      exact fits.kind
    rcases ih holder with rfl | variable' | ⟨d,stands⟩
    · obtain ⟨m,mirrors,variable' | stands⟩ := carries.member c holder plain' live parent
      · exact .inr (.inl (by rw [kind mirrors,m.planDraft]; exact variable'))
      · exact .inr (.inr ⟨m,stands⟩)
    · exact (c.ownerNoVariable holder plain' live parent variable').elim
    · obtain ⟨q',mirrors⟩ := carries.stands (standsMembers members) stands
      cases d with
      | field decl =>
        obtain ⟨plan,none,_⟩ := (mirrorsIff.mp mirrors).2.child c holder plain' live parent
        exact (List.not_mem_nil none).elim
      | method decl =>
        obtain ⟨plan,inner,mirrors'⟩ := (mirrorsIff.mp mirrors).2.child c holder plain' live parent
        obtain ⟨v,declared,rfl⟩ := List.mem_map.mp inner
        refine .inr (.inl ?_)
        exact kind mirrors' ▸ (Draft.plainInner decl v declared).2
      | type outline inner =>
        obtain ⟨m,mirrors',variable' | stands''⟩ :=
          (mirrorsIff.mp mirrors).2.member c holder plain' live parent
        · exact .inr (.inl (by rw [kind mirrors',m.planDraft]; exact variable'))
        · exact .inr (.inr ⟨m,standingsAllInner members _ stands stands''⟩)

end SymbolTable
end CodeIndex
