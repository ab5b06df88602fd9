import CodeIndex.Proofs.Placement

/-! Indexing is faithful to the declarations. A body keeps all its methods, and of the other declarations
those whose name no later one takes; each scope lists what it keeps, name by name and in order, as it was
declared. A declaration that is replaced goes with all that is inside it, and nothing else goes. -/
namespace CodeIndex

def MemberDecl.draft : MemberDecl → Draft
  | .field decl => .ofField decl
  | .method decl => .ofMethod decl
  | .type outline _ => .ofType outline

def FileDecl.members (decl : FileDecl) : List MemberDecl :=
  decl.types.map fun type => .type type.outline type.members

inductive Plan where
  | mk (draft : Draft) (inner : List Plan)

namespace Plan

def draft : Plan → Draft
  | ⟨draft,_⟩ => draft

def leaf (d : Draft) : Plan := ⟨d,[]⟩

end Plan

def MethodDecl.inner (decl : MethodDecl) : List Draft :=
  decl.parameters.map (.ofVariable .parameter) ++ decl.locals.map (.ofVariable .localVariable)

mutual

def MemberDecl.plan : MemberDecl → Plan
  | .field decl => .leaf (.ofField decl)
  | .method decl => ⟨.ofMethod decl,decl.inner.map .leaf⟩
  | .type outline members => ⟨.ofType outline,MemberDecl.plans members⟩

def MemberDecl.plans : List MemberDecl → List Plan
  | [] => []
  | m :: rest => m.plan :: MemberDecl.plans rest

end

theorem MemberDecl.planDraft (m : MemberDecl) : m.plan.draft = m.draft := by
  cases m <;> rfl

theorem MemberDecl.plansMap (members : List MemberDecl) :
    MemberDecl.plans members = members.map MemberDecl.plan := by
  induction members with
  | nil => rfl
  | cons m rest ih => rw [MemberDecl.plans,ih,List.map_cons]

mutual

def MemberDecl.Separate : MemberDecl → Prop
  | .field _ => True
  | .method decl => ((decl.parameters ++ decl.locals).map (·.name)).Nodup
  | .type _ members => MemberDecl.SeparateAll members

def MemberDecl.SeparateAll : List MemberDecl → Prop
  | [] => True
  | m :: rest => m.Separate ∧ MemberDecl.SeparateAll rest

end

namespace Draft

def replaces (d earlier : Draft) : Bool :=
  d.kind ≠ .method && earlier.kind ≠ .method && earlier.name = d.name

def kept (draft : α → Draft) : List α → List α
  | [] => []
  | a :: rest =>
    if rest.any fun later => (draft later).replaces (draft a) then kept draft rest
    else a :: kept draft rest

theorem keptConcat (draft : α → Draft) (as : List α) (last : α) :
    kept draft (as ++ [last]) =
      (kept draft as).filter (fun a => !(draft last).replaces (draft a)) ++ [last] := by
  induction as with
  | nil => simp [kept]
  | cons a rest ih =>
    simp only [List.cons_append,kept,List.any_append,List.any_cons,List.any_nil,Bool.or_false]
    cases (rest.any fun later => (draft later).replaces (draft a)) with
    | true => simpa using ih
    | false => cases replaced : (draft last).replaces (draft a) <;> simp [replaced,ih]

theorem keptMap (draft : β → Draft) (f : α → β) (as : List α) :
    kept draft (as.map f) = (kept (fun a => draft (f a)) as).map f := by
  induction as with
  | nil => rfl
  | cons a rest ih =>
    simp only [List.map_cons,kept,List.any_map,Function.comp_def,ih]
    split <;> simp

theorem keptDistinct (draft : α → Draft) {as : List α} (names : (as.map fun a => (draft a).name).Nodup) :
    kept draft as = as := by
  induction as with
  | nil => rfl
  | cons a rest ih =>
    obtain ⟨new,others⟩ := List.nodup_cons.mp names
    have stays : (rest.any fun later => (draft later).replaces (draft a)) = false := by
      refine List.any_eq_false.mpr fun later inside => ?_
      have other : (draft a).name ≠ (draft later).name :=
        fun same => new (List.mem_map.mpr ⟨later,inside,same.symm⟩)
      simp [replaces,other]
    rw [kept,stays,ih others]
    rfl

theorem keptSublist (draft : α → Draft) (as : List α) : (kept draft as).Sublist as := by
  induction as with
  | nil => exact .slnil
  | cons a rest ih =>
    unfold kept
    split
    · exact ih.cons a
    · exact ih.cons_cons a

end Draft

namespace SymbolTable

def Lists (t : SymbolTable) (p : Handle) (draft : α → Draft) (entries : List (Handle × α)) : Prop :=
  ∀ name, t.declared p name = (entries.filter fun e => (draft e.2).name = name).map Prod.fst

inductive Shows (t : SymbolTable) : Handle → Handle → MemberDecl → Prop where
  | field {p h decl} (held : t.Holds p h (.ofField decl)) : Shows t p h (.field decl)
  | method {p h decl parameters locals} (held : t.Holds p h (.ofMethod decl))
      (first : parameters.map Prod.snd = decl.parameters.map (.ofVariable .parameter))
      (second : locals.map Prod.snd = decl.locals.map (.ofVariable .localVariable))
      (ordered : t.parametersOf h = parameters.map Prod.fst)
      (lists : t.Lists h id (parameters ++ locals))
      (each : ∀ e ∈ parameters ++ locals, t.Holds h e.1 e.2) : Shows t p h (.method decl)
  | type {p h outline members entries} (held : t.Holds p h (.ofType outline))
      (kept : entries.map Prod.snd = Draft.kept MemberDecl.draft members)
      (lists : t.Lists h MemberDecl.draft entries) (each : ∀ e ∈ entries, Shows t h e.1 e.2) :
      Shows t p h (.type outline members)

def Filled (t : SymbolTable) (p : Handle) (members : List MemberDecl) : Prop :=
  ∃ entries : List (Handle × MemberDecl), entries.map Prod.snd = Draft.kept MemberDecl.draft members ∧
    t.Lists p MemberDecl.draft entries ∧ ∀ e ∈ entries, t.Shows p e.1 e.2

theorem Holds.within {t : SymbolTable} {p h x : Handle} {d : Draft} (held : t.Holds p h d)
    (outer : t.Within x p) : t.Within x h := by
  obtain ⟨s,live,fits⟩ := held
  exact .inner live fits.parent outer

theorem Holds.transfer {t t' : SymbolTable} {p h : Handle} {d : Draft} (held : t.Holds p h d)
    (same : t'.symbol? h = t.symbol? h) : t'.Holds p h d := by
  obtain ⟨s,live,fits⟩ := held
  exact ⟨s,same.trans live,fits⟩

theorem declaredTransfer {t t' : SymbolTable} {h : Handle} (same : t'.symbol? h = t.symbol? h)
    (name : String) : t'.declared h name = t.declared h name := by
  simp only [declared,membersOf,same]

structure Lines (t : SymbolTable) (p : Handle) (entries : List (Handle × Plan)) : Prop where
  lists : t.Lists p Plan.draft entries
  ordered : t.Kinded p (· = .method) →
    t.parametersOf p = (entries.filter (·.2.draft.kind = .value .parameter)).map Prod.fst

/-- The second handle stands for the plan in the scope that the first one names, with what is kept of the
plans inside it. -/
inductive Mirrors (t : SymbolTable) : Handle → Handle → Plan → Prop where
  | mk {p h d inner entries} (held : t.Holds p h d)
      (kept : entries.map Prod.snd = Draft.kept Plan.draft inner) (lines : t.Lines h entries)
      (each : ∀ e ∈ entries, Mirrors t h e.1 e.2) : Mirrors t p h ⟨d,inner⟩

def Carries (t : SymbolTable) (p : Handle) (plans : List Plan) : Prop :=
  ∃ entries : List (Handle × Plan), entries.map Prod.snd = Draft.kept Plan.draft plans ∧
    t.Lines p entries ∧ ∀ e ∈ entries, t.Mirrors p e.1 e.2

theorem mirrorsIff {t : SymbolTable} {p h : Handle} {d : Draft} {inner : List Plan} :
    t.Mirrors p h ⟨d,inner⟩ ↔ t.Holds p h d ∧ t.Carries h inner := by
  constructor
  · rintro ⟨held,kept,lines,each⟩
    exact ⟨held,_,kept,lines,each⟩
  · rintro ⟨held,entries,kept,lines,each⟩
    exact .mk held kept lines each

theorem Mirrors.held {t : SymbolTable} {p h : Handle} {plan : Plan} (mirrors : t.Mirrors p h plan) :
    t.Holds p h plan.draft := by
  cases mirrors with
  | mk held => exact held

theorem Lines.transfer {t t' : SymbolTable} {p : Handle} {entries : List (Handle × Plan)}
    (lines : t.Lines p entries) (same : t'.symbol? p = t.symbol? p) : t'.Lines p entries where
  lists := fun name => (declaredTransfer same name).trans (lines.lists name)
  ordered := by
    intro method
    simp only [Kinded,parametersOf,same] at method ⊢
    exact lines.ordered method

theorem Mirrors.transfer {t t' : SymbolTable} {p h : Handle} {plan : Plan} (mirrors : t.Mirrors p h plan)
    (same : ∀ x, t.Within h x → t'.symbol? x = t.symbol? x) : t'.Mirrors p h plan := by
  induction mirrors with
  | mk held kept lines each ih =>
    have self := same _ .self
    refine .mk (held.transfer self) kept (lines.transfer self) fun e inside => ?_
    refine ih e inside fun x within => same x ?_
    exact ((each e inside).held.within .self).trans within

theorem Holds.outlives {t : SymbolTable} {p h : Handle} {earlier : Draft} (held : t.Holds p h earlier)
    (d : Draft) : t.outlives d h = !d.replaces earlier := by
  obtain ⟨s,live,fits⟩ := held
  simp [SymbolTable.outlives,live,Draft.replaces,fits.kind,fits.name,Bool.or_assoc]

theorem Lists.add {t t' : SymbolTable} {p h : Handle} {draft : α → Draft} {a : α}
    {entries : List (Handle × α)} (lists : t.Lists p draft entries)
    (each : ∀ e ∈ entries, t.Holds p e.1 (draft e.2))
    (listed : ∀ name, t'.declared p name = (t.declared p name).filter (t.outlives (draft a)) ++
      if name = (draft a).name then [h] else []) :
    t'.Lists p draft (entries.filter (fun e => !(draft a).replaces (draft e.2)) ++ [(h,a)]) := by
  intro name
  -- The table looks at what it holds where the declarations look at each other.
  have stays : ∀ e ∈ entries, t.outlives (draft a) e.1 = !(draft a).replaces (draft e.2) :=
    fun e inside => (each e inside).outlives (draft a)
  rw [listed,lists,List.filter_append,List.map_append,List.filter_map]
  congr 1
  · rw [List.filter_filter,List.filter_filter]
    congr 1
    refine List.filter_congr fun e inside => ?_
    simp only [Function.comp,stays e inside,Bool.and_comm]
  · by_cases here : name = (draft a).name
    · simp [here]
    · have other : ¬(draft a).name = name := fun same => here same.symm
      simp [here,other]

theorem Within.live {t : SymbolTable} {h x : Handle} (within : t.Within h x) {s : Symbol}
    (live : t.symbol? h = some s) : ∃ sx, t.symbol? x = some sx := by
  cases within with
  | self => exact ⟨s,live⟩
  | inner live' => exact ⟨_,live'⟩

theorem Consistent.siblingsApart {t : SymbolTable} (c : t.Consistent) {p e y x : Handle} {se sy : Symbol}
    (live : t.symbol? e = some se) (parent : se.parent = some p) (live' : t.symbol? y = some sy)
    (parent' : sy.parent = some p) (apart : e ≠ y) (within : t.Within e x) : ¬t.Within y x := by
  -- The way out from a symbol is one: it would pass both siblings, one inside the other.
  induction within with
  | self =>
    intro inner
    cases inner with
    | self => exact apart rfl
    | inner held above outer =>
      cases Option.some.inj (live.symm.trans held)
      cases Option.some.inj (parent.symm.trans above)
      exact c.ownerOutside live' parent' outer
  | inner held above outer ih =>
    intro inner
    cases inner with
    | self =>
      cases Option.some.inj (live'.symm.trans held)
      cases Option.some.inj (parent'.symm.trans above)
      exact c.ownerOutside live parent outer
    | inner held' above' outer' =>
      cases Option.some.inj (held.symm.trans held')
      cases Option.some.inj (above.symm.trans above')
      exact ih outer'

def Spares (t t' : SymbolTable) (p : Handle) (d : Draft) : Prop :=
  ∀ {x s}, t.symbol? x = some s → s.kind ≠ .package → x ≠ p →
    (∀ y, t.Replaced p d y → ¬t.Within y x) → t'.symbol? x = some s

theorem Holds.beside {t t' : SymbolTable} (c : t.Consistent) {p h : Handle} {earlier d : Draft}
    (held : t.Holds p h earlier) (spares : Spares t t' p d) (stays : d.replaces earlier = false) {x : Handle}
    (within : t.Within h x) : t'.symbol? x = t.symbol? x := by
  obtain ⟨s,live,fits⟩ := held
  obtain ⟨sx,inside⟩ := within.live live
  rw [inside]
  refine spares inside (c.noPackageWithin live fits.plain within inside) ?_ ?_
  · rintro rfl
    exact c.ownerOutside live fits.parent within
  · rintro y ⟨sy,live',parent',gone⟩
    refine c.siblingsApart live fits.parent live' parent' ?_ within
    rintro rfl
    have kept := Holds.outlives ⟨s,live,fits⟩ d
    simp [gone,stays] at kept

theorem Mirrors.beside {t t' : SymbolTable} (c : t.Consistent) {p h : Handle} {plan : Plan} {d : Draft}
    (mirrors : t.Mirrors p h plan) (spares : Spares t t' p d) (stays : d.replaces plan.draft = false) :
    t'.Mirrors p h plan := mirrors.transfer fun _ => mirrors.held.beside c spares stays

def Leaves (t t' : SymbolTable) (p : Handle) : Prop :=
  ∀ {x s}, t.symbol? x = some s → s.kind ≠ .package → ¬t.Within p x → t'.symbol? x = some s

theorem Spares.leaves {t t' : SymbolTable} {p : Handle} {d : Draft} (spares : Spares t t' p d) :
    Leaves t t' p := by
  intro x s live plain outside
  refine spares live plain (fun same => outside (same ▸ .self)) ?_
  rintro y ⟨sy,live',parent,_⟩ within
  exact outside ((Within.inner live' parent .self).trans within)

theorem Leaves.trans {admits : Symbol → Symbol → Prop} {t t' t'' : SymbolTable} {p : Handle}
    (c : t.Consistent) (progress : Progress admits p t t') (first : Leaves t t' p)
    (second : Leaves t' t'' p) : Leaves t t'' p := by
  intro x s live plain outside
  refine second (first live plain outside) plain fun within => outside ?_
  refine progress.keeps.withinBefore c within live fun inside => outside ?_
  obtain ⟨s',q,live',parent,outer⟩ := inside
  exact .inner live' parent outer

namespace Edit

theorem bindOk {e : Edit α} {f : α → Edit β} {t t'' : SymbolTable} {b : β}
    (ran : (e >>= f) t = .ok b t'') : ∃ a t', e t = .ok a t' ∧ f a t' = .ok b t'' := by
  change EStateM.bind e f t = _ at ran
  unfold EStateM.bind at ran
  cases first : e t with
  | ok a t' =>
    rw [first] at ran
    exact ⟨a,t',rfl,ran⟩
  | error failure t' =>
    rw [first] at ran
    cases ran

theorem attachRan {p h : Handle} {d : Draft} {t t' : SymbolTable} (ran : attach p d t = .ok h t') :
    t.attach p d = .ok (h,t') := by
  unfold attach at ran
  split at ran
  · rename_i attached
    cases ran
    exact attached
  · cases ran

end Edit

theorem Kinded.method {t : SymbolTable} {m : Handle} (method : t.Kinded m (· = .method)) :
    t.Kinded m (· ≠ .package) := by
  obtain ⟨o,owner,isMethod⟩ := method
  exact ⟨o,owner,by simp [isMethod]⟩

theorem scopeKind {s : Symbol} (kind : s.kind = .method ∨ IsBody s.kind) : s.isScope := by
  obtain ⟨_,_,_,_,_,body⟩ := s
  cases body with
  | file | type | method => rfl
  | _ => simp [Symbol.kind,Body.kind,IsBody,SymbolKind.isTypeDecl] at kind

theorem Progress.kindedBefore {admits : Symbol → Symbol → Prop} {sort sort' : SymbolKind → Prop}
    {p : Handle} {t t' : SymbolTable} (progress : Progress admits p t t') (c : t.Consistent)
    (scope : t.Kinded p sort') (later : t'.Kinded p sort) : t.Kinded p sort := by
  obtain ⟨o,owner,_⟩ := scope
  obtain ⟨o',owner',same⟩ := progress.keeps p o owner (c.notInside owner)
  obtain ⟨o'',owner'',kind⟩ := later
  cases Option.some.inj (owner'.symm.trans owner'')
  exact ⟨o,owner,Symbol.kindOutline same ▸ kind⟩

theorem Holds.kept {t t' : SymbolTable} (c : t.Consistent) {p h : Handle} {d : Draft}
    (held : t.Holds p h d) (keeps : Keeps t t' h) : t'.Holds p h d := by
  obtain ⟨s,live,fits⟩ := held
  obtain ⟨s',live',same⟩ := keeps h s live (c.notInside live)
  exact ⟨s',live',fits.outline same⟩

structure Adds (t t' : SymbolTable) (p h : Handle) (plan : Plan) : Prop where
  mirrors : t'.Mirrors p h plan
  listed : ∀ name, t'.declared p name = (t.declared p name).filter (t.outlives plan.draft) ++
    if name = plan.draft.name then [h] else []
  parameters : t.Kinded p (· = .method) → t'.parametersOf p =
    (t.parametersOf p).filter (t.outlives plan.draft) ++
      if plan.draft.kind = .value .parameter then [h] else []
  spares : Spares t t' p plan.draft

theorem Places.inner {t t₁ t' : SymbolTable} (c : t₁.Consistent) {p h : Handle} (plan : Plan)
    (places : Places t t₁ p h plan.draft) (scope : t₁.Kinded p (· ≠ .package)) (leaves : Leaves t₁ t' h)
    (mirrors : t'.Mirrors p h plan) : Adds t t' p h plan := by
  obtain ⟨s,live,fits⟩ := places.held
  obtain ⟨o,owner,plain⟩ := scope
  have same : t'.symbol? p = t₁.symbol? p :=
    (leaves owner plain (c.ownerOutside live fits.parent)).trans owner.symm
  refine ⟨mirrors,fun name => ?_,fun method => ?_,?_⟩
  · rw [declaredTransfer same]
    exact places.listed name
  · simp only [parametersOf,same]
    exact places.parameters method
  · intro x sx inside other away stays
    exact leaves (places.others inside other away stays) other (places.apart inside stays)

theorem Places.blankLines {t t' : SymbolTable} {p h : Handle} {d : Draft} (places : Places t t' p h d) :
    t'.Lines h [] := ⟨places.blank,fun _ => places.unset⟩

theorem Places.carries {t t' : SymbolTable} {p h : Handle} {d : Draft} (places : Places t t' p h d) :
    t'.Carries h [] := ⟨[],rfl,places.blankLines,fun _ => List.not_mem_nil.elim⟩

theorem Places.leaf {t t' : SymbolTable} (c : t'.Consistent) {p h : Handle} {d : Draft}
    (places : Places t t' p h d) (scope : t'.Kinded p (· ≠ .package)) : Adds t t' p h (.leaf d) :=
  places.inner c (.leaf d) scope (fun live _ _ => live) (mirrorsIff.mpr ⟨places.held,places.carries⟩)

theorem Carries.add {t t' : SymbolTable} (c : t.Consistent) {p h : Handle} {plan : Plan}
    {before : List Plan} (carries : t.Carries p before) (adds : Adds t t' p h plan)
    (same : t'.Kinded p (· = .method) → t.Kinded p (· = .method)) : t'.Carries p (before ++ [plan]) := by
  obtain ⟨entries,all,lines,each⟩ := carries
  refine ⟨entries.filter (fun e => !plan.draft.replaces e.2.draft) ++ [(h,plan)],?_,⟨?_,?_⟩,?_⟩
  · rw [Draft.keptConcat,← all,List.filter_map,List.map_append]
    rfl
  · exact lines.lists.add (fun e inside => (each e inside).held) adds.listed
  · intro method
    rw [adds.parameters (same method),lines.ordered (same method),List.filter_append,List.map_append,
      List.filter_map]
    congr 1
    · rw [List.filter_filter,List.filter_filter]
      congr 1
      refine List.filter_congr fun e inside => ?_
      simp only [Function.comp,(each e inside).held.outlives plan.draft,Bool.and_comm]
    · by_cases parameter : plan.draft.kind = .value .parameter <;> simp [parameter]
  · intro e inside
    rcases List.mem_append.mp inside with old | last
    · obtain ⟨listed,stays⟩ := List.mem_filter.mp old
      exact (each e listed).beside c adds.spares (by simpa using stays)
    · cases List.mem_singleton.mp last
      exact adds.mirrors

namespace Edit

theorem attachAdds {t t' : SymbolTable} (c : t.Consistent) {p h : Handle} {d : Draft}
    (fitting : Fitting (fun _ => True) t p d) (scope : t.Kinded p (· ≠ .package))
    (ran : attach p d t = .ok h t') :
    Places t t' p h d ∧ t'.Consistent ∧ t'.Kinded p (· ≠ .package) := by
  have progress := attachProgress anything c fitting
  rw [afterOk ran] at progress
  obtain ⟨o,owner,plain⟩ := scope
  exact ⟨attachPlaces c owner plain (attachRan ran),progress.steps.consistent c,
    progress.kinded c ⟨o,owner,plain⟩⟩

theorem attachAllCarries {t t' : SymbolTable} (c : t.Consistent) {m : Handle}
    (scope : t.Kinded m (· ≠ .package)) {drafts : List Draft} (inner : ∀ d ∈ drafts, d.kind.isVariable)
    {before : List Plan} (carries : t.Carries m before) (ran : attachAll m drafts t = .ok () t') :
    t'.Carries m (before ++ drafts.map .leaf) ∧ Leaves t t' m := by
  induction drafts generalizing t before with
  | nil =>
    cases ran
    exact ⟨by simpa using carries,fun live _ _ => live⟩
  | cons d rest ih =>
    obtain ⟨h,t₁,first,later⟩ := bindOk ran
    have fitting : Fitting (fun _ => True) t m d := .inr ⟨.inr (inner d (by simp)),scope⟩
    have progress := attachProgress anything c fitting
    rw [afterOk first] at progress
    obtain ⟨places,c₁,scope₁⟩ := attachAdds c fitting scope first
    have adds := places.leaf c₁ scope₁
    obtain ⟨carries',leaves⟩ := ih c₁ scope₁ (fun d later => inner d (by simp [later]))
      (carries.add c adds (progress.kindedBefore c scope)) later
    refine ⟨?_,Leaves.trans c progress (Spares.leaves adds.spares) leaves⟩
    simpa using carries'

theorem methodAdds {t t' : SymbolTable} (c : t.Consistent) {p : Handle}
    (scope : t.Kinded p (· ≠ .package)) {decl : MethodDecl} {added : Span × Handle}
    (ran : addMethod p decl t = .ok added t') : Adds t t' p added.2 (MemberDecl.method decl).plan := by
  obtain ⟨h,t₁,attached,ran⟩ := bindOk ran
  obtain ⟨⟨⟩,t₂,first,ran⟩ := bindOk ran
  obtain ⟨⟨⟩,t₃,second,ran⟩ := bindOk ran
  cases ran
  obtain ⟨places,c₁,scope₁⟩ := attachAdds c (.inr ⟨.inl rfl,scope⟩) scope attached
  have inner : t₁.Kinded h (· ≠ .package) := by
    obtain ⟨s,live,fits⟩ := places.held
    exact ⟨s,live,fits.plain⟩
  have progress := attachAllProgress anything c₁ inner (decl.parameters.map (.ofVariable .parameter))
    (by simp [Draft.ofVariable,SymbolKind.isVariable])
  rw [afterOk first] at progress
  have c₂ := progress.steps.consistent c₁
  have inner₂ := progress.kinded c₁ inner
  have progress₂ := attachAllProgress anything c₂ inner₂
    (decl.locals.map (.ofVariable .localVariable)) (by simp [Draft.ofVariable,SymbolKind.isVariable])
  rw [afterOk second] at progress₂
  obtain ⟨parameters,leaves⟩ := attachAllCarries c₁ inner
    (by simp [Draft.ofVariable,SymbolKind.isVariable]) places.carries first
  obtain ⟨all,leaves'⟩ := attachAllCarries c₂ inner₂
    (by simp [Draft.ofVariable,SymbolKind.isVariable]) parameters second
  have held := (places.held.kept c₁ progress.keeps).kept c₂ progress₂.keeps
  refine places.inner c₁ (MemberDecl.method decl).plan scope₁
    (Leaves.trans c₁ progress leaves leaves') (mirrorsIff.mpr ⟨held,?_⟩)
  simpa [MethodDecl.inner] using all

theorem outlinePlaced {t t' : SymbolTable} (c : t.Consistent) {p h : Handle} (scope : t.Kinded p IsBody)
    {outline : TypeOutline} (ran : addOutline p outline t = .ok h t') :
    Places t t' p h (.ofType outline) ∧ t'.Consistent ∧ t'.Kinded p (· ≠ .package) ∧ t'.Kinded h IsBody := by
  unfold addOutline at ran
  split at ran
  · rename_i type
    obtain ⟨places,c',scope'⟩ := attachAdds c (.inl ⟨type,trivial,scope⟩) scope.inner ran
    obtain ⟨s,live,fits⟩ := places.held
    exact ⟨places,c',scope',s,live,.inr (fits.kind ▸ type)⟩
  · cases ran

theorem typeAdds {t t₁ t' : SymbolTable} (c : t₁.Consistent) {p h : Handle} {outline : TypeOutline}
    (places : Places t t₁ p h (.ofType outline)) (scope : t₁.Kinded p (· ≠ .package))
    (body : t₁.Kinded h IsBody) {members : List MemberDecl} {spans : List (Span × Handle)}
    (ran : addMembers h members t₁ = .ok spans t') (carries : t'.Carries h (MemberDecl.plans members))
    (leaves : Leaves t₁ t' h) : Adds t t' p h (MemberDecl.type outline members).plan := by
  have progress := addMembersProgress anything c body members (MemberDecl.namedAllTrue members)
  rw [afterOk ran] at progress
  exact places.inner c (MemberDecl.type outline members).plan scope leaves
    (mirrorsIff.mpr ⟨places.held.kept c progress.keeps,carries⟩)

mutual

theorem memberAdds {t t' : SymbolTable} (c : t.Consistent) {p : Handle} (scope : t.Kinded p IsBody)
    {spans : List (Span × Handle)} :
    (m : MemberDecl) → addMember p m t = .ok spans t' → ∃ h, Adds t t' p h m.plan
  | .field decl, ran => by
    obtain ⟨h,t₁,attached,done⟩ := bindOk ran
    cases done
    obtain ⟨places,c₁,scope₁⟩ := attachAdds c (.inr ⟨.inr rfl,scope.inner⟩) scope.inner attached
    exact ⟨h,places.leaf c₁ scope₁⟩
  | .method decl, ran => by
    obtain ⟨added,t₁,ran,done⟩ := bindOk ran
    cases done
    exact ⟨added.2,methodAdds c scope.inner ran⟩
  | .type outline members, ran => by
    obtain ⟨h,t₁,first,ran⟩ := bindOk ran
    obtain ⟨inner,t₂,second,done⟩ := bindOk ran
    cases done
    obtain ⟨places,c₁,scope₁,body⟩ := outlinePlaced c scope first
    obtain ⟨carries,leaves⟩ := membersCarried c₁ body places.carries members second
    exact ⟨h,typeAdds c₁ places scope₁ body second carries leaves⟩

theorem membersCarried {t t' : SymbolTable} (c : t.Consistent) {p : Handle} (scope : t.Kinded p IsBody)
    {before : List Plan} (carries : t.Carries p before) {spans : List (Span × Handle)} :
    (members : List MemberDecl) → addMembers p members t = .ok spans t' →
      t'.Carries p (before ++ MemberDecl.plans members) ∧ Leaves t t' p
  | [], ran => by
    cases ran
    exact ⟨by simpa [MemberDecl.plans] using carries,fun live _ _ => live⟩
  | m :: rest, ran => by
    obtain ⟨first,t₁,ran₁,ran⟩ := bindOk ran
    obtain ⟨others,t₂,ran₂,done⟩ := bindOk ran
    cases done
    obtain ⟨h,adds⟩ := memberAdds c scope m ran₁
    have progress := addMemberProgress anything c scope m m.namedTrue
    rw [afterOk ran₁] at progress
    obtain ⟨carries',leaves⟩ := membersCarried (progress.steps.consistent c) (progress.kinded c scope)
      (carries.add c adds (progress.kindedBefore c scope)) rest ran₂
    rw [MemberDecl.plans,List.append_cons]
    exact ⟨carries',Leaves.trans c progress (Spares.leaves adds.spares) leaves⟩

end

end Edit

theorem entriesPulled {f : α → β} {entries : List (γ × β)} {as : List α}
    (same : entries.map Prod.snd = as.map f) : ∃ entries' : List (γ × α), entries'.map Prod.snd = as ∧
      entries = entries'.map fun e => (e.1,f e.2) := by
  induction as generalizing entries with
  | nil => exact ⟨[],rfl,List.map_eq_nil_iff.mp same⟩
  | cons a rest ih =>
    obtain ⟨e,others,rfl,head,tail⟩ := List.map_eq_cons_iff.mp same
    obtain ⟨entries',all,rfl⟩ := ih tail
    exact ⟨(e.1,a) :: entries',by simp [all],by simp [← head]⟩

theorem Lists.pulled {t : SymbolTable} {p : Handle} {draft : β → Draft} {f : α → β}
    {entries : List (Handle × α)} (lists : t.Lists p draft (entries.map fun e => (e.1,f e.2))) :
    t.Lists p (fun a => draft (f a)) entries := by
  intro name
  rw [lists name,List.filter_map,List.map_map]
  rfl

theorem variableKind {entries : List (Handle × Draft)} {decls : List VariableDecl} {role : VariableRole}
    (drafts : entries.map Prod.snd = decls.map (.ofVariable role)) {e : Handle × Draft}
    (inside : e ∈ entries) : e.2.kind = .value role := by
  have listed : e.2 ∈ entries.map Prod.snd := List.mem_map.mpr ⟨e,inside,rfl⟩
  rw [drafts] at listed
  obtain ⟨v,_,same⟩ := List.mem_map.mp listed
  simp [← same,Draft.ofVariable]

theorem Mirrors.method {t : SymbolTable} {p h : Handle} {decl : MethodDecl}
    (names : ((decl.parameters ++ decl.locals).map (·.name)).Nodup)
    (mirrors : t.Mirrors p h (MemberDecl.method decl).plan) : t.Shows p h (.method decl) := by
  obtain ⟨held,entries,kept,lines,each⟩ := mirrorsIff.mp mirrors
  have distinct : Draft.kept Plan.draft (decl.inner.map .leaf) = decl.inner.map .leaf := by
    refine Draft.keptDistinct _ ?_
    simpa [MethodDecl.inner,Function.comp_def,Plan.leaf,Plan.draft,Draft.ofVariable] using names
  obtain ⟨drafts,all,rfl⟩ := entriesPulled (kept.trans distinct)
  obtain ⟨parameters,locals,rfl,first,second⟩ := List.map_eq_append_iff.mp all
  have method : t.Kinded h (· = .method) := by
    obtain ⟨s,live,fits⟩ := held
    exact ⟨s,live,fits.kind⟩
  have listed : parameters.filter (·.2.kind = .value .parameter) = parameters :=
    List.filter_eq_self.mpr fun e inside => by simp [variableKind first inside]
  have none : locals.filter (·.2.kind = .value .parameter) = [] :=
    List.filter_eq_nil_iff.mpr fun e inside => by simp [variableKind second inside]
  refine .method held first second ?_ lines.lists.pulled fun e inside => ?_
  · rw [lines.ordered method,List.filter_map,List.map_map]
    change ((parameters ++ locals).filter (·.2.kind = .value .parameter)).map Prod.fst = _
    rw [List.filter_append,listed,none,List.append_nil]
  · exact (each (e.1,.leaf e.2) (List.mem_map.mpr ⟨e,inside,rfl⟩)).held

theorem Carries.entries {t : SymbolTable} {p : Handle} {members : List MemberDecl}
    (carries : t.Carries p (MemberDecl.plans members)) : ∃ entries : List (Handle × MemberDecl),
      entries.map Prod.snd = Draft.kept MemberDecl.draft members ∧ t.Lists p MemberDecl.draft entries ∧
      ∀ e ∈ entries, t.Mirrors p e.1 e.2.plan := by
  obtain ⟨entries,kept,lines,each⟩ := carries
  rw [MemberDecl.plansMap,Draft.keptMap,funext MemberDecl.planDraft] at kept
  obtain ⟨entries,all,rfl⟩ := entriesPulled kept
  have lists := lines.lists.pulled
  rw [funext MemberDecl.planDraft] at lists
  exact ⟨entries,all,lists,fun e inside => each (e.1,e.2.plan) (List.mem_map.mpr ⟨e,inside,rfl⟩)⟩

theorem Carries.filled {t : SymbolTable} {p : Handle} {members : List MemberDecl}
    (shows : ∀ m ∈ members, ∀ p h, t.Mirrors p h m.plan → t.Shows p h m)
    (carries : t.Carries p (MemberDecl.plans members)) : t.Filled p members := by
  obtain ⟨entries,kept,lists,each⟩ := carries.entries
  refine ⟨entries,kept,lists,fun e inside => shows e.2 ?_ p e.1 (each e inside)⟩
  exact (Draft.keptSublist _ _).subset (kept ▸ List.mem_map.mpr ⟨e,inside,rfl⟩)

mutual

theorem mirrorsShow {t : SymbolTable} :
    (m : MemberDecl) → m.Separate → ∀ p h, t.Mirrors p h m.plan → t.Shows p h m
  | .field _, _, _, _, mirrors => .field mirrors.held
  | .method _, names, _, _, mirrors => mirrors.method names
  | .type _ members, separate, _, _, mirrors => by
    obtain ⟨held,carries⟩ := mirrorsIff.mp mirrors
    obtain ⟨entries,kept,lists,each⟩ := carries.filled (mirrorsShowAll members separate)
    exact .type held kept lists each

theorem mirrorsShowAll {t : SymbolTable} : (members : List MemberDecl) → MemberDecl.SeparateAll members →
    ∀ m ∈ members, ∀ p h, t.Mirrors p h m.plan → t.Shows p h m
  | [], _ => fun _ => List.not_mem_nil.elim
  | m :: rest, separate =>
    List.forall_mem_cons.mpr ⟨mirrorsShow m separate.1,mirrorsShowAll rest separate.2⟩

end

end SymbolTable
end CodeIndex
