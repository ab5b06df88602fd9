import CodeIndex.Proofs.Fidelity
import CodeIndex.Proofs.SpanMap

/-! Which files are accepted. Indexing refuses inverted spans, and types of a kind that types do not have,
wherever they are declared. It refuses nothing else, whatever the table holds. -/
namespace CodeIndex

mutual

def MemberDecl.Proper : MemberDecl → Prop
  | .field decl => ¬decl.span.isInverted
  | .method decl => ¬decl.span.isInverted ∧ ∀ d ∈ decl.inner, ¬d.span.isInverted
  | .type outline members =>
    (outline.kind.isTypeDecl ∧ ¬outline.span.isInverted) ∧ MemberDecl.ProperAll members

def MemberDecl.ProperAll : List MemberDecl → Prop
  | [] => True
  | m :: rest => m.Proper ∧ MemberDecl.ProperAll rest

end

structure FileDecl.Proper (decl : FileDecl) : Prop where
  span : ¬decl.span.isInverted
  members : MemberDecl.ProperAll decl.members

namespace Draft

structure Plain (d : Draft) : Prop where
  unowned : d.isAttached = false
  empty : d.ownsMembers = false
  fits : d.body?.isSome

theorem Plain.check {d : Draft} (plain : d.Plain) :
    (∃ body, d.check = .ok body) ↔ ¬d.span.isInverted := by
  obtain ⟨body,made⟩ := Option.isSome_iff_exists.mp plain.fits
  by_cases inverted : d.span.isInverted <;> simp [Draft.check,plain.unowned,plain.empty,made,inverted]

theorem plainType {outline : TypeOutline} (type : outline.kind.isTypeDecl) : (ofType outline).Plain := by
  refine ⟨rfl,rfl,?_⟩
  obtain ⟨_,kind,_,_,_⟩ := outline
  cases kind with
  | type => rfl
  | _ => cases type

theorem plainInner (decl : MethodDecl) : ∀ d ∈ decl.inner, d.Plain ∧ d.kind.isVariable := by
  intro d inside
  rcases List.mem_append.mp inside with parameter | localVariable
  · obtain ⟨v,_,rfl⟩ := List.mem_map.mp parameter
    exact ⟨⟨rfl,rfl,rfl⟩,rfl⟩
  · obtain ⟨v,_,rfl⟩ := List.mem_map.mp localVariable
    exact ⟨⟨rfl,rfl,rfl⟩,rfl⟩

end Draft

namespace SymbolTable
namespace Edit

def Succeeds (e : Edit α) (t : SymbolTable) : Prop := ∃ a t', e t = .ok a t'

theorem succeedsPure (a : α) (t : SymbolTable) : Succeeds (pure a) t ↔ True :=
  ⟨fun _ => trivial,fun _ => ⟨a,t,rfl⟩⟩

theorem succeedsBind {e : Edit α} {f : α → Edit β} {t : SymbolTable} {P Q : Prop}
    (first : Succeeds e t ↔ P) (rest : ∀ {a t'}, e t = .ok a t' → (Succeeds (f a) t' ↔ Q)) :
    Succeeds (e >>= f) t ↔ P ∧ Q := by
  constructor
  · rintro ⟨b,t'',ran⟩
    obtain ⟨a,t',early,late⟩ := bindOk ran
    exact ⟨first.mp ⟨a,t',early⟩,(rest early).mp ⟨b,t'',late⟩⟩
  · rintro ⟨p,q⟩
    obtain ⟨a,t',early⟩ := first.mpr p
    obtain ⟨b,t'',late⟩ := (rest early).mpr q
    refine ⟨b,t'',?_⟩
    change EStateM.bind e f t = _
    simp [EStateM.bind,early,late]

theorem succeedsThen {e : Edit α} {t : SymbolTable} {P : Prop} (first : Succeeds e t ↔ P) (g : α → β) :
    Succeeds (e >>= fun a => pure (g a)) t ↔ P :=
  (succeedsBind first fun _ => succeedsPure _ _).trans (and_iff_left trivial)

theorem succeedsAttach {t : SymbolTable} {p : Handle} {o : Symbol} (owner : t.symbol? p = some o)
    (scope : o.isScope) {d : Draft} (plain : d.Plain) :
    Succeeds (attach p d) t ↔ ¬d.span.isInverted := by
  rw [← plain.check]
  obtain ⟨members,found⟩ := Option.isSome_iff_exists.mp scope
  constructor
  · rintro ⟨h,t',ran⟩
    obtain ⟨body,_,_,checked,_⟩ := attachCases (attachRan ran)
    exact ⟨body,checked⟩
  · rintro ⟨body,checked⟩
    simp [Succeeds,attach,SymbolTable.attach,checked,owner,found,bind,Except.bind,pure,Except.pure]

theorem succeedsAttachAll {t : SymbolTable} (c : t.Consistent) {m : Handle}
    (method : t.Kinded m (· = .method)) {drafts : List Draft}
    (inner : ∀ d ∈ drafts, d.Plain ∧ d.kind.isVariable) :
    Succeeds (attachAll m drafts) t ↔ ∀ d ∈ drafts, ¬d.span.isInverted := by
  induction drafts generalizing t with
  | nil => exact ⟨fun _ _ => List.not_mem_nil.elim,fun _ => ⟨(),t,rfl⟩⟩
  | cons d rest ih =>
    obtain ⟨⟨plain,kind⟩,others⟩ := List.forall_mem_cons.mp inner
    obtain ⟨o,owner,isMethod⟩ := method
    rw [List.forall_mem_cons]
    refine succeedsBind (succeedsAttach owner (scopeKind (.inl isMethod)) plain) fun {h t'} ran => ?_
    have progress := attachProgress anything c (p := m)
      (.inr ⟨.inr kind,Kinded.method ⟨o,owner,isMethod⟩⟩)
    rw [afterOk ran] at progress
    exact ih (progress.steps.consistent c) (progress.kinded c ⟨o,owner,isMethod⟩) others

theorem succeedsMethod {t : SymbolTable} (c : t.Consistent) {p : Handle} (scope : t.Kinded p IsBody)
    (decl : MethodDecl) : Succeeds (addMethod p decl) t ↔ (MemberDecl.method decl).Proper := by
  obtain ⟨o,owner,body⟩ := scope
  have inner := Draft.plainInner decl
  simp only [MethodDecl.inner,List.forall_mem_append] at inner
  simp only [MemberDecl.Proper,MethodDecl.inner,List.forall_mem_append]
  refine succeedsBind (succeedsAttach owner (scopeKind (.inr body)) ⟨rfl,rfl,rfl⟩) fun {m t₁} ran => ?_
  have progress := attachProgress anything c (p := p) (d := .ofMethod decl)
    (.inr ⟨.inl rfl,Kinded.inner ⟨o,owner,body⟩⟩)
  rw [afterOk ran] at progress
  have c₁ := progress.steps.consistent c
  obtain ⟨s,live,_,kind⟩ := attachResult c ran
  have method : t₁.Kinded m (· = .method) := ⟨s,live,kind⟩
  refine succeedsBind (succeedsAttachAll c₁ method inner.1) fun {_ t₂} ran' => ?_
  have progress' := attachAllProgress anything c₁ method.method _
    fun d inside => (inner.1 d inside).2
  rw [afterOk ran'] at progress'
  exact succeedsThen (succeedsAttachAll (progress'.steps.consistent c₁) (progress'.kinded c₁ method)
    inner.2) _

theorem succeedsOutline {t : SymbolTable} {p : Handle} (scope : t.Kinded p IsBody) (outline : TypeOutline) :
    Succeeds (addOutline p outline) t ↔ outline.kind.isTypeDecl ∧ ¬outline.span.isInverted := by
  obtain ⟨o,owner,body⟩ := scope
  unfold addOutline
  split
  · rename_i type
    rw [succeedsAttach owner (scopeKind (.inr body)) (Draft.plainType type)]
    simp [type,Draft.ofType]
  · rename_i other
    refine ⟨fun ⟨_,_,ran⟩ => ?_,fun both => absurd both.1 other⟩
    cases ran

mutual

theorem succeedsMember {t : SymbolTable} (c : t.Consistent) {p : Handle} (scope : t.Kinded p IsBody) :
    (m : MemberDecl) → (Succeeds (addMember p m) t ↔ m.Proper)
  | .field decl => by
    obtain ⟨o,owner,body⟩ := scope
    exact succeedsThen (succeedsAttach owner (scopeKind (.inr body)) (d := .ofField decl) ⟨rfl,rfl,rfl⟩) _
  | .method decl => succeedsThen (succeedsMethod c scope decl) _
  | .type outline members => by
    refine succeedsBind (succeedsOutline scope outline) fun {h t₁} ran => ?_
    have progress : Progress _ p t (after (addOutline p outline) t) :=
      outlineProgress anything c scope trivial
    rw [afterOk ran] at progress
    obtain ⟨s,live,_,type⟩ := outlineResult c ran
    exact succeedsThen (succeedsMembers (progress.steps.consistent c) ⟨s,live,.inr type⟩ members) _

theorem succeedsMembers {t : SymbolTable} (c : t.Consistent) {p : Handle} (scope : t.Kinded p IsBody) :
    (members : List MemberDecl) → (Succeeds (addMembers p members) t ↔ MemberDecl.ProperAll members)
  | [] => succeedsPure [] t
  | m :: rest => by
    refine succeedsBind (succeedsMember c scope m) fun {_ t₁} ran => ?_
    have progress := addMemberProgress anything c scope m m.namedTrue
    rw [afterOk ran] at progress
    exact succeedsThen (succeedsMembers (progress.steps.consistent c) (progress.kinded c scope) rest) _

end

theorem attachUpright {t t' : SymbolTable} {p h : Handle} {d : Draft} (ran : attach p d t = .ok h t') :
    ¬d.span.isInverted := by
  obtain ⟨body,_,_,checked,_⟩ := attachCases (attachRan ran)
  grind [Draft.check]

mutual

theorem memberUpright {t t' : SymbolTable} {p : Handle} {spans : List (Span × Handle)} :
    (m : MemberDecl) → addMember p m t = .ok spans t' → ∀ e ∈ spans, ¬e.1.isInverted
  | .field decl, ran => by
    obtain ⟨h,t₁,_,done⟩ := bindOk ran
    cases done
    exact fun _ => List.not_mem_nil.elim
  | .method decl, ran => by
    obtain ⟨added,t₁,ran,done⟩ := bindOk ran
    cases done
    obtain ⟨h,t₂,attached,ran⟩ := bindOk ran
    obtain ⟨_,t₃,_,ran⟩ := bindOk ran
    obtain ⟨_,t₄,_,done⟩ := bindOk ran
    cases done
    exact List.forall_mem_singleton.mpr (attachUpright attached)
  | .type outline members, ran => by
    obtain ⟨h,t₁,first,ran⟩ := bindOk ran
    obtain ⟨inner,t₂,second,done⟩ := bindOk ran
    cases done
    unfold addOutline at first
    split at first
    · exact List.forall_mem_cons.mpr ⟨attachUpright first,membersUpright members second⟩
    · cases first

theorem membersUpright {t t' : SymbolTable} {p : Handle} {spans : List (Span × Handle)} :
    (members : List MemberDecl) → addMembers p members t = .ok spans t' → ∀ e ∈ spans, ¬e.1.isInverted
  | [], ran => by
    cases ran
    exact fun _ => List.not_mem_nil.elim
  | m :: rest, ran => by
    obtain ⟨first,t₁,ran₁,ran⟩ := bindOk ran
    obtain ⟨others,t₂,ran₂,done⟩ := bindOk ran
    cases done
    exact List.forall_mem_append.mpr ⟨memberUpright m ran₁,membersUpright rest ran₂⟩

end

theorem succeedsTypes {t : SymbolTable} (c : t.Consistent) {file : Handle} (scope : t.Kinded file IsBody)
    {decl : FileDecl} (upright : ¬decl.span.isInverted) :
    Succeeds (addTypes file decl.span decl.types) t ↔ MemberDecl.ProperAll decl.members := by
  refine (succeedsBind (succeedsMembers c scope decl.members) fun {spans t'} ran => ?_).trans
    (and_iff_left trivial)
  obtain ⟨scopes,made,_⟩ := SpanMap.ofListSound ((decl.span,file) :: spans)
    (List.forall_mem_cons.mpr ⟨upright,membersUpright decl.members ran⟩)
  rw [made]
  exact succeedsPure scopes t'

end Edit

theorem putFileAccepted {t : SymbolTable} (c : t.Consistent) (decl : FileDecl) :
    (∃ file, (t.putFile decl).1 = .ok file) ↔ decl.Proper := by
  unfold putFile
  split
  · rename_i inverted
    constructor
    · rintro ⟨_,ok⟩
      cases ok
    · rintro ⟨upright,_⟩
      exact absurd inverted upright
  rename_i upright
  obtain ⟨started,scope⟩ := c.begun decl
  have types := Edit.succeedsTypes started scope upright
  constructor
  · rintro ⟨file,ok⟩
    refine ⟨upright,types.mp ?_⟩
    dsimp only at ok
    split at ok
    · rename_i ran
      exact ⟨_,_,ran⟩
    · cases ok
  · rintro ⟨_,members⟩
    obtain ⟨scopes,t',ran⟩ := types.mpr members
    simp only [ran]
    exact ⟨_,rfl⟩

end SymbolTable
end CodeIndex
