import CodeIndex.Proofs.Runs

/-! How bodies change. Between two tables the body of a symbol is a fresh one or the one its handle had, with
single handles put on its lists and taken off again. Indexing does nothing else to a table than attach one
draft after another within the file, so what that keeps is kept by all of it, failed or not. In particular no
name is ever left with an empty list. -/
namespace CodeIndex

theorem Arena.insertOld {α : Type u} {a : Arena α} {value old : α} {x : Handle}
    (held : (a.insert value).2.get? x = some old) : old = value ∨ a.get? x = some old := by
  obtain ⟨slot,found,generation,full⟩ := getSlot.mp held
  unfold insert at found
  split at found
  · simp only [Array.getElem?_modify] at found
    split at found
    · obtain ⟨before,_,rfl⟩ := Option.map_eq_some_iff.mp found
      exact .inl (Option.some.inj full).symm
    · exact .inr (getSlot.mpr ⟨slot,found,generation,full⟩)
  · simp only [Array.getElem?_push] at found
    split at found
    · cases Option.some.inj found
      exact .inl (Option.some.inj full).symm
    · exact .inr (getSlot.mpr ⟨slot,found,generation,full⟩)

namespace Body

inductive Edited (b : Body) : Body → Prop where
  | same : Edited b b
  | push {b'} (earlier : Edited b b') (name : String) (h : Handle) :
      Edited b (b'.mapMembers (·.push name h))
  | drop {b'} (earlier : Edited b b') (name : String) (h : Handle) :
      Edited b (b'.mapMembers (·.drop name h))
  | parameters {b'} (earlier : Edited b b') (f : List Handle → List Handle) :
      Edited b (b'.mapParameters f)
  | files {b'} (earlier : Edited b b') (f : List Handle → List Handle) : Edited b (b'.mapFiles f)
  | subpackages {b'} (earlier : Edited b b') (f : OrderedMap String Handle → OrderedMap String Handle) :
      Edited b (b'.mapSubpackages f)

theorem Edited.trans {b b' b'' : Body} (first : b.Edited b') (second : b'.Edited b'') :
    b.Edited b'' := by
  induction second with
  | same => exact first
  | push _ name h ih => exact ih.push name h
  | drop _ name h ih => exact ih.drop name h
  | parameters _ f ih => exact ih.parameters f
  | files _ f ih => exact ih.files f
  | subpackages _ f ih => exact ih.subpackages f

theorem Edited.bare {b b' : Body} (edited : b.Edited b') : b'.bare = b.bare := by
  induction edited with
  | same => rfl
  | _ => simpa

theorem Edited.dropAll {b b' : Body} (edited : b.Edited b') (other : Members) :
    b.Edited (b'.mapMembers (Members.dropAll · other)) := by
  cases b' with
  | package subpackages files members =>
    exact Members.dropAllInvariant (P := fun m => b.Edited (.package subpackages files m))
      (fun _ name h earlier => earlier.drop name h) other edited
  | file source members scopes =>
    exact Members.dropAllInvariant (P := fun m => b.Edited (.file source m scopes))
      (fun _ name h earlier => earlier.drop name h) other edited
  | type kind header members =>
    exact Members.dropAllInvariant (P := fun m => b.Edited (.type kind header m))
      (fun _ name h earlier => earlier.drop name h) other edited
  | method header parameters members =>
    exact Members.dropAllInvariant (P := fun m => b.Edited (.method header parameters m))
      (fun _ name h earlier => earlier.drop name h) other edited
  | value | primitive => exact edited

theorem editedLinked (name : String) (h : Handle) (parameter : Bool) (b : Body) :
    b.Edited (SymbolTable.linked name h parameter b) := by
  unfold SymbolTable.linked
  split
  · exact (Edited.push .same name h).parameters _
  · exact .push .same name h

end Body

namespace SymbolTable

def Reworks (t t' : SymbolTable) : Prop :=
  ∀ h s', t'.symbol? h = some s' →
    s'.body.bare.Edited s'.body ∨ ∃ s, t.symbol? h = some s ∧ s.body.Edited s'.body

theorem reworksRefl (t : SymbolTable) : Reworks t t := fun _ s live => .inr ⟨s,live,.same⟩

theorem Reworks.trans {t t' t'' : SymbolTable} (first : Reworks t t') (second : Reworks t' t'') :
    Reworks t t'' := by
  intro h s'' live
  rcases second h s'' live with fresh | ⟨s',live',edited⟩
  · exact .inl fresh
  · rcases first h s' live' with fresh | ⟨s,live'',edited'⟩
    · rw [← edited.bare] at fresh
      exact .inl (fresh.trans edited)
    · exact .inr ⟨s,live'',edited'.trans edited⟩

theorem reworksModify (t : SymbolTable) (p : Handle) {f : Body → Body} (edits : ∀ b : Body, b.Edited (f b)) :
    Reworks t (t.modify p f) := by
  intro h s' live
  rw [symbolModify] at live
  split at live
  · obtain ⟨s,live',rfl⟩ := Option.map_eq_some_iff.mp live
    exact .inr ⟨s,live',edits s.body⟩
  · exact .inr ⟨s',live,.same⟩

theorem reworksOptional (t : SymbolTable) (p : Option Handle) {f : Body → Body}
    (edits : ∀ b : Body, b.Edited (f b)) : Reworks t (t.modify? p f) := by
  cases p with
  | none => exact reworksRefl t
  | some p => exact reworksModify t p edits

theorem reworksPlanted (t : SymbolTable) {s : Symbol} (empty : s.body.bare = s.body) :
    Reworks t (t.planted s) := by
  intro h s' live
  rcases Arena.insertOld live with rfl | old
  · rw [empty]
    exact .inl .same
  · exact .inr ⟨s',old,.same⟩

theorem reworksRemove (t : SymbolTable) (h : Handle) : Reworks t (t.remove h) := by
  have unlinked : Reworks t (t.unlink h) := by
    unfold unlink
    split
    · exact reworksRefl t
    · split
      · exact reworksRefl t
      · exact (reworksModify t _ fun b => ((Body.Edited.drop .same _ h).parameters _).files _).trans
          (reworksOptional _ _ fun b => .drop .same _ h)
  refine unlinked.trans fun x s' live => .inr ⟨s',?_,.same⟩
  rcases releaseKeeps (t.unlink h).symbols [h] x with same | gone
  · exact same.symm.trans live
  · cases gone.symm.trans live

theorem reworksRemoveAll (t : SymbolTable) (handles : List Handle) :
    Reworks t (handles.foldl remove t) := by
  induction handles generalizing t with
  | nil => exact reworksRefl t
  | cons h rest ih => exact (reworksRemove t h).trans (ih (t.remove h))

theorem reworksDrop (t : SymbolTable) (path : String) : Reworks t (t.dropFile path).2 := by
  simp only [dropFile]
  split
  · exact reworksRefl t
  · have unindexed : Reworks t { t with files := t.files.erase (Path.normalize path) } := reworksRefl t
    split
    · exact (unindexed.trans (reworksModify _ _ fun b => Body.Edited.dropAll .same _)).trans
        (reworksRemove _ _)
    · exact unindexed.trans (reworksRemove _ _)

theorem reworksPackage (t : SymbolTable) (current : Handle) (names : List String) :
    Reworks t (t.makePackage current names).2 := by
  induction names generalizing t current with
  | nil => exact reworksRefl t
  | cons name rest ih =>
    simp only [makePackage]
    split
    · exact reworksRefl t
    · rename_i parent live
      split
      · exact ih t _
      · have planted : Reworks t (t.planted (emptyPackage name current parent)) := reworksPlanted t rfl
        exact (planted.trans (reworksModify _ current fun b => .subpackages .same _)).trans (ih _ _)

theorem reworksStart (t : SymbolTable) (path : String) (decl : FileDecl) :
    Reworks t (t.startFile path decl).2 := by
  simp only [startFile]
  refine (reworksPackage t t.root decl.package).trans (Reworks.trans (reworksPlanted _ ?_)
    (reworksModify (planted _ _) _ fun b => .files .same _))
  rfl

theorem reworksLink (t : SymbolTable) (p : Handle) (package : Option Handle) {s : Symbol}
    (empty : s.body.bare = s.body) : Reworks t (t.link p package s).2 := by
  rw [linkTable]
  exact ((reworksPlanted t empty).trans (reworksModify _ p (Body.editedLinked _ _ _))).trans
    (reworksOptional _ package fun b => .push .same _ _)

theorem reworksAttach {t t' : SymbolTable} {p h : Handle} {d : Draft} (ok : t.attach p d = .ok (h,t')) :
    Reworks t t' := by
  obtain ⟨body,o,members,checked,_,_,linked⟩ := attachCases ok
  have table : t' = _ := (congrArg Prod.snd linked).symm
  rw [table]
  exact (reworksRemoveAll t _).trans
    (reworksLink _ p _ (s := drafted d p o body) (checkedBody checked).1)

theorem Progress.within {admits : Symbol → Symbol → Prop} {sort : SymbolKind → Prop} {t t' : SymbolTable}
    {f p : Handle} (progress : Progress admits p t t') (c : t.Consistent) (scope : t.Kinded p sort)
    (within : t.Within f p) : t'.Within f p := by
  obtain ⟨o,owner,_⟩ := scope
  have outward : ∀ {x}, t.Within f x → t.Within x p → t'.Within f x := by
    intro x outer inner
    induction outer with
    | self => exact .self
    | @inner x s q live parent _ ih =>
      obtain ⟨s',live',same⟩ := progress.keeps x s live fun inside =>
        c.notInside owner (inside.within inner)
      exact .inner live' ((Symbol.parentOutline same).trans parent)
        (ih ((Within.inner live parent .self).trans inner))
  exact outward within .self

namespace Edit

/-- A property of tables that attaching anything within a file keeps, and so every edit made of that, whether
it fails or not. -/
structure Tends (f : Handle) (holds : SymbolTable → Prop) : Prop where
  consistent : ∀ {t}, holds t → t.Consistent
  attached : ∀ {t t' p h d}, holds t → t.Within f p → t.attach p d = .ok (h,t') → holds t'

namespace Tends

variable {f : Handle} {holds : SymbolTable → Prop} (tends : Tends f holds) {t : SymbolTable} {p : Handle}

theorem bind {e : Edit α} {g : α → Edit β} (first : holds (after e t))
    (rest : ∀ {a t'}, e t = .ok a t' → holds (after (g a) t')) : holds (after (e >>= g) t) := by
  rw [afterBind]
  unfold after at first
  cases ran : e t with
  | ok a t' => exact rest ran
  | error failure t' =>
    rw [ran] at first
    exact first

theorem quiet {e : Edit α} (first : holds (after e t)) (g : α → β) :
    holds (after (e >>= fun a => pure (g a)) t) := by
  refine bind first fun {_ t'} ran => ?_
  rw [afterOk ran] at first
  exact first

include tends

theorem attach (start : holds t) (within : t.Within f p) (d : Draft) : holds (after (attach p d) t) := by
  unfold after Edit.attach
  cases ran : t.attach p d with
  | error failure => exact start
  | ok result => exact tends.attached start within ran

theorem attachAll (start : holds t) (within : t.Within f p) (scope : t.Kinded p (· ≠ .package))
    {drafts : List Draft} (inner : ∀ d ∈ drafts, d.kind.isVariable) :
    holds (after (attachAll p drafts) t) := by
  induction drafts generalizing t with
  | nil => exact start
  | cons d rest ih =>
    obtain ⟨inner',others⟩ := List.forall_mem_cons.mp inner
    have c := tends.consistent start
    have first := tends.attach start within d
    have progress := attachProgress anything c (p := p) (.inr ⟨.inr inner',scope⟩)
    refine bind first fun {h t'} ran => ?_
    rw [afterOk ran] at first progress
    exact ih first (progress.within c scope within) (progress.kinded c scope) others

theorem method (start : holds t) (within : t.Within f p) (scope : t.Kinded p (· ≠ .package))
    (decl : MethodDecl) : holds (after (addMethod p decl) t) := by
  have c := tends.consistent start
  have first := tends.attach start within (.ofMethod decl)
  have placed := attachProgress anything c (p := p) (d := .ofMethod decl) (.inr ⟨.inl rfl,scope⟩)
  refine bind first fun {m t₁} ran => ?_
  rw [afterOk ran] at first placed
  have c₁ := tends.consistent first
  obtain ⟨s,live,parent,kind⟩ := attachResult c ran
  have method : t₁.Kinded m (· ≠ .package) := ⟨s,live,by simp [kind,Draft.ofMethod]⟩
  have within₁ : t₁.Within f m := .inner live parent (placed.within c scope within)
  have drafts : ∀ role (decls : List VariableDecl),
      ∀ d ∈ decls.map (Draft.ofVariable role), d.kind.isVariable := by
    simp [Draft.ofVariable,SymbolKind.isVariable]
  have second := tends.attachAll first within₁ method (drafts .parameter decl.parameters)
  have filled := attachAllProgress anything c₁ method _ (drafts .parameter decl.parameters)
  refine bind second fun {_ t₂} ran' => ?_
  rw [afterOk ran'] at second filled
  exact quiet (tends.attachAll second (filled.within c₁ method within₁) (filled.kinded c₁ method)
    (drafts .localVariable decl.locals)) _

theorem outline (start : holds t) (within : t.Within f p) (outline : TypeOutline) :
    holds (after (addOutline p outline) t) := by
  unfold addOutline
  split
  · exact tends.attach start within _
  · exact start

mutual

theorem member {t : SymbolTable} {p : Handle} (start : holds t) (within : t.Within f p)
    (scope : t.Kinded p IsBody) : (m : MemberDecl) → holds (after (addMember p m) t)
  | .field decl => quiet (tends.attach start within (.ofField decl)) _
  | .method decl => quiet (tends.method start within scope.inner decl) _
  | .type outline inner => by
    have c := tends.consistent start
    have first := tends.outline start within outline
    have placed : Progress _ p t (after (addOutline p outline) t) := outlineProgress anything c scope trivial
    refine bind first fun {type t₁} ran => ?_
    rw [afterOk ran] at first placed
    obtain ⟨s,live,parent,kind⟩ := outlineResult c ran
    exact quiet (members first (.inner live parent (placed.within c scope within))
      ⟨s,live,.inr kind⟩ inner) _

theorem members {t : SymbolTable} {p : Handle} (start : holds t) (within : t.Within f p)
    (scope : t.Kinded p IsBody) : (inner : List MemberDecl) → holds (after (addMembers p inner) t)
  | [] => start
  | m :: rest => by
    have c := tends.consistent start
    have first := member start within scope m
    have progress := addMemberProgress anything c scope m m.namedTrue
    refine bind first fun {_ t₁} ran => ?_
    rw [afterOk ran] at first progress
    exact quiet (members first (progress.within c scope within) (progress.kinded c scope) rest) _

end

theorem types (start : holds t) (scope : t.Kinded f IsBody) (span : Span) (types : List TypeDecl) :
    holds (after (addTypes f span types) t) := by
  have first := tends.members start .self scope (types.map fun type => .type type.outline type.members)
  refine bind first fun {inner t'} ran => ?_
  rw [afterOk ran] at first
  cases SpanMap.ofList ((span,f) :: inner) <;> exact first

end Tends

theorem reworksTends (t₀ : SymbolTable) (f : Handle) : Tends f fun t => t.Consistent ∧ Reworks t₀ t where
  consistent := And.left
  attached := fun ⟨c,reworks⟩ _ ok => ⟨(attachSteps c ok).consistent c,reworks.trans (reworksAttach ok)⟩

theorem reworksTypes {t : SymbolTable} (c : t.Consistent) {file : Handle} (scope : t.Kinded file IsBody)
    (span : Span) (types : List TypeDecl) : Reworks t (after (addTypes file span types) t) :=
  ((reworksTends t file).types ⟨c,reworksRefl t⟩ scope span types).2

end Edit
end SymbolTable

namespace Members

def Stocked (m : Members) : Prop := ∀ e ∈ m.entries, e.2 ≠ []

theorem putStocked {entries : List (String × List Handle)} (stocked : ∀ e ∈ entries, e.2 ≠ [])
    (name : String) {f : Option (List Handle) → List Handle} (filled : ∀ found, f found ≠ []) :
    ∀ e ∈ OrderedMap.put name f entries, e.2 ≠ [] := by
  induction entries with
  | nil => simpa [OrderedMap.put] using filled none
  | cons entry rest ih =>
    obtain ⟨here,later⟩ := List.forall_mem_cons.mp stocked
    unfold OrderedMap.put
    split
    · exact List.forall_mem_cons.mpr ⟨filled _,later⟩
    · exact List.forall_mem_cons.mpr ⟨here,ih later⟩

theorem Stocked.push {m : Members} (stocked : m.Stocked) (name : String) (h : Handle) :
    (m.push name h).Stocked := putStocked stocked name (by simp)

theorem Stocked.drop {m : Members} (stocked : m.Stocked) (name : String) (h : Handle) :
    (m.drop name h).Stocked := by
  unfold Members.drop
  split
  · exact stocked
  · split
    · exact fun e inside => stocked e (List.mem_filter.mp inside).1
    · rename_i kept some
      exact putStocked stocked name fun _ none => some none

end Members

namespace Body

def Stocked (b : Body) : Prop := b.members.Stocked

theorem stockedBare (b : Body) : b.bare.Stocked := by
  cases b <;> exact fun _ => List.not_mem_nil.elim

theorem stockedMembers {b : Body} {f : Members → Members} (stocked : b.Stocked)
    (keeps : b.members.Stocked → (f b.members).Stocked) : (b.mapMembers f).Stocked := by
  cases scope : b.members?.isSome with
  | true =>
    unfold Stocked
    rw [membersMembers f scope]
    exact keeps stocked
  | false =>
    rw [mapMembersPlain f scope]
    exact stocked

theorem Edited.stocked {b b' : Body} (edited : b.Edited b') (stocked : b.Stocked) : b'.Stocked := by
  induction edited with
  | same => exact stocked
  | push _ name h ih => exact stockedMembers ih (·.push name h)
  | drop _ name h ih => exact stockedMembers ih (·.drop name h)
  | @parameters b' _ f ih => cases b' <;> exact ih
  | @files b' _ f ih => cases b' <;> exact ih
  | @subpackages b' _ f ih => cases b' <;> exact ih

end Body

namespace SymbolTable

def Stocked (t : SymbolTable) : Prop := ∀ h s, t.symbol? h = some s → s.body.Stocked

theorem Reworks.stocked {t t' : SymbolTable} (reworks : Reworks t t') (stocked : t.Stocked) :
    t'.Stocked := by
  intro h s' live
  rcases reworks h s' live with fresh | ⟨s,live',edited⟩
  · exact fresh.stocked (Body.stockedBare s'.body)
  · exact edited.stocked (stocked h s live')

theorem Stocked.scopes {t : SymbolTable} (stocked : t.Stocked) (file : Handle) (scopes : SpanMap Handle) :
    (t.modify file (·.withScopes scopes)).Stocked := by
  intro h s' live
  rw [symbolModify] at live
  split at live
  · obtain ⟨s,live',rfl⟩ := Option.map_eq_some_iff.mp live
    have before := stocked h s live'
    obtain ⟨_,_,_,_,_,body⟩ := s
    cases body <;> exact before
  · exact stocked h s' live

theorem putFileStocked {t : SymbolTable} (c : t.Consistent) (stocked : t.Stocked) (decl : FileDecl) :
    (t.putFile decl).2.Stocked := by
  unfold putFile
  split
  · exact stocked
  obtain ⟨begun,scope⟩ := c.begun decl
  have started := ((reworksDrop t (Path.normalize decl.path)).trans
    (reworksStart _ (Path.normalize decl.path) decl)).stocked stocked
  have types := (Edit.reworksTypes begun scope decl.span decl.types).stocked started
  simp only [Edit.after] at types
  split at types
  · rename_i ran
    simp only [ran]
    exact types.scopes _ _
  · rename_i ran
    simp only [ran]
    exact (reworksDrop _ _).stocked types

theorem emptyStocked : empty.Stocked := by
  intro h s live
  rw [(emptyLive live).2]
  exact Body.stockedBare emptyRoot.body

end SymbolTable

namespace Codebase

theorem applyStocked {c : Codebase} (consistent : c.table.Consistent) (stocked : c.table.Stocked)
    (change : Change) : (c.apply change).2.table.Stocked := by
  cases change with
  | putFile decl => exact SymbolTable.putFileStocked consistent stocked decl
  | dropFile path => exact (SymbolTable.reworksDrop c.table path).stocked stocked
  | attach scope draft =>
    rw [applyAttach]
    cases ran : c.table.attach scope draft with
    | error failure => exact stocked
    | ok result => exact (SymbolTable.reworksAttach ran).stocked stocked
  | addDependency dependency =>
    rw [applyDependency]
    exact stocked

theorem runStocked {c : Codebase} (consistent : c.table.Consistent) (stocked : c.table.Stocked)
    (changes : List Change) : (c.run changes).table.Stocked := by
  induction changes generalizing c with
  | nil => exact stocked
  | cons change rest ih =>
    exact ih ((applySteps c consistent change).consistent consistent) (applyStocked consistent stocked change)

end Codebase
end CodeIndex
