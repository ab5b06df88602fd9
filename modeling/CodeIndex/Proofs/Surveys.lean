import CodeIndex.Proofs.InnermostScope
import CodeIndex.Proofs.Standing

/-! The handles made for the declarations of a file. Indexing a file gives out a handle for each type and method
in it, and answers with the spans of all of them. The handles of declarations that a later one replaces name
nothing any more when the file is done; each of the others is what stands for its declaration. -/
namespace CodeIndex
namespace SymbolTable

def spansOf (standings : List (MemberDecl × Option Handle)) : List (Span × Option Handle) :=
  standings.map fun e => (e.1.draft.span,e.2)

def leftOf (t : SymbolTable) (spans : List (Span × Handle)) : List (Span × Option Handle) :=
  spans.map fun e => (e.1,(some e.2).filter t.isLive)

mutual

theorem standingsSpans (t : SymbolTable) : (m : MemberDecl) → ∀ h, (t.standings h m).map (·.1.draft.span) = m.spans
  | .field _ => fun _ => rfl
  | .method _ => fun _ => rfl
  | .type outline members => fun h => congrArg (outline.span :: ·) (standingsAllSpans t members h)

theorem standingsAllSpans (t : SymbolTable) : (members : List MemberDecl) →
    ∀ p, (t.standingsAll p members).map (·.1.draft.span) = MemberDecl.spansAll members
  | [] => fun _ => rfl
  | m :: rest => fun p => by
    rw [standingsAll,List.map_append,standingsSpans t m,standingsAllSpans t rest,MemberDecl.spansAll]

end

theorem spansGone (t : SymbolTable) (m : MemberDecl) : spansOf (t.standings none m) = m.spans.map (·,none) := by
  rw [← standingsSpans t m none,List.map_map,spansOf]
  refine List.map_congr_left fun e listed => ?_
  rw [standingsNone t m e listed]
  rfl

structure ListAlike (t t' : SymbolTable) (sort : Handle → Prop) : Prop where
  same : ∀ p, sort p → ∀ name, t'.declared p name = t.declared p name
  inner : ∀ p name, sort p → ∀ x ∈ t.declared p name, sort x

section

variable {t t' : SymbolTable} {sort : Handle → Prop}

mutual

theorem ListAlike.standings (alike : ListAlike t t' sort) :
    (m : MemberDecl) → ∀ h, (∀ p ∈ h, sort p) → t'.standings h m = t.standings h m
  | .field _ => fun _ _ => rfl
  | .method _ => fun _ _ => rfl
  | .type outline members => fun h sorted =>
    congrArg ((MemberDecl.type outline members,h) :: ·) (alike.standingsAll members h sorted)

theorem ListAlike.standingsAll (alike : ListAlike t t' sort) : (members : List MemberDecl) →
    ∀ p, (∀ q ∈ p, sort q) → t'.standingsAll p members = t.standingsAll p members
  | [] => fun _ _ => rfl
  | m :: rest => fun p sorted => by
    have first : (p.bind fun p => t'.standing? p m rest) = p.bind fun p => t.standing? p m rest := by
      refine Option.bind_congr fun q found => ?_
      simp only [standing?,alike.same q (sorted q found)]
    rw [SymbolTable.standingsAll,SymbolTable.standingsAll,first,alike.standingsAll rest p sorted,
      alike.standings m]
    intro x found
    obtain ⟨q,above,stands⟩ := Option.bind_eq_some_iff.mp found
    unfold standing? at stands
    split at stands
    · cases stands
    · exact alike.inner q _ (sorted q above) x (List.mem_reverse.mp (List.mem_of_getElem? stands))

end

end

theorem Consistent.listAlike {t t' : SymbolTable} (c : t.Consistent) {p h : Handle} {d : Draft}
    (held : t.Holds p h d) (same : ∀ {x}, t.Within h x → t'.symbol? x = t.symbol? x) :
    ListAlike t t' (t.Within h) where
  same := fun _ within => declaredTransfer (same within)
  inner := by
    intro q name within x listed
    obtain ⟨s,live,fits⟩ := held
    obtain ⟨o,owner⟩ := within.live live
    rw [declaredShelf owner] at listed
    obtain ⟨sx,inside⟩ := ((c.listed owner _ x).mp listed).live
    have parent := c.ownMember owner (c.noPackageWithin live fits.plain within owner) _ listed inside
    exact within.trans (.inner inside parent .self)

structure Made (t : SymbolTable) (p h : Handle) (m : MemberDecl) (spans : List (Span × Handle)) : Prop where
  issued : t.symbols.Issued h
  held : t.isLive h → t.Holds p h m.draft
  declared : spans.map Prod.fst = m.spans
  inner : ∀ e ∈ spans, t.Charted h e.2
  stands : t.isLive h → spansOf (t.standings (some h) m) = t.leftOf spans

theorem issuedDead {t : SymbolTable} {h : Handle} (issued : t.symbols.Issued h) (dead : t.isLive h = false) :
    t.symbols.Retired h := by
  rcases issued with retired | ⟨s,live⟩
  · exact retired
  · cases (liveNot.mp dead).symm.trans live

theorem Within.outerLive {t : SymbolTable} (c : t.Consistent) {h x : Handle} (within : t.Within h x)
    (live : t.isLive x) : t.isLive h := by
  induction within with
  | self => exact live
  | inner _ _ _ ih =>
    rename_i held parent outer
    obtain ⟨o,owner,_⟩ := c.parentLive held parent
    exact ih (by simp [liveSome,owner])

section

variable {t t' : SymbolTable} {p h : Handle} {m : MemberDecl} {spans : List (Span × Handle)}

theorem Made.left (made : t.Made p h m spans) (c : t.Consistent) :
    spansOf (t.standings ((some h).filter t.isLive) m) = t.leftOf spans := by
  cases alive : t.isLive h with
  | true =>
    simp only [Option.filter,alive,if_true]
    exact made.stands alive
  | false =>
    simp only [Option.filter,alive]
    rw [if_neg Bool.false_ne_true,spansGone,← made.declared,List.map_map,leftOf]
    refine List.map_congr_left fun e listed => ?_
    have dead : t.isLive e.2 = false := by
      refine Bool.eq_false_iff.mpr fun live => ?_
      obtain ⟨s,held⟩ := Option.isSome_iff_exists.mp live
      obtain ⟨_,within⟩ := (made.inner e listed).2 s held
      simp [within.outerLive c live] at alive
    simp [Option.filter,dead]

end

structure Joins (t t' : SymbolTable) (p h : Handle) (m : MemberDecl) : Prop where
  before : t.Consistent
  after : t'.Consistent
  scope : t'.Kinded p (· ≠ .package)
  adds : Adds t t' p h m.plan
  fresh : ¬t.symbols.Issued h
  turns : ∃ m n k, Turns m n t t' ∧ t.symbols.Young k ∧ k + n < 2 ^ 32

namespace Joins

variable {t t' : SymbolTable} {p new h : Handle} {next m : MemberDecl} {spans : List (Span × Handle)}
  (joins : Joins t t' p new next)
include joins

theorem dead (issued : t.symbols.Issued h) (dead : t.isLive h = false) : t'.isLive h = false := by
  obtain ⟨_,_,_,turns,young,room⟩ := joins.turns
  exact liveNot.mpr (Arena.retiredDead (turns.retired young room (issuedDead issued dead)))

theorem same (held : t.Holds p h m.draft) (stays : next.draft.replaces m.draft = false) {x : Handle}
    (within : t.Within h x) : t'.symbol? x = t.symbol? x :=
  held.beside joins.before (d := next.draft) (next.planDraft ▸ joins.adds.spares) stays within

theorem replaced (held : t.Holds p h m.draft) (gone : next.draft.replaces m.draft) : t'.isLive h = false := by
  refine Bool.eq_false_iff.mpr fun alive => ?_
  obtain ⟨s,live,fits⟩ := held
  obtain ⟨_,_,_,turns,young,room⟩ := joins.turns
  obtain ⟨s',live'⟩ := Option.isSome_iff_exists.mp alive
  have outline : s'.outline = s.outline := by
    rcases turns.fate young room joins.before.store live with retired | ⟨s₁,live₁,same⟩
    · cases (Arena.retiredDead retired).symm.trans live'
    · cases Option.some.inj (live₁.symm.trans live')
      exact same
  obtain ⟨o,owner,plain⟩ := joins.scope
  have listed := joins.after.declaredOwn owner plain live' ((Symbol.parentOutline outline).trans fits.parent)
  have lost := Holds.outlives ⟨s,live,fits⟩ next.draft
  rw [joins.adds.listed,next.planDraft] at listed
  rcases List.mem_append.mp listed with old | last
  · simp [gone,(List.mem_filter.mp old).2] at lost
  · have here : h = new := by
      split at last
      · exact List.mem_singleton.mp last
      · exact (List.not_mem_nil last).elim
    exact joins.fresh (here ▸ .inr ⟨s,live⟩)

theorem live (made : t.Made p h m spans) : t'.isLive h = (t.isLive h && !next.draft.replaces m.draft) := by
  cases alive : t.isLive h with
  | false => exact joins.dead made.issued alive
  | true =>
    cases gone : next.draft.replaces m.draft with
    | true => exact joins.replaced (made.held alive) gone
    | false =>
      rw [liveSome,joins.same (made.held alive) gone .self]
      exact alive

theorem made (made : t.Made p h m spans) : t'.Made p h m spans := by
  obtain ⟨_,_,_,turns,young,room⟩ := joins.turns
  have stays : t'.isLive h → t.isLive h ∧ next.draft.replaces m.draft = false := by
    intro alive
    simpa [joins.live made] using alive
  refine ⟨turns.issued young room joins.before.store made.issued,fun alive => ?_,made.declared,
    fun e listed => (made.inner e listed).later turns joins.before joins.after young room,fun alive => ?_⟩
  · obtain ⟨alive,stays⟩ := stays alive
    exact (made.held alive).transfer (joins.same (made.held alive) stays .self)
  · obtain ⟨alive,stays⟩ := stays alive
    have same {x : Handle} := joins.same (made.held alive) stays (x := x)
    have alike := joins.before.listAlike (made.held alive) same
    rw [alike.standings m (some h) (by simpa using Within.self),made.stands alive]
    refine List.map_congr_left fun e listed => ?_
    have charted := made.inner e listed
    have there : t'.isLive e.2 = t.isLive e.2 := by
      cases inner : t.isLive e.2 with
      | false => exact joins.dead charted.1 inner
      | true =>
        obtain ⟨s,held⟩ := Option.isSome_iff_exists.mp inner
        rw [liveSome,same (charted.2 s held).2]
        exact inner
    simp only [Option.filter,there]

end Joins

structure Recorded (t : SymbolTable) (p : Handle) (made : List (Handle × MemberDecl × List (Span × Handle))) :
    Prop where
  each : ∀ e ∈ made, t.Made p e.1 e.2.1 e.2.2
  fate : ∀ e later, e :: later <:+ made →
    t.isLive e.1 = !later.any fun other => other.2.1.draft.replaces e.2.1.draft
  lists : t.Lists p MemberDecl.draft ((made.filter fun e => t.isLive e.1).map fun e => (e.1,e.2.1))

theorem recordedNone {t : SymbolTable} {p : Handle} (blank : t.Lists p MemberDecl.draft []) : t.Recorded p [] where
  each := fun _ => List.not_mem_nil.elim
  fate := by
    intro e later tail
    cases List.suffix_nil.mp tail
  lists := blank

theorem Recorded.add {t t' : SymbolTable} {p h : Handle} {m : MemberDecl} {spans : List (Span × Handle)}
    {made : List (Handle × MemberDecl × List (Span × Handle))} (recorded : t.Recorded p made)
    (joins : Joins t t' p h m) (last : t'.Made p h m spans) : t'.Recorded p (made ++ [(h,m,spans)]) := by
  have alive : t'.isLive h := by
    obtain ⟨s,live,_⟩ := joins.adds.mirrors.held
    simp [liveSome,live]
  refine ⟨?_,?_,?_⟩
  · exact List.forall_mem_append.mpr
      ⟨fun e listed => joins.made (recorded.each e listed),List.forall_mem_singleton.mpr last⟩
  · intro e later tail
    rcases List.suffix_concat_iff.mp tail with none | ⟨tail',split,earlier⟩
    · cases none
    · cases tail' with
      | nil =>
        cases split
        simpa using alive
      | cons e' later' =>
        -- An earlier member keeps its fate, unless the new one replaces it.
        obtain ⟨rfl,rfl⟩ := List.cons.inj split
        rw [joins.live (recorded.each e (earlier.subset List.mem_cons_self)),recorded.fate e later' earlier]
        simp [List.any_append,Bool.not_or]
  · have listed := joins.adds.listed
    rw [m.planDraft] at listed
    have more := recorded.lists.add (a := m) ?_ listed
    · have stay : (made.filter fun e => t'.isLive e.1) =
          (made.filter fun e => t.isLive e.1).filter fun e => !m.draft.replaces e.2.1.draft := by
        rw [List.filter_filter]
        refine List.filter_congr fun e listed => ?_
        rw [joins.live (recorded.each e listed),Bool.and_comm]
      rw [List.filter_append,stay,List.filter_cons_of_pos (by simpa using alive),List.map_append]
      rw [List.filter_map] at more
      exact more
    · intro e inside
      obtain ⟨e,left,rfl⟩ := List.mem_map.mp inside
      obtain ⟨there,alive⟩ := List.mem_filter.mp left
      exact (recorded.each e there).held alive

theorem fateKept {t : SymbolTable} {made : List (Handle × MemberDecl × List (Span × Handle))}
    (fate : ∀ e later, e :: later <:+ made →
      t.isLive e.1 = !later.any fun other => other.2.1.draft.replaces e.2.1.draft) :
    ((made.filter fun e => t.isLive e.1).map fun e => (e.1,e.2.1)).map Prod.snd =
      Draft.kept MemberDecl.draft (made.map (·.2.1)) := by
  induction made with
  | nil => rfl
  | cons e later ih =>
    have rest := ih fun e' later' tail => fate e' later' (tail.trans (List.suffix_cons e later))
    have here := fate e later List.suffix_rfl
    rw [List.map_cons,Draft.kept,List.any_map]
    cases replaced : later.any fun other => other.2.1.draft.replaces e.2.1.draft with
    | true =>
      rw [replaced] at here
      rw [List.filter_cons_of_neg (by simp [here]),if_pos (by exact replaced),rest]
    | false =>
      rw [replaced] at here
      rw [List.filter_cons_of_pos (by simp [here]),if_neg (by exact Bool.eq_false_iff.mp replaced),List.map_cons,
        List.map_cons,rest]

theorem Recorded.left {t : SymbolTable} (c : t.Consistent) {p : Handle}
    (early : List (Handle × MemberDecl × List (Span × Handle)))
    {made : List (Handle × MemberDecl × List (Span × Handle))} (recorded : t.Recorded p (early ++ made)) :
    spansOf (t.standingsAll (some p) (made.map (·.2.1))) = t.leftOf (made.flatMap (·.2.2)) := by
  induction made generalizing early with
  | nil => rfl
  | cons e later ih =>
    have tail : e :: later <:+ early ++ e :: later := List.suffix_append _ _
    have here := recorded.fate e later tail
    have stands : t.standing? p e.2.1 (later.map (·.2.1)) = (some e.1).filter t.isLive := by
      cases replaced : later.any fun other => other.2.1.draft.replaces e.2.1.draft with
      | true =>
        rw [replaced] at here
        rw [standing?,List.any_map,if_pos (by exact replaced)]
        simp [Option.filter,here]
      | false =>
        rw [replaced] at here
        have lists := recorded.lists
        rw [List.filter_append,List.filter_cons_of_pos (by simp [here]),List.map_append,List.map_cons] at lists
        rw [lists.standing (fateKept fun e' later' inner => recorded.fate e' later'
          (inner.trans ((List.suffix_cons e later).trans tail))) (by rw [List.any_map]; exact replaced)]
        simp [Option.filter,here]
    have made := (recorded.each e (by simp)).left c
    have others := ih (early ++ [e]) (by simpa using recorded)
    rw [List.map_cons,standingsAll,Option.bind_some,stands,List.flatMap_cons]
    rw [spansOf,List.map_append,leftOf,List.map_append]
    exact congrArg₂ (· ++ ·) made others

theorem Recorded.type {t : SymbolTable} (c : t.Consistent) {p h : Handle} {outline : TypeOutline}
    {made : List (Handle × MemberDecl × List (Span × Handle))} (held : t.Holds p h (.ofType outline))
    (scope : t.Kinded h IsBody) (recorded : t.Recorded h made) :
    t.Made p h (.type outline (made.map (·.2.1))) ((outline.span,h) :: made.flatMap (·.2.2)) := by
  obtain ⟨s,live,body⟩ := scope
  have alive : t.isLive h := by simp [liveSome,live]
  refine ⟨.inr ⟨s,live⟩,fun _ => held,?_,?_,fun _ => ?_⟩
  · rw [List.map_cons,List.map_flatMap,MemberDecl.spans,MemberDecl.spansFlat,List.flatMap_map]
    exact congrArg _ (List.flatMap_congr fun e listed => (recorded.each e listed).declared)
  · refine List.forall_mem_cons.mpr ⟨chartedLive live (scopeKind (.inr body)) .self,fun e inside => ?_⟩
    obtain ⟨entry,listed,inside⟩ := List.mem_flatMap.mp inside
    have made := recorded.each entry listed
    obtain ⟨issued,there⟩ := made.inner e inside
    refine ⟨issued,fun se live' => ?_⟩
    obtain ⟨scope,within⟩ := there se live'
    have outer := within.outerLive c (by simp [liveSome,live'])
    exact ⟨scope,((made.held outer).within .self).trans within⟩
  · have inner := Recorded.left c [] recorded
    rw [standings,spansOf,List.map_cons,leftOf,List.map_cons]
    simp only [Option.filter,alive,if_true]
    exact congrArg _ inner

namespace Edit

theorem attachCounted {t t' : SymbolTable} {p h : Handle} {d : Draft} (ran : attach p d t = .ok h t') :
    attachCount p d t = 1 := by
  rw [attachCount,attachRan ran]

theorem outlineRan {t t' : SymbolTable} {p h : Handle} {outline : TypeOutline}
    (ran : addOutline p outline t = .ok h t') :
    attach p (.ofType outline) t = .ok h t' ∧ outlineCount p outline t = 1 := by
  unfold addOutline at ran
  split at ran
  · rename_i type
    exact ⟨ran,(if_pos type).trans (attachCounted ran)⟩
  · cases ran

def Records (p : Handle) (m : MemberDecl) (count : Nat) (spans : List (Span × Handle)) (t t' : SymbolTable) :
    Prop :=
  ∃ n, Turns count n t t' ∧ ∀ k, t.symbols.Young k → k + n < 2 ^ 32 →
    ∃ h, Joins t t' p h m ∧ t'.Made p h m spans

theorem recordsIssued {t t' : SymbolTable} (c : t.Consistent) {p h : Handle} (scope : t.Kinded p IsBody)
    {m : MemberDecl} {count n : Nat} {spans : List (Span × Handle)} (ran : addMember p m t = .ok spans t')
    (adds : Adds t t' p h m.plan) (issues : Arena.Issues Symbol.outline count n h t.symbols t'.symbols)
    (made : ∀ k, t.symbols.Young k → k + n < 2 ^ 32 → t'.Made p h m spans) : Records p m count spans t t' := by
  have progress := addMemberProgress anything c scope m m.namedTrue
  rw [afterOk ran] at progress
  refine ⟨n,issues.moves,fun k young room => ⟨h,?_,made k young room⟩⟩
  exact
    { before := c
      after := progress.steps.consistent c
      scope := progress.kinded c scope.inner
      adds
      fresh := (Arena.issuesFresh issues c.store young room).1
      turns := ⟨_,n,k,issues.moves,young,room⟩ }

mutual

theorem memberRecords {t t' : SymbolTable} (c : t.Consistent) {p : Handle} (scope : t.Kinded p IsBody)
    {spans : List (Span × Handle)} : (m : MemberDecl) → addMember p m t = .ok spans t' →
      Records p m (memberCount p m t) spans t t'
  | .field decl, ran => by
    obtain ⟨h,t₁,attached,done⟩ := bindOk ran
    obtain ⟨places,c₁,scope₁⟩ := attachAdds c (.inr ⟨.inr rfl,scope.inner⟩) scope.inner attached
    obtain ⟨n,issues⟩ := issuesAttach (attachRan attached)
    cases done
    have adds := places.leaf c₁ scope₁
    rw [memberCount,attachCounted attached]
    refine recordsIssued c scope ran adds issues fun k young room => ?_
    exact ⟨(Arena.issuesFresh issues c.store young room).2,fun _ => adds.mirrors.held,rfl,
      fun _ => List.not_mem_nil.elim,fun _ => rfl⟩
  | .method decl, ran => by
    obtain ⟨added,t₁,method,done⟩ := bindOk ran
    cases done
    have adds := methodAdds c scope.inner method
    obtain ⟨h,t₂,m,n',attached,rfl,turns,counted⟩ := methodRan method
    obtain ⟨n,issues⟩ := issuesAttach (attachRan attached)
    rw [memberCount,counted,attachCounted attached]
    refine recordsIssued c scope ran adds (issues.later turns) fun k young room => ?_
    obtain ⟨s,live,fits⟩ := adds.mirrors.held
    have alive : t'.isLive h := by simp [liveSome,live]
    refine ⟨.inr ⟨s,live⟩,fun _ => ⟨s,live,fits⟩,rfl,?_,fun _ => ?_⟩
    · exact List.forall_mem_singleton.mpr (chartedLive live (scopeKind (.inl fits.kind)) .self)
    · simp [spansOf,standings,leftOf,Option.filter,alive,MemberDecl.draft,Draft.ofMethod]
  | .type outline members, ran => by
    obtain ⟨h,t₁,first,rest⟩ := bindOk ran
    obtain ⟨inner,t₂,second,done⟩ := bindOk rest
    cases done
    obtain ⟨places,c₁,scope₁,body⟩ := outlinePlaced c scope first
    obtain ⟨carries,leaves⟩ := membersCarried c₁ body places.carries members second
    have adds := typeAdds c₁ places scope₁ body second carries leaves
    have progress := addMembersProgress anything c₁ body members (MemberDecl.namedAllTrue members)
    rw [afterOk second] at progress
    obtain ⟨n',turns,recorded⟩ := membersRecorded c₁ body members second
    obtain ⟨attached,counted⟩ := outlineRan first
    obtain ⟨n,issues⟩ := issuesAttach (attachRan attached)
    rw [memberCount,countThenRan first,counted]
    refine recordsIssued c scope ran adds (issues.later turns) fun k young room => ?_
    obtain ⟨late,rfl,rfl,after⟩ :=
      recorded _ (issues.moves.stillYoung young (by omega)) (by omega) [] (recordedNone places.blank)
    exact after.type (progress.steps.consistent c₁) adds.mirrors.held (progress.kinded c₁ body)

theorem membersRecorded {t t' : SymbolTable} (c : t.Consistent) {p : Handle} (scope : t.Kinded p IsBody)
    {spans : List (Span × Handle)} : (members : List MemberDecl) → addMembers p members t = .ok spans t' →
      ∃ n, Turns (membersCount p members t) n t t' ∧ ∀ k, t.symbols.Young k → k + n < 2 ^ 32 →
        ∀ early, t.Recorded p early → ∃ late, late.map (·.2.1) = members ∧ late.flatMap (·.2.2) = spans ∧
          t'.Recorded p (early ++ late)
  | [], ran => by
    cases ran
    exact ⟨0,.done t.symbols,fun _ _ _ early recorded => ⟨[],rfl,rfl,by simpa using recorded⟩⟩
  | m :: rest, ran => by
    obtain ⟨first,t₁,ran₁,ran⟩ := bindOk ran
    obtain ⟨others,t₂,ran₂,done⟩ := bindOk ran
    cases done
    have progress := addMemberProgress anything c scope m m.namedTrue
    rw [afterOk ran₁] at progress
    obtain ⟨n,turns,records⟩ := memberRecords c scope m ran₁
    obtain ⟨n',turns',recorded⟩ :=
      membersRecorded (progress.steps.consistent c) (progress.kinded c scope) rest ran₂
    rw [membersCount,countThenRan ran₁]
    refine ⟨n + n',turns.trans turns',fun k young room early before => ?_⟩
    obtain ⟨h,joins,made⟩ := records k young (by omega)
    obtain ⟨late,all,flat,after⟩ := recorded _ (turns.stillYoung young (by omega)) (by omega) _
      (before.add joins made)
    exact ⟨(h,m,first) :: late,by simp [all],by simp [flat],by simpa using after⟩

end

end Edit

theorem startBlank {t : SymbolTable} (c : t.Consistent) {path : String} (absent : t.files.get? path = none)
    (decl : FileDecl) : (t.startFile path decl).2.Recorded (t.startFile path decl).1 [] := by
  obtain ⟨root,live,isPackage,_⟩ := c.root
  obtain ⟨steps,files,o,owner,package,_⟩ :=
    makePackageSteps (fun _ _ => True) c live isPackage decl.package fun _ _ _ => trivial
  have grows := fileGrows (steps.consistent c) owner package (files ▸ absent) decl
  rw [startFileMade owner]
  exact recordedNone fun name => (declaredShelf grows.added name).trans (grows.empty _)

theorem scopesLive (t : SymbolTable) (f : Handle) (scopes : SpanMap Handle) (h : Handle) :
    (t.modify f (·.withScopes scopes)).isLive h = t.isLive h := by
  simp only [liveSome,symbolModify]
  split <;> simp

theorem scopesAlike (t : SymbolTable) (f : Handle) (scopes : SpanMap Handle) :
    ListAlike t (t.modify f (·.withScopes scopes)) fun _ => True where
  same := by
    intro p _ name
    by_cases here : p = f
    · rw [here,scopesDeclared]
    · exact declaredTransfer (by rw [symbolModify,if_neg here]) name
  inner := fun _ _ _ _ _ => trivial

/-- What a file keeps for offsets after it was indexed: its own span and those of its types and methods, each
with the handle made for it, which is what stands for the declaration if it still names something. -/
structure Surveyed (t : SymbolTable) (file : Handle) (decl : FileDecl) (inner : List (Span × Handle)) : Prop where
  kept : ∃ o, t.symbol? file = some o ∧ o.kind = .file ∧
    SpanMap.ofList ((decl.span,file) :: inner) = .ok o.body.scopes
  stands : spansOf (t.standingsAll (some file) decl.members) = t.leftOf inner
  issued : ∀ e ∈ inner, t.symbols.Issued e.2

theorem Recorded.surveyed {t : SymbolTable} (c : t.Consistent) {file : Handle} {decl : FileDecl}
    {made : List (Handle × MemberDecl × List (Span × Handle))} (recorded : t.Recorded file made)
    (all : made.map (·.2.1) = decl.members) {s : Symbol} (live : t.symbol? file = some s) (isFile : s.kind = .file)
    {scopes : SpanMap Handle} (listed : SpanMap.ofList ((decl.span,file) :: made.flatMap (·.2.2)) = .ok scopes) :
    (t.modify file (·.withScopes scopes)).Surveyed file decl (made.flatMap (·.2.2)) where
  kept := by
    refine ⟨s.mapBody (·.withScopes scopes),?_,?_,?_⟩
    · rw [symbolModify,if_pos rfl,live]
      rfl
    · rw [← isFile,Symbol.kind,← Body.kindBare,Symbol.mapBody,Body.bareScopes,Body.kindBare]
      rfl
    · rw [scopesOfFile isFile]
      exact listed
  stands := by
    have left := Recorded.left c [] recorded
    rw [all] at left
    rw [(scopesAlike t file scopes).standingsAll _ _ fun _ _ => trivial,left]
    simp only [leftOf,Option.filter,scopesLive]
  issued := by
    intro e inside
    obtain ⟨entry,there,inside⟩ := List.mem_flatMap.mp inside
    rcases ((recorded.each entry there).inner e inside).1 with retired | ⟨s',live'⟩
    · exact .inl (Arena.retiredModify retired _ _)
    · refine .inr (Option.isSome_iff_exists.mp ?_)
      exact (scopesLive t file scopes e.2).trans (Option.isSome_iff_exists.mpr ⟨s',live'⟩)

theorem typesSurveyed {t t' : SymbolTable} (c : t.Consistent) {file : Handle}
    (isFile : t.Kinded file (· = .file)) (blank : t.Recorded file []) {decl : FileDecl}
    {scopes : SpanMap Handle} (ran : Edit.addTypes file decl.span decl.types t = .ok scopes t') :
    ∃ n, Turns (Edit.membersCount file decl.members t) n t (t'.modify file (·.withScopes scopes)) ∧
      ∀ k, t.symbols.Young k → k + n < 2 ^ 32 →
        ∃ inner, (t'.modify file (·.withScopes scopes)).Surveyed file decl inner := by
  have scope : t.Kinded file IsBody := by
    obtain ⟨o,owner,kind⟩ := isFile
    exact ⟨o,owner,.inl kind⟩
  have progress := Edit.addTypesProgress Edit.anything c scope decl.span decl.types decl.namedTrue.types
  rw [Edit.afterOk ran] at progress
  obtain ⟨inner,added,listed⟩ := Edit.typesRan ran
  obtain ⟨n,turns,recorded⟩ := Edit.membersRecorded c scope _ added
  refine ⟨n + 0,turns.trans (turnsModify t' file (by simp)),fun k young room => ?_⟩
  obtain ⟨late,all,rfl,after⟩ := recorded k young room [] blank
  obtain ⟨s,live,kind⟩ := progress.kinded c isFile
  exact ⟨_,Recorded.surveyed (progress.steps.consistent c) after all live kind listed⟩

theorem putFileSurveyed {t : SymbolTable} (c : t.Consistent) {decl : FileDecl} {file : Handle}
    (ok : (t.putFile decl).1 = .ok file) : ∃ n, Turns (t.fileCount decl) n t (t.putFile decl).2 ∧
      ∀ k, t.symbols.Young k → k + n < 2 ^ 32 → ∃ inner, (t.putFile decl).2.Surveyed file decl inner := by
  have c₀ := (dropFileSteps (fun _ _ => True) c (Path.normalize decl.path)).consistent c
  have absent := dropFileUnindexed c (Path.normalize decl.path)
  rw [Path.normalizeFixed] at absent
  obtain ⟨n₀,dropped⟩ := turnsDrop t (Path.normalize decl.path)
  have started := (issuesStart c₀ (Path.normalize decl.path) decl).moves
  obtain ⟨_,c₁,isFile⟩ := fencesStart c₀ absent decl
  have blank := startBlank c₀ absent decl
  unfold putFile at ok ⊢
  unfold fileCount
  split at ok
  · cases ok
  rename_i upright
  rw [if_neg upright,if_neg upright]
  dsimp only at ok ⊢
  generalize (t.dropFile (Path.normalize decl.path)).2 = cleared at *
  generalize cleared.startFile (Path.normalize decl.path) decl = begun at *
  obtain ⟨f,t₁⟩ := begun
  dsimp only at started c₁ isFile blank ok ⊢
  split at ok
  · rename_i scopes t₂ ran
    obtain rfl := Except.ok.inj ok
    obtain ⟨n,turns,surveyed⟩ := typesSurveyed c₁ isFile blank ran
    have before := dropped.trans started
    rw [Nat.zero_add] at before
    exact ⟨_,before.trans turns,fun k young room =>
      surveyed _ (before.stillYoung young (by omega)) (by omega)⟩
  · cases ok

end SymbolTable
end CodeIndex
