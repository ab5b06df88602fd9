import CodeIndex.Resolver.Inheritance
import Mathlib.Data.List.Nodup

/-! Walks up a hierarchy. What holds of the start of a walk and is handed on by every step holds wherever
the walk comes. A walk that stays within a finite world needs no more fuel than that world has
classes, so it does not matter how much more there is: it is the walk that nothing bounds. -/
namespace CodeIndex.Answers

section

variable {α : Type u} {κ : Type v}

/-- A walk that nothing bounds. The head of the queue is met, and what it leads to is queued, unless its key is
that of something visited. -/
inductive Walk (key : α → Option κ) (next : α → List α) : List κ → List α → List α → Prop where
  | ended {visited} : Walk key next visited [] []
  | passed {visited x rest walk} (known : ∀ k, key x = some k → k ∈ visited)
      (onward : Walk key next visited rest walk) : Walk key next visited (x :: rest) walk
  | met {visited x k rest walk} (denotes : key x = some k) (new : k ∉ visited)
      (onward : Walk key next (k :: visited) (rest ++ next x) walk) :
      Walk key next visited (x :: rest) (x :: walk)

namespace Walk

variable {key : α → Option κ} {next next' : α → List α} {visited : List κ} {queue walk walk' : List α}

theorem unique (first : Walk key next visited queue walk) (second : Walk key next visited queue walk') :
    walk = walk' := by
  induction first generalizing walk' with
  | ended =>
    cases second
    rfl
  | passed known _ ih =>
    cases second with
    | passed _ onward => exact ih onward
    | met denotes new => exact absurd (known _ denotes) new
  | met denotes new _ ih =>
    cases second with
    | passed known => exact absurd (known _ denotes) new
    | met denotes' _ onward =>
      cases denotes.symm.trans denotes'
      rw [ih onward]

theorem congr (walks : Walk key next visited queue walk) (same : ∀ x ∈ walk, next' x = next x) :
    Walk key next' visited queue walk := by
  induction walks with
  | ended => exact .ended
  | passed known _ ih => exact .passed known (ih same)
  | met denotes new _ ih =>
    refine .met denotes new ?_
    rw [same _ List.mem_cons_self]
    exact ih fun y later => same y (List.mem_cons_of_mem _ later)

theorem all {P : α → Prop} (step : ∀ {x k}, P x → key x = some k → ∀ y ∈ next x, P y)
    (walks : Walk key next visited queue walk) (start : ∀ x ∈ queue, P x) : ∀ x ∈ walk, P x := by
  induction walks with
  | ended => simp
  | passed _ _ ih => exact ih fun y behind => start y (List.mem_cons_of_mem _ behind)
  | met denotes _ _ ih =>
    have here := start _ List.mem_cons_self
    refine List.forall_mem_cons.mpr ⟨here,ih fun y waiting => ?_⟩
    rcases List.mem_append.mp waiting with behind | above
    · exact start y (List.mem_cons_of_mem _ behind)
    · exact step here denotes y above

theorem keys (walks : Walk key next visited queue walk) :
    ∀ x ∈ walk, ∃ k, key x = some k ∧ k ∉ visited := by
  induction walks with
  | ended => simp
  | passed _ _ ih => exact ih
  | met denotes new _ ih =>
    refine List.forall_mem_cons.mpr ⟨⟨_,denotes,new⟩,fun y later => ?_⟩
    obtain ⟨k,denotes',new'⟩ := ih y later
    exact ⟨k,denotes',fun old => new' (List.mem_cons_of_mem _ old)⟩

theorem nodup (walks : Walk key next visited queue walk) : (walk.map key).Nodup := by
  induction walks with
  | ended => simp
  | passed _ _ ih => exact ih
  | met denotes _ onward ih =>
    refine List.nodup_cons.mpr ⟨fun again => ?_,ih⟩
    obtain ⟨y,later,same⟩ := List.mem_map.mp again
    obtain ⟨k,denotes',new'⟩ := onward.keys y later
    cases denotes'.symm.trans (same.trans denotes)
    exact new' List.mem_cons_self

theorem queued (walks : Walk key next visited queue walk) {before after : List α} {x : α}
    (parts : walk = before ++ x :: after) : x ∈ queue ∨ ∃ y ∈ before, x ∈ next y := by
  induction walks generalizing before with
  | ended => simp at parts
  | passed _ _ ih => exact (ih parts).imp_left (List.mem_cons_of_mem _)
  | @met _ first _ rest _ _ _ _ ih =>
    cases before with
    | nil =>
      cases (List.cons.inj parts).1
      exact .inl List.mem_cons_self
    | cons y before =>
      obtain ⟨rfl,others⟩ := List.cons.inj parts
      rcases ih others with waiting | ⟨z,earlier,above⟩
      · rcases List.mem_append.mp waiting with behind | above
        · exact .inl (List.mem_cons_of_mem _ behind)
        · exact .inr ⟨first,List.mem_cons_self,above⟩
      · exact .inr ⟨z,List.mem_cons_of_mem _ earlier,above⟩

theorem meets (walks : Walk key next visited queue walk) :
    (∀ x ∈ queue, ∀ k, key x = some k → k ∈ visited ∨ ∃ y ∈ walk, key y = some k) ∧
    ∀ x ∈ walk, ∀ y ∈ next x, ∀ k, key y = some k → k ∈ visited ∨ ∃ z ∈ walk, key z = some k := by
  induction walks with
  | ended => simp
  | passed known _ ih => exact ⟨List.forall_mem_cons.mpr ⟨fun k denotes => .inl (known k denotes),ih.1⟩,ih.2⟩
  | @met visited x k _ walk denotes _ _ ih =>
    obtain ⟨waiting,onward⟩ := ih
    have widen : ∀ {k'}, (k' ∈ k :: visited ∨ ∃ y ∈ walk, key y = some k') →
        k' ∈ visited ∨ ∃ y ∈ x :: walk, key y = some k' := by
      rintro k' (known | ⟨y,later,denotes'⟩)
      · rcases List.mem_cons.mp known with rfl | known
        · exact .inr ⟨x,List.mem_cons_self,denotes⟩
        · exact .inl known
      · exact .inr ⟨y,List.mem_cons_of_mem _ later,denotes'⟩
    constructor
    · refine List.forall_mem_cons.mpr ⟨fun k' denotes' => ?_,fun y behind k' denotes' => ?_⟩
      · exact .inr ⟨x,List.mem_cons_self,denotes'⟩
      · exact widen (waiting y (List.mem_append_left _ behind) k' denotes')
    · refine List.forall_mem_cons.mpr ⟨fun y above k' denotes' => ?_,fun z later y above k' denotes' => ?_⟩
      · exact widen (waiting y (List.mem_append_right _ above) k' denotes')
      · exact widen (onward z later y above k' denotes')

end Walk

end

variable {next next' : ResolvedType → List ResolvedType} {P : ResolvedType → Prop}

theorem nextClassFound {visited : List SymbolRef} {queue rest : List ResolvedType} {c : SymbolRef}
    {t : ResolvedType} (found : nextClass visited queue = some (c,t,rest)) :
    c ∉ visited ∧ t.class? = some c ∧ t ∈ queue ∧ ∀ u ∈ rest, u ∈ queue := by
  induction queue with
  | nil => cases found
  | cons first others ih =>
    unfold nextClass at found
    have skipped : nextClass visited others = some (c,t,rest) →
        c ∉ visited ∧ t.class? = some c ∧ t ∈ first :: others ∧ ∀ u ∈ rest, u ∈ first :: others := by
      intro later
      obtain ⟨new,denotes,inside,remain⟩ := ih later
      exact ⟨new,denotes,by simp [inside],fun u behind => by simp [remain u behind]⟩
    split at found
    · rename_i d denotes
      split at found
      · exact skipped found
      · rename_i new
        cases Option.some.inj found
        exact ⟨new,denotes,by simp,fun u behind => by simp [behind]⟩
    · exact skipped found

theorem closureNone {visited : List SymbolRef} {queue : List ResolvedType}
    (ended : nextClass visited queue = none) (fuel : Nat) : closure next fuel visited queue = [] := by
  cases fuel with
  | zero => rfl
  | succ fuel => simp [closure,ended]

theorem closureAll (step : ∀ {t}, P t → ∀ u ∈ next t, P u) {fuel : Nat} {visited : List SymbolRef}
    {queue : List ResolvedType} (start : ∀ t ∈ queue, P t) :
    ∀ t ∈ closure next fuel visited queue, P t ∧ t.class?.isSome := by
  induction fuel generalizing visited queue with
  | zero => simp [closure]
  | succ fuel ih =>
    cases found : nextClass visited queue with
    | none => simp [closureNone found]
    | some result =>
      obtain ⟨c,t,rest⟩ := result
      obtain ⟨_,denotes,inside,remain⟩ := nextClassFound found
      simp only [closure,found,List.mem_cons]
      rintro u (rfl | later)
      · exact ⟨start u inside,by simp [denotes]⟩
      · refine ih (fun v queued => ?_) u later
        rcases List.mem_append.mp queued with behind | reached
        · exact start v (remain v behind)
        · exact step (start t inside) v reached

def firstHit (found : ResolvedType → List β) : List ResolvedType → List β
  | [] => []
  | t :: rest => match found t with
    | [] => firstHit found rest
    | hits => hits

theorem firstFoundHit (next : ResolvedType → List ResolvedType) (found : ResolvedType → List β)
    (fuel : Nat) (visited : List SymbolRef) (queue : List ResolvedType) :
    firstFound next found fuel visited queue = firstHit found (closure next fuel visited queue) := by
  induction fuel generalizing visited queue with
  | zero => rfl
  | succ fuel ih =>
    unfold firstFound closure
    cases nextClass visited queue with
    | none => rfl
    | some result =>
      obtain ⟨c,t,rest⟩ := result
      cases hit : found t <;> simp [firstHit,hit,ih]

theorem firstHitMem {found : ResolvedType → List β} {ts : List ResolvedType} {b : β}
    (hit : b ∈ firstHit found ts) : ∃ t ∈ ts, b ∈ found t := by
  induction ts with
  | nil => cases hit
  | cons t rest ih =>
    unfold firstHit at hit
    split at hit
    · obtain ⟨u,later,inside⟩ := ih hit
      exact ⟨u,by simp [later],inside⟩
    · exact ⟨t,by simp,hit⟩

theorem firstHitCongr {found found' : ResolvedType → List β} {ts : List ResolvedType}
    (same : ∀ t ∈ ts, found' t = found t) : firstHit found' ts = firstHit found ts := by
  induction ts with
  | nil => rfl
  | cons t rest ih =>
    simp only [firstHit,same t (by simp),ih fun u later => same u (by simp [later])]

theorem closureCongr (same : ∀ t, t.class?.isSome → next' t = next t) (fuel : Nat) (visited : List SymbolRef)
    (queue : List ResolvedType) : closure next' fuel visited queue = closure next fuel visited queue := by
  induction fuel generalizing visited queue with
  | zero => rfl
  | succ fuel ih =>
    cases found : nextClass visited queue with
    | none => rw [closureNone found,closureNone found]
    | some result =>
      obtain ⟨c,t,rest⟩ := result
      obtain ⟨_,denotes,_⟩ := nextClassFound found
      simp only [closure,found,same t (by simp [denotes]),ih]

def unvisited (within visited : List SymbolRef) : List SymbolRef := within.filter (· ∉ visited)

theorem unvisitedFewer {within visited : List SymbolRef} {c : SymbolRef} (known : c ∈ within)
    (new : c ∉ visited) :
    (unvisited within (c :: visited)).length < (unvisited within visited).length := by
  have shrunk : unvisited within (c :: visited) = (unvisited within visited).filter (· ≠ c) := by
    simp [unvisited,List.filter_filter,not_or]
  rw [shrunk,List.length_filter_lt_length_iff_exists]
  exact ⟨c,List.mem_filter.mpr ⟨known,by simpa using new⟩,by simp⟩

theorem walkEnded {visited : List SymbolRef} {queue : List ResolvedType}
    (ended : nextClass visited queue = none) : Walk ResolvedType.class? next visited queue [] := by
  induction queue with
  | nil => exact .ended
  | cons first rest ih =>
    unfold nextClass at ended
    split at ended
    · rename_i c denotes
      split at ended
      · rename_i known
        refine .passed (fun c' denotes' => ?_) (ih ended)
        cases denotes.symm.trans denotes'
        exact known
      · cases ended
    · rename_i nothing
      refine .passed (fun c' denotes' => ?_) (ih ended)
      cases nothing.symm.trans denotes'

theorem walkMet {visited : List SymbolRef} {queue rest walk : List ResolvedType} {c : SymbolRef}
    {t : ResolvedType} (found : nextClass visited queue = some (c,t,rest))
    (onward : Walk ResolvedType.class? next (c :: visited) (rest ++ next t) walk) :
    Walk ResolvedType.class? next visited queue (t :: walk) := by
  induction queue with
  | nil => cases found
  | cons first others ih =>
    unfold nextClass at found
    split at found
    · rename_i d denotes
      split at found
      · rename_i known
        refine .passed (fun c' denotes' => ?_) (ih found)
        cases denotes.symm.trans denotes'
        exact known
      · rename_i new
        cases Option.some.inj found
        exact .met denotes new onward
    · rename_i nothing
      refine .passed (fun c' denotes' => ?_) (ih found)
      cases nothing.symm.trans denotes'

theorem closureWalk {within : List SymbolRef} (inside : ∀ {t c}, P t → t.class? = some c → c ∈ within)
    (step : ∀ {t}, P t → t.class?.isSome → ∀ u ∈ next t, P u) {fuel : Nat} {visited : List SymbolRef}
    {queue : List ResolvedType} (start : ∀ t ∈ queue, P t)
    (enough : (unvisited within visited).length ≤ fuel) :
    Walk ResolvedType.class? next visited queue (closure next fuel visited queue) := by
  induction fuel generalizing visited queue with
  | zero =>
    cases found : nextClass visited queue with
    | none => exact walkEnded found
    | some result =>
      obtain ⟨c,t,rest⟩ := result
      obtain ⟨new,denotes,queued,_⟩ := nextClassFound found
      have fewer := unvisitedFewer (inside (start t queued) denotes) new
      omega
  | succ fuel ih =>
    cases found : nextClass visited queue with
    | none =>
      rw [closureNone found]
      exact walkEnded found
    | some result =>
      obtain ⟨c,t,rest⟩ := result
      obtain ⟨new,denotes,queued,remain⟩ := nextClassFound found
      have fewer := unvisitedFewer (inside (start t queued) denotes) new
      simp only [closure,found]
      refine walkMet found (ih (fun u later => ?_) (by omega))
      rcases List.mem_append.mp later with behind | reached
      · exact start u (remain u behind)
      · exact step (start t queued) (by simp [denotes]) u reached

theorem closureAgree {within within' : List SymbolRef}
    (inside : ∀ {t c}, P t → t.class? = some c → c ∈ within ∧ c ∈ within')
    (same : ∀ {t}, P t → t.class?.isSome → next' t = next t)
    (step : ∀ {t}, P t → t.class?.isSome → ∀ u ∈ next t, P u) {fuel fuel' : Nat} {visited : List SymbolRef}
    {queue : List ResolvedType} (start : ∀ t ∈ queue, P t)
    (enough : (unvisited within visited).length ≤ fuel)
    (enough' : (unvisited within' visited).length ≤ fuel') :
    closure next' fuel' visited queue = closure next fuel visited queue := by
  have walks := closureWalk (fun near denotes => (inside near denotes).1) step start enough
  have walks' : Walk ResolvedType.class? next' visited queue (closure next' fuel' visited queue) := by
    refine closureWalk (fun near denotes => (inside near denotes).2) (fun near denotes u above => ?_) start
      enough'
    exact step near denotes u (same near denotes ▸ above)
  -- Wherever the one walk comes both lead on to the same types, so it is the other as well.
  have met := walks.all (fun near denotes => step near (by simp [denotes])) start
  refine walks'.unique (walks.congr fun t inside => same (met t inside) ?_)
  obtain ⟨c,denotes,_⟩ := walks.keys t inside
  simp [denotes]

end CodeIndex.Answers
