import CodeIndex.Proofs.Hierarchy
import Mathlib.Order.Lattice.Nat

/-! The order of ancestors. If every type that waits carries the number of steps it took to come to it, these
numbers never fall along the queue and differ by one at most, so a walk meets near types before far ones, and
none could have been reached in fewer steps. -/
namespace CodeIndex

namespace Answers

section

variable {α : Type u} {κ : Type v} {key : α → Option κ} {next : α → List α}

theorem Walk.lift {β : Type w} {image : β → α} {next' : β → List β}
    (lifts : ∀ b, (next' b).map image = next (image b)) {visited : List κ} {queue walk : List α}
    (walks : Walk key next visited queue walk) (queue' : List β) (same : queue'.map image = queue) :
    ∃ walk', walk'.map image = walk ∧ Walk (fun b => key (image b)) next' visited queue' walk' := by
  induction walks generalizing queue' with
  | ended =>
    cases List.map_eq_nil_iff.mp same
    exact ⟨[],rfl,.ended⟩
  | passed known _ ih =>
    obtain ⟨b,rest,rfl,rfl,same'⟩ := List.map_eq_cons_iff.mp same
    obtain ⟨walk',below,walks'⟩ := ih rest same'
    exact ⟨walk',below,.passed known walks'⟩
  | met denotes new _ ih =>
    obtain ⟨b,rest,rfl,rfl,same'⟩ := List.map_eq_cons_iff.mp same
    obtain ⟨walk',below,walks'⟩ := ih (rest ++ next' b) (by simp [same',lifts])
    exact ⟨b :: walk',by simp [below],.met denotes new walks'⟩

def graded (next : α → List α) (g : Nat × α) : List (Nat × α) := (next g.2).map fun y => (g.1 + 1,y)

/-- Steps never fall along a queue, and are at least `low` and at most one more. -/
structure Tiered (low : Nat) (queue : List (Nat × α)) : Prop where
  ordered : queue.Pairwise fun g g' => g.1 ≤ g'.1
  above : ∀ g ∈ queue, low ≤ g.1
  below : ∀ g ∈ queue, g.1 ≤ low + 1

theorem Tiered.rest {low : Nat} {g : Nat × α} {rest : List (Nat × α)} (tiered : Tiered low (g :: rest)) :
    low ≤ g.1 ∧ Tiered g.1 rest := by
  obtain ⟨first,ordered⟩ := List.pairwise_cons.mp tiered.ordered
  have low := tiered.above g List.mem_cons_self
  refine ⟨low,ordered,first,fun g' behind => ?_⟩
  have high := tiered.below g' (List.mem_cons_of_mem _ behind)
  omega

theorem Tiered.onward {low : Nat} {g : Nat × α} {rest : List (Nat × α)} (tiered : Tiered low (g :: rest)) :
    Tiered g.1 (rest ++ graded next g) := by
  have behind := tiered.rest.2
  have new : ∀ g' ∈ graded next g, g'.1 = g.1 + 1 := by
    intro g' reached
    obtain ⟨y,_,rfl⟩ := List.mem_map.mp reached
    rfl
  refine ⟨List.pairwise_append.mpr ⟨behind.ordered,?_,fun a old b reached => ?_⟩,fun a inside => ?_,
    fun a inside => ?_⟩
  · exact List.pairwise_of_forall_mem_list fun a first b second => by rw [new a first,new b second]
  · rw [new b reached]
    exact behind.below a old
  · rcases List.mem_append.mp inside with old | reached
    · exact behind.above a old
    · exact new a reached ▸ Nat.le_succ _
  · rcases List.mem_append.mp inside with old | reached
    · exact behind.below a old
    · exact (new a reached).le

section

variable {low : Nat} {visited : List κ} {queue walk : List (Nat × α)}

theorem Tiered.rises (tiered : Tiered low queue)
    (walks : Walk (fun g => key g.2) (graded next) visited queue walk) :
    (∀ g ∈ walk, low ≤ g.1) ∧ walk.Pairwise fun g g' => g.1 ≤ g'.1 := by
  induction walks generalizing low with
  | ended => simp
  | passed _ _ ih =>
    obtain ⟨after,rest⟩ := tiered.rest
    obtain ⟨higher,ordered⟩ := ih rest
    exact ⟨fun g later => after.trans (higher g later),ordered⟩
  | met _ _ _ ih =>
    obtain ⟨higher,ordered⟩ := ih tiered.onward
    have after := tiered.rest.1
    exact ⟨List.forall_mem_cons.mpr ⟨after,fun g later => after.trans (higher g later)⟩,
      List.pairwise_cons.mpr ⟨higher,ordered⟩⟩

theorem Tiered.early (tiered : Tiered low queue)
    (walks : Walk (fun g => key g.2) (graded next) visited queue walk) :
    ∀ g ∈ queue, ∀ g' ∈ walk, key g.2 = key g'.2 → g'.1 ≤ g.1 := by
  induction walks generalizing low with
  | ended => simp
  | passed known onward ih =>
    refine List.forall_mem_cons.mpr ⟨fun g' later same => ?_,ih tiered.rest.2⟩
    obtain ⟨k,denotes,new⟩ := onward.keys g' later
    exact absurd (known k (same.trans denotes)) new
  | met denotes _ onward ih =>
    intro g waiting g' inside same
    rcases List.mem_cons.mp inside with rfl | later
    · rcases List.mem_cons.mp waiting with rfl | behind
      · exact Nat.le_refl _
      · exact tiered.rest.2.above g behind
    · rcases List.mem_cons.mp waiting with rfl | behind
      · obtain ⟨k,denotes',new⟩ := onward.keys g' later
        cases denotes.symm.trans (same.trans denotes')
        exact absurd List.mem_cons_self new
      · exact ih tiered.onward g (List.mem_append_left _ behind) g' later same

theorem Tiered.step (tiered : Tiered low queue)
    (walks : Walk (fun g => key g.2) (graded next) visited queue walk) :
    ∀ g ∈ walk, ∀ y ∈ next g.2, ∀ g' ∈ walk, key y = key g'.2 → g'.1 ≤ g.1 + 1 := by
  induction walks generalizing low with
  | ended => simp
  | passed _ _ ih => exact ih tiered.rest.2
  | @met _ first _ _ _ denotes new onward ih =>
    intro g inside y above g' inside' same
    rcases List.mem_cons.mp inside' with rfl | later'
    · have ordered := (tiered.rises (.met denotes new onward)).2
      rcases List.mem_cons.mp inside with rfl | later
      · exact Nat.le_succ _
      · exact ((List.pairwise_cons.mp ordered).1 g later).trans (Nat.le_succ _)
    · rcases List.mem_cons.mp inside with rfl | later
      · have queued : (g.1 + 1,y) ∈ graded next g := List.mem_map.mpr ⟨y,above,rfl⟩
        exact tiered.onward.early onward _ (List.mem_append_right _ queued) g' later' same
      · exact ih tiered.onward g later y above g' later' same

end

theorem startTiered (next : α → List α) (start : α) : Tiered 0 (graded next (0,start)) := by
  have alone : Tiered 0 [(0,start)] := ⟨by simp,by simp,by simp⟩
  exact alone.onward

inductive Leads (next : α → List α) (listed : List α) (start : α) : Nat → α → Prop where
  | here : Leads next listed start 0 start
  | step {n x y} (before : Leads next listed start n x) (above : y ∈ next x) (among : y ∈ listed) :
      Leads next listed start (n + 1) y

noncomputable def distance (next : α → List α) (listed : List α) (start x : α) : Nat :=
  sInf {n | Leads next listed start n x}

theorem Walk.leads {listed : List α} {start : α} {visited : List κ} {queue walk : List (Nat × α)}
    (walks : Walk (fun g => key g.2) (graded next) visited queue walk)
    (queued : ∀ g ∈ queue, g.2 ∈ listed → Leads next listed start g.1 g.2)
    (all : ∀ g ∈ walk, g.2 ∈ listed) : ∀ g ∈ walk, Leads next listed start g.1 g.2 := by
  induction walks with
  | ended => simp
  | passed _ _ ih => exact ih (fun g behind => queued g (List.mem_cons_of_mem _ behind)) all
  | met _ _ _ ih =>
    obtain ⟨known,others⟩ := List.forall_mem_cons.mp all
    have first := queued _ List.mem_cons_self known
    refine List.forall_mem_cons.mpr ⟨first,ih (fun g waiting among => ?_) others⟩
    rcases List.mem_append.mp waiting with behind | reached
    · exact queued g (List.mem_cons_of_mem _ behind) among
    · obtain ⟨y,above,rfl⟩ := List.mem_map.mp reached
      exact .step first above among

section

variable {start : α} {steps : List (Nat × α)}
  (walks : Walk (fun g => key g.2) (graded next) (key start).toList (graded next (0,start)) steps)
include walks

theorem leadsGraded : ∀ g ∈ steps, Leads next (steps.map Prod.snd) start g.1 g.2 := by
  refine walks.leads (fun g queued among => ?_) fun g inside => List.mem_map_of_mem inside
  obtain ⟨y,above,rfl⟩ := List.mem_map.mp queued
  exact .step .here above among

theorem fewestGraded {n : Nat} {x : α} (leads : Leads next (steps.map Prod.snd) start n x) :
    ∀ g ∈ steps, g.2 = x → g.1 ≤ n := by
  have tiered : Tiered 0 (graded next (0,start)) := startTiered next start
  -- The last step leads on from the start, or from something that was met in no more steps.
  induction leads with
  | here =>
    rintro g inside rfl
    obtain ⟨k,denotes,new⟩ := walks.keys g inside
    exact absurd (Option.mem_toList.mpr denotes) new
  | @step n x y before above among ih =>
    rintro g inside rfl
    cases before with
    | here =>
      have queued : (1,g.2) ∈ graded next (0,start) := List.mem_map.mpr ⟨g.2,above,rfl⟩
      exact tiered.early walks _ queued g inside rfl
    | step _ _ among' =>
      obtain ⟨g',inside',rfl⟩ := List.mem_map.mp among'
      have below := ih g' inside' rfl
      have further := tiered.step walks g' inside' g.2 above g inside rfl
      omega

theorem distanceGraded : ∀ g ∈ steps, distance next (steps.map Prod.snd) start g.2 = g.1 := by
  intro g inside
  have leads := leadsGraded walks g inside
  exact le_antisymm (Nat.sInf_le leads)
    (le_csInf ⟨_,leads⟩ fun n leads' => fewestGraded walks leads' g inside rfl)

end

theorem Walk.nearestFirst {start : α} {walk : List α}
    (walks : Walk key next (key start).toList (next start) walk) :
    (∀ x ∈ walk, ∃ n, Leads next walk start n x) ∧
      walk.Pairwise fun x y => distance next walk start x ≤ distance next walk start y := by
  have images : ∀ g, (graded next g).map Prod.snd = next g.2 := fun g => by simp [graded,Function.comp_def]
  obtain ⟨steps,rfl,walks'⟩ := walks.lift images (graded next (0,start)) (images _)
  constructor
  · intro x inside
    obtain ⟨g,met,rfl⟩ := List.mem_map.mp inside
    exact ⟨g.1,leadsGraded walks' g met⟩
  · have rises := ((startTiered next start).rises walks').2
    refine List.pairwise_map.mpr (rises.imp_of_mem fun first second ordered => ?_)
    rwa [distanceGraded walks' _ first,distanceGraded walks' _ second]

end

structure BreadthFirst (next : ResolvedType → List ResolvedType) (t : ResolvedType)
    (above : List ResolvedType) : Prop where
  ends : Walk ResolvedType.class? next t.class?.toList (next t) above
  classes : ∀ u ∈ above, u.class?.isSome ∧ u.class? ≠ t.class?
  distinct : (above.map ResolvedType.class?).Nodup
  reached : ∀ {before u after}, above = before ++ u :: after → ∃ v ∈ t :: before, u ∈ next v
  complete : ∀ v ∈ t :: above, ∀ u ∈ next v, u.class?.isSome →
    u.class? = t.class? ∨ u.class? ∈ above.map ResolvedType.class?
  near : ∀ u ∈ above, ∃ n, Leads next above t n u
  ordered : above.Pairwise fun u v => distance next above t u ≤ distance next above t v

end Answers

namespace Resolver

/-- The ancestors of a type are all that it inherits from, each class once and near ones first, whatever cycles
there are. -/
theorem ancestorsBreadthFirst (r : Resolver) (distinct : r.home.Distinct) (t : ResolvedType) :
    Answers.BreadthFirst r.supertypes t (r.ancestors t) := by
  have walks := ancestorsWalk distinct t
  obtain ⟨near,ordered⟩ := walks.nearestFirst
  obtain ⟨first,onward⟩ := walks.meets
  refine ⟨walks,fun u met => ?_,walks.nodup,fun parts => ?_,fun v lower u above class_ => ?_,near,ordered⟩
  · obtain ⟨c,denotes,new⟩ := walks.keys u met
    refine ⟨by simp [denotes],fun same => new ?_⟩
    exact Option.mem_toList.mpr (same.symm.trans denotes)
  · rcases walks.queued parts with direct | ⟨v,earlier,above⟩
    · exact ⟨t,List.mem_cons_self,direct⟩
    · exact ⟨v,List.mem_cons_of_mem _ earlier,above⟩
  · obtain ⟨c,denotes⟩ := Option.isSome_iff_exists.mp class_
    have met : c ∈ t.class?.toList ∨ ∃ w ∈ r.ancestors t, w.class? = some c := by
      rcases List.mem_cons.mp lower with rfl | higher
      · exact first u above c denotes
      · exact onward v higher u above c denotes
    rcases met with own | ⟨w,inside,same⟩
    · exact .inl (denotes.trans (Option.mem_toList.mp own).symm)
    · exact .inr (List.mem_map.mpr ⟨w,inside,same.trans denotes.symm⟩)

def fleetFile : FileDecl where
  path := "sea/Fleet.java"
  package := ["sea"]
  types :=
    let type (name : String) (superclass : Option TypeExpr) (interfaces : List TypeExpr)
        (members : List MemberDecl) : TypeDecl :=
      { outline := { name, kind := .type .classType, header := { superclass, interfaces } }, members }
    [type "Tanker" (some (.simple "Ship")) [.simple "Cargo"] [.method { name := "pump" }],
     type "Ship" (some (.simple "Craft")) [] [.method { name := "sail" }],
     type "Cargo" none [.simple "Craft"] [.field { name := "weight", type := .simple "Cargo" }],
     type "Craft" (some (.simple "Tanker")) [] [.method { name := "sail" }]]

@[irreducible]
def fleetApp : Codebase :=
  (Codebase.putFile { id := 0, name := "app", language := .bare, settings := default } fleetFile).2

theorem fleetAppReached : fleetApp.Reached := by
  unfold fleetApp
  exact .putFile (.new ..) fleetFile

theorem fleetAppFacts :
    let r : Resolver := ⟨fleetApp,8⟩
    let tanker := ResolvedType.ofSymbol ⟨0,⟨3,0⟩⟩
    fleetApp.dependencies = [] ∧ (fleetApp.resolve? ⟨0,⟨3,0⟩⟩).any (·.2.kind.isTypeDecl) = true ∧
    (r.ancestors tanker).map ResolvedType.class? = [some ⟨0,⟨5,0⟩⟩,some ⟨0,⟨7,0⟩⟩,some ⟨0,⟨9,0⟩⟩] ∧
    (r.membersOf tanker).map (·.1.handle.index) = [4,6,8,10] ∧
    (r.allMembers tanker "sail").map (·.1.handle.index) = [6,10] ∧
    (r.members tanker "sail").map (·.1.handle.index) = [6] := by
  decide +kernel

theorem tankerBreadthFirst :
    let r : Resolver := ⟨fleetApp,8⟩
    let tanker := ResolvedType.ofSymbol ⟨0,⟨3,0⟩⟩
    fleetApp.Distinct ∧
    (r.ancestors tanker).map ResolvedType.class? = [some ⟨0,⟨5,0⟩⟩,some ⟨0,⟨7,0⟩⟩,some ⟨0,⟨9,0⟩⟩] ∧
    Answers.BreadthFirst r.supertypes tanker (r.ancestors tanker) := by
  intro r tanker
  obtain ⟨alone,_,classes,_⟩ := fleetAppFacts
  have distinct : fleetApp.Distinct := Codebase.distinctAlone alone
  exact ⟨distinct,classes,ancestorsBreadthFirst r distinct tanker⟩

end Resolver
end CodeIndex
