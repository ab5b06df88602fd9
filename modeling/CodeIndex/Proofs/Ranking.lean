import CodeIndex.Completion.Rank
import Mathlib.Data.Prod.Lex
import Mathlib.Data.String.Basic

/-! The order of what is offered. The place of a name is its length, its tier and the name itself, so no two
names have one place. Ranking is the stable sort by place of the candidates that match, cut at the limit: the
names come out alike in whatever order the candidates stand, and a ranked list is ranked already. -/
namespace CodeIndex.Completion

variable {α : Type u} {κ : Type v}

structure StableSort [LinearOrder κ] (key : α → κ) (items sorted : List α) : Prop where
  same : sorted.Perm items
  ordered : sorted.Pairwise (key · ≤ key ·)
  ties : ∀ k, sorted.filter (key · = k) = items.filter (key · = k)

namespace StableSort

variable [LinearOrder κ] {key : α → κ}

theorem tiesShare {xs ys : List α} (ties : ∀ k, xs.filter (key · = k) = ys.filter (key · = k)) (a : α) :
    a ∈ xs ↔ a ∈ ys := by
  have both := congrArg (a ∈ ·) (ties (key a))
  simpa using both

theorem tiesDecide {xs ys : List α} (ordered : xs.Pairwise (key · ≤ key ·))
    (ordered' : ys.Pairwise (key · ≤ key ·))
    (ties : ∀ k, xs.filter (key · = k) = ys.filter (key · = k)) : xs = ys := by
  induction xs generalizing ys with
  | nil => exact (List.eq_nil_iff_forall_not_mem.mpr fun a inside => by cases (tiesShare ties a).mpr inside).symm
  | cons x xs ih =>
    cases ys with
    | nil => cases (tiesShare ties x).mp (by simp)
    | cons y ys =>
      obtain ⟨below,rising⟩ := List.pairwise_cons.mp ordered
      obtain ⟨below',rising'⟩ := List.pairwise_cons.mp ordered'
      have least : ∀ b ∈ x :: xs, key x ≤ key b := List.forall_mem_cons.mpr ⟨le_rfl,below⟩
      have least' : ∀ b ∈ y :: ys, key y ≤ key b := List.forall_mem_cons.mpr ⟨le_rfl,below'⟩
      have level : key x = key y :=
        le_antisymm (least y ((tiesShare ties y).mpr (by simp))) (least' x ((tiesShare ties x).mp (by simp)))
      have first := ties (key x)
      rw [List.filter_cons_of_pos (by simp),List.filter_cons_of_pos (by simp [level])] at first
      obtain ⟨rfl,rest⟩ := List.cons.inj first
      refine congrArg (x :: ·) (ih rising rising' fun k => ?_)
      by_cases here : key x = k
      · exact here ▸ rest
      · simpa [here] using ties k

theorem unique {items xs ys : List α} (first : StableSort key items xs) (second : StableSort key items ys) :
    xs = ys :=
  tiesDecide first.ordered second.ordered fun k => (first.ties k).trans (second.ties k).symm

theorem ofMergeSort (key : α → κ) (items : List α) :
    StableSort key items (items.mergeSort (key · ≤ key ·)) := by
  have trans : ∀ a b c : α, decide (key a ≤ key b) → decide (key b ≤ key c) → decide (key a ≤ key c) := by
    intro a b c first second
    exact decide_eq_true ((of_decide_eq_true first).trans (of_decide_eq_true second))
  have total : ∀ a b : α, decide (key a ≤ key b) || decide (key b ≤ key a) := fun a b => by
    simpa using le_total (key a) (key b)
  have same := List.mergeSort_perm items (key · ≤ key ·)
  refine ⟨same,by simpa using List.pairwise_mergeSort trans total items,fun k => ?_⟩
  -- Items of one key are in order already, so sorting keeps them as they stand.
  have level : (items.filter (key · = k)).Pairwise fun a b => decide (key a ≤ key b) :=
    List.pairwise_of_forall_mem_list fun a inside b inside' => by
      have here := (List.mem_filter.mp inside).2
      have here' := (List.mem_filter.mp inside').2
      simp_all
  have kept := (List.sublist_mergeSort trans total level List.filter_sublist).filter (key · = k)
  rw [List.filter_filter] at kept
  simp only [Bool.and_self] at kept
  exact (kept.eq_of_length (same.filter _).length_eq.symm).symm

end StableSort

def Matches (fold : String → String) (typed name : String) : Prop :=
  typed.toList <+: name.toList ∨ (fold typed).toList <+: (fold name).toList

instance (fold : String → String) (typed name : String) : Decidable (Matches fold typed name) :=
  inferInstanceAs (Decidable (_ ∨ _))

def place (typed name : String) : Nat ×ₗ Nat ×ₗ String :=
  toLex (name.length,toLex (if typed.toList <+: name.toList then 0 else 1,name))

theorem placeName {typed name name' : String} : place typed name = place typed name' ↔ name = name' := by
  refine ⟨fun same => ?_,fun same => same ▸ rfl⟩
  exact (Prod.ext_iff.mp (Prod.ext_iff.mp same).2).2

variable {fold : String → String} {typed : String} {nameOf : α → String}

variable (typed nameOf) in
def Ranked.entry (candidate : α) : Ranked α :=
  ⟨(nameOf candidate).length,if typed.toList <+: (nameOf candidate).toList then 0 else 1,nameOf candidate,candidate⟩

theorem tierMatches (name : String) : tier? fold typed name =
    if Matches fold typed name then some (if typed.toList <+: name.toList then 0 else 1) else none := by
  simp only [tier?,startsWith,List.isPrefixOf_iff_prefix,Matches]
  split <;> simp_all

theorem entryMatches (candidate : α) : Ranked.of? fold typed nameOf candidate =
    if Matches fold typed (nameOf candidate) then some (Ranked.entry typed nameOf candidate) else none := by
  rw [Ranked.of?,tierMatches]
  split <;> rfl

theorem entryOrder (a b : α) : (Ranked.entry typed nameOf a).le (Ranked.entry typed nameOf b) =
    decide (place typed (nameOf a) ≤ place typed (nameOf b)) := by
  rw [Bool.eq_iff_iff,decide_eq_true_eq,place,place,Prod.Lex.toLex_le_toLex,Prod.Lex.toLex_le_toLex]
  simp only [Ranked.le,Ranked.entry]
  grind

section

variable (fold : String → String) (typed : String) (nameOf : α → String)

def kept (candidates : List α) : List α := candidates.filter fun c => Matches fold typed (nameOf c)

theorem entriesKept (candidates : List α) : candidates.filterMap (Ranked.of? fold typed nameOf) =
    (kept fold typed nameOf candidates).map (Ranked.entry typed nameOf) := by
  rw [kept,← List.filterMap_eq_map,List.filterMap_filter]
  refine List.filterMap_congr fun c _ => ?_
  simp [entryMatches]

def inOrder (candidates : List α) : List α :=
  (kept fold typed nameOf candidates).mergeSort fun a b => place typed (nameOf a) ≤ place typed (nameOf b)

theorem rankInOrder (limit : Option Nat) (candidates : List α) : rankBy fold typed limit nameOf candidates =
    limit.elim (inOrder fold typed nameOf candidates) ((inOrder fold typed nameOf candidates).take ·) := by
  have order : (inOrder fold typed nameOf candidates).map (Ranked.entry typed nameOf) =
      ((kept fold typed nameOf candidates).map (Ranked.entry typed nameOf)).mergeSort Ranked.le :=
    List.map_mergeSort fun a _ b _ => (entryOrder a b).symm
  have back : ∀ xs : List α, (xs.map (Ranked.entry typed nameOf)).map Ranked.candidate = xs := fun xs => by
    simp [Ranked.entry,Function.comp_def]
  simp only [rankBy,entriesKept,← order,back]
  cases limit <;> rfl

theorem inOrderSorts (candidates : List α) : StableSort (fun c => place typed (nameOf c))
    (kept fold typed nameOf candidates) (inOrder fold typed nameOf candidates) :=
  StableSort.ofMergeSort _ _

theorem inOrderNames {candidates others : List α} (perm : others.Perm candidates) :
    (inOrder fold typed nameOf others).map nameOf = (inOrder fold typed nameOf candidates).map nameOf := by
  have sorted : ∀ xs : List α, ((inOrder fold typed nameOf xs).map nameOf).Pairwise
      fun a b => place typed a ≤ place typed b := fun xs =>
    List.pairwise_map.mpr (inOrderSorts fold typed nameOf xs).ordered
  have same : (inOrder fold typed nameOf others).Perm (inOrder fold typed nameOf candidates) :=
    (inOrderSorts fold typed nameOf others).same.trans
      ((perm.filter _).trans (inOrderSorts fold typed nameOf candidates).same.symm)
  exact (same.map nameOf).eq_of_pairwise
    (fun _ _ _ _ forth back => placeName.mp (le_antisymm forth back)) (sorted others) (sorted candidates)

theorem inOrderTies (name : String) (candidates : List α) :
    (inOrder fold typed nameOf candidates).filter (nameOf · = name) <+: candidates.filter (nameOf · = name) := by
  have ties := (inOrderSorts fold typed nameOf candidates).ties (place typed name)
  simp only [placeName] at ties
  rw [ties,kept,List.filter_filter]
  by_cases fits : Matches fold typed name
  · refine (List.filter_congr fun c _ => ?_) ▸ List.prefix_rfl
    by_cases here : nameOf c = name <;> simp [here,fits]
  · rw [List.filter_eq_nil_iff.mpr]
    · exact List.nil_prefix
    · intro c _ both
      have here : nameOf c = name ∧ Matches fold typed (nameOf c) := by simpa using both
      exact fits (here.1 ▸ here.2)

theorem inOrderFixed {xs candidates : List α} (first : xs <+: inOrder fold typed nameOf candidates) :
    inOrder fold typed nameOf xs = xs := by
  have sorts := inOrderSorts fold typed nameOf candidates
  have fit : kept fold typed nameOf xs = xs := List.filter_eq_self.mpr fun c inside =>
    (List.mem_filter.mp (sorts.same.subset (first.subset inside))).2
  rw [inOrder,fit]
  exact List.mergeSort_of_pairwise (by simpa using sorts.ordered.sublist first.sublist)

end

theorem cutPrefix (limit : Option Nat) (sorted : List α) : limit.elim sorted (sorted.take ·) <+: sorted := by
  cases limit with
  | none => exact List.prefix_rfl
  | some n => exact List.take_prefix n sorted

/-- Ranking is the stable sort by place of what matches, cut at the limit, whatever function takes letter case away.
The names it gives do not depend on the order of the candidates, candidates of one name come out as they stood, and
ranking again changes nothing. -/
theorem rankingCanonical (fold : String → String) (typed : String) (limit : Option Nat) (nameOf : α → String)
    (candidates : List α) :
    (∃ sorted, (∀ xs, StableSort (fun c => place typed (nameOf c))
        (candidates.filter fun c => Matches fold typed (nameOf c)) xs ↔ xs = sorted) ∧
      rankBy fold typed limit nameOf candidates = limit.elim sorted (sorted.take ·)) ∧
    (∀ others, others.Perm candidates →
      (rankBy fold typed limit nameOf others).map nameOf = (rankBy fold typed limit nameOf candidates).map nameOf) ∧
    (∀ name, (rankBy fold typed limit nameOf candidates).filter (nameOf · = name) <+:
      candidates.filter (nameOf · = name)) ∧
    rankBy fold typed limit nameOf (rankBy fold typed limit nameOf candidates) =
      rankBy fold typed limit nameOf candidates := by
  have sorts := inOrderSorts fold typed nameOf candidates
  have cut := cutPrefix limit (inOrder fold typed nameOf candidates)
  simp only [rankInOrder fold typed nameOf limit]
  refine ⟨⟨_,fun xs => ⟨fun other => other.unique sorts,fun same => same ▸ sorts⟩,rfl⟩,fun others perm => ?_,
    fun name => (cut.filter _).trans (inOrderTies fold typed nameOf name candidates),?_⟩
  · have names := inOrderNames fold typed nameOf perm
    cases limit with
    | none => exact names
    | some n => simp only [Option.elim_some,List.map_take,names]
  · rw [inOrderFixed fold typed nameOf cut]
    cases limit <;> simp [List.take_take]

def dials : List (String × Nat) := [("vane",1),("dial",2),("value",3),("value",4),("Value",5)]

theorem dialsAnyOrder :
    dials.reverse.Perm dials ∧
    (rankBy LetterCase.lower "va" (some 3) Prod.fst dials.reverse).map Prod.fst = ["vane","value","value"] := by
  have perm := List.reverse_perm dials
  have names := (rankingCanonical LetterCase.lower "va" (some 3) Prod.fst dials).2.1 _ perm
  have matching : kept LetterCase.lower "va" Prod.fst dials = [("vane",1),("value",3),("value",4),("Value",5)] := by
    decide +kernel
  refine ⟨perm,names.trans ?_⟩
  rw [rankInOrder,inOrder,matching,List.mergeSort_of_pairwise (by decide +kernel)]
  rfl

end CodeIndex.Completion
