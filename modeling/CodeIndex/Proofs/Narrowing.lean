import CodeIndex.Proofs.Ranking
import Mathlib.Data.List.Perm.Subperm

/-! What typing on does to a list of offers. It only takes offers away, except in one case: the typed text ends
a word in a capital sigma, and what is typed next goes on with the word. The sigma's lowercase is then another
letter than before, so names that match in lowercase come back. -/
namespace CodeIndex.LetterCase

def casedAfter (afterCased : Bool) (stretch : List Char) : Bool :=
  stretch.foldl (fun cased c => if isSkipped c then cased else isCased c) afterCased

theorem startsCasedCons (c : Char) (rest : List Char) :
    startsCased (c :: rest) = if isSkipped c then startsCased rest else isCased c := by
  unfold startsCased
  by_cases skipped : isSkipped c <;> simp [skipped]

theorem casedBefore (stretch : List Char) : casedAfter false stretch = startsCased stretch.reverse := by
  rw [casedAfter,← List.foldr_reverse]
  induction stretch.reverse with
  | nil => rfl
  | cons c rest ih => rw [List.foldr_cons,ih,startsCasedCons]

theorem startsCasedSkipped {stretch : List Char} (skipped : ∀ c ∈ stretch, isSkipped c) (rest : List Char) :
    startsCased (stretch ++ rest) = startsCased rest := by
  induction stretch with
  | nil => rfl
  | cons c stretch ih =>
    obtain ⟨first,later⟩ := List.forall_mem_cons.mp skipped
    rw [List.cons_append,startsCasedCons,if_pos first,ih later]

theorem startsCasedDecided {stretch : List Char} (decided : ¬∀ c ∈ stretch, isSkipped c) (rest : List Char) :
    startsCased (stretch ++ rest) = startsCased stretch := by
  induction stretch with
  | nil => simp at decided
  | cons c stretch ih =>
    rw [List.cons_append,startsCasedCons,startsCasedCons]
    split
    · rename_i first
      exact ih fun later => decided (List.forall_mem_cons.mpr ⟨first,later⟩)
    · rfl

theorem lowerBefore (afterCased : Bool) (before : List Char) : ∃ lowered, ∀ c rest,
    isSkipped c = false → isCased c →
    lowerFrom afterCased (before ++ c :: rest) = lowered ++ lowerFrom (casedAfter afterCased before) (c :: rest) := by
  induction before generalizing afterCased with
  | nil => exact ⟨[],fun _ _ _ _ => rfl⟩
  | cons b before ih =>
    obtain ⟨lowered,later⟩ := ih (if isSkipped b then afterCased else isCased b)
    let follows := if ∀ x ∈ before, isSkipped x then true else startsCased before
    refine ⟨(if b = 'Σ' then [if afterCased && !follows then 'ς' else 'σ'] else lowerChar b) ++ lowered,
      fun c rest letter cased => ?_⟩
    have same : startsCased (before ++ c :: rest) = follows := by
      by_cases skipped : ∀ x ∈ before, isSkipped x
      · rw [startsCasedSkipped skipped,startsCasedCons,letter]
        simpa [follows,if_pos skipped] using cased
      · rw [startsCasedDecided skipped,show follows = startsCased before from if_neg skipped]
    rw [List.cons_append,lowerFrom,same,later c rest letter cased,List.append_assoc]
    rfl

/-- The text ends a word in a capital sigma: only skipped characters follow it, and the nearest character before
it that is not skipped is cased. -/
def EndsInSigma (text : List Char) : Prop :=
  ∃ before after, text = before ++ 'Σ' :: after ∧ (∀ c ∈ after, isSkipped c) ∧ startsCased before.reverse

theorem lowerFromPrefix {afterCased : Bool} {text more : List Char}
    (closed : ∀ before after, text = before ++ 'Σ' :: after → (∀ c ∈ after, isSkipped c) →
      casedAfter afterCased before → startsCased more = false) :
    lowerFrom afterCased text <+: lowerFrom afterCased (text ++ more) := by
  induction text generalizing afterCased with
  | nil => exact List.nil_prefix
  | cons c rest ih =>
    have later := @ih (if isSkipped c then afterCased else isCased c) fun before after same =>
      closed (c :: before) after (by rw [same,List.cons_append])
    -- Only a sigma before skipped characters alone can see what has been added.
    have same : c = 'Σ' → (afterCased && !startsCased (rest ++ more)) = (afterCased && !startsCased rest) := by
      rintro rfl
      by_cases skipped : ∀ x ∈ rest, isSkipped x
      · have alone := startsCasedSkipped skipped []
        rw [List.append_nil] at alone
        rw [startsCasedSkipped skipped,alone]
        cases afterCased with
        | false => rfl
        | true => rw [closed [] rest rfl skipped rfl]; rfl
      · rw [startsCasedDecided skipped]
    rw [List.cons_append,lowerFrom,lowerFrom]
    split
    · rename_i sigma
      rw [same sigma]
      exact (List.prefix_append_right_inj _).mpr later
    · exact (List.prefix_append_right_inj _).mpr later

theorem lowerPrefix {text more : String} (closed : ¬(EndsInSigma text.toList ∧ startsCased more.toList)) :
    (lower text).toList <+: (lower (text ++ more)).toList := by
  simp only [lower,String.toList_ofList,String.toList_append]
  refine lowerFromPrefix fun before after same skipped cased => Bool.eq_false_iff.mpr fun goesOn => ?_
  exact closed ⟨⟨before,after,same,skipped,casedBefore before ▸ cased⟩,goesOn⟩

theorem lowerFromCapital (afterCased : Bool) (rest : List Char) : lowerFrom afterCased ('Σ' :: rest) =
    (if afterCased && !startsCased rest then 'ς' else 'σ') :: lowerFrom true rest := by
  have skipped : isSkipped 'Σ' = false := by decide +kernel
  have cased : isCased 'Σ' = true := by decide +kernel
  simp [lowerFrom,skipped,cased]

theorem lowerFromSmall (afterCased : Bool) (rest : List Char) :
    lowerFrom afterCased ('σ' :: rest) = 'σ' :: lowerFrom true rest := by
  have skipped : isSkipped 'σ' = false := by decide +kernel
  have cased : isCased 'σ' = true := by decide +kernel
  have own : lowerChar 'σ' = ['σ'] := by decide +kernel
  simp [lowerFrom,skipped,cased,own]

theorem sigmaReopened {text more : List Char} (ends : EndsInSigma text) (goesOn : startsCased more) :
    ∃ name, lowerFrom false name = lowerFrom false (text ++ more) ∧ ¬text <+: name ∧
      ¬lowerFrom false text <+: lowerFrom false name := by
  obtain ⟨before,after,rfl,skipped,cased⟩ := ends
  obtain ⟨lowered,stays⟩ := lowerBefore false before
  rw [casedBefore,cased] at stays
  have follows : startsCased (after ++ more) := startsCasedSkipped skipped more ▸ goesOn
  have alone : startsCased after = false := by simpa [startsCased] using startsCasedSkipped skipped []
  have small := stays 'σ' (after ++ more) (by decide +kernel) (by decide +kernel)
  have capital := stays 'Σ' (after ++ more) (by decide +kernel) (by decide +kernel)
  have closed := stays 'Σ' after (by decide +kernel) (by decide +kernel)
  rw [lowerFromSmall] at small
  rw [lowerFromCapital,follows] at capital
  rw [lowerFromCapital,alone] at closed
  refine ⟨before ++ 'σ' :: (after ++ more),?_,?_,?_⟩
  · rw [small,List.append_assoc,List.cons_append,capital]
    rfl
  · rw [List.prefix_append_right_inj,List.cons_prefix_cons]
    exact fun same => absurd same.1 (by decide)
  · rw [small,closed,List.prefix_append_right_inj,List.cons_prefix_cons]
    exact fun same => absurd same.1 (by decide)

end CodeIndex.LetterCase

namespace CodeIndex.Completion

open LetterCase (EndsInSigma startsCased)

variable {α : Type u} {fold : String → String} {typed more : String} {nameOf : α → String}

theorem rankKept (fold : String → String) (typed : String) (nameOf : α → String) (candidates : List α) :
    (rankBy fold typed none nameOf candidates).Perm (kept fold typed nameOf candidates) := by
  rw [rankInOrder]
  exact (inOrderSorts fold typed nameOf candidates).same

theorem rankMem {candidates : List α} {c : α} : c ∈ rankBy fold typed none nameOf candidates ↔
    c ∈ candidates ∧ Matches fold typed (nameOf c) := by
  rw [(rankKept fold typed nameOf candidates).mem_iff,kept,List.mem_filter,decide_eq_true_eq]

theorem Matches.shorter {name : String} (same : (fold typed).toList <+: (fold (typed ++ more)).toList)
    (fits : Matches fold (typed ++ more) name) : Matches fold typed name := by
  rcases fits with begins | folded
  · rw [String.toList_append] at begins
    exact .inl ((List.prefix_append _ _).trans begins)
  · exact .inr (same.trans folded)

/-- What is typed on narrows every list, unless the text so far ends a word in a capital sigma and the word goes
on; then a name comes back that was not offered before. -/
theorem typingNarrows (typed more : String) :
    (¬(EndsInSigma typed.toList ∧ startsCased more.toList) → ∀ (nameOf : α → String) (candidates : List α),
      (rank (typed ++ more) none nameOf candidates).Subperm (rank typed none nameOf candidates)) ∧
    (EndsInSigma typed.toList ∧ startsCased more.toList →
      ∃ name, name ∈ rank (typed ++ more) none id [name] ∧ name ∉ rank typed none id [name]) := by
  constructor
  · intro closed nameOf candidates
    have fewer : (kept LetterCase.lower (typed ++ more) nameOf candidates).Sublist
        (kept LetterCase.lower typed nameOf candidates) :=
      List.monotone_filter_right candidates fun c fits => by
        simpa using Matches.shorter (LetterCase.lowerPrefix closed) (by simpa using fits)
    exact ((rankKept _ _ _ _).subperm.trans fewer.subperm).trans (rankKept _ _ _ _).symm.subperm
  · rintro ⟨ends,goesOn⟩
    obtain ⟨name,whole,apart,apart'⟩ := LetterCase.sigmaReopened ends goesOn
    refine ⟨String.ofList name,rankMem.mpr ⟨by simp,.inr ?_⟩,fun back => ?_⟩
    · simp [LetterCase.lower,whole]
    · rcases (rankMem.mp back).2 with begins | folded
      · exact apart (by simpa using begins)
      · exact apart' (by simpa [LetterCase.lower] using folded)

theorem streetNarrows :
    ¬(EndsInSigma "ΟΔΟ".toList ∧ startsCased "Σ".toList) ∧
    (rank "ΟΔΟΣ" none id ["οδοσ","οδος","ΟΔΟΣ"]).Subperm (rank "ΟΔΟ" none id ["οδοσ","οδος","ΟΔΟΣ"]) ∧
    (EndsInSigma "ΟΔΟΣ".toList ∧ startsCased "Α".toList) ∧
    ∃ name, name ∈ rank "ΟΔΟΣΑ" none id [name] ∧ name ∉ rank "ΟΔΟΣ" none id [name] := by
  have plain : ¬(EndsInSigma "ΟΔΟ".toList ∧ startsCased "Σ".toList) := by
    rintro ⟨⟨before,after,same,_⟩,_⟩
    have absent : 'Σ' ∉ "ΟΔΟ".toList := by decide
    exact absent (by simp [same])
  have sigma : EndsInSigma "ΟΔΟΣ".toList ∧ startsCased "Α".toList :=
    ⟨⟨"ΟΔΟ".toList,[],by decide,by simp,by decide +kernel⟩,by decide +kernel⟩
  exact ⟨plain,(typingNarrows (α := String) "ΟΔΟ" "Σ").1 plain id _,sigma,
    (typingNarrows (α := String) "ΟΔΟΣ" "Α").2 sigma⟩

theorem sigmaNameBack : ¬∀ (typed more : String) (candidates : List String) (name : String),
    name ∈ rank (typed ++ more) none id candidates → name ∈ rank typed none id candidates := by
  intro narrows
  have offered : "ασα" ∈ rank ("ΑΣ" ++ "Α") none id ["ασα"] := rankMem.mpr (by decide +kernel)
  have hidden : "ασα" ∉ rank "ΑΣ" none id ["ασα"] := fun inside => absurd (rankMem.mp inside) (by decide +kernel)
  exact hidden (narrows _ _ _ _ offered)

end CodeIndex.Completion
