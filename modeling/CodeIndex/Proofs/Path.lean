import CodeIndex.Text.Path

/-! Cutting undoes joining. A text joined from pieces without separators is cut into those pieces, so a
dotted name gives back its segments and a canonical path is its own canonical form. -/
namespace CodeIndex

namespace Text

variable {isSeparator : Char → Bool}

theorem cutPiece {piece : List Char} (clean : ∀ c ∈ piece, isSeparator c = false) :
    cut isSeparator piece = [piece] := by
  induction piece with
  | nil => rfl
  | cons c rest ih =>
    have first := clean c (by simp)
    simp [cut,first,ih fun c later => clean c (by simp [later])]

theorem cutAppend {piece : List Char} (clean : ∀ c ∈ piece, isSeparator c = false) {c : Char}
    (separates : isSeparator c = true) (rest : List Char) :
    cut isSeparator (piece ++ c :: rest) = piece :: cut isSeparator rest := by
  induction piece with
  | nil => simp [cut,separates]
  | cons d piece ih =>
    have first := clean d (by simp)
    simp [cut,first,ih fun c later => clean c (by simp [later])]

theorem cutJoined {c : Char} (separates : isSeparator c = true) {pieces : List (List Char)}
    (filled : pieces ≠ []) (clean : ∀ piece ∈ pieces, ∀ c ∈ piece, isSeparator c = false) :
    cut isSeparator ([c].intercalate pieces) = pieces := by
  induction pieces with
  | nil => exact absurd rfl filled
  | cons piece rest ih =>
    cases rest with
    | nil => simpa using cutPiece (clean piece (by simp))
    | cons next later =>
      have tail := ih (by simp) fun piece inside => clean piece (by simp [inside])
      rw [List.intercalate_cons_cons,List.append_assoc,List.singleton_append,
        cutAppend (clean piece (by simp)) separates,tail]

theorem cutClean (chars : List Char) :
    ∀ piece ∈ cut isSeparator chars, ∀ c ∈ piece, isSeparator c = false := by
  induction chars with
  | nil => simp [cut]
  | cons c rest ih =>
    unfold cut
    split
    · intro piece inside
      rcases List.mem_cons.mp inside with rfl | later
      · simp
      · exact ih piece later
    · rename_i kept
      split
      · simpa using kept
      · rename_i first others found
        intro piece inside
        rcases List.mem_cons.mp inside with rfl | later
        · intro d listed
          rcases List.mem_cons.mp listed with rfl | within
          · simpa using kept
          · exact ih first (by simp [found]) d within
        · exact ih piece (by simp [found,later])

def IsSegment (name : String) : Prop := name ≠ "" ∧ '.' ∉ name.toList

instance (name : String) : Decidable (IsSegment name) := inferInstanceAs (Decidable (_ ∧ _))

theorem segmentsDotted {names : List String} (plain : ∀ name ∈ names, IsSegment name) :
    segments (dotted names) = names := by
  unfold segments dotted
  rw [String.toList_intercalate,show ".".toList = ['.'] by decide]
  cases names with
  | nil => simp [cut]
  | cons first rest =>
    have cuts : cut (· = '.') (['.'].intercalate ((first :: rest).map String.toList)) =
        (first :: rest).map String.toList := by
      refine cutJoined (by simp) (by simp) ?_
      intro piece inside c listed
      obtain ⟨name,member,rfl⟩ := List.mem_map.mp inside
      have absent := (plain name member).2
      exact decide_eq_false fun dot => absent (dot ▸ listed)
    rw [cuts,List.filter_eq_self.mpr,List.map_map]
    · simp [Function.comp_def]
    · intro piece inside
      obtain ⟨name,member,rfl⟩ := List.mem_map.mp inside
      have filled := (plain name member).1
      simpa using filled

theorem cutFilled (chars : List Char) : cut isSeparator chars ≠ [] := by
  cases chars with
  | nil => simp [cut]
  | cons c rest =>
    unfold cut
    split
    · simp
    · split <;> simp

theorem cutConcat {c : Char} (separates : isSeparator c = true) (chars rest : List Char) :
    cut isSeparator (chars ++ c :: rest) = cut isSeparator chars ++ cut isSeparator rest := by
  induction chars with
  | nil => simp [cut,separates]
  | cons d chars ih =>
    rw [List.cons_append,cut,cut]
    split
    · rw [ih,List.cons_append]
    · rw [ih]
      cases cuts : cut isSeparator chars with
      | nil => exact absurd cuts (cutFilled chars)
      | cons piece pieces => rfl

theorem segmentsJoined (names : List String) : segments (dotted names) = names.flatMap segments := by
  unfold dotted
  rw [segments,String.toList_intercalate,show ".".toList = ['.'] by decide]
  induction names with
  | nil => simp [cut]
  | cons name rest ih =>
    cases rest with
    | nil => simp [segments]
    | cons next later =>
      rw [List.map_cons,List.map_cons,List.intercalate_cons_cons,List.append_assoc,List.singleton_append,
        cutConcat (by simp),List.filter_append,List.map_append,← List.map_cons,ih,List.flatMap_cons]
      rfl

theorem segmentsName {name : String} (plain : IsSegment name) : segments name = [name] := by
  have alone : dotted [name] = name := rfl
  rw [← alone]
  exact segmentsDotted (by simpa using plain)

theorem flatSegments {names : List String} (plain : ∀ name ∈ names, IsSegment name) :
    names.flatMap segments = names := by
  induction names with
  | nil => rfl
  | cons name rest ih =>
    rw [List.flatMap_cons,segmentsName (plain name (by simp)),
      ih fun name later => plain name (by simp [later])]
    rfl

theorem segmentsPlain (dotted : String) : ∀ name ∈ segments dotted, IsSegment name := by
  intro name inside
  obtain ⟨piece,listed,rfl⟩ := List.mem_map.mp inside
  obtain ⟨cuts,filled⟩ := List.mem_filter.mp listed
  refine ⟨fun empty => ?_,fun dot => ?_⟩
  · simp [String.ofList_eq_empty_iff.mp empty] at filled
  · rw [String.toList_ofList] at dot
    simpa using cutClean _ piece cuts '.' dot

end Text

namespace Path
open Text

inductive Canonical (absolute : Bool) : List (List Char) → Prop where
  | nil : Canonical absolute []
  | name {segment rest} (filled : segment ≠ []) (dot : segment ≠ ['.']) (dots : segment ≠ ['.','.'])
      (clean : ∀ c ∈ segment, isSeparator c = false) (before : Canonical absolute rest) :
      Canonical absolute (segment :: rest)
  | dots {rest} (relative : absolute = false) (only : ∀ segment ∈ rest, segment = ['.','.'])
      (before : Canonical absolute rest) : Canonical absolute (['.','.'] :: rest)

theorem foldCanonical {absolute : Bool} {kept : List (List Char)} (canonical : Canonical absolute kept)
    {segment : List Char} (clean : ∀ c ∈ segment, isSeparator c = false) :
    Canonical absolute (fold absolute kept segment) := by
  unfold fold
  split
  · exact canonical
  · rename_i ordinary
    obtain ⟨filled,dot⟩ : segment ≠ [] ∧ segment ≠ ['.'] := by simpa using ordinary
    split
    · rename_i up
      subst up
      cases canonical with
      | nil =>
        cases absolute with
        | true => exact .nil
        | false => exact .dots rfl (by simp) .nil
      | name filled dot dots clean before =>
        simp only [ne_eq,dots,not_false_eq_true,if_true]
        exact before
      | dots relative only before =>
        subst relative
        simp only [ne_eq,not_true,if_false,Bool.false_eq_true]
        exact .dots rfl (by simpa using only) (.dots rfl only before)
    · rename_i down
      exact .name filled dot down clean canonical

theorem foldedCanonical {absolute : Bool} (segments : List (List Char))
    (clean : ∀ segment ∈ segments, ∀ c ∈ segment, isSeparator c = false) {kept : List (List Char)}
    (canonical : Canonical absolute kept) : Canonical absolute (segments.foldl (fold absolute) kept) := by
  induction segments generalizing kept with
  | nil => exact canonical
  | cons segment rest ih =>
    exact ih (fun later inside => clean later (by simp [inside]))
      (foldCanonical canonical (clean segment (by simp)))

theorem foldFixed {absolute : Bool} {kept : List (List Char)} (canonical : Canonical absolute kept) :
    kept.reverse.foldl (fold absolute) [] = kept := by
  induction canonical with
  | nil => rfl
  | name filled dot dots clean before ih =>
    simp [List.reverse_cons,List.foldl_append,ih,fold,filled,dot,dots]
  | @dots rest relative only before ih =>
    subst relative
    simp only [List.reverse_cons,List.foldl_append,ih,List.foldl_cons,List.foldl_nil,fold]
    cases rest with
    | nil => simp
    | cons last earlier => simp [only last (by simp)]

theorem canonicalClean {absolute : Bool} {kept : List (List Char)} (canonical : Canonical absolute kept) :
    ∀ segment ∈ kept, segment ≠ [] ∧ segment ≠ ['.'] ∧ ∀ c ∈ segment, isSeparator c = false := by
  induction canonical with
  | nil => simp
  | name filled dot dots clean before ih =>
    intro segment inside
    rcases List.mem_cons.mp inside with rfl | later
    · exact ⟨filled,dot,clean⟩
    · exact ih segment later
  | dots relative only before ih =>
    intro segment inside
    rcases List.mem_cons.mp inside with rfl | later
    · exact ⟨by simp,by simp,by simp [isSeparator]⟩
    · exact ih segment later

theorem keptFolded (path : List Char) :
    Canonical (isAbsolute path) ((cut isSeparator path).foldl (fold (isAbsolute path)) []) :=
  foldedCanonical _ (cutClean path) .nil

theorem slashSeparates : isSeparator '/' = true := by simp [isSeparator]

theorem cutFixed {absolute : Bool} {kept : List (List Char)} (canonical : Canonical absolute kept) :
    (cut isSeparator (['/'].intercalate kept.reverse)).foldl (fold absolute) [] = kept := by
  cases kept with
  | nil => simp [cut,fold]
  | cons last earlier =>
    rw [cutJoined slashSeparates (by simp) fun segment inside =>
      (canonicalClean canonical segment (List.mem_reverse.mp inside)).2.2]
    exact foldFixed canonical

theorem joinedRelative {absolute : Bool} {kept : List (List Char)} (canonical : Canonical absolute kept) :
    isAbsolute (['/'].intercalate kept.reverse) = false := by
  have clean : ∀ segment ∈ kept.reverse, segment ≠ [] ∧ segment ≠ ['.'] ∧ ∀ c ∈ segment, isSeparator c = false :=
    fun segment inside => canonicalClean canonical segment (List.mem_reverse.mp inside)
  generalize kept.reverse = segments at clean
  cases segments with
  | nil => rfl
  | cons segment rest =>
    obtain ⟨filled,_,separators⟩ := clean segment (by simp)
    cases segment with
    | nil => exact absurd rfl filled
    | cons c later =>
      have first := separators c (by simp)
      cases rest <;> simpa [isAbsolute] using first

def form (absolute : Bool) (kept : List (List Char)) : String :=
  let joined := ['/'].intercalate kept.reverse
  String.ofList (if absolute then '/' :: joined else joined)

theorem formFixed {absolute : Bool} {kept : List (List Char)} (canonical : Canonical absolute kept) :
    normalize (form absolute kept) = form absolute kept := by
  unfold normalize form
  simp only [String.toList_ofList,keptSegments]
  cases absolute with
  | true =>
    simp only [if_true,isAbsolute,slashSeparates,cut,List.foldl_cons]
    rw [show fold true [] [] = [] by simp [fold],cutFixed canonical]
  | false => simp only [Bool.false_eq_true,if_false,joinedRelative canonical,cutFixed canonical]

theorem normalizeForm (path : String) : ∃ kept, Canonical (isAbsolute path.toList) kept ∧
    normalize path = form (isAbsolute path.toList) kept :=
  ⟨_,keptFolded path.toList,rfl⟩

theorem normalizeFixed (path : String) : normalize (normalize path) = normalize path := by
  obtain ⟨kept,canonical,written⟩ := normalizeForm path
  rw [written,formFixed canonical]

end Path
end CodeIndex
