import CodeIndex.Proofs.Positions
import Mathlib.Algebra.GroupWithZero.Nat

/-! Columns and the lines of a text. The table of a text has one start for each line, at the bytes of the lines
before it with their line breaks. A column past the end of its line means the end, as long as its sum with the
start of the line is an offset at all; where it is not, there is no answer. -/
namespace CodeIndex.LineTable

def linesFrom (text : List Char) : List String := (text.splitOn '\n').map String.ofList

def linesOf (text : String) : List String := linesFrom text.toList

def lineStart (lines : List String) (n : Nat) : Nat := ((lines.take n).map (·.utf8ByteSize + 1)).sum

theorem linesBreak (rest : List Char) : linesFrom ('\n' :: rest) = "" :: linesFrom rest := by
  simp [linesFrom,List.splitOn_cons_eq_if_modifyHead]

theorem linesCons {c : Char} (other : c ≠ '\n') (rest : List Char) : ∃ line line' lines,
    linesFrom rest = line :: lines ∧ linesFrom (c :: rest) = line' :: lines ∧
      line'.utf8ByteSize = line.utf8ByteSize + c.utf8Size := by
  cases split : rest.splitOn '\n' with
  | nil => exact absurd split (List.splitOn_ne_nil _ _)
  | cons first later =>
    refine ⟨String.ofList first,String.ofList (c :: first),later.map String.ofList,?_,?_,?_⟩
    · rw [linesFrom,split,List.map_cons]
    · simp [linesFrom,List.splitOn_cons_eq_if_modifyHead,other,split]
    · rw [String.utf8ByteSize_ofList,String.utf8ByteSize_ofList,String.utf8Len_cons]

theorem breakSize : '\n'.utf8Size = 1 := rfl

theorem lineStartCons (line : String) (lines : List String) (n : Nat) :
    lineStart (line :: lines) (n + 1) = line.utf8ByteSize + 1 + lineStart lines n := by
  simp [lineStart]

theorem lineStartNext {lines : List String} {n : Nat} {line : String} (found : lines[n]? = some line) :
    lineStart lines (n + 1) = lineStart lines n + line.utf8ByteSize + 1 := by
  simp [lineStart,List.take_add_one,found,Nat.add_assoc]

theorem lineStartWithin (lines : List String) (n : Nat) : lineStart lines n ≤ lineStart lines lines.length := by
  have whole : lineStart lines lines.length = lineStart lines n + ((lines.drop n).map (·.utf8ByteSize + 1)).sum := by
    rw [lineStart,lineStart,List.take_length,← List.sum_append,← List.map_append,List.take_append_drop]
  omega

theorem linesFill (text : List Char) :
    lineStart (linesFrom text) (linesFrom text).length = String.utf8Len text + 1 := by
  induction text with
  | nil => rfl
  | cons c rest ih =>
    rw [String.utf8Len_cons]
    by_cases breaks : c = '\n'
    · subst breaks
      rw [linesBreak,List.length_cons,lineStartCons,ih]
      simp only [String.utf8ByteSize_empty,breakSize]
      omega
    · obtain ⟨line,line',lines,shorter,longer,size⟩ := linesCons breaks rest
      rw [shorter,List.length_cons,lineStartCons] at ih
      rw [longer,List.length_cons,lineStartCons]
      omega

theorem startsListed (offset : Nat) (text : List Char) (n : Nat) :
    (UInt32.ofNat offset :: startsAfter offset text)[n]? =
      (linesFrom text)[n]?.map fun _ => UInt32.ofNat (offset + lineStart (linesFrom text) n) := by
  induction text generalizing offset n with
  | nil => cases n <;> simp [startsAfter,linesFrom,lineStart]
  | cons c rest ih =>
    simp only [startsAfter]
    split
    · rename_i breaks
      subst breaks
      rw [linesBreak]
      cases n with
      | zero => simp [lineStart]
      | succ n =>
        rw [List.getElem?_cons_succ,ih,List.getElem?_cons_succ,lineStartCons]
        simp only [String.utf8ByteSize_empty,breakSize]
        congr! 3
        omega
    · rename_i other
      obtain ⟨line,line',lines,shorter,longer,size⟩ := linesCons other rest
      rw [longer]
      cases n with
      | zero => simp [lineStart]
      | succ n =>
        have later := ih (offset + c.utf8Size) (n + 1)
        rw [shorter,List.getElem?_cons_succ,List.getElem?_cons_succ,lineStartCons] at later
        rw [List.getElem?_cons_succ,List.getElem?_cons_succ,lineStartCons,later,size]
        congr! 3
        omega

section

variable {text : String} (short : text.utf8ByteSize < 2 ^ 32 - 1) {n : Nat} {line : String}
  (found : (linesOf text)[n]? = some line)

theorem textFilled (text : String) :
    lineStart (linesOf text) (linesOf text).length = text.utf8ByteSize + 1 := by
  rw [linesOf,linesFill,← String.utf8ByteSize_ofList,String.ofList_toList]

theorem textStarts (text : String) (n : Nat) : (ofText text).starts[n]? =
    (linesOf text)[n]?.map fun _ => UInt32.ofNat (lineStart (linesOf text) n) := by
  have starts := startsListed 0 text.toList n
  rw [Nat.zero_add] at starts
  exact starts

include found

theorem lineWithin : lineStart (linesOf text) n + line.utf8ByteSize ≤ text.utf8ByteSize := by
  have next := lineStartWithin (linesOf text) (n + 1)
  rw [lineStartNext found,textFilled] at next
  omega

include short

theorem textStart : ∃ start, (ofText text).starts[n]? = some start ∧
    start.toNat = lineStart (linesOf text) n := by
  have within := lineWithin found
  exact ⟨_,by rw [textStarts,found]; rfl,offsetValue (by omega)⟩

omit found in
theorem textLength : (ofText text).length.toNat = text.utf8ByteSize := offsetValue (by omega)

theorem textEnd : ∃ stop, (ofText text).lineEnd? n = .ok stop ∧
    stop.toNat = lineStart (linesOf text) n + line.utf8ByteSize := by
  have next := lineStartNext found
  cases further : (linesOf text)[n + 1]? with
  | none =>
    have last : n + 1 = (linesOf text).length := by
      have := (List.getElem?_eq_some_iff.mp found).1
      have := List.getElem?_eq_none_iff.mp further
      omega
    have filled := textFilled text
    rw [← last,next] at filled
    refine ⟨(ofText text).length,by rw [lineEnd?,textStarts,further]; rfl,?_⟩
    rw [textLength short]
    omega
  | some line' =>
    obtain ⟨start,starts,value⟩ := textStart short further
    obtain ⟨stop,ends,before⟩ := lineEndBefore starts (by omega)
    exact ⟨stop,ends,by omega⟩

theorem positionInLine {offset : UInt32} {column : Nat} (fits : column ≤ line.utf8ByteSize)
    (value : offset.toNat = lineStart (linesOf text) n + column) :
    ((ofText text).position offset).line.toNat = n ∧ ((ofText text).position offset).column.toNat = column := by
  have within := lineWithin found
  obtain ⟨start,starts,first⟩ := textStart short found
  have ascending : (ofText text).Ascending := ofTextAscending (by omega)
  have inside : min offset (ofText text).length = offset := by
    rw [← UInt32.toNat_inj,UInt32.toNat_min,textLength short]
    omega
  have on : (ofText text).OnLine offset n start := by
    refine ⟨starts,UInt32.le_iff_toNat_le.mpr (by omega),fun next later => ?_⟩
    rw [textStarts] at later
    obtain ⟨line',further,_⟩ := Option.map_eq_some_iff.mp later
    obtain ⟨next',starts',value'⟩ := textStart short further
    rw [textStarts,later] at starts'
    cases starts'
    rw [lineStartNext found] at value'
    exact UInt32.lt_iff_toNat_lt.mpr (by omega)
  obtain ⟨start',on',sum⟩ := positionPlace ascending offset
  rw [inside] at on' sum
  obtain ⟨same,same'⟩ := on'.unique on ascending
  subst same'
  exact ⟨same,by omega⟩

end

/-- For each line of a text a column counts from the start of the line, and one past the end of the line means the
end; the position of the offset found is on this line. A column whose sum with the start is no offset has no
answer. Only a line that is not there has the answer `none`. -/
theorem columnsClamped (text : String) (short : text.utf8ByteSize < 2 ^ 32 - 1) (p : Position) :
    (∀ line, (linesOf text)[p.line.toNat]? = some line →
      let start := lineStart (linesOf text) p.line.toNat
      let column := min p.column.toNat line.utf8ByteSize
      (start + p.column.toNat < 2 ^ 32 → ∃ offset, (ofText text).offset? p = .ok (some offset) ∧
        offset.toNat = start + column ∧ ((ofText text).position offset).line = p.line ∧
        ((ofText text).position offset).column.toNat = column) ∧
      (2 ^ 32 ≤ start + p.column.toNat → (ofText text).offset? p = .error .addition)) ∧
    ((ofText text).offset? p = .ok none ↔ (linesOf text).length ≤ p.line.toNat) := by
  constructor
  · intro line found
    obtain ⟨start,starts,first⟩ := textStart short found
    obtain ⟨stop,ends,last⟩ := textEnd short found
    refine ⟨fun fits => ?_,fun beyond => ?_⟩
    · obtain ⟨offset,answer,value⟩ := offsetClamped starts ends (by omega)
      have column : offset.toNat = lineStart (linesOf text) p.line.toNat + min p.column.toNat line.utf8ByteSize := by
        omega
      obtain ⟨onLine,counted⟩ := positionInLine short found (Nat.min_le_right _ _) column
      exact ⟨offset,answer,column,UInt32.toNat_inj.mp onLine,counted⟩
    · simp only [offset?,starts,ends]
      exact if_neg (by simp only [UInt32.size]; omega)
  · rw [noLine,textStarts,Option.map_eq_none_iff,List.getElem?_eq_none_iff]

def menu : String := "çà\n\nthé"

theorem menuColumns :
    menu.utf8ByteSize < 2 ^ 32 - 1 ∧
    (linesOf menu)[2]? = some "thé" ∧ lineStart (linesOf menu) 2 + 4294967289 < 2 ^ 32 ∧
    (∃ offset, (ofText menu).offset? ⟨2,4294967289⟩ = .ok (some offset) ∧ offset.toNat = 10 ∧
      ((ofText menu).position offset).line = 2 ∧ ((ofText menu).position offset).column.toNat = 4) ∧
    2 ^ 32 ≤ lineStart (linesOf menu) 2 + 4294967290 ∧
    (ofText menu).offset? ⟨2,4294967290⟩ = .error .addition := by
  have short : menu.utf8ByteSize < 2 ^ 32 - 1 := by decide
  have line : (linesOf menu)[2]? = some "thé" := by decide
  have fits : lineStart (linesOf menu) 2 + 4294967289 < 2 ^ 32 := by decide
  have beyond : 2 ^ 32 ≤ lineStart (linesOf menu) 2 + 4294967290 := by decide
  exact ⟨short,line,fits,((columnsClamped menu short ⟨2,4294967289⟩).1 "thé" line).1 fits,beyond,
    ((columnsClamped menu short ⟨2,4294967290⟩).1 "thé" line).2 beyond⟩

theorem lastColumnLost : ¬∀ (text : String) (p : Position) (line : String), text.utf8ByteSize < 2 ^ 32 - 1 →
    (linesOf text)[p.line.toNat]? = some line → ∃ offset, (ofText text).offset? p = .ok (some offset) ∧
      offset.toNat = lineStart (linesOf text) p.line.toNat + min p.column.toNat line.utf8ByteSize := by
  intro clamped
  obtain ⟨offset,found,_⟩ := clamped "ab\ncd" ⟨1,4294967295⟩ "cd" (by decide) (by decide)
  have lost : (ofText "ab\ncd").offset? ⟨1,4294967295⟩ = .error .addition := by rfl
  rw [lost] at found
  cases found

end CodeIndex.LineTable
