import CodeIndex.Text.LineTable
import Mathlib.Data.Prod.Lex
import Mathlib.Data.String.Basic

/-! From offsets to positions and back. The starts of a table ascend from zero, so each offset of the text is on
one line, and its position names that line. The offset of this position is the one it was made from, however far
the listed starts lie beyond the text. -/
namespace CodeIndex.LineTable

def Ascending (table : LineTable) : Prop := table.starts.Pairwise (· < ·)

theorem insertStartMem {start x : UInt32} {kept : List UInt32} :
    x ∈ insertStart start kept ↔ x = start ∨ x ∈ kept := by
  fun_induction insertStart start kept with
  | case1 => simp
  | case2 => simp
  | case3 => simp
  | case4 first rest _ _ ih => grind

theorem insertStartOrder {start : UInt32} {kept : List UInt32} (ordered : kept.Pairwise (· < ·)) :
    (insertStart start kept).Pairwise (· < ·) := by
  fun_induction insertStart start kept with
  | case1 => exact List.pairwise_singleton _ _
  | case2 first rest before =>
    refine List.pairwise_cons.mpr ⟨List.forall_mem_cons.mpr ⟨before,fun x later => ?_⟩,ordered⟩
    exact Std.lt_trans before ((List.pairwise_cons.mp ordered).1 x later)
  | case3 => exact ordered
  | case4 first rest notBefore apart ih =>
    obtain ⟨below,rest⟩ := List.pairwise_cons.mp ordered
    refine List.pairwise_cons.mpr ⟨fun x inside => ?_,ih rest⟩
    rcases insertStartMem.mp inside with rfl | later
    · grind
    · exact below x later

theorem insertedOrder {starts kept : List UInt32} (ordered : (0 :: kept).Pairwise (· < ·))
    (later : ∀ start ∈ starts, start ≠ 0) :
    (0 :: starts.foldl (fun kept start => insertStart start kept) kept).Pairwise (· < ·) := by
  induction starts generalizing kept with
  | nil => exact ordered
  | cons start starts ih =>
    obtain ⟨apart,others⟩ := List.forall_mem_cons.mp later
    obtain ⟨above,rest⟩ := List.pairwise_cons.mp ordered
    refine ih (List.pairwise_cons.mpr ⟨fun x inside => ?_,insertStartOrder rest⟩) others
    rcases insertStartMem.mp inside with rfl | kept
    · grind
    · exact above x kept

theorem ofStartsAscending (starts : List UInt32) (length : UInt32) : (ofStarts starts length).Ascending :=
  insertedOrder (List.pairwise_singleton _ _) (by simp)

theorem offsetValue {n : Nat} (fits : n < 2 ^ 32) : (UInt32.ofNat n).toNat = n := UInt32.toNat_ofNat_of_lt' fits

theorem startsAfterBounds {offset : Nat} {text : List Char} (short : offset + String.utf8Len text < 2 ^ 32) :
    ∀ start ∈ startsAfter offset text, offset < start.toNat ∧ start.toNat ≤ offset + String.utf8Len text := by
  induction text generalizing offset with
  | nil => simp [startsAfter]
  | cons c rest ih =>
    rw [String.utf8Len_cons] at short ⊢
    have filled := c.utf8Size_pos
    have later := @ih (offset + c.utf8Size) (by omega)
    have own : (UInt32.ofNat (offset + c.utf8Size)).toNat = offset + c.utf8Size := offsetValue (by omega)
    intro start inside
    simp only [startsAfter] at inside
    split at inside
    · rcases List.mem_cons.mp inside with rfl | further
      · omega
      · have := later start further
        omega
    · have := later start inside
      omega

theorem startsAfterOrder {offset : Nat} {text : List Char} (short : offset + String.utf8Len text < 2 ^ 32) :
    (startsAfter offset text).Pairwise (· < ·) := by
  induction text generalizing offset with
  | nil => exact .nil
  | cons c rest ih =>
    rw [String.utf8Len_cons] at short
    have shorter : (offset + c.utf8Size) + String.utf8Len rest < 2 ^ 32 := by omega
    simp only [startsAfter]
    split
    · refine List.pairwise_cons.mpr ⟨fun start later => ?_,ih shorter⟩
      rw [UInt32.lt_iff_toNat_lt,offsetValue (by omega)]
      exact (startsAfterBounds shorter start later).1
    · exact ih shorter

theorem ofTextAscending {text : String} (short : text.utf8ByteSize < 2 ^ 32) : (ofText text).Ascending := by
  have fits : 0 + String.utf8Len text.toList < 2 ^ 32 := by
    rw [← String.utf8ByteSize_ofList,String.ofList_toList]
    omega
  refine List.pairwise_cons.mpr ⟨fun start later => ?_,startsAfterOrder fits⟩
  exact UInt32.lt_iff_toNat_lt.mpr (startsAfterBounds fits start later).1

structure OnLine (table : LineTable) (offset : UInt32) (line : Nat) (start : UInt32) : Prop where
  starts : table.starts[line]? = some start
  reached : start ≤ offset
  before : ∀ next, table.starts[line + 1]? = some next → offset < next

section

variable {table : LineTable}

theorem Ascending.startsBelow (ascending : table.Ascending) {i j : Nat} {start later : UInt32}
    (first : table.starts[i]? = some start) (second : table.starts[j]? = some later) (order : i < j) :
    start < later := by
  obtain ⟨inside,rfl⟩ := List.getElem?_eq_some_iff.mp first
  obtain ⟨inside',rfl⟩ := List.getElem?_eq_some_iff.mp second
  exact List.pairwise_iff_getElem.mp ascending i j inside inside' order

theorem Ascending.lineBelow (ascending : table.Ascending) {line : Nat} {start : UInt32}
    (found : table.starts[line]? = some start) : line ≤ start.toNat := by
  induction line generalizing start with
  | zero => exact Nat.zero_le _
  | succ line ih =>
    obtain ⟨inside,_⟩ := List.getElem?_eq_some_iff.mp found
    have before : table.starts[line]? = some table.starts[line] := List.getElem?_eq_getElem (by omega)
    have rising := UInt32.lt_iff_toNat_lt.mp (ascending.startsBelow before found (Nat.lt_succ_self line))
    exact Nat.lt_of_le_of_lt (ih before) rising

theorem OnLine.notAfter {offset later : UInt32} {line line' : Nat} {start start' : UInt32}
    (on : table.OnLine offset line start) (on' : table.OnLine later line' start') (ascending : table.Ascending)
    (order : offset ≤ later) : line ≤ line' := by
  by_contra beyond
  obtain ⟨inside,_⟩ := List.getElem?_eq_some_iff.mp on.starts
  have next : table.starts[line' + 1]? = some table.starts[line' + 1] := List.getElem?_eq_getElem (by omega)
  have past := on'.before _ next
  have reached : table.starts[line' + 1] ≤ start := by
    rcases Nat.lt_or_eq_of_le (show line' + 1 ≤ line by omega) with less | same
    · exact Std.le_of_lt (ascending.startsBelow next on.starts less)
    · subst same
      exact Std.le_of_eq (Option.some.inj (next.symm.trans on.starts))
  have := on.reached
  grind

theorem OnLine.unique {offset : UInt32} {line line' : Nat} {start start' : UInt32}
    (on : table.OnLine offset line start) (on' : table.OnLine offset line' start') (ascending : table.Ascending) :
    line = line' ∧ start = start' := by
  have same : line = line' :=
    Nat.le_antisymm (on.notAfter on' ascending (Std.le_refl _)) (on'.notAfter on ascending (Std.le_refl _))
  subst same
  exact ⟨rfl,Option.some.inj (on.starts.symm.trans on'.starts)⟩

end

theorem lastStart (first : UInt32) (before after : List UInt32) :
    (first :: (before ++ after))[before.length]? = some (before.getLastD first) := by
  induction before generalizing first with
  | nil => rfl
  | cons next before ih => rw [List.length_cons,List.cons_append,List.getElem?_cons_succ,ih,List.getLastD_cons]

section

variable (table : LineTable) (offset : UInt32)

def startsUpTo : List UInt32 := table.laterStarts.takeWhile (· ≤ min offset table.length)

theorem positionOnLine : table.OnLine (min offset table.length) (table.startsUpTo offset).length
    ((table.startsUpTo offset).getLastD 0) := by
  have whole : table.starts = 0 :: (table.startsUpTo offset ++
      table.laterStarts.dropWhile (· ≤ min offset table.length)) := by
    rw [startsUpTo,List.takeWhile_append_dropWhile,starts]
  refine ⟨?_,?_,fun next found => ?_⟩
  · rw [whole,lastStart]
  · rcases List.eq_nil_or_concat (table.startsUpTo offset) with none | ⟨before,last,some⟩
    · rw [none]
      exact UInt32.zero_le
    · have inside : last ∈ table.startsUpTo offset := by simp [some]
      rw [some,List.concat_eq_append,List.getLastD_concat]
      simpa using List.all_eq_true.mp List.all_takeWhile last inside
  · have first := List.head?_dropWhile_not (· ≤ min offset table.length) table.laterStarts
    rw [whole,List.getElem?_cons_succ,List.getElem?_append_right (Nat.le_refl _),Nat.sub_self,
      ← List.head?_eq_getElem?] at found
    rw [found] at first
    simpa using first

def position? : Option Position :=
  let within := min offset table.length
  let count := (table.starts.takeWhile (· ≤ within)).length
  if count = 0 then none
  else match table.starts[count - 1]? with
    | none => none
    | some start =>
      if start ≤ within ∧ count - 1 < UInt32.size then some ⟨UInt32.ofNat (count - 1),within - start⟩ else none

end

section

variable {table : LineTable} (ascending : table.Ascending) (offset : UInt32)
include ascending

theorem lineFits : (table.startsUpTo offset).length < UInt32.size := by
  have on := table.positionOnLine offset
  have below := ascending.lineBelow on.starts
  have := UInt32.toNat_lt ((table.startsUpTo offset).getLastD 0)
  simp only [UInt32.size]
  omega

theorem positionChecked : table.position? offset = some (table.position offset) := by
  have on := table.positionOnLine offset
  have fits := lineFits ascending offset
  have counted : table.starts.takeWhile (· ≤ min offset table.length) = 0 :: table.startsUpTo offset :=
    List.takeWhile_cons_of_pos (by simp)
  simp only [position?,counted,List.length_cons,Nat.add_sub_cancel,on.starts,Nat.succ_ne_zero,if_false,
    if_pos (And.intro on.reached fits)]
  rfl

theorem positionPlace : ∃ start, table.OnLine (min offset table.length) (table.position offset).line.toNat start ∧
    start.toNat + (table.position offset).column.toNat = (min offset table.length).toNat := by
  have on := table.positionOnLine offset
  have line : (table.position offset).line.toNat = (table.startsUpTo offset).length :=
    UInt32.toNat_ofNat_of_lt' (lineFits ascending offset)
  have column : (table.position offset).column.toNat =
      (min offset table.length).toNat - ((table.startsUpTo offset).getLastD 0).toNat :=
    UInt32.toNat_sub_of_le _ _ on.reached
  have reached := UInt32.le_iff_toNat_le.mp on.reached
  exact ⟨_,line ▸ on,by omega⟩

theorem positionsFollow {earlier later : UInt32} (order : earlier ≤ later) :
    toLex ((table.position earlier).line.toNat,(table.position earlier).column.toNat) ≤
      toLex ((table.position later).line.toNat,(table.position later).column.toNat) := by
  obtain ⟨start,on,sum⟩ := positionPlace ascending earlier
  obtain ⟨start',on',sum'⟩ := positionPlace ascending later
  have within : min earlier table.length ≤ min later table.length := by
    simp only [UInt32.le_iff_toNat_le,UInt32.toNat_min] at order ⊢
    omega
  rw [Prod.Lex.toLex_le_toLex]
  rcases Nat.lt_or_eq_of_le (on.notAfter on' ascending within) with less | same
  · exact .inl less
  · have starts : start = start' := by
      have found := on'.starts
      rw [← same] at found
      exact Option.some.inj (on.starts.symm.trans found)
    subst starts
    have := UInt32.le_iff_toNat_le.mp within
    exact .inr ⟨same,by simp only; omega⟩

omit ascending

theorem lineEndBefore {line : Nat} {next : UInt32} (found : table.starts[line + 1]? = some next)
    (positive : 0 < next.toNat) : ∃ stop, table.lineEnd? line = .ok stop ∧ stop.toNat + 1 = next.toNat := by
  have apart : next ≠ 0 := by
    rintro rfl
    exact Nat.lt_irrefl _ positive
  have first : 1 ≤ next := UInt32.le_iff_toNat_le.mpr positive
  refine ⟨next - 1,by rw [lineEnd?,found]; exact if_neg apart,?_⟩
  rw [UInt32.toNat_sub_of_le _ _ first]
  exact Nat.sub_add_cancel positive

theorem lineEndAfter {within start : UInt32} {line : Nat} (inside : within ≤ table.length)
    (on : table.OnLine within line start) : ∃ stop, table.lineEnd? line = .ok stop ∧ within ≤ stop := by
  cases found : table.starts[line + 1]? with
  | none => exact ⟨table.length,by rw [lineEnd?,found],inside⟩
  | some next =>
    have before := UInt32.lt_iff_toNat_lt.mp (on.before next found)
    obtain ⟨stop,ends,value⟩ := lineEndBefore found (by omega)
    exact ⟨stop,ends,UInt32.le_iff_toNat_le.mpr (by omega)⟩

theorem offsetClamped {p : Position} {start stop : UInt32} (found : table.starts[p.line.toNat]? = some start)
    (ends : table.lineEnd? p.line.toNat = .ok stop) (fits : start.toNat + p.column.toNat < 2 ^ 32) :
    ∃ o, table.offset? p = .ok (some o) ∧ o.toNat = min (start.toNat + p.column.toNat) stop.toNat := by
  refine ⟨min (start + p.column) stop,?_,?_⟩
  · simp only [offset?,found,ends]
    exact if_pos fits
  · rw [UInt32.toNat_min,UInt32.toNat_add,Nat.mod_eq_of_lt fits]

theorem noLine {p : Position} : table.offset? p = .ok none ↔ table.starts[p.line.toNat]? = none := by
  unfold offset?
  cases table.starts[p.line.toNat]? with
  | none => simp
  | some start =>
    cases table.lineEnd? p.line.toNat with
    | error e => simp [bind,Except.bind]
    | ok stop =>
      simp only [bind,Except.bind]
      split <;> simp [pure,Except.pure,throw,throwThe,MonadExceptOf.throw]

include ascending

theorem offsetBack : table.offset? (table.position offset) = .ok (some (min offset table.length)) := by
  obtain ⟨start,on,sum⟩ := positionPlace ascending offset
  obtain ⟨stop,ends,within⟩ := lineEndAfter Std.min_le_right on
  obtain ⟨o,found,value⟩ := offsetClamped on.starts ends (sum ▸ UInt32.toNat_lt _)
  rw [sum,Nat.min_eq_left (UInt32.le_iff_toNat_le.mp within)] at value
  rw [found,UInt32.toNat_inj.mp value]

end

inductive Built : LineTable → Prop where
  | text {text : String} (short : text.utf8ByteSize < 2 ^ 32 - 1) : Built (ofText text)
  | starts (starts : List UInt32) (length : UInt32) : Built (ofStarts starts length)
  | empty : Built {}

theorem Built.ascending {table : LineTable} (built : Built table) : table.Ascending := by
  cases built with
  | text short => exact ofTextAscending (by omega)
  | starts starts length => exact ofStartsAscending starts length
  | empty => exact List.pairwise_singleton _ _

/-- Every offset has a position, found without a step out of range, and this position leads back to the offset, or
to the end of the text if the offset is past it. Positions follow each other as the offsets do. -/
theorem offsetsReturn {table : LineTable} (built : Built table) :
    (∀ offset, table.position? offset = some (table.position offset) ∧
      table.offset? (table.position offset) = .ok (some (min offset table.length))) ∧
    ∀ earlier later, earlier ≤ later →
      toLex ((table.position earlier).line.toNat,(table.position earlier).column.toNat) ≤
        toLex ((table.position later).line.toNat,(table.position later).column.toNat) :=
  ⟨fun offset => ⟨positionChecked built.ascending offset,offsetBack built.ascending offset⟩,
    fun _ _ order => positionsFollow built.ascending order⟩

theorem strayStartsReturn :
    let table := ofStarts [40,7,3,7,4294967295] 10
    Built table ∧ table.position? 9 = some ⟨2,2⟩ ∧ table.offset? ⟨2,2⟩ = .ok (some 9) ∧
      table.offset? (table.position 50) = .ok (some 10) ∧
      toLex ((table.position 6).line.toNat,(table.position 6).column.toNat) ≤
        toLex ((table.position 7).line.toNat,(table.position 7).column.toNat) := by
  have built := Built.starts [40,7,3,7,4294967295] 10
  obtain ⟨returns,follow⟩ := offsetsReturn built
  have place : (ofStarts [40,7,3,7,4294967295] 10).position 9 = ⟨2,2⟩ := by decide
  exact ⟨built,place ▸ (returns 9).1,place ▸ (returns 9).2,(returns 50).2,follow 6 7 (by decide)⟩

end CodeIndex.LineTable
