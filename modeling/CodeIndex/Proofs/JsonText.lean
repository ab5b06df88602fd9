import CodeIndex.Json.Writer
import Mathlib.Algebra.Group.Nat.Defs

/-! Reading what was written. Every part of a written value is read back from the front of whatever follows it:
quoted text character by character, numbers up to a character that no numeral goes on with, lists and records
item by item. Reading takes at most two steps for each character written. -/
namespace CodeIndex.Json

theorem letterEscapes {c letter : Char} (found : letter? c = some letter) :
    escape? letter = some c ∧ letter ≠ 'u' := by
  unfold letter? at found
  split at found <;> cases found <;> exact ⟨rfl,by decide⟩

theorem letterless {c : Char} (none : letter? c = none) : c ≠ '"' ∧ c ≠ '\\' := by
  constructor <;> rintro rfl <;> cases none

theorem hexControl : ∀ n < 0x20, hex4? '0' '0' (Nat.digitChar (n / 16)) (Nat.digitChar (n % 16)) = some n := by
  decide

def atom (c : Char) : Atom :=
  if (letter? c).isNone && c.toNat < 0x20 then .unit c.toNat else .char c

theorem atomsPlain {c : Char} (quote : c ≠ '"') (backslash : c ≠ '\\') (plain : ¬c.toNat < 0x20)
    (rest : List Char) : atoms (c :: rest) = (atoms rest).map fun (more,tail) => (.char c :: more,tail) := by
  rw [atoms]
  · rw [if_neg plain,if_neg backslash]
    cases atoms rest <;> rfl
  · exact quote
  · intro _ _ _ _ _ same
    exact absurd same backslash
  · intro _ _ same
    exact absurd same backslash

theorem atomsEscaped (c : Char) {rest tail : List Char} {more : List Atom}
    (reads : atoms rest = some (more,tail)) : atoms (escaped c ++ rest) = some (atom c :: more,tail) := by
  unfold escaped atom
  cases found : letter? c with
  | some letter =>
    obtain ⟨escapes,plain⟩ := letterEscapes found
    simp [atoms,plain,escapes,reads]
  | none =>
    obtain ⟨quote,backslash⟩ := letterless found
    by_cases control : c.toNat < 0x20
    · simp [atoms,control,hexControl _ control,reads]
    · simp [control,atomsPlain quote backslash control,reads]

theorem atomsText (cs : List Char) (tail : List Char) :
    atoms (cs.flatMap escaped ++ '"' :: tail) = some (cs.map atom,tail) := by
  induction cs with
  | nil => simp [atoms]
  | cons c rest ih =>
    rw [List.flatMap_cons,List.append_assoc,List.map_cons]
    exact atomsEscaped c ih

theorem spellControl {code : Nat} (control : code < 0x20) (more : List Atom) :
    spell (.unit code :: more) = (spell more).map (Char.ofNat code :: ·) := by
  have high : isHighSurrogate code = false := by simp [isHighSurrogate]; omega
  have low : isLowSurrogate code = false := by simp [isLowSurrogate]; omega
  cases more with
  | nil => simp [spell,high,low]
  | cons first rest => cases first <;> simp [spell,high,low]

theorem spellText (cs : List Char) : spell (cs.map atom) = some cs := by
  induction cs with
  | nil => rfl
  | cons c rest ih =>
    rw [List.map_cons,atom]
    split
    · rename_i both
      have control : c.toNat < 0x20 := by simpa using (Bool.and_eq_true_iff.mp both).2
      rw [spellControl control,ih,Option.map_some,Char.ofNat_toNat]
    · rw [spell,ih,Option.map_some]

theorem quotedText (content : String) (tail : List Char) :
    quoted (content.toList.flatMap escaped ++ '"' :: tail) = some (some content,tail) := by
  simp [quoted,atomsText,spellText]

theorem quoteStarts (content : String) (tail : List Char) :
    quote (some content) ++ tail = '"' :: (content.toList.flatMap escaped ++ '"' :: tail) := by
  rw [quote,List.cons_append,List.append_assoc,List.singleton_append]

theorem digitsStart (n : Nat) : ∃ d rest, Nat.toDigits 10 n = d :: rest ∧ (d = '0' → n = 0) := by
  induction n using Nat.strongRecOn with
  | _ n ih =>
    by_cases small : n < 10
    · refine ⟨_,_,Nat.toDigits_of_lt_base small,fun zero => ?_⟩
      have value := Nat.toNat_digitChar_of_lt_ten small
      rw [zero] at value
      simp at value
      omega
    · obtain ⟨d,rest,digits,zero⟩ := ih (n / 10) (by omega)
      refine ⟨d,rest ++ [(n % 10).digitChar],?_,fun leads => ?_⟩
      · rw [Nat.toDigits_of_base_le (by omega) (by omega),digits,List.cons_append]
      · have none := zero leads
        omega

def Stops (tail : List Char) : Prop :=
  ∀ c ∈ tail.head?, c.isDigit = false ∧ c ≠ '.' ∧ c ≠ 'e' ∧ c ≠ 'E'

theorem digitsWritten (n : Nat) {tail : List Char} (stops : Stops tail) :
    digits (Nat.toDigits 10 n ++ tail) = (Nat.toDigits 10 n,tail) := by
  have all : ∀ c ∈ Nat.toDigits 10 n, c.isDigit = true := fun c inside =>
    Nat.isDigit_of_mem_toDigits (by omega) (by omega) inside
  unfold digits
  rw [List.takeWhile_append_of_pos all,List.dropWhile_append_of_pos all]
  cases tail with
  | nil => simp
  | cons c rest =>
    have other := (stops c rfl).1
    simp [other]

theorem wholeWritten (n : Nat) {tail : List Char} (stops : Stops tail) :
    wholePart (Nat.toDigits 10 n ++ tail) = some (Nat.toDigits 10 n,tail) := by
  obtain ⟨d,rest,starts,zero⟩ := digitsStart n
  have found : digits1 (Nat.toDigits 10 n ++ tail) = some (Nat.toDigits 10 n,tail) := by
    rw [digits1,digitsWritten n stops,starts]
  simp only [wholePart,found,Option.bind_eq_bind,Option.bind_some]
  split
  · rename_i second later leading
    have none := zero (List.cons.inj (starts.symm.trans leading)).1
    rw [none] at leading
    simp at leading
  · rfl

theorem decimalDigits (n : Nat) : decimalValue (Nat.toDigits 10 n) = n := by
  have value := Nat.ofDigitChars_ten_toDigits (n := n)
  rw [Nat.ofDigitChars_eq_foldl] at value
  simp only [decimalValue,Nat.mul_comm _ 10]
  exact value

theorem naturalWritten (n : Nat) {tail : List Char} (stops : Stops tail) :
    unsigned [] (Nat.toDigits 10 n ++ tail) = some (.natural n,tail) := by
  have frac : fraction tail = some ([],tail) := by
    unfold fraction
    split
    · rename_i rest
      exact absurd rfl (stops '.' rfl).2.1
    · rfl
  have exp : exponent tail = some ([],tail) := by
    cases tail with
    | nil => rfl
    | cons c rest =>
      obtain ⟨_,_,small,capital⟩ := stops c rfl
      simp [exponent,small,capital]
  simp [unsigned,wholeWritten n stops,frac,exp,decimalDigits]

inductive Writable : Json → Prop where
  | null : Writable .null
  | bool (value : Bool) : Writable (.bool value)
  | natural (value : Nat) (word : value < 2 ^ 64) : Writable (.natural value)
  | text (content : String) : Writable (ofString content)
  | list {items : List Json} (all : ∀ item ∈ items, Writable item) : Writable (.list items)
  | record {fields : List (String × Json)} (once : (fields.map Prod.fst).Nodup)
      (all : ∀ field ∈ fields, Writable field.2) : Writable (ofFields fields)

def ReadsBack (j : Json) : Prop :=
  ∀ fuel tail, 2 * j.chars.length ≤ fuel → Stops tail → value fuel (j.chars ++ tail) = some (j,tail)

theorem skipFilled {c : Char} (filled : isBlank c = false) (rest : List Char) :
    skipBlanks (c :: rest) = c :: rest := by
  simp [skipBlanks,filled]

theorem digitFilled {d : Char} (digit : d.isDigit = true) : isBlank d = false := by
  cases blank : isBlank d with
  | false => rfl
  | true =>
    have one : ((d = ' ' ∨ d = '\t') ∨ d = '\n') ∨ d = '\r' := by simpa [isBlank] using blank
    rcases one with ((same | same) | same) | same <;> subst same <;> contradiction

theorem digitValue {d : Char} (digit : d.isDigit = true) (fuel : Nat) (rest : List Char) :
    value (fuel + 1) (d :: rest) = unsigned [] (d :: rest) := by
  rw [value,skipFilled (digitFilled digit)]
  split <;> simp_all

theorem digitsFilled (n : Nat) : ∃ d rest, Nat.toDigits 10 n = d :: rest ∧ d.isDigit = true := by
  obtain ⟨d,rest,starts,_⟩ := digitsStart n
  have inside : d ∈ Nat.toDigits 10 n := by simp [starts]
  exact ⟨d,rest,starts,Nat.isDigit_of_mem_toDigits (by omega) (by omega) inside⟩

theorem writableStarts {j : Json} (writable : Writable j) :
    ∃ c rest, j.chars = c :: rest ∧ isBlank c = false ∧ c ≠ ']' := by
  cases writable with
  | null => exact ⟨_,_,by rw [chars],by decide,by decide⟩
  | bool value => cases value <;> exact ⟨_,_,by rw [chars],by decide,by decide⟩
  | natural value word =>
    obtain ⟨d,rest,starts,digit⟩ := digitsFilled value
    refine ⟨d,rest,by rw [chars,starts],digitFilled digit,?_⟩
    rintro rfl
    contradiction
  | text content => exact ⟨_,_,by rw [ofString,chars,quote],by decide,by decide⟩
  | list all => exact ⟨_,_,by rw [chars],by decide,by decide⟩
  | record once all => exact ⟨_,_,by rw [ofFields,chars],by decide,by decide⟩

theorem stopsAt {c : Char} (mark : c = ',' ∨ c = ']' ∨ c = '\x7d') (rest : List Char) : Stops (c :: rest) := by
  intro d first
  obtain rfl : c = d := by simpa using first
  rcases mark with rfl | rfl | rfl <;> decide

theorem furtherItemsStop (items : List Json) (tail : List Char) : Stops (furtherItems items ++ tail) := by
  cases items with
  | nil => exact stopsAt (by simp) _
  | cons next rest => exact stopsAt (by simp) _

theorem furtherFieldsStop (fields : List (Option String × Json)) (tail : List Char) :
    Stops (furtherFields fields ++ tail) := by
  cases fields with
  | nil => exact stopsAt (by simp) _
  | cons next rest => exact stopsAt (by simp) _

theorem itemsStep {first : Json} {rest : List Json} {f : Nat} {tail : List Char} (reads : ReadsBack first)
    (enough : 2 * first.chars.length ≤ f)
    (others : ∀ next later, rest = next :: later → items f (itemsChars rest ++ tail) = some (rest,tail)) :
    items (f + 1) (itemsChars (first :: rest) ++ tail) = some (first :: rest,tail) := by
  have head := reads f _ enough (furtherItemsStop rest tail)
  simp only [items,itemsChars,List.append_assoc,head,Option.bind_eq_bind,Option.bind_some]
  cases rest with
  | nil => simp [furtherItems,skipFilled (show isBlank ']' = false by decide)]
  | cons next later =>
    have more := others next later rfl
    simp only [itemsChars,List.append_assoc] at more
    simp [furtherItems,skipFilled (show isBlank ',' = false by decide),more]

theorem itemsRead {first : Json} {rest : List Json} (reads : ∀ item ∈ first :: rest, ReadsBack item)
    {fuel : Nat} (tail : List Char) (enough : 2 * (itemsChars (first :: rest)).length < fuel) :
    items fuel (itemsChars (first :: rest) ++ tail) = some (first :: rest,tail) := by
  induction rest generalizing first fuel with
  | nil =>
    obtain ⟨f,rfl⟩ := Nat.exists_eq_add_one_of_ne_zero (Nat.ne_zero_of_lt enough)
    simp only [itemsChars,List.length_append] at enough
    exact itemsStep (reads first (by simp)) (by omega) (by simp)
  | cons next later ih =>
    obtain ⟨f,rfl⟩ := Nat.exists_eq_add_one_of_ne_zero (Nat.ne_zero_of_lt enough)
    simp only [itemsChars,furtherItems,List.length_append,List.length_cons] at enough
    refine itemsStep (reads first (by simp)) (by omega) fun _ _ _ => ?_
    refine ih (fun item inside => reads item (by simp [inside])) ?_
    simp only [itemsChars,List.length_append]
    omega

def named (fields : List (String × Json)) : List (Option String × Json) :=
  fields.map fun (name,value) => (some name,value)

theorem fieldsStep {name : String} {first : Json} {rest : List (Option String × Json)} {f : Nat}
    {tail : List Char} (reads : ReadsBack first) (enough : 2 * first.chars.length ≤ f)
    (others : ∀ next later, rest = next :: later → fields f (fieldsChars rest ++ tail) = some (rest,tail)) :
    fields (f + 1) (fieldsChars ((some name,first) :: rest) ++ tail) = some ((some name,first) :: rest,tail) := by
  have head := reads f _ enough (furtherFieldsStop rest tail)
  have key := quotedText name (':' :: (first.chars ++ (furtherFields rest ++ tail)))
  simp only [fieldsChars,List.append_assoc,List.cons_append,quoteStarts]
  rw [fields,skipFilled (by decide)]
  simp only [key,Option.bind_eq_bind,Option.bind_some,skipFilled (show isBlank ':' = false by decide),expect,
    if_true,head]
  cases rest with
  | nil => simp [furtherFields,skipFilled (show isBlank '\x7d' = false by decide)]
  | cons next later =>
    have more := others next later rfl
    simp only [fieldsChars,List.append_assoc,List.cons_append] at more
    simp [furtherFields,skipFilled (show isBlank ',' = false by decide),more]

theorem fieldsRead {name : String} {first : Json} {rest : List (String × Json)}
    (reads : ∀ field ∈ (name,first) :: rest, ReadsBack field.2) {fuel : Nat} (tail : List Char)
    (enough : 2 * (fieldsChars (named ((name,first) :: rest))).length < fuel) :
    fields fuel (fieldsChars (named ((name,first) :: rest)) ++ tail) =
      some (named ((name,first) :: rest),tail) := by
  have head : ReadsBack first := reads (name,first) (by simp)
  induction rest generalizing name first fuel with
  | nil =>
    obtain ⟨f,rfl⟩ := Nat.exists_eq_add_one_of_ne_zero (Nat.ne_zero_of_lt enough)
    simp only [named,List.map_cons,fieldsChars,List.length_append,List.length_cons] at enough
    exact fieldsStep head (by omega) (by simp)
  | cons next later ih =>
    obtain ⟨f,rfl⟩ := Nat.exists_eq_add_one_of_ne_zero (Nat.ne_zero_of_lt enough)
    obtain ⟨key,second⟩ := next
    simp only [named,List.map_cons,fieldsChars,furtherFields,List.length_append,List.length_cons] at enough
    refine fieldsStep head (by omega) fun _ _ _ => ?_
    refine ih (fun field inside => reads field (by simp [inside])) ?_ (reads (key,second) (by simp))
    simp only [named,List.map_cons,fieldsChars,List.length_append,List.length_cons]
    omega

theorem fuelLeft {c : Char} {cs : List Char} {fuel : Nat} (enough : 2 * (c :: cs).length ≤ fuel) :
    ∃ f, fuel = f + 1 ∧ 2 * cs.length < f := by
  rw [List.length_cons] at enough
  exact ⟨fuel - 1,by omega,by omega⟩

theorem listReads {items : List Json} (reads : ∀ item ∈ items, ReadsBack item)
    (starts : ∀ item ∈ items, ∃ c rest, item.chars = c :: rest ∧ isBlank c = false ∧ c ≠ ']') :
    ReadsBack (.list items) := by
  intro fuel tail enough stops
  rw [chars] at enough ⊢
  obtain ⟨f,rfl,room⟩ := fuelLeft enough
  rw [List.cons_append,value,skipFilled (by decide)]
  cases items with
  | nil => simp [itemsChars,skipFilled (show isBlank ']' = false by decide)]
  | cons first rest =>
    have read := itemsRead reads tail room
    obtain ⟨c,more,begins,filled,other⟩ := starts first (by simp)
    simp only [itemsChars,begins,List.cons_append] at read ⊢
    simp only [skipFilled filled]
    split
    · rename_i same
      exact absurd (List.cons.inj same).1 other
    · rw [read,Option.map_some]

theorem recordReads {fields : List (String × Json)} (reads : ∀ field ∈ fields, ReadsBack field.2) :
    ReadsBack (ofFields fields) := by
  intro fuel tail enough stops
  have record : ofFields fields = .record (named fields) := rfl
  rw [record,chars] at enough ⊢
  obtain ⟨f,rfl,room⟩ := fuelLeft enough
  rw [List.cons_append,value,skipFilled (by decide)]
  cases fields with
  | nil => simp [named,fieldsChars,skipFilled (show isBlank '\x7d' = false by decide)]
  | cons first rest =>
    have read := fieldsRead reads tail room
    simp only [named,List.map_cons,fieldsChars,quoteStarts,List.cons_append] at read ⊢
    simp only [skipFilled (show isBlank '"' = false by decide)]
    split
    · rename_i same
      exact absurd (List.cons.inj same).1 (by decide)
    · rw [read,Option.map_some]

theorem writableReads {j : Json} (writable : Writable j) : ReadsBack j := by
  induction writable with
  | null =>
    intro fuel tail enough stops
    rw [chars] at enough ⊢
    obtain ⟨f,rfl,_⟩ := fuelLeft enough
    simp [value,skipFilled (show isBlank 'n' = false by decide),expect]
  | bool value =>
    intro fuel tail enough stops
    cases value with
    | true =>
      rw [chars] at enough ⊢
      obtain ⟨f,rfl,_⟩ := fuelLeft enough
      simp [value,skipFilled (show isBlank 't' = false by decide),expect]
    | false =>
      rw [chars] at enough ⊢
      obtain ⟨f,rfl,_⟩ := fuelLeft enough
      simp [value,skipFilled (show isBlank 'f' = false by decide),expect]
  | natural value word =>
    intro fuel tail enough stops
    obtain ⟨d,rest,starts,digit⟩ := digitsFilled value
    have read := naturalWritten value stops
    rw [chars,starts] at enough ⊢
    rw [starts] at read
    obtain ⟨f,rfl,_⟩ := fuelLeft enough
    rw [List.cons_append,digitValue digit]
    exact read
  | text content =>
    intro fuel tail enough stops
    rw [ofString,chars,quote] at enough
    obtain ⟨f,rfl,_⟩ := fuelLeft enough
    rw [ofString,chars,quoteStarts]
    simp only [value,skipFilled (show isBlank '"' = false by decide),quotedText,Option.map_some]
  | list all ih => exact listReads ih fun item inside => writableStarts (all item inside)
  | record once all ih => exact recordReads ih

theorem writtenParsed {j : Json} (writable : Writable j) : parse? j.write = some j := by
  have read := writableReads writable (2 * j.chars.length + 2) [] (by omega) (by simp [Stops])
  rw [List.append_nil] at read
  simp only [parse?,write,String.toList_ofList,read]
  rfl

end CodeIndex.Json
