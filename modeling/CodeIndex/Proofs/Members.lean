import CodeIndex.Symbol

/-! Looking up what was bound. Maps are compared by what each key gives; a map whose keys are distinct
holds no more than that. Member lists lose and gain single handles under single names. -/
namespace CodeIndex

namespace OrderedMap

variable {κ : Type u} {α : Type v} [DecidableEq κ]

theorem lookupPut (key k : κ) (f : Option α → α) (entries : List (κ × α)) :
    lookup k (put key f entries) =
      if k = key then some (f (lookup key entries)) else lookup k entries := by
  induction entries with
  | nil =>
    by_cases same : k = key
    · simp [put,lookup,same]
    · have other : ¬key = k := fun eq => same eq.symm
      simp [put,lookup,same,other]
  | cons entry rest ih =>
    obtain ⟨first,a⟩ := entry
    by_cases found : first = key
    · subst found
      by_cases same : k = first
      · simp [put,lookup,same]
      · have other : ¬first = k := fun eq => same eq.symm
        simp [put,lookup,same,other]
    · by_cases here : first = k
      · subst here
        simp [put,lookup,found]
      · simp [put,lookup,found,here,ih]

theorem getAlter (m : OrderedMap κ α) (key k : κ) (f : Option α → α) :
    (m.alter key f).get? k = if k = key then some (f (m.get? key)) else m.get? k :=
  lookupPut key k f m.entries

theorem getInsert (m : OrderedMap κ α) (key k : κ) (a : α) :
    (m.insert key a).get? k = if k = key then some a else m.get? k :=
  getAlter m key k fun _ => a

theorem getErase (m : OrderedMap κ α) (key k : κ) :
    (m.erase key).get? k = if k = key then none else m.get? k := by
  simp only [get?,erase]
  induction m.entries with
  | nil => simp [lookup]
  | cons entry rest ih =>
    obtain ⟨first,a⟩ := entry
    by_cases found : first = key
    · subst found
      rw [List.filter_cons_of_neg (by simp),ih]
      by_cases same : k = first
      · simp [same]
      · have other : ¬first = k := fun eq => same eq.symm
        simp [lookup,same,other]
    · rw [List.filter_cons_of_pos (by simpa using found)]
      by_cases here : first = k
      · subst here
        simp [lookup,found]
      · simp only [lookup,here,if_false,ih]

theorem keysPut (key : κ) (f : Option α → α) (entries : List (κ × α)) :
    (put key f entries).map Prod.fst =
      if key ∈ entries.map Prod.fst then entries.map Prod.fst
      else entries.map Prod.fst ++ [key] := by
  induction entries with
  | nil => simp [put]
  | cons entry rest ih =>
    obtain ⟨first,a⟩ := entry
    by_cases found : first = key
    · simp [put,found]
    · have other : ¬key = first := fun eq => found eq.symm
      simp only [put,found,if_false,List.map_cons,ih,List.mem_cons,other,false_or]
      split <;> simp

theorem keysAlterNodup {m : OrderedMap κ α} (unique : m.keys.Nodup) (key : κ) (f : Option α → α) :
    (m.alter key f).keys.Nodup := by
  unfold keys alter
  rw [keysPut]
  split
  · exact unique
  · rename_i absent
    refine List.nodup_append.mpr ⟨unique,by simp,?_⟩
    intro k listed other single same
    have last : other = key := by simpa using single
    subst last same
    exact absent listed

theorem keysEraseNodup {m : OrderedMap κ α} (unique : m.keys.Nodup) (key : κ) :
    (m.erase key).keys.Nodup :=
  List.Nodup.sublist (List.Sublist.map _ List.filter_sublist) unique

theorem getEntry {m : OrderedMap κ α} (unique : m.keys.Nodup) {k : κ} {a : α} :
    (k,a) ∈ m.entries ↔ m.get? k = some a := by
  obtain ⟨entries⟩ := m
  simp only [keys,get?] at unique ⊢
  induction entries with
  | nil => simp [lookup]
  | cons entry rest ih =>
    obtain ⟨first,b⟩ := entry
    obtain ⟨absent,unique⟩ := List.nodup_cons.mp unique
    by_cases here : first = k
    · subst here
      have elsewhere : (first,a) ∉ rest := fun inside =>
        absent (List.mem_map.mpr ⟨(first,a),inside,rfl⟩)
      simp [lookup,elsewhere,eq_comm]
    · have other : ¬k = first := fun eq => here eq.symm
      simp [lookup,here,other,ih unique]

theorem getValue {m : OrderedMap κ α} (unique : m.keys.Nodup) {a : α} :
    a ∈ m.values ↔ ∃ k, m.get? k = some a := by
  constructor
  · intro listed
    obtain ⟨⟨k,b⟩,inside,rfl⟩ := List.mem_map.mp listed
    exact ⟨k,(getEntry unique).mp inside⟩
  · rintro ⟨k,bound⟩
    exact List.mem_map.mpr ⟨(k,a),(getEntry unique).mpr bound,rfl⟩

theorem valuesNodup {m : OrderedMap κ α} (unique : m.keys.Nodup)
    (injective : ∀ {k k' a}, m.get? k = some a → m.get? k' = some a → k = k') : m.values.Nodup := by
  refine List.pairwise_map.mpr ((List.pairwise_map.mp unique).imp_of_mem ?_)
  rintro ⟨k,a⟩ ⟨k',a'⟩ first second apart rfl
  exact apart (injective ((getEntry unique).mp first) ((getEntry unique).mp second))

end OrderedMap

namespace Members
open OrderedMap

theorem underPush (m : Members) (name n : String) (h : Handle) :
    (m.push name h).under n = if n = name then m.under name ++ [h] else m.under n := by
  unfold push under
  rw [getAlter]
  split <;> rfl

theorem underDrop (m : Members) (name n : String) (h : Handle) :
    (m.drop name h).under n = if n = name then (m.under name).filter (· ≠ h) else m.under n := by
  unfold drop under
  cases found : m.get? name with
  | none =>
    by_cases same : n = name
    · simp [same,found]
    · simp [same]
  | some declared =>
    simp only
    split
    · rename_i emptied
      rw [getErase]
      split
      · simpa using emptied.symm
      · rfl
    · rw [getInsert]
      split <;> rfl

theorem keysPush {m : Members} (unique : m.keys.Nodup) (name : String) (h : Handle) :
    (m.push name h).keys.Nodup := keysAlterNodup unique name _

theorem keysDrop {m : Members} (unique : m.keys.Nodup) (name : String) (h : Handle) :
    (m.drop name h).keys.Nodup := by
  unfold drop
  split
  · exact unique
  · split
    · exact keysEraseNodup unique name
    · exact keysAlterNodup unique name _

theorem memUnder {m : Members} (unique : m.keys.Nodup) {name : String} {h : Handle} :
    h ∈ m.under name ↔ ∃ declared, (name,declared) ∈ m.entries ∧ h ∈ declared := by
  simp only [under,getEntry unique]
  cases m.get? name <;> simp

theorem memHandles {m : Members} (unique : m.keys.Nodup) {h : Handle} :
    h ∈ m.handles ↔ ∃ name, h ∈ m.under name := by
  constructor
  · intro inside
    obtain ⟨declared,listed,member⟩ := List.mem_flatten.mp inside
    obtain ⟨⟨name,_⟩,entry,rfl⟩ := List.mem_map.mp listed
    exact ⟨name,(memUnder unique).mpr ⟨_,entry,member⟩⟩
  · rintro ⟨name,inside⟩
    obtain ⟨declared,entry,member⟩ := (memUnder unique).mp inside
    exact List.mem_flatten.mpr ⟨declared,List.mem_map.mpr ⟨_,entry,rfl⟩,member⟩

theorem handlesNodup {m : Members} (unique : m.keys.Nodup) (once : ∀ n, (m.under n).Nodup)
    (named : ∀ n n' h, h ∈ m.under n → h ∈ m.under n' → n = n') : m.handles.Nodup := by
  refine List.pairwise_flatten.mpr ⟨?_,?_⟩
  · intro declared listed
    obtain ⟨⟨name,found⟩,entry,rfl⟩ := List.mem_map.mp listed
    have bound := (getEntry unique).mp entry
    have listing : m.under name = found := by simp only [under,bound,Option.getD_some]
    exact listing ▸ once name
  · refine List.pairwise_map.mpr ?_
    refine (List.pairwise_map.mp unique).imp_of_mem ?_
    intro (n,first) (n',second) left right different h inFirst h' inSecond same
    subst same
    exact different (named n n' h ((memUnder unique).mpr ⟨_,left,inFirst⟩)
      ((memUnder unique).mpr ⟨_,right,inSecond⟩))

def dropAll (listed other : Members) : Members :=
  other.entries.foldl
    (fun listed (name,handles) => handles.foldl (fun listed h => listed.drop name h) listed) listed

theorem memDropEach (listed : Members) (name n : String) (handles : List Handle) (x : Handle) :
    x ∈ (handles.foldl (fun listed h => listed.drop name h) listed).under n ↔
      x ∈ listed.under n ∧ ¬(n = name ∧ x ∈ handles) := by
  induction handles generalizing listed with
  | nil => simp
  | cons h rest ih =>
    rw [List.foldl_cons,ih,underDrop]
    by_cases same : n = name
    · subst same
      simp only [if_true,List.mem_filter,List.mem_cons,true_and,decide_eq_true_eq]
      grind
    · simp [same]

theorem memDropAll (listed other : Members) (unique : other.keys.Nodup) (n : String) (x : Handle) :
    x ∈ (dropAll listed other).under n ↔ x ∈ listed.under n ∧ x ∉ other.under n := by
  rw [memUnder unique]
  unfold dropAll
  clear unique
  induction other.entries generalizing listed with
  | nil => simp
  | cons entry rest ih =>
    obtain ⟨name,handles⟩ := entry
    rw [List.foldl_cons,ih,memDropEach]
    grind

theorem dropEachInvariant {P : Members → Prop} (step : ∀ m name h, P m → P (m.drop name h))
    (name : String) (handles : List Handle) {listed : Members} (start : P listed) :
    P (handles.foldl (fun listed h => listed.drop name h) listed) := by
  induction handles generalizing listed with
  | nil => exact start
  | cons h rest ih => exact ih (step _ name h start)

theorem dropAllInvariant {P : Members → Prop} (step : ∀ m name h, P m → P (m.drop name h))
    (other : Members) {listed : Members} (start : P listed) : P (dropAll listed other) := by
  unfold dropAll
  induction other.entries generalizing listed with
  | nil => exact start
  | cons entry rest ih => exact ih (dropEachInvariant step entry.1 entry.2 start)

end Members
end CodeIndex
