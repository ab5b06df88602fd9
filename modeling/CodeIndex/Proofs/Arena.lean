import CodeIndex.Data.Arena

/-! Handles as keys. Putting a value in binds a handle that was unbound, taking one out unbinds that
handle alone, and changing a value in place touches no other. The list of vacant slots is exact. -/
namespace CodeIndex.Arena

variable {α : Type u}

/-- Every vacant slot is listed once, and no other. -/
structure Exact (a : Arena α) : Prop where
  unique : a.vacant.Nodup
  listed : ∀ i, i ∈ a.vacant ↔ ∃ slot, a.slots[i]? = some slot ∧ slot.value = none

theorem getSlot {a : Arena α} {h : Handle} {value : α} :
    a.get? h = some value ↔
      ∃ slot, a.slots[h.index]? = some slot ∧ slot.generation = h.generation ∧
        slot.value = some value := by
  unfold get?
  cases found : a.slots[h.index]? with
  | none => simp
  | some slot =>
    simp only [Option.some.injEq]
    split
    · rename_i same
      exact ⟨fun held => ⟨slot,rfl,same,held⟩,fun ⟨_,eq,_,held⟩ => eq ▸ held⟩
    · rename_i other
      constructor
      · intro held
        contradiction
      · rintro ⟨_,rfl,same,_⟩
        contradiction

theorem memToList (a : Arena α) (h : Handle) (value : α) :
    (h,value) ∈ a.toList ↔ a.get? h = some value := by
  simp only [toList,List.mem_filterMap,Prod.exists,List.mem_zipIdx_iff_getElem?,getSlot,
    Array.getElem?_toList,Option.map_eq_some_iff,Prod.mk.injEq]
  constructor
  · rintro ⟨slot,index,found,value',held,rfl,rfl⟩
    exact ⟨slot,found,rfl,held⟩
  · rintro ⟨slot,found,generation,held⟩
    exact ⟨slot,h.index,found,value,held,by rw [generation],rfl⟩

theorem memListed (a : Arena α) (h : Handle) : h ∈ a.toList.map Prod.fst ↔ (a.get? h).isSome := by
  rw [Option.isSome_iff_exists]
  simp only [List.mem_map,Prod.exists,exists_and_right,exists_eq_right,memToList]

theorem indicesAscend (a : Arena α) : a.toList.Pairwise fun x y => x.1.index < y.1.index := by
  have indices : a.slots.toList.zipIdx.Pairwise fun x y => x.2 < y.2 := by
    rw [← List.pairwise_map,List.zipIdx_map_snd]
    exact List.pairwise_lt_range'
  refine List.pairwise_filterMap.mpr (indices.imp ?_)
  intro (slot,i) (slot',j) below x first y second
  obtain ⟨_,_,rfl⟩ := Option.map_eq_some_iff.mp first
  obtain ⟨_,_,rfl⟩ := Option.map_eq_some_iff.mp second
  exact below

theorem handlesNodup (a : Arena α) : (a.toList.map Prod.fst).Nodup := by
  refine List.pairwise_map.mpr ((indicesAscend a).imp fun below same => ?_)
  exact Nat.ne_of_lt below (congrArg Handle.index same)

theorem toListLength (a : Arena α) : a.toList.length = a.live := by
  have slots : a.slots.toList.zipIdx.map Prod.fst = a.slots.toList := List.zipIdx_map_fst 0 _
  unfold toList live
  rw [List.length_filterMap_eq_countP,← slots,List.countP_map,slots]
  refine List.countP_congr fun ⟨slot,index⟩ _ => ?_
  simp

theorem census {a : Arena α} {handles : List Handle} (once : handles.Nodup)
    (all : ∀ h, h ∈ handles ↔ (a.get? h).isSome) : handles.length = a.live := by
  have listed : ∀ h, h ∈ handles ↔ h ∈ a.toList.map Prod.fst :=
    fun h => (all h).trans (memListed a h).symm
  rw [((List.perm_ext_iff_of_nodup once (handlesNodup a)).mpr listed).length_eq,List.length_map,
    toListLength]

theorem emptyExact : Exact ({} : Arena α) := by
  refine ⟨List.nodup_nil,fun i => ?_⟩
  simp

theorem getModify (a : Arena α) (h k : Handle) (f : α → α) :
    (a.modify h f).get? k = if k = h then (a.get? k).map f else a.get? k := by
  unfold get? modify
  simp only [Array.getElem?_modify]
  by_cases index : h.index = k.index
  · simp only [index,if_true]
    cases a.slots[k.index]? with
    | none => simp
    | some slot =>
      obtain ⟨i,g⟩ := h
      obtain ⟨j,g'⟩ := k
      cases index
      by_cases generation : slot.generation = g
      · by_cases same : g' = g
        · simp [generation,same]
        · have other : ¬g = g' := fun eq => same eq.symm
          simp [generation,same,other]
      · simp only [Option.map_some,generation,if_false,Handle.mk.injEq,true_and]
        split <;> split <;> simp_all
  · have other : k ≠ h := fun same => index (same ▸ rfl)
    simp [index,other]

theorem getErase (a : Arena α) (h k : Handle) :
    (a.erase h).get? k = if k = h then none else a.get? k := by
  unfold erase
  split
  · rename_i inside
    obtain ⟨value,held⟩ := Option.isSome_iff_exists.mp inside
    obtain ⟨slot,found,generation,_⟩ := getSlot.mp held
    by_cases index : h.index = k.index
    · have here : a.slots[k.index]? = some slot := index ▸ found
      simp only [get?,Array.getElem?_modify,index,here,if_true,Option.map_some,ite_self]
      by_cases same : k = h
      · simp [same]
      · -- Another handle to the slot has another generation, so nothing was behind it.
        have stale : ¬slot.generation = k.generation := by
          intro eq
          obtain ⟨i,g⟩ := h
          obtain ⟨j,g'⟩ := k
          simp_all
        simp [same,stale]
    · have other : k ≠ h := fun same => index (same ▸ rfl)
      simp [get?,Array.getElem?_modify,index,other]
  · rename_i outside
    have gone : a.get? h = none := by simpa [contains] using outside
    by_cases same : k = h
    · simp [same,gone]
    · simp [same]

theorem insertFresh {a : Arena α} (exact : a.Exact) (value : α) :
    a.get? (a.insert value).1 = none := by
  unfold insert
  split
  · rename_i index rest vacant
    obtain ⟨slot,found,empty⟩ := (exact.listed index).mp (by simp [vacant])
    simp [get?,found,empty]
  · simp [get?]

theorem getInsert {a : Arena α} (exact : a.Exact) (value : α) (k : Handle) :
    (a.insert value).2.get? k = if k = (a.insert value).1 then some value else a.get? k := by
  unfold insert
  split
  · rename_i index rest vacant
    obtain ⟨slot,found,empty⟩ := (exact.listed index).mp (by simp [vacant])
    obtain ⟨i,g⟩ := k
    simp only [get?,Array.getElem?_modify,found,Handle.mk.injEq]
    by_cases same : index = i
    · subst same
      simp [found,empty,eq_comm]
    · have other : ¬i = index := fun eq => same eq.symm
      simp [same,other]
  · obtain ⟨i,g⟩ := k
    simp only [get?,Array.getElem?_push,Handle.mk.injEq]
    by_cases same : i = a.slots.size
    · subst same
      simp [eq_comm]
    · simp [same]

theorem insertExact {a : Arena α} (exact : a.Exact) (value : α) : (a.insert value).2.Exact := by
  unfold insert
  split
  · rename_i index rest vacant
    have unique := exact.unique
    rw [vacant] at unique
    obtain ⟨absent,unique⟩ := List.nodup_cons.mp unique
    refine ⟨unique,fun i => ?_⟩
    simp only [Array.getElem?_modify]
    by_cases same : index = i
    · subst same
      simp [absent]
    · have other : i ≠ index := fun eq => same eq.symm
      simpa [vacant,same,other] using exact.listed i
  · refine ⟨exact.unique,fun i => ?_⟩
    simp only [Array.getElem?_push]
    by_cases same : i = a.slots.size
    · subst same
      simp [exact.listed]
    · simpa [same] using exact.listed i

theorem modifyExact {a : Arena α} (exact : a.Exact) (h : Handle) (f : α → α) :
    (a.modify h f).Exact := by
  refine ⟨exact.unique,fun i => ?_⟩
  have before := exact.listed i
  simp only [modify,Array.getElem?_modify] at before ⊢
  rw [before]
  by_cases same : h.index = i
  · cases a.slots[i]? with
    | none => simp
    | some slot =>
      by_cases generation : slot.generation = h.generation <;> simp [same,generation]
  · simp [same]

theorem eraseExact {a : Arena α} (exact : a.Exact) (h : Handle) : (a.erase h).Exact := by
  unfold erase
  split
  · rename_i inside
    obtain ⟨value,held⟩ := Option.isSome_iff_exists.mp inside
    obtain ⟨slot,found,_,full⟩ := getSlot.mp held
    have occupied : h.index ∉ a.vacant := by
      intro listed
      obtain ⟨other,found',empty⟩ := (exact.listed _).mp listed
      rw [found] at found'
      cases Option.some.inj found'
      simp [full] at empty
    refine ⟨List.nodup_cons.mpr ⟨occupied,exact.unique⟩,fun i => ?_⟩
    simp only [List.mem_cons,Array.getElem?_modify]
    by_cases same : i = h.index
    · subst same
      simp [found]
    · have other : ¬h.index = i := fun eq => same eq.symm
      simpa [same,other] using exact.listed i
  · exact exact

end CodeIndex.Arena
