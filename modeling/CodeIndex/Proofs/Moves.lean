import CodeIndex.Proofs.Arena
import Mathlib.Algebra.Group.Nat.Defs

/-! Counting what happens to an arena. A move puts a value in or takes one out; values may also change in
place as long as a view of them stays. A slot's generation counts how often it was emptied, so while
fewer values were taken out than there are generations, no handle is given out a second time. -/
namespace CodeIndex.Arena

variable {α : Type u} {β : Type v}

inductive Moves (view : α → β) : Nat → Nat → Arena α → Arena α → Prop where
  | done (a) : Moves view 0 0 a a
  | insert {m n a b} (earlier : Moves view m n a b) (value : α) :
      Moves view (m + 1) n a (b.insert value).2
  | erase {m n a b h value} (earlier : Moves view m n a b) (held : b.get? h = some value) :
      Moves view m (n + 1) a (b.erase h)
  | modify {m n a b f} (earlier : Moves view m n a b) (h : Handle)
      (same : ∀ value, view (f value) = view value) : Moves view m n a (b.modify h f)

theorem Moves.trans {view : α → β} {m n m' n' : Nat} {a b c : Arena α}
    (first : Moves view m n a b) (second : Moves view m' n' b c) :
    Moves view (m + m') (n + n') a c := by
  induction second with
  | done => exact first
  | insert _ value ih => exact (ih first).insert value
  | erase _ held ih => exact (ih first).erase held
  | modify _ h same ih => exact (ih first).modify h same

theorem Moves.exact {view : α → β} {m n : Nat} {a b : Arena α} (moves : Moves view m n a b)
    (exact : a.Exact) : b.Exact := by
  induction moves with
  | done => exact exact
  | insert _ value ih => exact insertExact (ih exact) value
  | erase _ _ ih => exact eraseExact (ih exact) _
  | modify _ h _ ih => exact modifyExact (ih exact) h _

theorem countModify {p : β → Bool} {f : β → β} {xs : List β} {i : Nat} {x : β}
    (found : xs[i]? = some x) :
    (xs.modify i f).countP p + (p x).toNat = xs.countP p + (p (f x)).toNat := by
  induction xs generalizing i with
  | nil => simp at found
  | cons y ys ih =>
    cases i with
    | zero =>
      have same : y = x := by simpa using found
      subst same
      cases before : p y <;> cases after : p (f y) <;> simp [before,after]
    | succ i =>
      have tail := ih (i := i) (by simpa using found)
      simp only [List.modify_succ_cons,List.countP_cons]
      omega

theorem liveModify {a : Arena α} {f : Slot α → Slot α} {i : Nat} {slot : Slot α}
    (found : a.slots[i]? = some slot) :
    (a.slots.modify i f).toList.countP (·.value.isSome) + slot.value.isSome.toNat =
      a.live + (f slot).value.isSome.toNat := by
  rw [Array.toList_modify]
  exact countModify (by simpa using found)

theorem liveInsert {a : Arena α} (exact : a.Exact) (value : α) :
    (a.insert value).2.live = a.live + 1 := by
  unfold insert
  split
  · rename_i index rest vacant
    obtain ⟨slot,found,empty⟩ := (exact.listed index).mp (by simp [vacant])
    have counted := liveModify (f := fun slot => { slot with value := some value }) found
    rw [empty] at counted
    exact counted
  · simp [live]

theorem liveErase {a : Arena α} {h : Handle} {value : α} (held : a.get? h = some value) :
    (a.erase h).live + 1 = a.live := by
  obtain ⟨slot,found,_,full⟩ := getSlot.mp held
  have inside : a.contains h = true := by simp [contains,held]
  have counted := liveModify (f := fun slot => ⟨slot.generation + 1,none⟩) found
  unfold erase
  rw [if_pos inside]
  rw [full] at counted
  exact counted

theorem liveChange (a : Arena α) (h : Handle) (f : α → α) : (a.modify h f).live = a.live := by
  cases found : a.slots[h.index]? with
  | none =>
    have outside : a.slots.size ≤ h.index := Array.getElem?_eq_none_iff.mp found
    have same : ∀ g, a.slots.modify h.index g = a.slots := fun g => by
      simp [Array.modify,Array.modifyM,Nat.not_lt.mpr outside]
    simp [live,modify,same]
  | some slot =>
    have counted := liveModify (f := fun slot : Slot α =>
      if slot.generation = h.generation then { slot with value := slot.value.map f } else slot) found
    have same : (if slot.generation = h.generation then
        { slot with value := slot.value.map f } else slot : Slot α).value.isSome =
        slot.value.isSome := by
      split <;> simp
    rw [same] at counted
    exact Nat.add_right_cancel counted

theorem Moves.balance {view : α → β} {m n : Nat} {a b : Arena α} (moves : Moves view m n a b)
    (exact : a.Exact) : b.live + n = a.live + m := by
  induction moves with
  | done => rfl
  | insert earlier value ih =>
    rw [liveInsert (earlier.exact exact)]
    have before := ih exact
    omega
  | erase earlier held ih =>
    have before := ih exact
    have fewer := liveErase held
    omega
  | modify _ h _ ih =>
    rw [liveChange]
    exact ih exact

theorem countInsert (a : Arena α) (value : α) : (a.insert value).2.count = a.count + 1 := by
  unfold insert
  split <;> rfl

theorem countErase {a : Arena α} {h : Handle} {value : α} (held : a.get? h = some value) :
    (a.erase h).count = a.count - 1 := by
  have inside : a.contains h = true := by simp [contains,held]
  simp only [erase,inside,if_true]

theorem Moves.counted {view : α → β} {m n : Nat} {a b : Arena α} (moves : Moves view m n a b)
    (exact : a.Exact) (counted : a.count = a.live) : b.count = b.live := by
  induction moves with
  | done => exact counted
  | insert earlier value ih => rw [countInsert,liveInsert (earlier.exact exact),ih exact counted]
  | erase earlier held ih =>
    have fewer := liveErase held
    rw [countErase held,ih exact counted]
    omega
  | modify _ h _ ih =>
    rw [liveChange]
    exact ih exact counted

def Young (a : Arena α) (k : Nat) : Prop :=
  ∀ (i : Nat) slot, a.slots[i]? = some slot → slot.generation.toNat ≤ k

def Retired (a : Arena α) (h : Handle) : Prop :=
  ∃ slot, a.slots[h.index]? = some slot ∧ h.generation.toNat < slot.generation.toNat

def Issued (a : Arena α) (h : Handle) : Prop := a.Retired h ∨ ∃ value, a.get? h = some value

theorem retiredDead {a : Arena α} {h : Handle} (retired : a.Retired h) : a.get? h = none := by
  obtain ⟨slot,found,older⟩ := retired
  have other : ¬slot.generation = h.generation := by
    intro same
    rw [same] at older
    exact Nat.lt_irrefl _ older
  simp [get?,found,other]

theorem insertUnissued {a : Arena α} (exact : a.Exact) (value : α) :
    ¬a.Issued (a.insert value).1 := by
  rintro (⟨slot,found,older⟩ | ⟨old,held⟩)
  · cases vacant : a.vacant with
    | nil => simp [insert,vacant] at found
    | cons index rest =>
      simp only [insert,vacant] at found older
      rw [found] at older
      exact Nat.lt_irrefl _ older
  · rw [insertFresh exact value] at held
    cases held

theorem insertIssued {a : Arena α} (exact : a.Exact) (value : α) :
    (a.insert value).2.Issued (a.insert value).1 := by
  refine .inr ⟨value,?_⟩
  rw [getInsert exact,if_pos rfl]

theorem retiredModify {a : Arena α} {k : Handle} (retired : a.Retired k) (h : Handle) (f : α → α) :
    (a.modify h f).Retired k := by
  obtain ⟨slot,found,older⟩ := retired
  unfold Retired modify
  simp only [Array.getElem?_modify,found]
  split
  · refine ⟨_,rfl,?_⟩
    dsimp only
    split <;> exact older
  · exact ⟨slot,rfl,older⟩

theorem retiredInsert {a : Arena α} {k : Handle} (retired : a.Retired k) (value : α) :
    (a.insert value).2.Retired k := by
  obtain ⟨slot,found,older⟩ := retired
  unfold Retired insert
  split
  · simp only [Array.getElem?_modify,found]
    split
    · exact ⟨_,rfl,older⟩
    · exact ⟨slot,rfl,older⟩
  · have inside : k.index < a.slots.size := (Array.getElem?_eq_some_iff.mp found).1
    refine ⟨slot,?_,older⟩
    rw [Array.getElem?_push,if_neg (Nat.ne_of_lt inside)]
    exact found

theorem nextGeneration {g : UInt32} {k : Nat} (young : g.toNat ≤ k) (room : k + 1 < 2 ^ 32) :
    (g + 1).toNat = g.toNat + 1 := by
  rw [UInt32.toNat_add]
  exact Nat.mod_eq_of_lt (by simp only [UInt32.toNat_one]; omega)

theorem retiredErase {a : Arena α} {k : Nat} (young : a.Young k) (room : k + 1 < 2 ^ 32)
    {x : Handle} (retired : a.Retired x) (h : Handle) : (a.erase h).Retired x := by
  obtain ⟨slot,found,older⟩ := retired
  unfold erase
  split
  · unfold Retired
    simp only [Array.getElem?_modify,found]
    split
    · refine ⟨_,rfl,?_⟩
      dsimp only
      rw [nextGeneration (young _ slot found) room]
      omega
    · exact ⟨slot,rfl,older⟩
  · exact ⟨slot,found,older⟩

theorem eraseRetires {a : Arena α} {k : Nat} (young : a.Young k) (room : k + 1 < 2 ^ 32)
    {h : Handle} {value : α} (held : a.get? h = some value) : (a.erase h).Retired h := by
  obtain ⟨slot,found,generation,_⟩ := getSlot.mp held
  have inside : a.contains h = true := by simp [contains,held]
  unfold erase Retired
  rw [if_pos inside]
  simp only [Array.getElem?_modify,found,if_true]
  refine ⟨_,rfl,?_⟩
  dsimp only
  rw [nextGeneration (young _ slot found) room,generation]
  omega

theorem youngErase {a : Arena α} {k : Nat} (young : a.Young k) (room : k + 1 < 2 ^ 32) (h : Handle) :
    (a.erase h).Young (k + 1) := by
  intro i slot found
  unfold erase at found
  split at found
  · simp only [Array.getElem?_modify] at found
    split at found
    · obtain ⟨old,held,rfl⟩ := Option.map_eq_some_iff.mp found
      rw [nextGeneration (young i old held) room]
      exact Nat.succ_le_succ (young i old held)
    · exact Nat.le_succ_of_le (young i slot found)
  · exact Nat.le_succ_of_le (young i slot found)

theorem youngInsert {a : Arena α} {k : Nat} (young : a.Young k) (value : α) :
    (a.insert value).2.Young k := by
  intro i slot found
  unfold insert at found
  split at found
  · simp only [Array.getElem?_modify] at found
    split at found
    · obtain ⟨old,held,rfl⟩ := Option.map_eq_some_iff.mp found
      exact young i old held
    · exact young i slot found
  · simp only [Array.getElem?_push] at found
    split at found
    · cases Option.some.inj found
      exact Nat.zero_le k
    · exact young i slot found

theorem youngModify {a : Arena α} {k : Nat} (young : a.Young k) (h : Handle) (f : α → α) :
    (a.modify h f).Young k := by
  intro i slot found
  simp only [modify,Array.getElem?_modify] at found
  split at found
  · obtain ⟨old,held,rfl⟩ := Option.map_eq_some_iff.mp found
    split <;> exact young i old held
  · exact young i slot found

section

variable {view : α → β} {m n k : Nat} {a b : Arena α} (moves : Moves view m n a b)
  (young : a.Young k) (room : k + n < 2 ^ 32)
include moves young room

theorem Moves.stillYoung : b.Young (k + n) := by
  induction moves with
  | done => exact young
  | insert _ value ih => exact youngInsert (ih young room) value
  | erase _ _ ih => exact youngErase (ih young (Nat.lt_of_succ_lt room)) room _
  | modify _ h _ ih => exact youngModify (ih young room) h _

theorem Moves.retired {h : Handle} (retired : a.Retired h) : b.Retired h := by
  induction moves with
  | done => exact retired
  | insert _ value ih => exact retiredInsert (ih young room retired) value
  | erase earlier _ ih =>
    have before := Nat.lt_of_succ_lt room
    exact retiredErase (earlier.stillYoung young before) room (ih young before retired) _
  | modify _ x _ ih => exact retiredModify (ih young room retired) x _

theorem Moves.fate (exact : a.Exact) {h : Handle} {value : α} (held : a.get? h = some value) :
    b.Retired h ∨ ∃ value', b.get? h = some value' ∧ view value' = view value := by
  induction moves with
  | done => exact .inr ⟨value,held,rfl⟩
  | @insert m n a b earlier new ih =>
    rcases ih young room exact held with retired | ⟨value',there,same⟩
    · exact .inl (retiredInsert retired new)
    · refine .inr ⟨value',?_,same⟩
      have other : h ≠ (b.insert new).1 := by
        rintro rfl
        rw [insertFresh (earlier.exact exact)] at there
        cases there
      rw [getInsert (earlier.exact exact),if_neg other]
      exact there
  | @erase m n a b x gone earlier taken ih =>
    have before := Nat.lt_of_succ_lt room
    have young' := earlier.stillYoung young before
    rcases ih young before exact held with retired | ⟨value',there,same⟩
    · exact .inl (retiredErase young' room retired _)
    · by_cases here : h = x
      · subst here
        exact .inl (eraseRetires young' room there)
      · refine .inr ⟨value',?_,same⟩
        rw [getErase,if_neg here]
        exact there
  | @modify m n a b f earlier x kept ih =>
    rcases ih young room exact held with retired | ⟨value',there,same⟩
    · exact .inl (retiredModify retired x _)
    · rw [getModify,there]
      split
      · exact .inr ⟨f value',rfl,(kept value').trans same⟩
      · exact .inr ⟨value',rfl,same⟩

theorem Moves.issued (exact : a.Exact) {h : Handle} (issued : a.Issued h) : b.Issued h := by
  rcases issued with retired | ⟨value,held⟩
  · exact .inl (moves.retired young room retired)
  · rcases moves.fate young room exact held with retired | ⟨value',there,_⟩
    · exact .inl retired
    · exact .inr ⟨value',there⟩

end

/-- The handle's slot was emptied since the handle was given out, at most so many times. Generations are
counted anew after 2^32. -/
def Aged (a : Arena α) (n : Nat) (h : Handle) : Prop :=
  ∃ slot d, a.slots[h.index]? = some slot ∧ slot.generation = h.generation + UInt32.ofNat d ∧ 0 < d ∧ d ≤ n

theorem Aged.dead {a : Arena α} {n : Nat} {h : Handle} (aged : a.Aged n h) (room : n < 2 ^ 32) :
    a.get? h = none := by
  obtain ⟨slot,d,found,generation,some,bound⟩ := aged
  have other : ¬slot.generation = h.generation := by
    intro same
    have next := congrArg UInt32.toNat (generation.symm.trans same)
    rw [UInt32.toNat_add,UInt32.toNat_ofNat_of_lt' (by simp only [UInt32.size]; omega)] at next
    have old := UInt32.toNat_lt h.generation
    omega
  simp [get?,found,other]

theorem agedErase {a : Arena α} {n : Nat} {h : Handle} (aged : a.Aged n h) (x : Handle) :
    (a.erase x).Aged (n + 1) h := by
  obtain ⟨slot,d,found,generation,some,bound⟩ := aged
  unfold erase
  split
  · unfold Aged
    simp only [Array.getElem?_modify,found]
    split
    · refine ⟨_,d + 1,rfl,?_,by omega,by omega⟩
      dsimp only
      rw [generation,UInt32.ofNat_add,UInt32.add_assoc]
      rfl
    · exact ⟨slot,d,rfl,generation,some,by omega⟩
  · exact ⟨slot,d,found,generation,some,by omega⟩

theorem agedInsert {a : Arena α} {n : Nat} {h : Handle} (aged : a.Aged n h) (value : α) :
    (a.insert value).2.Aged n h := by
  obtain ⟨slot,d,found,older⟩ := aged
  unfold Aged insert
  split
  · simp only [Array.getElem?_modify,found]
    split
    · exact ⟨_,d,rfl,older⟩
    · exact ⟨slot,d,rfl,older⟩
  · have inside : h.index < a.slots.size := (Array.getElem?_eq_some_iff.mp found).1
    refine ⟨slot,d,?_,older⟩
    rw [Array.getElem?_push,if_neg (Nat.ne_of_lt inside)]
    exact found

theorem agedModify {a : Arena α} {n : Nat} {h : Handle} (aged : a.Aged n h) (x : Handle) (f : α → α) :
    (a.modify x f).Aged n h := by
  obtain ⟨slot,d,found,older⟩ := aged
  unfold Aged modify
  simp only [Array.getElem?_modify,found]
  split
  · refine ⟨_,d,rfl,?_⟩
    dsimp only
    split <;> exact older
  · exact ⟨slot,d,rfl,older⟩

theorem Moves.aged {view : α → β} {m n k : Nat} {a b : Arena α} (moves : Moves view m n a b) {h : Handle}
    (aged : a.Aged k h) : b.Aged (k + n) h := by
  induction moves with
  | done => exact aged
  | insert _ value ih => exact agedInsert (ih aged) value
  | erase _ _ ih => exact agedErase (ih aged) _
  | modify _ x _ ih => exact agedModify (ih aged) x _

end CodeIndex.Arena
