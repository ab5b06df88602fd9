/-!
Slots with generations.

A handle names a slot and the generation under which a value was put there. Taking the value out
moves the slot to its next generation, so an old handle finds nothing even after the slot is used
again. Slots emptied last are used again first.
-/
namespace CodeIndex

structure Handle where
  index : Nat
  generation : UInt32
  deriving DecidableEq, Inhabited

def Handle.text (h : Handle) : String :=
  toString h.index ++ "v" ++ toString h.generation.toNat

structure Slot (α : Type u) where
  generation : UInt32
  value : Option α

structure Arena (α : Type u) where
  slots : Array (Slot α) := #[]
  /-- Empty slots, emptied last first. -/
  vacant : List Nat := []
  count : Nat := 0

namespace Arena

variable {α : Type u}

instance : Inhabited (Arena α) := ⟨{}⟩

def get? (a : Arena α) (h : Handle) : Option α :=
  match a.slots[h.index]? with
  | some slot => if slot.generation = h.generation then slot.value else none
  | none => none

def contains (a : Arena α) (h : Handle) : Bool := (a.get? h).isSome

def insert (a : Arena α) (value : α) : Handle × Arena α :=
  match a.vacant with
  | index :: vacant =>
    let generation := match a.slots[index]? with
      | some slot => slot.generation
      | none => 0
    (⟨index,generation⟩,
      { slots := a.slots.modify index fun slot => { slot with value := some value }
        vacant := vacant
        count := a.count + 1 })
  | [] =>
    (⟨a.slots.size,0⟩,
      { a with slots := a.slots.push ⟨0,some value⟩, count := a.count + 1 })

def modify (a : Arena α) (h : Handle) (f : α → α) : Arena α :=
  { a with
    slots := a.slots.modify h.index fun slot =>
      if slot.generation = h.generation then { slot with value := slot.value.map f } else slot }

def erase (a : Arena α) (h : Handle) : Arena α :=
  if a.contains h then
    { slots := a.slots.modify h.index fun slot => ⟨slot.generation + 1,none⟩
      vacant := h.index :: a.vacant
      count := a.count - 1 }
  else a

def live (a : Arena α) : Nat := a.slots.toList.countP (·.value.isSome)

theorem countModifyLt {p : β → Bool} {f : β → β} {xs : List β} {i : Nat} {x : β}
    (found : xs[i]? = some x) (before : p x = true) (after : p (f x) = false) :
    (xs.modify i f).countP p < xs.countP p := by
  induction xs generalizing i with
  | nil => simp at found
  | cons y ys ih =>
    cases i with
    | zero =>
      have same : y = x := by simpa using found
      subst same
      simp [before,after]
    | succ i =>
      have smaller := ih (i := i) (by simpa using found)
      simpa [List.countP_cons] using smaller

theorem liveEraseLt {a : Arena α} {h : Handle} {value : α} (held : a.get? h = some value) :
    (a.erase h).live < a.live := by
  have inside : a.contains h = true := by simp [contains,held]
  simp only [erase,inside,if_true,live,Array.toList_modify]
  unfold get? at held
  split at held
  · rename_i slot found
    split at held
    · exact countModifyLt (x := slot) (by simpa using found) (by simp [held]) (by simp)
    · contradiction
  · contradiction

def toList (a : Arena α) : List (Handle × α) :=
  a.slots.toList.zipIdx.filterMap fun (slot,index) =>
    slot.value.map fun value => (⟨index,slot.generation⟩,value)

end Arena
end CodeIndex
