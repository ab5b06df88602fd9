import CodeIndex.Proofs.Moves
import Mathlib.Logic.Function.Basic

/-! The books of an arena. Whatever is put in and taken out, through whatever handles: the vacant slots are
listed once each, the count and the listing are those of the values held, generations are not behind the
handles that were given out, and the arena is a map from handles in which each operation changes one entry. -/
namespace CodeIndex.Arena

variable {α : Type u}

inductive Operation (α : Type u) where
  | insert (value : α)
  | erase (h : Handle)

def apply (a : Arena α) : Operation α → Arena α
  | .insert value => (a.insert value).2
  | .erase h => a.erase h

def run (a : Arena α) (operations : List (Operation α)) : Arena α := operations.foldl apply a

def given (a : Arena α) : List (Operation α) → List Handle
  | [] => []
  | .insert value :: rest => (a.insert value).1 :: (a.insert value).2.given rest
  | .erase h :: rest => (a.erase h).given rest

def entry (a : Arena α) : Operation α → Handle × Option α
  | .insert value => ((a.insert value).1,some value)
  | .erase h => (h,none)

def entries (a : Arena α) : List (Operation α) → List (Handle × Option α)
  | [] => []
  | op :: rest => a.entry op :: (a.apply op).entries rest

def overwritten (map : Handle → Option α) (entries : List (Handle × Option α)) : Handle → Option α :=
  entries.foldl (fun map e => Function.update map e.1 e.2) map

structure Bookkept (handles : List Handle) (a : Arena α) : Prop where
  vacantOnce : a.vacant.Nodup
  vacantListed : ∀ i, i ∈ a.vacant ↔ ∃ slot, a.slots[i]? = some slot ∧ slot.value = none
  counted : a.count = a.slots.toList.countP (·.value.isSome)
  listed : ∀ h value, (h,value) ∈ a.toList ↔ a.get? h = some value
  ascending : a.toList.Pairwise fun x y => x.1.index < y.1.index
  narrow : a.slots.size < 2 ^ 32
  generations : ∀ h ∈ handles, ∃ slot, a.slots[h.index]? = some slot ∧
    h.generation.toNat ≤ slot.generation.toNat
  inserts : ∀ value, (a.insert value).1 ∉ handles ∧ a.get? (a.insert value).1 = none ∧
    (a.insert value).2.get? = Function.update a.get? (a.insert value).1 (some value)
  erases : ∀ h, (a.erase h).get? = Function.update a.get? h none

theorem insertWrites {a : Arena α} (exact : a.Exact) (value : α) :
    (a.insert value).2.get? = Function.update a.get? (a.insert value).1 (some value) := by
  funext k
  rw [getInsert exact,Function.update_apply]

theorem eraseWrites (a : Arena α) (h : Handle) : (a.erase h).get? = Function.update a.get? h none := by
  funext k
  rw [getErase,Function.update_apply]

theorem applyWrites {a : Arena α} (exact : a.Exact) (op : Operation α) :
    (a.apply op).get? = Function.update a.get? (a.entry op).1 (a.entry op).2 := by
  cases op with
  | insert value => exact insertWrites exact value
  | erase h => exact eraseWrites a h

theorem applyMoves (a : Arena α) (op : Operation α) :
    ∃ m n, Moves id m n a (a.apply op) ∧ m + n ≤ 1 := by
  cases op with
  | insert value => exact ⟨1,0,(Moves.done a).insert value,by omega⟩
  | erase h =>
    cases held : a.get? h with
    | none =>
      have idle : a.erase h = a := by simp [erase,contains,held]
      exact ⟨0,0,by rw [apply,idle]; exact .done a,by omega⟩
    | some value => exact ⟨0,1,(Moves.done a).erase held,by omega⟩

theorem runMoves (a : Arena α) (operations : List (Operation α)) :
    ∃ m n, Moves id m n a (a.run operations) ∧ m + n ≤ operations.length := by
  induction operations generalizing a with
  | nil => exact ⟨0,0,.done a,by simp⟩
  | cons op rest ih =>
    obtain ⟨m,n,first,one⟩ := applyMoves a op
    obtain ⟨m',n',others,few⟩ := ih (a.apply op)
    refine ⟨m + m',n + n',first.trans others,?_⟩
    rw [List.length_cons]
    omega

theorem applyExact {a : Arena α} (exact : a.Exact) (op : Operation α) : (a.apply op).Exact := by
  obtain ⟨m,n,moves,_⟩ := applyMoves a op
  exact moves.exact exact

theorem runWrites {a : Arena α} (exact : a.Exact) (operations : List (Operation α)) :
    (a.run operations).get? = overwritten a.get? (a.entries operations) := by
  induction operations generalizing a with
  | nil => rfl
  | cons op rest ih =>
    calc (a.run (op :: rest)).get?
      _ = ((a.apply op).run rest).get? := rfl
      _ = overwritten (a.apply op).get? ((a.apply op).entries rest) := ih (applyExact exact op)
      _ = overwritten a.get? (a.entries (op :: rest)) := by
        rw [applyWrites exact,entries,overwritten,overwritten,List.foldl_cons]

theorem applySize (a : Arena α) (op : Operation α) : (a.apply op).slots.size ≤ a.slots.size + 1 := by
  cases op with
  | insert value =>
    simp only [apply,insert]
    split <;> simp
  | erase h =>
    simp only [apply,erase]
    split <;> simp

theorem runSize (a : Arena α) (operations : List (Operation α)) :
    (a.run operations).slots.size ≤ a.slots.size + operations.length := by
  induction operations generalizing a with
  | nil => exact Nat.le_refl _
  | cons op rest ih =>
    have first := applySize a op
    have others := ih (a.apply op)
    rw [List.length_cons]
    calc (a.run (op :: rest)).slots.size
      _ ≤ (a.apply op).slots.size + rest.length := others
      _ ≤ a.slots.size + (rest.length + 1) := by omega

theorem givenIssued {a : Arena α} (exact : a.Exact) {k : Nat} (young : a.Young k)
    (operations : List (Operation α)) (room : k + operations.length < 2 ^ 32) :
    ∀ h ∈ a.given operations, (a.run operations).Issued h := by
  induction operations generalizing a k with
  | nil => exact fun _ => List.not_mem_nil.elim
  | cons op rest ih =>
    rw [List.length_cons] at room
    obtain ⟨m,n,first,one⟩ := applyMoves a op
    have young' := first.stillYoung young (by omega)
    have exact' := applyExact exact op
    have later := ih exact' young' (by omega)
    cases op with
    | erase h => exact later
    | insert value =>
      intro h listed
      rcases List.mem_cons.mp listed with same | inside
      · obtain ⟨m',n',others,few⟩ := runMoves (a.insert value).2 rest
        rw [same]
        exact others.issued young' (by omega) exact' (insertIssued exact value)
      · exact later h inside

theorem issuedGeneration {a : Arena α} {h : Handle} (issued : a.Issued h) :
    ∃ slot, a.slots[h.index]? = some slot ∧ h.generation.toNat ≤ slot.generation.toNat := by
  rcases issued with ⟨slot,found,older⟩ | ⟨value,held⟩
  · exact ⟨slot,found,Nat.le_of_lt older⟩
  · obtain ⟨slot,found,same,_⟩ := getSlot.mp held
    exact ⟨slot,found,Nat.le_of_eq (congrArg UInt32.toNat same.symm)⟩

theorem emptyYoung : ({} : Arena α).Young 0 := by
  intro i slot found
  simp at found

/-- A run of fewer than 2^32 operations from the empty arena keeps the books, and leaves the map that its entries
write. -/
theorem runBookkept (operations : List (Operation α)) (few : operations.length < 2 ^ 32) :
    Bookkept (given {} operations) (run {} operations) ∧
      (run {} operations).get? = overwritten (fun _ => none) (entries {} operations) := by
  obtain ⟨m,n,moves,_⟩ := runMoves ({} : Arena α) operations
  have exact := moves.exact emptyExact
  have issued := givenIssued emptyExact emptyYoung operations (by omega)
  have size := runSize ({} : Arena α) operations
  refine ⟨{
    vacantOnce := exact.unique
    vacantListed := exact.listed
    counted := moves.counted emptyExact rfl
    listed := memToList _
    ascending := indicesAscend _
    narrow := Nat.lt_of_le_of_lt size (by simpa using few)
    generations := fun h listed => issuedGeneration (issued h listed)
    inserts := fun value => ⟨fun again => insertUnissued exact value (issued _ again),insertFresh exact value,
      insertWrites exact value⟩
    erases := eraseWrites _ },?_⟩
  rw [runWrites emptyExact]
  rfl

def tickets : List (Operation String) :=
  [.insert "red",.insert "blue",.erase ⟨0,0⟩,.erase ⟨0,0⟩,.erase ⟨7,3⟩,.insert "green"]

theorem ticketsBookkept :
    tickets.length < 2 ^ 32 ∧ given {} tickets = [⟨0,0⟩,⟨1,0⟩,⟨0,1⟩] ∧
    Bookkept [⟨0,0⟩,⟨1,0⟩,⟨0,1⟩] (run {} tickets) ∧
    (run {} tickets).toList = [(⟨0,1⟩,"green"),(⟨1,0⟩,"blue")] := by
  have few : tickets.length < 2 ^ 32 := by decide
  have handles : given {} tickets = [⟨0,0⟩,⟨1,0⟩,⟨0,1⟩] := by decide +kernel
  have books := (runBookkept tickets few).1
  rw [handles] at books
  exact ⟨few,handles,books,by decide +kernel⟩

end CodeIndex.Arena
