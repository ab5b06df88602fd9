import CodeIndex.Proofs.Chain

/-! What a codebase depends on, near and far. If ids tell these codebases apart, the chain holds all of
them, so the chain of a dependency lies within the chain of what depends on it. -/
namespace CodeIndex.Codebase

def Distinct (c : Codebase) : Prop := ∀ {d e}, Part d c → Part e c → d.id = e.id → d = e

theorem Part.trans {d e c : Codebase} (inner : Part d e) (outer : Part e c) : Part d c := by
  induction outer with
  | self => exact inner
  | dependency direct _ ih => exact .dependency direct ih

theorem Distinct.part {d c : Codebase} (distinct : c.Distinct) (part : Part d c) : d.Distinct :=
  fun first second => distinct (first.trans part) (second.trans part)

mutual

theorem visitLists (listed : List Codebase) : (c : Codebase) → ∃ d ∈ visit listed c, d.id = c.id
  | ⟨id,name,language,settings,table,dependencies⟩ => by
    unfold visit
    split
    · rename_i known
      obtain ⟨d,inside,same⟩ := List.any_eq_true.mp known
      exact ⟨d,inside,by simpa using same⟩
    · exact ⟨_,visitAllKeeps _ _ (by simp) dependencies,rfl⟩

theorem visitAllLists (listed : List Codebase) :
    (cs : List Codebase) → ∀ c ∈ cs, ∃ d ∈ visitAll listed cs, d.id = c.id
  | [] => by simp
  | first :: rest => by
    unfold visitAll
    intro c inside
    rcases List.mem_cons.mp inside with rfl | later
    · obtain ⟨d,found,same⟩ := visitLists listed c
      exact ⟨d,visitAllKeeps _ d found rest,same⟩
    · exact visitAllLists _ rest c later

end

mutual

theorem visitClosed (listed : List Codebase) : (c : Codebase) → ∀ d ∈ visit listed c,
    d ∈ listed ∨ ∀ e ∈ d.dependencies, ∃ f ∈ visit listed c, f.id = e.id
  | ⟨id,name,language,settings,table,dependencies⟩ => by
    intro d inside
    unfold visit at inside ⊢
    split at inside
    · exact .inl inside
    · rename_i unknown
      rw [if_neg unknown]
      rcases visitAllClosed _ dependencies d inside with before | closed
      · rcases List.mem_append.mp before with before | single
        · exact .inl before
        · cases List.mem_singleton.mp single
          exact .inr (visitAllLists _ dependencies)
      · exact .inr closed

theorem visitAllClosed (listed : List Codebase) : (cs : List Codebase) → ∀ d ∈ visitAll listed cs,
    d ∈ listed ∨ ∀ e ∈ d.dependencies, ∃ f ∈ visitAll listed cs, f.id = e.id
  | [] => fun _ inside => .inl inside
  | c :: rest => by
    intro d inside
    unfold visitAll at inside ⊢
    rcases visitAllClosed _ rest d inside with before | closed
    · rcases visitClosed listed c d before with before | closed
      · exact .inl before
      · refine .inr fun e direct => ?_
        obtain ⟨f,found,same⟩ := closed e direct
        exact ⟨f,visitAllKeeps _ f found rest,same⟩
    · exact .inr closed

end

theorem chainDependency {c d e : Codebase} (distinct : c.Distinct) (inside : d ∈ c.chain)
    (direct : e ∈ d.dependencies) : e ∈ c.chain := by
  obtain ⟨f,found,same⟩ :=
    (visitClosed [] c d inside).resolve_left List.not_mem_nil e direct
  have part : Part e c := Part.trans (.dependency direct (.self e)) (chainPart inside)
  exact distinct (chainPart found) part same ▸ found

theorem chainHolds {c d e : Codebase} (distinct : c.Distinct) (inside : d ∈ c.chain)
    (part : Part e d) : e ∈ c.chain := by
  induction part with
  | self => exact inside
  | dependency direct _ ih => exact ih (chainDependency distinct inside direct)

theorem chainWithin {c d : Codebase} (distinct : c.Distinct) (inside : d ∈ c.chain) :
    ∀ e ∈ d.chain, e ∈ c.chain :=
  fun _ further => chainHolds distinct inside (chainPart further)

theorem distinctAlone {c : Codebase} (none : c.dependencies = []) : c.Distinct := by
  have parts : ∀ {e}, Part e c → e = c := by
    intro e part
    cases part with
    | self => rfl
    | dependency direct => simp [none] at direct
  intro d e part part' _
  rw [parts part,parts part']

theorem distinctPair {c d : Codebase} (one : c.dependencies = [d]) (leaf : d.dependencies = [])
    (apart : c.id ≠ d.id) : c.Distinct := by
  have parts : ∀ {e}, Part e c → e = c ∨ e = d := by
    intro e part
    cases part with
    | self => exact .inl rfl
    | dependency direct inner =>
      obtain rfl : _ = d := by simpa [one] using direct
      cases inner with
      | self => exact .inr rfl
      | dependency further => simp [leaf] at further
  intro e f first second same
  rcases parts first with rfl | rfl <;> rcases parts second with rfl | rfl
  · rfl
  · exact absurd same apart
  · exact absurd same.symm apart
  · rfl

inductive Reached : Codebase → Prop where
  | new (id name language settings) : Reached { id, name, language, settings }
  | change {c} (reached : Reached c) (change : Change)
      (others : ∀ d, change = .addDependency d → Reached d) : Reached (c.apply change).2

theorem Reached.putFile {c : Codebase} (reached : c.Reached) (decl : FileDecl) :
    (c.putFile decl).2.Reached :=
  .change reached (.putFile decl) nofun

theorem Reached.addDependency {c d : Codebase} (reached : c.Reached) (dependency : d.Reached) :
    (c.addDependency d).Reached := by
  refine .change reached (.addDependency d) fun e same => ?_
  cases same
  exact dependency

theorem Reached.consistent {c : Codebase} (reached : c.Reached) : c.table.Consistent := by
  induction reached with
  | new => exact SymbolTable.emptyConsistent
  | change _ change _ ih => exact (applySteps _ ih change).consistent ih

theorem applyDependencies (c : Codebase) (change : Change) : ∀ d ∈ (c.apply change).2.dependencies,
    d ∈ c.dependencies ∨ change = .addDependency d := by
  intro d inside
  cases change with
  | putFile | dropFile => exact .inl inside
  | attach scope draft =>
    rw [applyAttach] at inside
    split at inside <;> exact .inl inside
  | addDependency e =>
    simp only [apply,addDependency] at inside
    split at inside
    · exact .inl inside
    · rcases List.mem_append.mp inside with before | single
      · exact .inl before
      · exact .inr (List.mem_singleton.mp single ▸ rfl)

theorem Reached.dependencies {c : Codebase} (reached : c.Reached) :
    ∀ d ∈ c.dependencies, d.Reached := by
  induction reached with
  | new => simp
  | change _ change others ih others' =>
    intro d inside
    rcases applyDependencies _ change d inside with before | new
    · exact ih d before
    · exact others d new

theorem Reached.part {c d : Codebase} (part : Part d c) (reached : c.Reached) : d.Reached := by
  induction part with
  | self => exact reached
  | dependency direct _ ih => exact ih (reached.dependencies _ direct)

theorem Reached.chain {c d : Codebase} (reached : c.Reached) (inside : d ∈ c.chain) :
    d.table.Consistent := (reached.part (chainPart inside)).consistent

end CodeIndex.Codebase
