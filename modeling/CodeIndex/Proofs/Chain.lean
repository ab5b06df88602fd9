import CodeIndex.Proofs.Naming
import Mathlib.Data.List.Nodup

/-! The chain of a codebase. It begins with the codebase, holds nothing but what the codebase depends on,
and has each codebase once, so a reference to a symbol means one codebase of the chain. -/
namespace CodeIndex.Codebase

inductive Part : Codebase → Codebase → Prop where
  | self (c) : Part c c
  | dependency {d e c} (direct : e ∈ c.dependencies) (part : Part d e) : Part d c

mutual

theorem visitPart (listed : List Codebase) :
    (c : Codebase) → ∀ d ∈ visit listed c, d ∈ listed ∨ Part d c
  | ⟨id,name,language,settings,table,dependencies⟩ => by
    intro d inside
    unfold visit at inside
    split at inside
    · exact .inl inside
    · rcases visitAllPart _ dependencies d inside with before | ⟨e,direct,part⟩
      · rcases List.mem_append.mp before with before | single
        · exact .inl before
        · exact .inr (List.mem_singleton.mp single ▸ .self _)
      · exact .inr (.dependency direct part)

theorem visitAllPart (listed : List Codebase) :
    (cs : List Codebase) → ∀ d ∈ visitAll listed cs, d ∈ listed ∨ ∃ c ∈ cs, Part d c
  | [] => fun _ inside => .inl inside
  | c :: rest => by
    intro d inside
    unfold visitAll at inside
    rcases visitAllPart _ rest d inside with before | ⟨e,later,part⟩
    · rcases visitPart listed c d before with before | part
      · exact .inl before
      · exact .inr ⟨c,by simp,part⟩
    · exact .inr ⟨e,by simp [later],part⟩

end

mutual

theorem visitKeeps (listed : List Codebase) (d : Codebase) (inside : d ∈ listed) :
    (c : Codebase) → d ∈ visit listed c
  | ⟨id,name,language,settings,table,dependencies⟩ => by
    unfold visit
    split
    · exact inside
    · exact visitAllKeeps _ d (by simp [inside]) dependencies

theorem visitAllKeeps (listed : List Codebase) (d : Codebase) (inside : d ∈ listed) :
    (cs : List Codebase) → d ∈ visitAll listed cs
  | [] => inside
  | c :: rest => by
    unfold visitAll
    exact visitAllKeeps _ d (visitKeeps listed d inside c) rest

end

mutual

theorem visitBegins (listed : List Codebase) : (c : Codebase) → listed <+: visit listed c
  | ⟨id,name,language,settings,table,dependencies⟩ => by
    unfold visit
    split
    · exact List.prefix_refl _
    · exact (List.prefix_append _ _).trans (visitAllBegins _ dependencies)

theorem visitAllBegins (listed : List Codebase) : (cs : List Codebase) → listed <+: visitAll listed cs
  | [] => List.prefix_refl _
  | c :: rest => by
    unfold visitAll
    exact (visitBegins listed c).trans (visitAllBegins _ rest)

end

mutual

theorem visitIds (listed : List Codebase) (distinct : (listed.map (·.id)).Nodup) :
    (c : Codebase) → ((visit listed c).map (·.id)).Nodup
  | ⟨id,name,language,settings,table,dependencies⟩ => by
    unfold visit
    split
    · exact distinct
    · rename_i absent
      refine visitAllIds _ ?_ dependencies
      rw [List.map_append,List.nodup_append]
      refine ⟨distinct,by simp,?_⟩
      intro a old b new same
      obtain ⟨d,inside,rfl⟩ := List.mem_map.mp old
      exact absent (List.any_eq_true.mpr ⟨d,inside,by simp_all⟩)

theorem visitAllIds (listed : List Codebase) (distinct : (listed.map (·.id)).Nodup) :
    (cs : List Codebase) → ((visitAll listed cs).map (·.id)).Nodup
  | [] => distinct
  | c :: rest => by
    unfold visitAll
    exact visitAllIds _ (visitIds listed distinct c) rest

end

theorem chainPart {c d : Codebase} (inside : d ∈ c.chain) : Part d c :=
  (visitPart [] c d inside).resolve_left List.not_mem_nil

theorem chainSelf (c : Codebase) : c ∈ c.chain := by
  obtain ⟨id,name,language,settings,table,dependencies⟩ := c
  unfold chain visit
  exact visitAllKeeps _ _ (by simp) dependencies

theorem chainFirst (c : Codebase) : ∃ rest, c.chain = c :: rest := by
  obtain ⟨id,name,language,settings,table,dependencies⟩ := c
  unfold chain visit
  obtain ⟨rest,same⟩ := visitAllBegins [⟨id,name,language,settings,table,dependencies⟩] dependencies
  exact ⟨rest,same.symm⟩

theorem chainId {c d d' : Codebase} (inside : d ∈ c.chain) (inside' : d' ∈ c.chain)
    (same : d.id = d'.id) : d = d' :=
  List.inj_on_of_nodup_map (visitIds [] (by simp) c) inside inside' same

theorem memberChain {c d : Codebase} (inside : d ∈ c.chain) : c.member? d.id = some d := by
  unfold member?
  cases found : c.chain.find? (·.id = d.id) with
  | none => simpa using List.find?_eq_none.mp found d inside
  | some d' =>
    have same : d'.id = d.id := by simpa using List.find?_some found
    rw [chainId (List.mem_of_find?_eq_some found) inside same]

theorem resolveChain {c d : Codebase} {ref : SymbolRef} {s : Symbol} :
    c.resolve? ref = some (d,s) ↔
      d ∈ c.chain ∧ ref = d.ref ref.handle ∧ d.table.symbol? ref.handle = some s := by
  constructor
  · intro found
    simp only [resolve?,bind,Option.bind_eq_some_iff] at found
    obtain ⟨d',member,s',live,last⟩ := found
    cases Option.some.inj last
    have same : d.id = ref.codebase := by simpa using List.find?_some member
    exact ⟨List.mem_of_find?_eq_some member,by simp [Codebase.ref,same],live⟩
  · rintro ⟨inside,same,live⟩
    have home : c.member? ref.codebase = some d := by
      rw [same]
      exact memberChain inside
    simp [resolve?,home,live]

theorem resolveRef {c d : Codebase} {h : Handle} {s : Symbol} (inside : d ∈ c.chain)
    (live : d.table.symbol? h = some s) : c.resolve? (d.ref h) = some (d,s) :=
  resolveChain.mpr ⟨inside,rfl,live⟩

inductive Built : Codebase → Prop where
  | new (id name language settings) : Built { id, name, language, settings }
  | putFile {c decl} (built : Built c) (named : decl.Named Text.IsSegment) : Built (c.putFile decl).2
  | dropFile {c} (built : Built c) (path : String) : Built (c.dropFile path).2
  | addDependency {c d} (built : Built c) (dependency : Built d) : Built (c.addDependency d)

theorem Built.orderly {c : Codebase} (built : c.Built) : c.table.Orderly := by
  induction built with
  | new => exact SymbolTable.emptyOrderly
  | putFile _ named ih => exact SymbolTable.putFileOrderly ih named
  | dropFile _ path ih => exact SymbolTable.dropFileOrderly ih path
  | addDependency _ _ ih _ =>
    unfold Codebase.addDependency
    split <;> exact ih

theorem Built.dependencies {c : Codebase} (built : c.Built) : ∀ d ∈ c.dependencies, d.Built := by
  induction built with
  | new => simp
  | putFile _ _ ih => exact ih
  | dropFile _ _ ih => exact ih
  | addDependency _ dependency ih _ =>
    unfold Codebase.addDependency
    split
    · exact ih
    · intro d inside
      rcases List.mem_append.mp inside with before | single
      · exact ih d before
      · exact List.mem_singleton.mp single ▸ dependency

theorem Built.part {c d : Codebase} (part : Part d c) (built : c.Built) : d.Built := by
  induction part with
  | self => exact built
  | dependency direct _ ih => exact ih (built.dependencies _ direct)

theorem Built.chain {c d : Codebase} (built : c.Built) (inside : d ∈ c.chain) : d.table.Orderly :=
  (built.part (chainPart inside)).orderly

end CodeIndex.Codebase
