import CodeIndex.Proofs.Runs
import Mathlib.Data.List.Perm.Subperm
import Mathlib.Data.List.Nodup

/-! The scopes around a symbol. Owners lead from a live symbol to the root without a repetition, so a climb
through as many levels as there are slots meets all of them. Above a file there are only packages. -/
namespace CodeIndex.SymbolTable

inductive Outward (t : SymbolTable) : Handle → List (Handle × Symbol) → Prop where
  | root {s} (live : t.symbol? t.root = some s) (top : s.parent = none) : Outward t t.root [(t.root,s)]
  | inner {h s p levels} (live : t.symbol? h = some s) (parent : s.parent = some p)
      (outer : Outward t p levels) : Outward t h ((h,s) :: levels)

variable {t : SymbolTable} {h : Handle} {levels : List (Handle × Symbol)}

theorem Outward.climb (outward : t.Outward h levels) {fuel : Nat} (enough : levels.length ≤ fuel) :
    t.climb fuel h = ⟨levels,true⟩ := by
  induction outward generalizing fuel with
  | root live top =>
    obtain ⟨less,rfl⟩ := Nat.exists_eq_add_one_of_ne_zero (Nat.ne_zero_of_lt enough)
    simp [SymbolTable.climb,live,top]
  | inner live parent outer ih =>
    obtain ⟨less,rfl⟩ := Nat.exists_eq_add_one_of_ne_zero (Nat.ne_zero_of_lt enough)
    simp [SymbolTable.climb,live,parent,ih (Nat.le_of_succ_le_succ enough)]

theorem Outward.unique {levels' : List (Handle × Symbol)} (outward : t.Outward h levels)
    (outward' : t.Outward h levels') : levels = levels' := by
  induction outward generalizing levels' with
  | root live top =>
    cases outward' with
    | root live' => simp [Option.some.inj (live.symm.trans live')]
    | inner live' parent =>
      cases Option.some.inj (live.symm.trans live')
      simp [top] at parent
  | inner live parent outer ih =>
    cases outward' with
    | root live' top =>
      cases Option.some.inj (live.symm.trans live')
      simp [top] at parent
    | inner live' parent' outer' =>
      cases Option.some.inj (live.symm.trans live')
      cases Option.some.inj (parent.symm.trans parent')
      rw [ih outer']

theorem Outward.tail (outward : t.Outward h levels) {before after : List (Handle × Symbol)}
    {level : Handle × Symbol} (parts : levels = before ++ level :: after) :
    t.Outward level.1 (level :: after) := by
  induction outward generalizing before with
  | root live top =>
    cases before with
    | nil =>
      simp only [List.nil_append,List.cons.injEq] at parts
      obtain ⟨rfl,rfl⟩ := parts
      exact .root live top
    | cons => simp at parts
  | inner live parent outer ih =>
    cases before with
    | nil =>
      simp only [List.nil_append,List.cons.injEq] at parts
      obtain ⟨rfl,rfl⟩ := parts
      exact .inner live parent outer
    | cons _ rest =>
      simp only [List.cons_append,List.cons.injEq] at parts
      exact ih parts.2

theorem Outward.live (outward : t.Outward h levels) : ∀ level ∈ levels,
    t.symbol? level.1 = some level.2 := by
  induction outward with
  | root live => exact List.forall_mem_singleton.mpr live
  | inner live _ _ ih => exact List.forall_mem_cons.mpr ⟨live,ih⟩

theorem Outward.head (outward : t.Outward h levels) : ∃ s rest, levels = (h,s) :: rest ∧
    t.symbol? h = some s := by
  cases outward with
  | root live => exact ⟨_,_,rfl,live⟩
  | inner live => exact ⟨_,_,rfl,live⟩

theorem Outward.within (outward : t.Outward h levels) {f : Handle} {o : Symbol}
    (inside : (f,o) ∈ levels) : t.Within f h := by
  induction outward with
  | root =>
    cases List.mem_singleton.mp inside
    exact .self
  | inner live parent _ ih =>
    rcases List.mem_cons.mp inside with here | further
    · cases here
      exact .self
    · exact .inner live parent (ih further)

theorem Outward.distinct (outward : t.Outward h levels) : (levels.map (·.1)).Nodup := by
  induction outward with
  | root => simp
  | @inner h s p levels live parent outer ih =>
    refine List.nodup_cons.mpr ⟨fun again => ?_,ih⟩
    -- The same symbol further out would have as many levels around it as here, and fewer.
    obtain ⟨⟨h',s'⟩,inside,same⟩ := List.mem_map.mp again
    cases same
    obtain ⟨before,after,parts⟩ := List.append_of_mem inside
    have further := outer.tail parts
    have lengths := congrArg List.length ((Outward.inner live parent outer).unique further)
    simp only [parts,List.length_cons,List.length_append] at lengths
    omega

theorem slotHandle {h h' : Handle} {s s' : Symbol} (live : t.symbol? h = some s)
    (live' : t.symbol? h' = some s') (same : h.index = h'.index) : h = h' := by
  obtain ⟨slot,held,generation,_⟩ := Arena.getSlot.mp live
  obtain ⟨slot',held',generation',_⟩ := Arena.getSlot.mp live'
  rw [same] at held
  cases Option.some.inj (held.symm.trans held')
  obtain ⟨index,_⟩ := h
  obtain ⟨index',_⟩ := h'
  simp_all

theorem Outward.count (outward : t.Outward h levels) : levels.length ≤ t.symbols.slots.size := by
  have indices : ((levels.map (·.1)).map Handle.index).Nodup := by
    refine outward.distinct.map_on fun h inside h' inside' same => ?_
    obtain ⟨level,listed,rfl⟩ := List.mem_map.mp inside
    obtain ⟨level',listed',rfl⟩ := List.mem_map.mp inside'
    exact slotHandle (outward.live level listed) (outward.live level' listed') same
  have below : (levels.map (·.1)).map Handle.index ⊆ List.range t.symbols.slots.size := by
    intro index inside
    obtain ⟨h,among,rfl⟩ := List.mem_map.mp inside
    obtain ⟨level,listed,rfl⟩ := List.mem_map.mp among
    obtain ⟨slot,held,_⟩ := Arena.getSlot.mp (outward.live level listed)
    exact List.mem_range.mpr (Array.getElem?_eq_some_iff.mp held).1
  simpa using (List.subperm_of_subset indices below).length_le

theorem Outward.chain (outward : t.Outward h levels) : t.scopeChain h = ⟨levels,true⟩ :=
  outward.climb outward.count

namespace Consistent

variable (c : t.Consistent)
include c

theorem outward {s : Symbol} (live : t.symbol? h = some s) : ∃ levels, t.Outward h levels := by
  induction c.rooted live generalizing s with
  | root =>
    obtain ⟨s',live',_,top,_⟩ := c.root
    exact ⟨_,.root live' top⟩
  | child live' parent _ ih =>
    obtain ⟨o,owner,_⟩ := c.parentLive live' parent
    obtain ⟨levels,outer⟩ := ih owner
    exact ⟨_,.inner live' parent outer⟩

theorem packagesAbove (outward : t.Outward h levels) {s : Symbol} (live : t.symbol? h = some s)
    (package : s.kind = .package) : ∀ level ∈ levels, level.2.kind = .package := by
  induction outward generalizing s with
  | root live' =>
    cases Option.some.inj (live.symm.trans live')
    exact List.forall_mem_singleton.mpr package
  | inner live' parent outer ih =>
    cases Option.some.inj (live.symm.trans live')
    obtain ⟨o,owner,_⟩ := c.parentLive live parent
    exact List.forall_mem_cons.mpr
      ⟨package,ih owner (c.parentOfPackage live package parent owner)⟩

theorem aroundFile (outward : t.Outward h levels) {s : Symbol} (live : t.symbol? h = some s)
    (file : s.kind = .file) : ∃ p o outer, s.parent = some p ∧ t.symbol? p = some o ∧
      o.kind = .package ∧ levels = (h,s) :: outer ∧ t.Outward p outer ∧
      ∀ level ∈ outer, level.2.kind = .package := by
  cases outward with
  | root live' =>
    cases Option.some.inj (live.symm.trans live')
    obtain ⟨root,live',package,_⟩ := c.root
    cases Option.some.inj (live.symm.trans live')
    simp [file] at package
  | inner live' parent outer =>
    cases Option.some.inj (live.symm.trans live')
    obtain ⟨o,owner,_⟩ := c.parentLive live parent
    have package := c.parentOfFile live file parent owner
    exact ⟨_,o,_,parent,owner,package,rfl,outer,c.packagesAbove outer owner package⟩

theorem insideFile (outward : t.Outward h levels) {s : Symbol} (live : t.symbol? h = some s) {f : Handle}
    {o : Symbol} (inside : (f,o) ∈ levels) (file : o.kind = .file) :
    s.kind ≠ .package ∧ (s.kind = .file → f = h ∧ o = s) := by
  refine ⟨fun package => ?_,fun isFile => ?_⟩
  · have above := c.packagesAbove outward live package _ inside
    simp [file] at above
  · obtain ⟨_,_,outer,_,_,_,rfl,_,packages⟩ := c.aroundFile outward live isFile
    rcases List.mem_cons.mp inside with same | further
    · exact Prod.mk.inj same
    · have above := packages _ further
      simp [file] at above

theorem fileLevel {scope f : Handle} (lies : t.fileOf? scope = some f) :
    ∃ levels o, t.Outward scope levels ∧ (f,o) ∈ levels := by
  have complete : ∃ levels, t.Outward scope levels := by
    cases live : t.symbol? scope with
    | some s => exact c.outward live
    | none =>
      have dead : (t.scopeChain scope).levels = [] := by
        unfold scopeChain
        cases t.symbols.slots.size with
        | zero => rfl
        | succ fuel => simp [climb,live]
      simp [fileOf?,dead] at lies
  obtain ⟨levels,outward⟩ := complete
  rw [fileOf?,outward.chain] at lies
  obtain ⟨⟨g,o⟩,found,rfl⟩ := Option.map_eq_some_iff.mp lies
  exact ⟨levels,o,outward,List.mem_of_find?_eq_some found⟩

theorem fileOf {f : Handle} {o s : Symbol} (live : t.symbol? f = some o) (file : o.kind = .file)
    (live' : t.symbol? h = some s) (within : t.Within f h) : t.fileOf? h = some f := by
  obtain ⟨levels,outward⟩ := c.outward live'
  rw [fileOf?,outward.chain]
  have first : levels.find? (fun level => level.2.kind = .file) = some (f,o) := by
    induction within generalizing levels s with
    | self =>
      obtain ⟨s',rest,rfl,held⟩ := outward.head
      cases Option.some.inj (live.symm.trans held)
      simp [file]
    | @inner x sx p held parent outer ih =>
      cases outward with
      | root root top =>
        cases Option.some.inj (held.symm.trans root)
        simp [top] at parent
      | inner held' parent' around =>
        cases Option.some.inj (held.symm.trans held')
        cases Option.some.inj (parent.symm.trans parent')
        obtain ⟨q,owner,_⟩ := c.parentLive held parent
        have plain : sx.kind ≠ .file := by
          intro isFile
          obtain rfl := c.noFileWithin live (by simp [file]) (.inner held parent outer) held isFile
          exact c.notInside held ⟨sx,p,held,parent,outer⟩
        simp [plain,ih owner _ around]
  simp [first]

theorem inFile {f : Handle} {o : Symbol} (live : t.symbol? f = some o) (file : o.kind = .file) :
    t.fileOf? h = some f ↔ t.Within f h := by
  constructor
  · intro lies
    obtain ⟨levels,o',outward,inside⟩ := c.fileLevel lies
    exact outward.within inside
  · intro within
    cases within with
    | self => exact c.fileOf live file live .self
    | inner live' parent outer => exact c.fileOf live file live' (.inner live' parent outer)

end Consistent

theorem packageParameters {s : Symbol} (package : s.kind = .package) : s.typeParameters = [] := by
  obtain ⟨_,_,_,_,_,body⟩ := s
  cases body with
  | package => rfl
  | _ => cases package

theorem sourceBody {s : Symbol} {source : SourceFile} (found : s.source? = some source) :
    ∃ members scopes, s.body = .file source members scopes := by
  obtain ⟨_,_,_,_,_,body⟩ := s
  cases body with
  | file => cases Option.some.inj found; exact ⟨_,_,rfl⟩
  | _ => cases found

end CodeIndex.SymbolTable
