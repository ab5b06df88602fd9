import CodeIndex.Proofs.Filing

/-! Files as they were declared. A file that was indexed holds the types it declares, its package lists
them for it and nothing more, and the package is the one the file names. Symbols attached later to a
type follow the same rule as its declared members. -/
namespace CodeIndex

theorem Symbol.Matches.type {s : Symbol} {p : Handle} {outline : TypeOutline}
    (fits : s.Matches p (.ofType outline)) : s.kind.isTypeDecl := by
  have body := fits.body
  rw [fits.kind]
  change outline.kind.isTypeDecl
  unfold Draft.body? Draft.ofType at body
  split at body <;> simp_all [SymbolKind.isTypeDecl]

namespace SymbolTable

def ownedBy (t : SymbolTable) (p h : Handle) : Bool := (t.symbol? h).any (·.parent = some p)

namespace IndexedAs

variable {t : SymbolTable} {f : Handle} {decl : FileDecl} (indexed : t.IndexedAs f decl)
include indexed

theorem entry : ∃ s q, t.symbol? f = some s ∧ s.kind = .file ∧ s.name = Path.normalize decl.path ∧
    s.childQualifiers = decl.package ∧ s.parent = some q ∧
    decl.package.foldlM t.subpackage? t.root = some q := by
  obtain ⟨_,q,o,s,leads,live,same⟩ := indexed
  have same : s.outline = (emptyFile (Path.normalize decl.path) decl q o).outline := same
  exact ⟨s,q,live,Symbol.kindOutline same,Symbol.nameOutline same,Symbol.childQualifiersOutline same,
    Symbol.parentOutline same,leads⟩

theorem types {name : String} {h : Handle} (listed : h ∈ t.declared f name) :
    ∃ s type, t.symbol? h = some s ∧ s.kind.isTypeDecl ∧ type ∈ decl.types ∧ type.outline.name = name := by
  obtain ⟨entries,all,lines,each⟩ := indexed.carries
  rw [lines.lists] at listed
  obtain ⟨e,inside,rfl⟩ := List.mem_map.mp listed
  obtain ⟨entry,named⟩ := List.mem_filter.mp inside
  have kept : e.2 ∈ Draft.kept Plan.draft (MemberDecl.plans decl.members) :=
    all ▸ List.mem_map.mpr ⟨e,entry,rfl⟩
  have planned := (Draft.keptSublist _ _).subset kept
  rw [MemberDecl.plansMap] at planned
  obtain ⟨member,listed',same⟩ := List.mem_map.mp planned
  obtain ⟨type,declared,rfl⟩ := List.mem_map.mp listed'
  obtain ⟨s,live,fits⟩ := (each e entry).held
  rw [← same,MemberDecl.planDraft] at fits named
  exact ⟨s,type,live,fits.type,declared,of_decide_eq_true named⟩

theorem alone (c : t.Consistent) {name : String} {x y : Handle} (first : x ∈ t.declared f name)
    (second : y ∈ t.declared f name) : x = y := by
  obtain ⟨file,_,owner,isFile,_⟩ := indexed.entry
  obtain ⟨sx,_,liveX,typeX,_⟩ := indexed.types first
  obtain ⟨sy,_,liveY,typeY,_⟩ := indexed.types second
  rw [declaredShelf owner] at first second
  refine c.single owner (by simp [isFile]) first second liveX liveY ?_ ?_
  · intro method
    simp [method,SymbolKind.isTypeDecl] at typeX
  · intro method
    simp [method,SymbolKind.isTypeDecl] at typeY

theorem listed (c : t.Consistent) {q : Handle}
    (leads : decl.package.foldlM t.subpackage? t.root = some q) (name : String) :
    (t.declared q name).filter (t.ownedBy f) = t.declared f name := by
  obtain ⟨file,q',owner,isFile,_,_,parent,leads'⟩ := indexed.entry
  cases Option.some.inj (leads.symm.trans leads')
  obtain ⟨package,above,_⟩ := c.parentLive owner parent
  have same : ∀ h, h ∈ (t.declared q name).filter (t.ownedBy f) ↔ h ∈ t.declared f name := by
    intro h
    rw [List.mem_filter,declaredShelf above]
    constructor
    · rintro ⟨shelved,owned⟩
      obtain ⟨s,live,within⟩ := (Option.any_eq_true _ _).mp owned
      rw [declaredShelf owner]
      exact ((c.typeListed owner isFile parent live above).mp ⟨shelved,of_decide_eq_true within⟩).1
    · intro shelved
      obtain ⟨s,_,live,type,_⟩ := indexed.types shelved
      rw [declaredShelf owner] at shelved
      obtain ⟨shelved',within⟩ := (c.typeListed owner isFile parent live above).mpr ⟨shelved,type⟩
      exact ⟨shelved',by simp [ownedBy,live,within]⟩
  have once : (t.declared f name).Nodup := declaredShelf owner name ▸ (c.tidy owner).once _
  have once' : ((t.declared q name).filter (t.ownedBy f)).Nodup := by
    rw [declaredShelf above]
    exact ((c.tidy above).once _).sublist List.filter_sublist
  have perm := (List.perm_ext_iff_of_nodup once' once).mpr same
  cases declared : t.declared f name with
  | nil => exact (declared ▸ perm).eq_nil
  | cons x rest =>
    have single : rest = [] := by
      refine List.eq_nil_iff_forall_not_mem.mpr fun y later => ?_
      have first : x ∈ t.declared f name := by simp [declared]
      have second : y ∈ t.declared f name := by simp [declared,later]
      have equal := indexed.alone c first second
      rw [declared] at once
      exact (List.nodup_cons.mp once).1 (equal ▸ later)
    subst single
    exact (declared ▸ perm).eq_singleton

end IndexedAs

end SymbolTable

namespace Codebase

theorem putFileTable {c : Codebase} {decl : FileDecl} {ref : SymbolRef}
    (ok : (c.putFile decl).1 = .ok ref) :
    ∃ file, (c.table.putFile decl).1 = .ok file ∧ ref = c.ref file := by
  simp only [putFile] at ok
  cases put : (c.table.putFile decl).1 with
  | ok file =>
    rw [put] at ok
    exact ⟨file,rfl,(Except.ok.inj ok).symm⟩
  | error failure =>
    rw [put] at ok
    cases ok

theorem attachTable {c after : Codebase} {p : Handle} {d : Draft} {ref : SymbolRef}
    (ok : c.attach p d = .ok (ref,after)) :
    ∃ h t, c.table.attach p d = .ok (h,t) ∧ ref = c.ref h ∧ after.table = t := by
  simp only [attach,bind,Except.bind] at ok
  cases attached : c.table.attach p d with
  | ok result =>
    rw [attached] at ok
    cases Except.ok.inj ok
    exact ⟨_,_,rfl,rfl,rfl⟩
  | error failure =>
    rw [attached] at ok
    cases ok

/-- A file that is indexed after any run holds what it declares, in the package it names; a symbol attached
to a type after any run comes after what it does not replace. -/
theorem indexedFaithfully (id : Nat) (name : String) (language : Language) (settings : Settings)
    (changes : List Change) :
    let c := run { id, name, language, settings } changes
    (∀ decl ref, MemberDecl.SeparateAll decl.members → (c.putFile decl).1 = .ok ref →
      let t := (c.putFile decl).2.table
      t.Filled ref.handle decl.members ∧
      ∃ q, decl.package.foldlM t.subpackage? t.root = some q ∧
        ∀ n, (t.declared q n).filter (t.ownedBy ref.handle) = t.declared ref.handle n) ∧
    ∀ p d ref after, c.table.Kinded p (·.isTypeDecl) → c.attach p d = .ok (ref,after) →
      after.table.Holds p ref.handle d ∧
      (∀ n, after.table.declared p n = (c.table.declared p n).filter (c.table.outlives d) ++
        if n = d.name then [ref.handle] else []) ∧
      SymbolTable.Spares c.table after.table p d := by
  intro c
  have consistent : c.table.Consistent := runConsistent _ SymbolTable.emptyConsistent changes
  constructor
  · intro decl ref separate ok t
    obtain ⟨file,put,rfl⟩ := putFileTable ok
    have consistent' := (applySteps c consistent (.putFile decl)).consistent consistent
    have indexed := (SymbolTable.putFileIndexes consistent put).indexed
    obtain ⟨_,q,_,_,_,_,_,leads⟩ := indexed.entry
    exact ⟨indexed.carries.filled (SymbolTable.mirrorsShowAll _ separate),q,leads,
      indexed.listed consistent' leads⟩
  · intro p d ref after scope ok
    obtain ⟨h,t,attached,rfl,rfl⟩ := attachTable ok
    obtain ⟨o,owner,type⟩ := scope
    have places := SymbolTable.attachPlaces consistent owner (SymbolTable.typeKind type).1 attached
    exact ⟨places.held,places.listed,places.others⟩

def ledgerFile : FileDecl where
  path := "shop/Ledger.java"
  package := ["shop"]
  types := [
    { outline := { name := "Ledger", kind := .type .interfaceType } },
    { outline := { name := "Ledger", kind := .type .classType }
      members := [
        .field { name := "total", type := .simple "int" },
        .method
          { name := "total"
            parameters := [{ name := "limit", type := .simple "int" }]
            locals := [{ name := "sum", type := .simple "int" }] },
        .type { name := "total", kind := .type .classType }
          [.field { name := "size", type := .simple "int" }]] }]

def ledgerApp (changes : List Change) : Codebase :=
  run { id := 0, name := "app", language := .java, settings := default } changes

def ledgerTotal : Draft := .ofField { name := "total", type := .simple "long" }

theorem ledgerFaithful :
    ((ledgerApp []).putFile ledgerFile).2.table.Filled ⟨2,0⟩ ledgerFile.members ∧
    ∃ ref after, (ledgerApp [.putFile ledgerFile]).attach ⟨3,1⟩ ledgerTotal = .ok (ref,after) ∧
      after.table.Holds ⟨3,1⟩ ref.handle ledgerTotal := by
  have class' : ((ledgerApp [.putFile ledgerFile]).table.symbol? ⟨3,1⟩).any (·.kind.isTypeDecl) := by
    decide +kernel
  have accepted : ((ledgerApp [.putFile ledgerFile]).attach ⟨3,1⟩ ledgerTotal).toBool := by
    decide +kernel
  unfold ledgerApp at class' accepted ⊢
  constructor
  · have separate : MemberDecl.SeparateAll ledgerFile.members := by
      simp [FileDecl.members,ledgerFile,MemberDecl.SeparateAll,MemberDecl.Separate]
    have faithful := (indexedFaithfully 0 "app" .java default []).1 ledgerFile ⟨0,⟨2,0⟩⟩ separate
    exact (faithful (by decide +kernel)).1
  · cases attached : (run _ [.putFile ledgerFile]).attach ⟨3,1⟩ ledgerTotal with
    | error failure => simp [attached,Except.toBool] at accepted
    | ok result =>
      have faithful := (indexedFaithfully 0 "app" .java default [.putFile ledgerFile]).2 ⟨3,1⟩ ledgerTotal
        result.1 result.2 ((Option.any_eq_true _ _).mp class') attached
      exact ⟨result.1,result.2,rfl,faithful.1⟩

end Codebase
end CodeIndex
