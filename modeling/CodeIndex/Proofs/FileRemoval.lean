import CodeIndex.Proofs.Handles
import CodeIndex.Proofs.Retained
import CodeIndex.Proofs.Scopes

/-! Dropping a file takes away the file and all that lies in it. Its package no longer lists the file and the
file's types; no other symbol changes, and what is left on a list keeps its order. -/
namespace CodeIndex
namespace SymbolTable

structure Drops (t t' : SymbolTable) (path : String) (file : Handle) : Prop where
  gone : ∀ h s, t.symbol? h = some s → (t'.symbol? h = none ↔ h = file ∨ t.fileOf? h = some file)
  dead : ∀ h, t.symbol? h = none → t'.symbol? h = none
  count : t'.count + (t.symbols.toList.filter fun e => t.fileOf? e.1 = some file).length = t.count
  lists : ∃ s p o subpackages files members, t.symbol? file = some s ∧ s.parent = some p ∧
    t.symbol? p = some o ∧ o.body = .package subpackages files members ∧
    t'.symbol? p = some { o with
      body := .package subpackages (files.filter (· ≠ file))
        (members.only fun h => t.fileOf? h ≠ some file) } ∧
    ∀ h s', t.symbol? h = some s' → t.fileOf? h ≠ some file → h ≠ p → t'.symbol? h = some s'
  files : t'.files = t.files.erase (Path.normalize path)
  root : t'.root = t.root

theorem dropFiles {t : SymbolTable} (c : t.Consistent) {path : String} {file : Handle}
    (found : t.files.get? (Path.normalize path) = some file) :
    (t.dropFile path).1 = true ∧ (t.dropFile path).2.files = t.files.erase (Path.normalize path) := by
  obtain ⟨s,live,isFile,_⟩ := (c.indexed _ file).mp found
  obtain ⟨p,_,parent,_⟩ := c.plainOwner live (by simp [isFile])
  rw [dropFileFound found live parent]
  exact ⟨rfl,unlinkFiles _ file⟩

theorem Belongs.onFiles {t : SymbolTable} {p h : Handle} (belongs : t.Belongs p .files h) :
    ∃ s, t.symbol? h = some s ∧ s.kind = .file := by
  generalize spot : Shelf.files = place at belongs
  cases belongs with
  | own live =>
    unfold Symbol.home at spot
    split at spot
    · cases spot
    · exact ⟨_,live,by assumption⟩
    · cases spot
  | parameter => cases spot
  | type => cases spot

section

variable {t : SymbolTable} (c : t.Consistent) {file p : Handle} {s o : Symbol}
  (live : t.symbol? file = some s) (isFile : s.kind = .file) (parent : s.parent = some p)
include c live isFile

theorem Consistent.outsideFile {h : Handle} : decide (t.fileOf? h ≠ some file) = false ↔ t.Within file h := by
  rw [← c.inFile live isFile]
  simp

theorem Consistent.subpackagesOutside {q : Handle} (owner : t.symbol? q = some o) :
    o.body.subpackages.only (fun h => t.fileOf? h ≠ some file) = o.body.subpackages := by
  refine OrderedMap.onlyAll (c.tidy owner).subpackages fun name h bound => Bool.not_eq_false _ ▸ fun inside => ?_
  obtain ⟨sh,live',isPackage,_⟩ := c.subpackage owner (Symbol.subpackageShelf bound)
  exact c.noPackageWithin live (by simp [isFile]) ((c.outsideFile live isFile).mp inside) live' isPackage

include parent

theorem Consistent.listsElsewhere {q x : Handle} {o : Symbol} (owner : t.symbol? q = some o)
    (outside : ¬t.Within file q) (other : q ≠ p) {place : Shelf} (listed : x ∈ o.shelf place) :
    ¬t.Within file x := by
  intro within
  have belongs := (c.listed owner place x).mp listed
  rcases c.listedOutside live (by simp [isFile]) outside belongs within with rfl | ⟨_,above,_⟩
  · exact other (Option.some.inj ((belongs.fileShelf live isFile).1.symm.trans parent))
  · exact other (Option.some.inj (above.symm.trans parent))

theorem Consistent.packageWithout (owner : t.symbol? p = some o) : ∃ subpackages files members,
    o.body = .package subpackages files members ∧
    o.body.only (fun h => t.fileOf? h ≠ some file) = .package subpackages (files.filter (· ≠ file))
      (members.only fun h => t.fileOf? h ≠ some file) := by
  have package : s.kind ≠ .package := by simp [isFile]
  have kind := c.parentOfFile live isFile parent owner
  have belongs := c.listed owner
  obtain ⟨_,_,_,_,_,body⟩ := o
  cases body with
  | package subpackages files members =>
    refine ⟨subpackages,files,members,rfl,?_⟩
    have packages : subpackages.only (fun h => decide (t.fileOf? h ≠ some file)) = subpackages :=
      c.subpackagesOutside live isFile owner
    have others : files.filter (fun h => decide (t.fileOf? h ≠ some file)) =
        files.filter (· ≠ file) := by
      refine List.filter_congr fun h listed => decide_eq_decide.mpr (not_congr ?_)
      rw [c.inFile live isFile]
      obtain ⟨sh,live',isFile'⟩ := ((belongs .files h).mp listed).onFiles
      exact ⟨fun within => c.noFileWithin live package within live' isFile',fun same => same ▸ .self⟩
    simp only [Body.only,Body.mapMembers,Body.mapParameters,Body.mapFiles,Body.mapSubpackages,packages,others]
  | _ => cases kind

end

theorem dropFileExact {t : SymbolTable} (c : t.Consistent) (stocked : t.Stocked) {path : String}
    {file h : Handle} (found : t.files.get? (Path.normalize path) = some file)
    (outside : t.fileOf? h ≠ some file) : (t.dropFile path).2.symbol? h =
      (t.symbol? h).map (Symbol.mapBody (Body.only fun h => t.fileOf? h ≠ some file)) := by
  have prunes := dropFilePrunes c found
  obtain ⟨s,live,isFile,_⟩ := (c.indexed _ file).mp found
  refine (c.retainsDrop found fun x within => (c.outsideFile live isFile).mpr within).exact
    (prunes.consistent c) ((reworksDrop t path).stocked stocked) (fun x s' live' => ?_)
    (decide_eq_true outside)
  exact decide_eq_true fun inside => (prunes.live live').1 ((c.inFile live isFile).mp inside)

theorem dropFileDrops {t : SymbolTable} (c : t.Consistent) (stocked : t.Stocked)
    (counted : t.symbols.count = t.symbols.live) {path : String} {file : Handle}
    (found : t.files.get? (Path.normalize path) = some file) :
    Drops t (t.dropFile path).2 path file := by
  have prunes := dropFilePrunes c found
  obtain ⟨s,live,isFile,_⟩ := (c.indexed _ file).mp found
  obtain ⟨p,o,parent,owner⟩ := c.plainOwner live (by simp [isFile])
  have lies : ∀ {h}, t.fileOf? h = some file ↔ t.Within file h := c.inFile live isFile
  have gone : ∀ h, (t.fileOf? h = some file → (t.dropFile path).2.symbol? h = none) ∧
      (t.fileOf? h ≠ some file → ((t.dropFile path).2.symbol? h = none ↔ t.symbol? h = none)) :=
    fun h => ⟨fun inside => prunes.dead (lies.mp inside),
      fun outside => deadOutline (prunes.kept fun within => outside (lies.mpr within))⟩
  refine ⟨?_,?_,?_,?_,(dropFiles c found).2,prunes.root⟩
  · intro h sh live'
    constructor
    · intro dead
      by_cases inside : t.fileOf? h = some file
      · exact .inr inside
      · simp [((gone h).2 inside).mp dead] at live'
    · rintro (rfl | inside)
      · exact prunes.dead .self
      · exact (gone h).1 inside
  · intro h dead
    by_cases inside : t.fileOf? h = some file
    · exact (gone h).1 inside
    · exact ((gone h).2 inside).mpr dead
  · -- What is left is what does not lie in the file.
    have left : ((t.symbols.toList.map Prod.fst).filter fun h => t.fileOf? h ≠ some file).length =
        (t.dropFile path).2.symbols.live := by
      refine Arena.census ((Arena.handlesNodup t.symbols).filter _) fun h => ?_
      rw [List.mem_filter,Arena.memListed,decide_eq_true_eq]
      change (t.symbol? h).isSome ∧ _ ↔ ((t.dropFile path).2.symbol? h).isSome
      by_cases inside : t.fileOf? h = some file
      · simp [inside,(gone h).1 inside]
      · simp [inside,dropFileExact c stocked found inside]
    obtain ⟨n,turns⟩ := turnsDrop t path
    have total := List.length_eq_length_filter_add (l := t.symbols.toList)
      fun e => decide (t.fileOf? e.1 = some file)
    rw [Arena.toListLength,← counted] at total
    rw [List.filter_map,List.length_map,← turns.counted c.store counted] at left
    simp only [Function.comp_def,ne_eq,decide_not] at left
    unfold count
    omega
  · obtain ⟨subpackages,files,members,body,without⟩ := c.packageWithout live isFile parent owner
    refine ⟨s,p,o,subpackages,files,members,live,parent,owner,body,?_,fun h sh live' outside other => ?_⟩
    · rw [dropFileExact c stocked found fun inside => c.ownerOutside live parent (lies.mp inside),owner,Option.map_some,
        Symbol.mapBody,without]
    · rw [dropFileExact c stocked found outside,live',Option.map_some,Symbol.mapBody]
      have same : sh.body.only (fun h => t.fileOf? h ≠ some file) = sh.body := by
        refine Body.onlyAll (c.tidy live') (stocked h sh live') fun place x listed =>
          decide_eq_true fun inside => ?_
        exact c.listsElsewhere live isFile parent live' (fun within => outside (lies.mpr within)) other
          listed (lies.mp inside)
      rw [same]

end SymbolTable

namespace Codebase

theorem runCounted {c : Codebase} (consistent : c.table.Consistent)
    (counted : c.table.symbols.count = c.table.symbols.live) (changes : List Change) :
    (c.run changes).table.symbols.count = (c.run changes).table.symbols.live := by
  obtain ⟨m,n,turns,_⟩ := runMoves c consistent changes
  exact turns.counted consistent.store counted

theorem dropFileNone {c : Codebase} {path : String}
    (absent : c.table.files.get? (Path.normalize path) = none) : c.dropFile path = (false,c) := by
  obtain ⟨_,_,_,_,table,_⟩ := c
  have none : table.dropFile path = (false,table) := SymbolTable.dropFileAbsent absent
  simp only [dropFile,none]

/-- Dropping a path after any run drops the file that is indexed there, and nothing if there is none. -/
theorem fileDropped (id : Nat) (name : String) (language : Language) (settings : Settings)
    (changes : List Change) (path : String) :
    let c := run { id, name, language, settings } changes
    match c.table.files.get? (Path.normalize path) with
    | none => c.dropFile path = (false,c)
    | some file => ∃ t, c.dropFile path = (true,{ c with table := t }) ∧ c.table.Drops t path file := by
  intro c
  have consistent : c.table.Consistent := runConsistent _ SymbolTable.emptyConsistent changes
  have stocked : c.table.Stocked := runStocked SymbolTable.emptyConsistent SymbolTable.emptyStocked changes
  have counted : c.table.symbols.count = c.table.symbols.live :=
    runCounted SymbolTable.emptyConsistent rfl changes
  split
  · exact dropFileNone (by assumption)
  · rename_i file found
    refine ⟨(c.table.dropFile path).2,?_,SymbolTable.dropFileDrops consistent stocked counted found⟩
    simp only [dropFile,(SymbolTable.dropFiles consistent found).1]

def pointAgain : List Change :=
  let point (path : String) : FileDecl :=
    { path, package := ["geometry"]
      types := [{ outline := { name := "Point", kind := .type .classType } }] }
  [.putFile (point "src/Point.java"),.putFile (point "test/Point.java")]

def pointApp : Codebase := run { id := 0, name := "app", language := .bare, settings := default } pointAgain

theorem pointDropped : ∃ t, pointApp.dropFile "src/./Point.java" = (true,{ pointApp with table := t }) ∧
    pointApp.table.Drops t "src/./Point.java" ⟨2,0⟩ := by
  have indexed : pointApp.table.files.get? (Path.normalize "src/./Point.java") = some ⟨2,0⟩ := by
    decide +kernel
  have dropped := fileDropped 0 "app" .bare default pointAgain "src/./Point.java"
  unfold pointApp at indexed ⊢
  dsimp only at dropped
  rw [indexed] at dropped
  exact dropped

end Codebase
end CodeIndex
