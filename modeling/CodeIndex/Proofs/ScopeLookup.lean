import CodeIndex.Proofs.Bodies
import CodeIndex.Proofs.Fidelity
import CodeIndex.Proofs.Handles
import CodeIndex.Proofs.Scopes
import CodeIndex.Proofs.SpanMap

/-! The scope at an offset. A file keeps the scopes that its declarations made, by offset, and keeps those
that are gone since. While no handle is given out twice, a scope that is still there is where it was made,
so the scope at an offset of a file never lies outside the file. -/
namespace CodeIndex

namespace Body

def scopes : Body → SpanMap Handle
  | .file _ _ scopes => scopes
  | _ => {}

@[simp] theorem scopesBare (b : Body) : b.bare.scopes = {} := by cases b <;> rfl

@[simp] theorem scopesMembers (f : Members → Members) (b : Body) : (b.mapMembers f).scopes = b.scopes := by
  cases b <;> rfl

@[simp] theorem scopesParameters (f : List Handle → List Handle) (b : Body) :
    (b.mapParameters f).scopes = b.scopes := by cases b <;> rfl

@[simp] theorem scopesFiles (f : List Handle → List Handle) (b : Body) :
    (b.mapFiles f).scopes = b.scopes := by cases b <;> rfl

@[simp] theorem scopesSubpackages (f : OrderedMap String Handle → OrderedMap String Handle) (b : Body) :
    (b.mapSubpackages f).scopes = b.scopes := by cases b <;> rfl

theorem Edited.scopes {b b' : Body} (edited : b.Edited b') : b'.scopes = b.scopes := by
  induction edited with
  | same => rfl
  | _ => simpa

end Body

namespace SymbolTable

theorem Reworks.scopes {t t' : SymbolTable} (reworks : Reworks t t') {h : Handle} {s' : Symbol}
    (live : t'.symbol? h = some s') :
    s'.body.scopes = {} ∨ ∃ s, t.symbol? h = some s ∧ s.body.scopes = s'.body.scopes := by
  rcases reworks h s' live with fresh | ⟨s,live',edited⟩
  · exact .inl (fresh.scopes.trans (Body.scopesBare s'.body))
  · exact .inr ⟨s,live',edited.scopes.symm⟩

theorem Turns.within {m n k : Nat} {t t' : SymbolTable} (turns : Turns m n t t') (c : t.Consistent)
    (c' : t'.Consistent) (young : t.symbols.Young k) (room : k + n < 2 ^ 32) {p h : Handle}
    (within : t.Within p h) {s' : Symbol} (live' : t'.symbol? h = some s') : t'.Within p h := by
  induction within generalizing s' with
  | self => exact .self
  | inner live parent _ ih =>
    rcases turns.fate young room c.store live with retired | ⟨s'',live'',same⟩
    · cases (Arena.retiredDead retired).symm.trans live'
    · have parent' := (Symbol.parentOutline same).trans parent
      obtain ⟨o,owner,_⟩ := c'.parentLive live'' parent'
      exact .inner live'' parent' (ih owner)

def Charted (t : SymbolTable) (p h : Handle) : Prop :=
  t.symbols.Issued h ∧ ∀ s, t.symbol? h = some s → s.isScope ∧ t.Within p h

theorem chartedLive {t : SymbolTable} {p h : Handle} {s : Symbol} (live : t.symbol? h = some s)
    (scope : s.isScope) (within : t.Within p h) : t.Charted p h :=
  ⟨.inr ⟨s,live⟩,fun _ live' => ⟨Option.some.inj (live.symm.trans live') ▸ scope,within⟩⟩

theorem Charted.later {m n k : Nat} {t t' : SymbolTable} {p h : Handle} (charted : t.Charted p h)
    (turns : Turns m n t t') (c : t.Consistent) (c' : t'.Consistent) (young : t.symbols.Young k)
    (room : k + n < 2 ^ 32) : t'.Charted p h := by
  obtain ⟨issued,there⟩ := charted
  refine ⟨turns.issued young room c.store issued,fun s' live' => ?_⟩
  rcases issued with retired | ⟨s,live⟩
  · cases (Arena.retiredDead (turns.retired young room retired)).symm.trans live'
  · obtain ⟨scope,within⟩ := there s live
    refine ⟨?_,turns.within c c' young room within live'⟩
    rcases turns.fate young room c.store live with retired | ⟨s'',live'',same⟩
    · cases (Arena.retiredDead retired).symm.trans live'
    · cases Option.some.inj (live''.symm.trans live')
      exact (scopeOutline same).trans scope

def Charts (p : Handle) (m : Nat) (spans : List (Span × Handle)) (t t' : SymbolTable) : Prop :=
  ∃ n, Turns m n t t' ∧
    ∀ k, t.symbols.Young k → k + n < 2 ^ 32 → ∀ e ∈ spans, t'.Charted p e.2

theorem chartsNone {m n : Nat} {t t' : SymbolTable} (p : Handle) (turns : Turns m n t t') :
    Charts p m [] t t' := ⟨n,turns,fun _ _ _ _ => List.not_mem_nil.elim⟩

theorem chartsScope {m n : Nat} {t t' : SymbolTable} {p h : Handle} {s : Symbol} (turns : Turns m n t t')
    (live : t'.symbol? h = some s) (scope : s.isScope) (parent : s.parent = some p) (span : Span) :
    Charts p m [(span,h)] t t' :=
  ⟨n,turns,fun _ _ _ => List.forall_mem_singleton.mpr
    (chartedLive live scope (.inner live parent .self))⟩

theorem Charts.append {m m' : Nat} {p : Handle} {spans spans' : List (Span × Handle)}
    {t t' t'' : SymbolTable} (first : Charts p m spans t t') (second : Charts p m' spans' t' t'')
    (c' : t'.Consistent) (c'' : t''.Consistent) : Charts p (m + m') (spans ++ spans') t t'' := by
  obtain ⟨n,turns,each⟩ := first
  obtain ⟨n',turns',each'⟩ := second
  refine ⟨n + n',turns.trans turns',fun k young room e inside => ?_⟩
  have young' := turns.stillYoung young (by omega)
  rcases List.mem_append.mp inside with early | late
  · exact (each k young (by omega) e early).later turns' c' c'' young' (by omega)
  · exact each' _ young' (by omega) e late

theorem Charts.widen {m : Nat} {p q : Handle} {spans : List (Span × Handle)} {t t' : SymbolTable}
    (charts : Charts q m spans t t') (within : t'.Within p q) : Charts p m spans t t' := by
  obtain ⟨n,turns,each⟩ := charts
  refine ⟨n,turns,fun k young room e inside => ?_⟩
  obtain ⟨issued,there⟩ := each k young room e inside
  exact ⟨issued,fun s live => ⟨(there s live).1,within.trans (there s live).2⟩⟩

namespace Edit

theorem Counts.ran {e : Edit α} {count : SymbolTable → Nat} (counts : Counts e count)
    {t t' : SymbolTable} {a : α} (ran : e t = .ok a t') : ∃ n, Turns (count t) n t t' :=
  afterOk ran ▸ counts t

theorem countThenRan {e : Edit α} {count : SymbolTable → Nat} {next : α → SymbolTable → Nat}
    {t t' : SymbolTable} {a : α} (ran : e t = .ok a t') :
    countThen e count next t = count t + next a t' := by
  simp [countThen,ran]

theorem methodRan {t t' : SymbolTable} {p : Handle} {decl : MethodDecl} {added : Span × Handle}
    (ran : addMethod p decl t = .ok added t') : ∃ h t₁ m n, attach p (.ofMethod decl) t = .ok h t₁ ∧
      added = (decl.span,h) ∧ Turns m n t₁ t' ∧
      methodCount p decl t = attachCount p (.ofMethod decl) t + m := by
  obtain ⟨h,t₁,attached,rest⟩ := bindOk ran
  obtain ⟨n,turns⟩ := (countsBind (countsAttachAll h _) fun _ =>
    countsQuiet (countsAttachAll h _) fun _ _ => rfl).ran rest
  refine ⟨h,t₁,_,n,attached,?_,turns,countThenRan attached⟩
  obtain ⟨_,_,_,rest⟩ := bindOk rest
  obtain ⟨_,_,_,rest⟩ := bindOk rest
  cases rest
  rfl

theorem methodCharts {t t' : SymbolTable} (c : t.Consistent) {p : Handle}
    (scope : t.Kinded p (· ≠ .package)) {decl : MethodDecl} {added : Span × Handle}
    (ran : addMethod p decl t = .ok added t') : Charts p (methodCount p decl t) [added] t t' := by
  have progress := addMethodProgress anything c scope decl
  rw [afterOk ran] at progress
  have c' := progress.steps.consistent c
  obtain ⟨h,t₁,m,n',attached,same,turns',counted⟩ := methodRan ran
  have started := attachProgress anything c (p := p) (d := .ofMethod decl) (.inr ⟨.inl rfl,scope⟩)
  rw [afterOk attached] at started
  obtain ⟨s,live,parent,kind⟩ := attachResult c attached
  obtain ⟨n,turns⟩ := (countsAttach p (.ofMethod decl)).ran attached
  rw [counted,same]
  exact (chartsScope turns live (scopeKind (.inl kind)) parent _).append (chartsNone p turns')
    (started.steps.consistent c) c'

mutual

theorem memberCharts {t t' : SymbolTable} (c : t.Consistent) {p : Handle} (scope : t.Kinded p IsBody)
    {spans : List (Span × Handle)} : (m : MemberDecl) → addMember p m t = .ok spans t' →
      Charts p (memberCount p m t) spans t t'
  | .field decl, ran => by
    obtain ⟨n,turns⟩ := (countsMember p (.field decl)).ran ran
    obtain ⟨h,t₁,attached,done⟩ := bindOk ran
    cases done
    exact chartsNone p turns
  | .method decl, ran => by
    obtain ⟨added,t₁,ran,done⟩ := bindOk ran
    cases done
    exact methodCharts c scope.inner ran
  | .type outline members, ran => by
    obtain ⟨h,t₁,first,ran⟩ := bindOk ran
    obtain ⟨inner,t₂,second,done⟩ := bindOk ran
    cases done
    have started : Progress _ p t (after (addOutline p outline) t) :=
      outlineProgress anything c scope trivial
    rw [afterOk first] at started
    have c₁ := started.steps.consistent c
    obtain ⟨s,live,parent,type⟩ := outlineResult c first
    have progress := addMembersProgress anything c₁ ⟨s,live,.inr type⟩ members
      (MemberDecl.namedAllTrue members)
    rw [afterOk second] at progress
    obtain ⟨n,turns⟩ := (countsOutline p outline).ran first
    obtain ⟨s',live',same⟩ := progress.keeps h s live (c₁.notInside live)
    have within : t'.Within p h := .inner live' ((Symbol.parentOutline same).trans parent) .self
    rw [memberCount,countThenRan first]
    exact (chartsScope turns live (scopeKind (.inr (.inr type))) parent _).append
      ((membersCharts c₁ ⟨s,live,.inr type⟩ members second).widen within) c₁
      (progress.steps.consistent c₁)

theorem membersCharts {t t' : SymbolTable} (c : t.Consistent) {p : Handle} (scope : t.Kinded p IsBody)
    {spans : List (Span × Handle)} : (members : List MemberDecl) → addMembers p members t = .ok spans t' →
      Charts p (membersCount p members t) spans t t'
  | [], ran => by
    cases ran
    exact chartsNone p (.done t.symbols)
  | m :: rest, ran => by
    obtain ⟨first,t₁,ran₁,ran⟩ := bindOk ran
    obtain ⟨others,t₂,ran₂,done⟩ := bindOk ran
    cases done
    have progress := addMemberProgress anything c scope m m.namedTrue
    rw [afterOk ran₁] at progress
    have c₁ := progress.steps.consistent c
    have scope₁ := progress.kinded c scope
    have progress' := addMembersProgress anything c₁ scope₁ rest (MemberDecl.namedAllTrue rest)
    rw [afterOk ran₂] at progress'
    rw [membersCount,countThenRan ran₁]
    exact (memberCharts c scope m ran₁).append (membersCharts c₁ scope₁ rest ran₂) c₁
      (progress'.steps.consistent c₁)

end

end Edit
def Fenced (t : SymbolTable) : Prop :=
  ∀ f s, t.symbol? f = some s → ∀ offset h, s.body.scopes.at? offset = some h → t.Charted f h

theorem Fenced.later {m n k : Nat} {t t' : SymbolTable} (fenced : t.Fenced) (reworks : Reworks t t')
    (turns : Turns m n t t') (c : t.Consistent) (c' : t'.Consistent) (young : t.symbols.Young k)
    (room : k + n < 2 ^ 32) : t'.Fenced := by
  intro f s' live' offset h found
  rcases reworks.scopes live' with none | ⟨s,live,same⟩
  · rw [none] at found
    cases found
  · rw [← same] at found
    exact (fenced f s live offset h found).later turns c c' young room

def Fences (m : Nat) (t t' : SymbolTable) : Prop :=
  ∃ n, Turns m n t t' ∧ ∀ k, t.symbols.Young k → k + n < 2 ^ 32 → t.Fenced → t'.Fenced

theorem fencesReworked {m n : Nat} {t t' : SymbolTable} (turns : Turns m n t t') (reworks : Reworks t t')
    (c : t.Consistent) (c' : t'.Consistent) : Fences m t t' :=
  ⟨n,turns,fun _ young room fenced => fenced.later reworks turns c c' young room⟩

theorem Fences.trans {m m' : Nat} {t t' t'' : SymbolTable} (first : Fences m t t')
    (second : Fences m' t' t'') : Fences (m + m') t t'' := by
  obtain ⟨n,turns,keeps⟩ := first
  obtain ⟨n',turns',keeps'⟩ := second
  refine ⟨n + n',turns.trans turns',fun k young room fenced => ?_⟩
  exact keeps' _ (turns.stillYoung young (by omega)) (by omega) (keeps k young (by omega) fenced)

theorem scopesOfFile {s : Symbol} (file : s.kind = .file) (scopes : SpanMap Handle) :
    (s.mapBody (·.withScopes scopes)).body.scopes = scopes := by
  obtain ⟨_,_,_,_,_,body⟩ := s
  cases body with
  | file => rfl
  | _ => cases file

theorem fencesTypes {t t' : SymbolTable} (c : t.Consistent) {file : Handle}
    (isFile : t.Kinded file (· = .file)) {span : Span} {types : List TypeDecl} {scopes : SpanMap Handle}
    (ran : Edit.addTypes file span types t = .ok scopes t') :
    Fences (Edit.membersCount file (types.map fun type => .type type.outline type.members) t) t
      (t'.modify file (·.withScopes scopes)) := by
  have scope : t.Kinded file IsBody := by
    obtain ⟨o,owner,kind⟩ := isFile
    exact ⟨o,owner,.inl kind⟩
  have reworks := Edit.reworksTypes c scope span types
  have progress := Edit.addTypesProgress Edit.anything c scope span types
    fun type _ => ⟨trivial,MemberDecl.namedAllTrue type.members⟩
  rw [Edit.afterOk ran] at reworks progress
  have c₁ := progress.steps.consistent c
  have c₂ := (scopesPrune c₁ file scopes).consistent c₁
  obtain ⟨o,live,kind⟩ := progress.kinded c isFile
  obtain ⟨inner,added,made⟩ := Edit.typesRan ran
  obtain ⟨n,turns,each⟩ := Edit.membersCharts c scope _ added
  have marks : Turns 0 0 t' (t'.modify file (·.withScopes scopes)) := turnsModify t' file (by simp)
  refine ⟨n + 0,turns.trans marks,fun k young room fenced => ?_⟩
  intro f s' live' offset h kept
  refine Charted.later (t := t') ?_ marks c₁ c₂ (turns.stillYoung young room) (by omega)
  rw [symbolModify] at live'
  split at live'
  · rename_i same
    subst same
    rw [live,Option.map_some] at live'
    rw [← Option.some.inj live',scopesOfFile kind] at kept
    obtain ⟨span',listed⟩ := SpanMap.atListed made kept
    rcases List.mem_cons.mp listed with self | inside
    · cases self
      exact chartedLive live (scopeKind (.inr (.inl kind))) .self
    · exact each k young room _ inside
  · exact (fenced.later reworks turns c c₁ young room) f s' live' offset h kept

theorem fencesDrop {t : SymbolTable} (c : t.Consistent) (path : String) :
    Fences 0 t (t.dropFile path).2 := by
  obtain ⟨n,turns⟩ := turnsDrop t path
  exact fencesReworked turns (reworksDrop t path) c ((dropFileSteps (fun _ _ => True) c path).consistent c)

theorem fencesStart {t : SymbolTable} (c : t.Consistent) {path : String}
    (absent : t.files.get? path = none) (decl : FileDecl) :
    Fences (t.packageCount decl + 1) t (t.startFile path decl).2 ∧
      (t.startFile path decl).2.Consistent ∧
      (t.startFile path decl).2.Kinded (t.startFile path decl).1 (· = .file) := by
  have issues := (issuesStart c path decl).moves
  have reworks := reworksStart t path decl
  obtain ⟨root,live,isPackage,_⟩ := c.root
  obtain ⟨steps,files,o,owner,package,_⟩ :=
    makePackageSteps (fun _ _ => True) c live isPackage decl.package fun _ _ _ => trivial
  have made := steps.consistent c
  have grows := fileGrows made owner package (files ▸ absent) decl
  rw [startFileMade owner] at issues reworks ⊢
  have started := grows.consistent made
  exact ⟨fencesReworked issues reworks c started,started,_,grows.added,rfl⟩

theorem fencesFile {t : SymbolTable} (c : t.Consistent) (decl : FileDecl) :
    Fences (t.fileCount decl) t (t.putFile decl).2 := by
  unfold fileCount putFile
  split
  · exact fencesReworked (.done t.symbols) (reworksRefl t) c c
  have dropped := fencesDrop c (Path.normalize decl.path)
  have c₀ := (dropFileSteps (fun _ _ => True) c (Path.normalize decl.path)).consistent c
  have absent := dropFileUnindexed c (Path.normalize decl.path)
  rw [Path.normalizeFixed] at absent
  obtain ⟨started,c₁,isFile⟩ := fencesStart c₀ absent decl
  have before := dropped.trans started
  rw [Nat.zero_add] at before
  dsimp only
  generalize (t.dropFile (Path.normalize decl.path)).2 = cleared at *
  generalize cleared.startFile (Path.normalize decl.path) decl = begun at *
  obtain ⟨file,table⟩ := begun
  dsimp only at before c₁ isFile ⊢
  split
  · rename_i scopes t' ran
    exact before.trans (fencesTypes c₁ isFile ran)
  · rename_i failure t' ran
    have scope : table.Kinded file IsBody := by
      obtain ⟨o,owner,kind⟩ := isFile
      exact ⟨o,owner,.inl kind⟩
    have reworks := Edit.reworksTypes c₁ scope decl.span decl.types
    obtain ⟨n,turns⟩ := Edit.countsTypes file decl.span decl.types table
    have progress := Edit.addTypesProgress Edit.anything c₁ scope decl.span decl.types
      fun type _ => ⟨trivial,MemberDecl.namedAllTrue type.members⟩
    unfold Edit.after at reworks turns progress
    rw [ran] at reworks turns progress
    have c₂ := progress.steps.consistent c₁
    exact (before.trans (fencesReworked turns reworks c₁ c₂)).trans (fencesDrop c₂ _)

theorem scopeAtFile {t : SymbolTable} {path : String} {f : Handle} {o : Symbol}
    (indexed : t.files.get? (Path.normalize path) = some f) (live : t.symbol? f = some o)
    (file : o.kind = .file) (offset : UInt32) :
    t.scopeAt? path offset = some (((o.body.scopes.at? offset).filter t.isLive).getD f) := by
  obtain ⟨_,_,_,_,_,body⟩ := o
  cases body with
  | file source members scopes =>
    simp only [scopeAt?,file?,indexed,bind,Option.bind_some,live,Body.scopes]
    cases scopes.at? offset with
    | none => rfl
    | some h => cases alive : t.isLive h <;> simp [Option.filter,alive]
  | _ => cases file

theorem Consistent.scopeAt {t : SymbolTable} (c : t.Consistent) (fenced : t.Fenced) {path : String}
    {f : Handle} (indexed : t.files.get? (Path.normalize path) = some f) (offset : UInt32) :
    ∃ h s, t.scopeAt? path offset = some h ∧ t.symbol? h = some s ∧ s.isScope ∧
      t.fileOf? h = some f := by
  obtain ⟨o,live,file,_⟩ := (c.indexed _ f).mp indexed
  rw [scopeAtFile indexed live file]
  cases found : (o.body.scopes.at? offset).filter t.isLive with
  | none => exact ⟨f,o,rfl,live,scopeKind (.inr (.inl file)),c.fileOf live file live .self⟩
  | some h =>
    obtain ⟨kept,alive⟩ := Option.filter_eq_some_iff.mp found
    obtain ⟨s,held⟩ := Option.isSome_iff_exists.mp alive
    obtain ⟨scope,within⟩ := (fenced f o live offset h kept).2 s held
    exact ⟨h,s,rfl,held,scope,c.fileOf live file held within⟩

end SymbolTable

namespace Codebase

theorem applyFences (c : Codebase) (consistent : c.table.Consistent) (change : Change) :
    SymbolTable.Fences (c.insertions change) c.table (c.apply change).2.table := by
  have consistent' := applyConsistent c consistent change
  cases change with
  | putFile decl => exact SymbolTable.fencesFile consistent decl
  | dropFile path => exact SymbolTable.fencesDrop consistent path
  | attach scope draft =>
    obtain ⟨n,turns,_⟩ := applyTurns c consistent (.attach scope draft)
    refine SymbolTable.fencesReworked turns ?_ consistent consistent'
    rw [applyAttach]
    cases ran : c.table.attach scope draft with
    | error failure => exact SymbolTable.reworksRefl c.table
    | ok result => exact SymbolTable.reworksAttach ran
  | addDependency dependency =>
    rw [applyDependency]
    exact SymbolTable.fencesReworked (.done c.table.symbols) (SymbolTable.reworksRefl c.table) consistent
      consistent

theorem runFenced (c : Codebase) (consistent : c.table.Consistent) {k : Nat}
    (young : c.table.symbols.Young k) (changes : List Change) (room : k + c.moves changes < 2 ^ 32)
    (fenced : c.table.Fenced) : (c.run changes).table.Fenced := by
  induction changes generalizing c k with
  | nil => exact fenced
  | cons change rest ih =>
    obtain ⟨n,turns,keeps⟩ := applyFences c consistent change
    unfold moves at room
    rw [removalsCounted consistent turns] at room
    exact ih (c.apply change).2 (applyConsistent c consistent change)
      (turns.stillYoung young (by omega)) (by omega) (keeps k young (by omega) fenced)

theorem emptyFenced : SymbolTable.empty.Fenced := by
  intro f s live offset h found
  rw [(SymbolTable.emptyLive live).2] at found
  cases found

/-- The scope at an offset of an indexed file is a scope of that file, after every run of fewer than 2^32
moves. -/
theorem scopeInFile (id : Nat) (name : String) (language : Language) (settings : Settings)
    (changes : List Change) (few : moves { id, name, language, settings } changes < 2 ^ 32)
    (path : String) (offset : UInt32) :
    let t := (run { id, name, language, settings } changes).table
    ((t.scopeAt? path offset).isSome ↔ (t.files.get? (Path.normalize path)).isSome) ∧
    ∀ h, t.scopeAt? path offset = some h → ∃ s, t.symbol? h = some s ∧ s.isScope ∧
      t.fileOf? h = t.files.get? (Path.normalize path) := by
  intro t
  have consistent : t.Consistent := runConsistent _ SymbolTable.emptyConsistent changes
  have fenced : t.Fenced := runFenced _ SymbolTable.emptyConsistent emptyYoung changes
    (by rwa [Nat.zero_add]) emptyFenced
  cases indexed : t.files.get? (Path.normalize path) with
  | none =>
    have nowhere : t.scopeAt? path offset = none := by
      simp [SymbolTable.scopeAt?,SymbolTable.file?,indexed]
    simp [nowhere]
  | some f =>
    obtain ⟨h,s,found,live,scope,lies⟩ := consistent.scopeAt fenced indexed offset
    refine ⟨by simp [found],fun h' found' => ?_⟩
    cases Option.some.inj (found.symm.trans found')
    exact ⟨s,live,scope,lies⟩

def axisReplaced : List Change :=
  let axis : TypeOutline := { name := "Axis", kind := .type .classType, span := ⟨10,20⟩ }
  let point : FileDecl :=
    { path := "src/Point.java", package := ["geometry"], span := ⟨0,60⟩
      types := [{ outline := { name := "Point", kind := .type .classType, span := ⟨0,50⟩ }
                  members := [.type axis []] }] }
  [.putFile point,.attach ⟨3,0⟩ (.ofType axis)]

def axisTable : SymbolTable :=
  (run { id := 0, name := "app", language := .bare, settings := default } axisReplaced).table

theorem axisStale : axisTable.scopeAt? "src/Point.java" 15 = some ⟨2,0⟩ := by decide +kernel

theorem axisStaysInFile : (axisTable.symbol? ⟨4,1⟩).isSome ∧
    axisTable.scopeAt? "src/Point.java" 15 = some ⟨2,0⟩ ∧
    ∃ s, axisTable.symbol? ⟨2,0⟩ = some s ∧ s.isScope ∧
      axisTable.fileOf? ⟨2,0⟩ = axisTable.files.get? (Path.normalize "src/Point.java") :=
  ⟨by decide +kernel,axisStale,
    (scopeInFile 0 "app" .bare default axisReplaced (by decide +kernel) _ 15).2 _ axisStale⟩

end Codebase
end CodeIndex
