import CodeIndex.Proofs.Moves
import CodeIndex.Proofs.Runs

/-! Handles over whole runs. Every change of a codebase is counted in symbols put in and symbols taken
out. While fewer than 2^32 of both happen in a run, a handle is given out once, a handle whose symbol is
gone stays empty, and the symbol behind a handle keeps its outline. -/
namespace CodeIndex

namespace Arena

def Issues (view : α → β) (m n : Nat) (h : Handle) (a b : Arena α) : Prop :=
  ∃ m₁ n₁ m₂ n₂ u value, Moves view m₁ n₁ a u ∧ (u.insert value).1 = h ∧
    Moves view m₂ n₂ (u.insert value).2 b ∧ m₁ + 1 + m₂ = m ∧ n₁ + n₂ = n

theorem issuesFresh {view : α → β} {m n k : Nat} {h : Handle} {a b : Arena α}
    (issues : Issues view m n h a b) (exact : a.Exact) (young : a.Young k) (room : k + n < 2 ^ 32) :
    ¬a.Issued h ∧ b.Issued h := by
  obtain ⟨m₁,n₁,m₂,n₂,u,value,first,rfl,second,_,rfl⟩ := issues
  have before : k + n₁ < 2 ^ 32 := by omega
  have exact' := first.exact exact
  refine ⟨fun old => insertUnissued exact' value (first.issued young before exact old),?_⟩
  exact second.issued (youngInsert (first.stillYoung young before) value) (by omega)
    (insertExact exact' value) (insertIssued exact' value)

theorem Issues.moves {view : α → β} {m n : Nat} {h : Handle} {a b : Arena α}
    (issues : Issues view m n h a b) : Moves view m n a b := by
  obtain ⟨m₁,n₁,m₂,n₂,u,value,first,_,second,rfl,rfl⟩ := issues
  exact (first.insert value).trans second

theorem Issues.later {view : α → β} {m n m' n' : Nat} {h : Handle} {a b c : Arena α}
    (issues : Issues view m n h a b) (moves : Moves view m' n' b c) :
    Issues view (m + m') (n + n') h a c := by
  obtain ⟨m₁,n₁,m₂,n₂,u,value,first,handle,second,rfl,rfl⟩ := issues
  exact ⟨m₁,n₁,m₂ + m',n₂ + n',u,value,first,handle,second.trans moves,by omega,by omega⟩

theorem Issues.earlier {view : α → β} {m n m' n' : Nat} {h : Handle} {a b c : Arena α}
    (issues : Issues view m' n' h b c) (moves : Moves view m n a b) :
    Issues view (m + m') (n + n') h a c := by
  obtain ⟨m₁,n₁,m₂,n₂,u,value,first,handle,second,rfl,rfl⟩ := issues
  exact ⟨m + m₁,n + n₁,m₂,n₂,u,value,moves.trans first,handle,second,by omega,by omega⟩

end Arena

namespace SymbolTable

/-- So many symbols are put in and so many taken out between two tables; outlines stay. -/
def Turns (m n : Nat) (t t' : SymbolTable) : Prop :=
  Arena.Moves Symbol.outline m n t.symbols t'.symbols

theorem Turns.trans {m n m' n' : Nat} {t t' t'' : SymbolTable} (first : Turns m n t t')
    (second : Turns m' n' t' t'') : Turns (m + m') (n + n') t t'' :=
  Arena.Moves.trans first second

theorem turnsModify (t : SymbolTable) (p : Handle) {f : Body → Body}
    (bare : ∀ b, (f b).bare = b.bare) : Turns 0 0 t (t.modify p f) :=
  Arena.Moves.modify (.done _) p fun s => by simp [Symbol.outline,Symbol.mapBody,bare]

theorem turnsOptional (t : SymbolTable) (p : Option Handle) {f : Body → Body}
    (bare : ∀ b, (f b).bare = b.bare) : Turns 0 0 t (t.modify? p f) := by
  cases p with
  | none => exact .done _
  | some p => exact turnsModify t p bare

theorem turnsPlanted (t : SymbolTable) (s : Symbol) : Turns 1 0 t (t.planted s) :=
  (Arena.Moves.done t.symbols).insert s

theorem releaseMoves (symbols : Arena Symbol) (stack : List Handle) :
    ∃ n, Arena.Moves Symbol.outline 0 n symbols (release symbols stack) := by
  fun_induction release symbols stack with
  | case1 symbols stack found => exact ⟨0,.done symbols⟩
  | case2 symbols stack h s rest found fewer ih =>
    obtain ⟨n,moves⟩ := ih
    have first : Arena.Moves Symbol.outline 0 (0 + 1) symbols (symbols.erase h) :=
      .erase (.done symbols) (nextLiveGet found)
    exact ⟨0 + 1 + n,first.trans moves⟩

theorem turnsUnlink (t : SymbolTable) (h : Handle) : Turns 0 0 t (t.unlink h) := by
  unfold unlink
  split
  · exact .done _
  · split
    · exact .done _
    · exact (turnsModify t _ (by simp)).trans (turnsOptional _ _ (by simp))

theorem turnsRemove (t : SymbolTable) (h : Handle) : ∃ n, Turns 0 n t (t.remove h) := by
  obtain ⟨n,freed⟩ := releaseMoves (t.unlink h).symbols [h]
  exact ⟨0 + n,Arena.Moves.trans (turnsUnlink t h) freed⟩

theorem turnsRemoveAll (t : SymbolTable) (handles : List Handle) :
    ∃ n, Turns 0 n t (handles.foldl remove t) := by
  induction handles generalizing t with
  | nil => exact ⟨0,.done _⟩
  | cons h rest ih =>
    obtain ⟨n,first⟩ := turnsRemove t h
    obtain ⟨n',others⟩ := ih (t.remove h)
    exact ⟨n + n',first.trans others⟩

theorem turnsLink (t : SymbolTable) (p : Handle) (package : Option Handle) (s : Symbol) :
    Turns 0 0 (t.planted s) (t.link p package s).2 := by
  rw [linkTable]
  exact (turnsModify _ p (linkedBare _ _ _)).trans (turnsOptional _ package (by simp))

theorem issuesAttach {t t' : SymbolTable} {p h : Handle} {d : Draft}
    (ok : t.attach p d = .ok (h,t')) :
    ∃ n, Arena.Issues Symbol.outline 1 n h t.symbols t'.symbols := by
  obtain ⟨body,o,members,_,_,_,linked⟩ := attachCases ok
  obtain ⟨n,cleared⟩ := turnsRemoveAll t (t.replacedBy members d.kind d.name)
  have table : t' = _ := (congrArg Prod.snd linked).symm
  have handle : h = _ := (congrArg Prod.fst linked).symm
  rw [table,handle]
  exact ⟨n + 0,0,n,0,0,_,_,cleared,rfl,turnsLink _ p _ _,rfl,rfl⟩

namespace Edit

def attachCount (scope : Handle) (d : Draft) (t : SymbolTable) : Nat :=
  match t.attach scope d with
  | .ok _ => 1
  | .error _ => 0

def countThen (e : Edit α) (count : SymbolTable → Nat) (next : α → SymbolTable → Nat)
    (t : SymbolTable) : Nat :=
  count t + match e t with
    | .ok a t' => next a t'
    | .error _ _ => 0

def attachAllCount (scope : Handle) : List Draft → SymbolTable → Nat
  | [] => fun _ => 0
  | d :: rest =>
    countThen (attach scope d) (attachCount scope d) fun _ => attachAllCount scope rest

def methodCount (scope : Handle) (decl : MethodDecl) : SymbolTable → Nat :=
  countThen (attach scope (.ofMethod decl)) (attachCount scope (.ofMethod decl)) fun method =>
    let parameters := decl.parameters.map (.ofVariable .parameter)
    countThen (attachAll method parameters) (attachAllCount method parameters) fun _ =>
      attachAllCount method (decl.locals.map (.ofVariable .localVariable))

def outlineCount (scope : Handle) (outline : TypeOutline) (t : SymbolTable) : Nat :=
  if outline.kind.isTypeDecl then attachCount scope (.ofType outline) t else 0

mutual

def memberCount (scope : Handle) : MemberDecl → SymbolTable → Nat
  | .field decl => attachCount scope (.ofField decl)
  | .method decl => methodCount scope decl
  | .type outline members =>
    countThen (addOutline scope outline) (outlineCount scope outline) fun type =>
      membersCount type members

def membersCount (scope : Handle) : List MemberDecl → SymbolTable → Nat
  | [] => fun _ => 0
  | m :: rest =>
    countThen (addMember scope m) (memberCount scope m) fun _ => membersCount scope rest

end

def Counts (e : Edit α) (count : SymbolTable → Nat) : Prop :=
  ∀ t, ∃ n, Turns (count t) n t (after e t)

theorem countsPure (a : α) : Counts (pure a) fun _ => 0 := fun t => ⟨0,.done t.symbols⟩

theorem countsBind {e : Edit α} {count : SymbolTable → Nat} {f : α → Edit β}
    {next : α → SymbolTable → Nat} (first : Counts e count) (rest : ∀ a, Counts (f a) (next a)) :
    Counts (e >>= f) (countThen e count next) := by
  intro t
  obtain ⟨n,moves⟩ := first t
  rw [afterBind]
  unfold countThen
  unfold after at moves
  cases ran : e t with
  | ok a t' =>
    rw [ran] at moves
    obtain ⟨n',others⟩ := rest a t'
    exact ⟨n + n',moves.trans others⟩
  | error failure t' =>
    rw [ran] at moves
    exact ⟨n,moves⟩

theorem countsQuiet {e : Edit α} {count : SymbolTable → Nat} {f : α → Edit β} (counts : Counts e count)
    (quiet : ∀ a t, after (f a) t = t) : Counts (e >>= f) count := by
  intro t
  obtain ⟨n,moves⟩ := counts t
  refine ⟨n,?_⟩
  rw [afterBind]
  unfold after at moves
  cases ran : e t with
  | ok a t' =>
    simp only [ran] at moves ⊢
    exact (quiet a t').symm ▸ moves
  | error failure t' =>
    rw [ran] at moves
    exact moves

theorem countsAttach (scope : Handle) (d : Draft) :
    Counts (attach scope d) (attachCount scope d) := by
  intro t
  unfold after attach attachCount
  cases ran : t.attach scope d with
  | error failure => exact ⟨0,.done t.symbols⟩
  | ok result =>
    obtain ⟨n,issues⟩ := issuesAttach ran
    exact ⟨n,issues.moves⟩

theorem countsAttachAll (scope : Handle) (drafts : List Draft) :
    Counts (attachAll scope drafts) (attachAllCount scope drafts) := by
  induction drafts with
  | nil => exact countsPure ()
  | cons d rest ih => exact countsBind (countsAttach scope d) fun _ => ih

theorem countsMethod (scope : Handle) (decl : MethodDecl) :
    Counts (addMethod scope decl) (methodCount scope decl) :=
  countsBind (countsAttach scope _) fun method =>
    countsBind (countsAttachAll method _) fun _ =>
      countsQuiet (countsAttachAll method _) fun _ _ => rfl

theorem countsOutline (scope : Handle) (outline : TypeOutline) :
    Counts (addOutline scope outline) (outlineCount scope outline) := by
  intro t
  unfold addOutline outlineCount
  split
  · exact countsAttach scope _ t
  · exact ⟨0,.done t.symbols⟩

mutual

theorem countsMember (scope : Handle) :
    (m : MemberDecl) → Counts (addMember scope m) (memberCount scope m)
  | .field _ => countsQuiet (countsAttach scope _) fun _ _ => rfl
  | .method decl => countsQuiet (countsMethod scope decl) fun _ _ => rfl
  | .type outline members =>
    countsBind (countsOutline scope outline) fun type =>
      countsQuiet (countsMembers type members) fun _ _ => rfl

theorem countsMembers (scope : Handle) :
    (members : List MemberDecl) → Counts (addMembers scope members) (membersCount scope members)
  | [] => countsPure []
  | m :: rest =>
    countsBind (countsMember scope m) fun _ => countsQuiet (countsMembers scope rest) fun _ _ => rfl

end

theorem countsTypes (file : Handle) (span : Span) (types : List TypeDecl) :
    Counts (addTypes file span types)
      (membersCount file (types.map fun type => .type type.outline type.members)) := by
  refine countsQuiet (countsMembers file _) fun inner t => ?_
  cases SpanMap.ofList ((span,file) :: inner) <;> rfl

end Edit

theorem turnsUnlist (t : SymbolTable) (package : Handle) (members : Members) :
    Turns 0 0 t (unlistAll package t members) := turnsModify t package (Body.bareMembers _)

theorem turnsDrop (t : SymbolTable) (path : String) : ∃ n, Turns 0 n t (t.dropFile path).2 := by
  simp only [dropFile]
  split
  · exact ⟨0,.done t.symbols⟩
  · split
    · obtain ⟨n,removed⟩ := turnsRemove (unlistAll _ _ _) _
      exact ⟨0 + n,(turnsUnlist { t with files := t.files.erase _ } _ _).trans removed⟩
    · exact turnsRemove { t with files := t.files.erase _ } _

theorem turnsPackage (t : SymbolTable) (current : Handle) (names : List String) :
    ∃ m, Turns m 0 t (t.makePackage current names).2 := by
  induction names generalizing t current with
  | nil => exact ⟨0,.done t.symbols⟩
  | cons name rest ih =>
    simp only [makePackage]
    split
    · exact ⟨0,.done t.symbols⟩
    · rename_i parent live
      split
      · exact ih t _
      · have listed := turnsModify (t.planted (emptyPackage name current parent)) current
          (Body.bareSubpackages (·.insert name (t.slotFor (emptyPackage name current parent))))
        obtain ⟨m,others⟩ := ih _ _
        exact ⟨1 + 0 + m,((turnsPlanted t (emptyPackage name current parent)).trans listed).trans others⟩

def packageCount (t : SymbolTable) (decl : FileDecl) : Nat :=
  (t.makePackage t.root decl.package).2.symbols.live - t.symbols.live

theorem issuesStart {t : SymbolTable} (c : t.Consistent) (path : String) (decl : FileDecl) :
    Arena.Issues Symbol.outline (t.packageCount decl + 1) 0 (t.startFile path decl).1 t.symbols
      (t.startFile path decl).2.symbols := by
  obtain ⟨m,packed⟩ := turnsPackage t t.root decl.package
  have made : t.packageCount decl = m := by
    have balance := packed.balance c.store
    unfold packageCount
    omega
  obtain ⟨root,live,isPackage,_⟩ := c.root
  obtain ⟨_,_,o,owner,_⟩ := makePackageSteps (fun _ _ => True) c live isPackage decl.package
    fun _ _ _ => trivial
  rw [made,startFileMade owner]
  exact ⟨m,0,0,0,_,_,packed,rfl,turnsModify (planted _ (emptyFile path decl _ o)) _
    (Body.bareFiles _),rfl,rfl⟩

def fileCount (t : SymbolTable) (decl : FileDecl) : Nat :=
  if decl.span.isInverted then 0
  else
    let path := Path.normalize decl.path
    let cleared := (t.dropFile path).2
    let (file,started) := cleared.startFile path decl
    cleared.packageCount decl + 1 +
      Edit.membersCount file (decl.types.map fun type => .type type.outline type.members) started

def fileHandle (t : SymbolTable) (decl : FileDecl) : Handle :=
  ((t.dropFile (Path.normalize decl.path)).2.startFile (Path.normalize decl.path) decl).1

theorem issuesPut {t : SymbolTable} (c : t.Consistent) {decl : FileDecl} (upright : ¬decl.span.isInverted) :
    ∃ n, Arena.Issues Symbol.outline (t.fileCount decl) n (t.fileHandle decl)
      (t.dropFile (Path.normalize decl.path)).2.symbols (t.putFile decl).2.symbols := by
  have steps := dropFileSteps (fun _ _ => True) c (Path.normalize decl.path)
  have started := issuesStart (steps.consistent c) (Path.normalize decl.path) decl
  unfold fileCount putFile fileHandle
  rw [if_neg upright,if_neg upright]
  dsimp only
  generalize (t.dropFile (Path.normalize decl.path)).2 = cleared at *
  generalize cleared.startFile (Path.normalize decl.path) decl = begun at *
  obtain ⟨file,table⟩ := begun
  obtain ⟨n',types⟩ := Edit.countsTypes file decl.span decl.types table
  have added := started.later types
  unfold Edit.after at added
  split at added
  · rename_i scopes t' ran
    simp only [ran]
    exact ⟨_,added.later (turnsModify t' file (by simp))⟩
  · rename_i failure t' ran
    simp only [ran]
    obtain ⟨n'',undone⟩ := turnsDrop t' (Path.normalize decl.path)
    exact ⟨_,added.later undone⟩

theorem issuesFile {t : SymbolTable} (c : t.Consistent) {decl : FileDecl}
    (upright : ¬decl.span.isInverted) :
    ∃ n, Arena.Issues Symbol.outline (t.fileCount decl) n (t.fileHandle decl) t.symbols
      (t.putFile decl).2.symbols := by
  obtain ⟨n,dropped⟩ := turnsDrop t (Path.normalize decl.path)
  obtain ⟨n',put⟩ := issuesPut c upright
  have issues := put.earlier dropped
  rw [Nat.zero_add] at issues
  exact ⟨n + n',issues⟩

theorem putFileHandle {t : SymbolTable} {decl : FileDecl} {h : Handle}
    (ok : (t.putFile decl).1 = .ok h) : t.fileHandle decl = h := by
  unfold putFile at ok
  split at ok
  · cases ok
  · dsimp only at ok
    split at ok
    · exact Except.ok.inj ok
    · cases ok

end SymbolTable

namespace Codebase

def insertions (c : Codebase) : Change → Nat
  | .putFile decl => c.table.fileCount decl
  | .dropFile _ => 0
  | .attach scope draft => SymbolTable.Edit.attachCount scope draft c.table
  | .addDependency _ => 0

def removals (c : Codebase) (change : Change) : Nat :=
  c.table.symbols.live + c.insertions change - (c.apply change).2.table.symbols.live

def moves (c : Codebase) : List Change → Nat
  | [] => 0
  | change :: rest => c.insertions change + c.removals change + (c.apply change).2.moves rest

def returned (c : Codebase) : List Change → List Handle
  | [] => []
  | change :: rest => (c.apply change).1.toList ++ (c.apply change).2.returned rest

theorem applyTurns (c : Codebase) (consistent : c.table.Consistent) (change : Change) :
    ∃ n, SymbolTable.Turns (c.insertions change) n c.table (c.apply change).2.table ∧
      ∀ h, (c.apply change).1 = some h → Arena.Issues Symbol.outline (c.insertions change) n h
        c.table.symbols (c.apply change).2.table.symbols := by
  cases change with
  | putFile decl =>
    by_cases inverted : decl.span.isInverted
    · have same : c.table.putFile decl = (.error _,c.table) := if_pos inverted
      have none : c.insertions (.putFile decl) = 0 := if_pos inverted
      simp only [none,apply,putFile,same]
      exact ⟨0,.done c.table.symbols,fun h given => by cases given⟩
    · obtain ⟨n,issues⟩ := SymbolTable.issuesFile consistent inverted
      refine ⟨n,issues.moves,fun h given => ?_⟩
      cases ran : (c.table.putFile decl).1 with
      | error failure => simp [apply,putFile,ran,Except.map,Except.toOption] at given
      | ok file =>
        have same : file = h := by
          simpa [apply,putFile,ran,Except.map,Except.toOption,ref] using given
        rw [← same,← SymbolTable.putFileHandle ran]
        exact issues
  | dropFile path =>
    obtain ⟨n,dropped⟩ := SymbolTable.turnsDrop c.table path
    exact ⟨n,dropped,fun h given => by cases given⟩
  | attach scope draft =>
    simp only [insertions,SymbolTable.Edit.attachCount,applyAttach]
    cases ran : c.table.attach scope draft with
    | error failure => exact ⟨0,.done c.table.symbols,fun h given => by cases given⟩
    | ok result =>
      obtain ⟨n,issues⟩ := SymbolTable.issuesAttach ran
      refine ⟨n,issues.moves,fun h given => ?_⟩
      cases Option.some.inj given
      exact issues
  | addDependency dependency =>
    rw [applyDependency]
    exact ⟨0,.done c.table.symbols,fun h given => by cases given⟩

theorem removalsCounted {c : Codebase} (consistent : c.table.Consistent) {change : Change} {n : Nat}
    (turns : SymbolTable.Turns (c.insertions change) n c.table (c.apply change).2.table) :
    c.removals change = n := by
  have balance := turns.balance consistent.store
  unfold removals
  omega

theorem putFileRemovals {c : Codebase} (consistent : c.table.Consistent) {decl : FileDecl}
    (upright : ¬decl.span.isInverted) : ∃ n n',
      SymbolTable.Turns 0 n c.table (c.table.dropFile (Path.normalize decl.path)).2 ∧
      Arena.Issues Symbol.outline (c.insertions (.putFile decl)) n' (c.table.fileHandle decl)
        (c.table.dropFile (Path.normalize decl.path)).2.symbols (c.apply (.putFile decl)).2.table.symbols ∧
      c.removals (.putFile decl) = n + n' := by
  obtain ⟨n,dropped⟩ := SymbolTable.turnsDrop c.table (Path.normalize decl.path)
  obtain ⟨n',put⟩ := SymbolTable.issuesPut consistent upright
  have issues := put.earlier dropped
  rw [Nat.zero_add] at issues
  exact ⟨n,n',dropped,put,removalsCounted consistent issues.moves⟩

theorem applyMoves (c : Codebase) (consistent : c.table.Consistent) (change : Change) :
    SymbolTable.Turns (c.insertions change) (c.removals change) c.table (c.apply change).2.table ∧
      ∀ h, (c.apply change).1 = some h → Arena.Issues Symbol.outline (c.insertions change)
        (c.removals change) h c.table.symbols (c.apply change).2.table.symbols := by
  obtain ⟨n,turns,issues⟩ := applyTurns c consistent change
  rw [removalsCounted consistent turns]
  exact ⟨turns,issues⟩

theorem applyConsistent (c : Codebase) (consistent : c.table.Consistent) (change : Change) :
    (c.apply change).2.table.Consistent := (applySteps c consistent change).consistent consistent

theorem runMoves (c : Codebase) (consistent : c.table.Consistent) (changes : List Change) :
    ∃ m n, SymbolTable.Turns m n c.table (c.run changes).table ∧ m + n = c.moves changes := by
  induction changes generalizing c with
  | nil => exact ⟨0,0,.done c.table.symbols,rfl⟩
  | cons change rest ih =>
    have first := (applyMoves c consistent change).1
    obtain ⟨m,n,others,total⟩ := ih _ (applyConsistent c consistent change)
    refine ⟨_,_,first.trans others,?_⟩
    unfold moves
    omega

theorem runAppend (c : Codebase) (first second : List Change) :
    c.run (first ++ second) = (c.run first).run second := List.foldl_append

theorem movesAppend (c : Codebase) (first second : List Change) :
    c.moves (first ++ second) = c.moves first + (c.run first).moves second := by
  induction first generalizing c with
  | nil => simp [moves,run]
  | cons change rest ih =>
    have others := ih (c.apply change).2
    simp only [List.cons_append,moves,others]
    simp only [run,List.foldl_cons,Nat.add_assoc]

theorem returnedFresh (c : Codebase) (consistent : c.table.Consistent) {k : Nat}
    (young : c.table.symbols.Young k) (changes : List Change) (room : k + c.moves changes < 2 ^ 32) :
    (∀ h ∈ c.returned changes, ¬c.table.symbols.Issued h) ∧ (c.returned changes).Nodup := by
  induction changes generalizing c k with
  | nil => exact ⟨fun _ => List.not_mem_nil.elim,List.nodup_nil⟩
  | cons change rest ih =>
    obtain ⟨turns,issues⟩ := applyMoves c consistent change
    unfold moves at room
    have first : k + c.removals change < 2 ^ 32 := by omega
    obtain ⟨later,once⟩ := ih _ (applyConsistent c consistent change)
      (turns.stillYoung young first) (by omega)
    have others : ∀ h ∈ (c.apply change).2.returned rest, ¬c.table.symbols.Issued h :=
      fun h listed old => later h listed (turns.issued young first consistent.store old)
    unfold returned
    cases given : (c.apply change).1 with
    | none => exact ⟨others,once⟩
    | some new =>
      obtain ⟨unused,used⟩ := Arena.issuesFresh (issues new given) consistent.store young first
      refine ⟨fun h listed => ?_,List.nodup_cons.mpr ⟨fun again => later new again used,once⟩⟩
      rcases List.mem_cons.mp listed with rfl | inside
      · exact unused
      · exact others h inside

theorem runBetween (c : Codebase) (consistent : c.table.Consistent) (young : c.table.symbols.Young 0)
    {changes first second : List Change} (few : c.moves changes < 2 ^ 32) (before : first <+: second)
    (inside : second <+: changes) :
    ∃ k m n, (c.run first).table.Consistent ∧ (c.run first).table.symbols.Young k ∧
      SymbolTable.Turns m n (c.run first).table (c.run second).table ∧ k + n < 2 ^ 32 := by
  obtain ⟨middle,rfl⟩ := before
  obtain ⟨rest,rfl⟩ := inside
  rw [movesAppend,movesAppend] at few
  obtain ⟨m₁,n₁,early,total₁⟩ := runMoves c consistent first
  have consistent' := runConsistent c consistent first
  obtain ⟨m₂,n₂,late,total₂⟩ := runMoves (c.run first) consistent' middle
  refine ⟨0 + n₁,m₂,n₂,consistent',early.stillYoung young (by omega),?_,by omega⟩
  rw [runAppend]
  exact late

structure Unaliased (start : Codebase) (changes : List Change) : Prop where
  once : (start.returned changes).Nodup
  unused : ∀ before rest, before ++ rest = changes → ∀ h ∈ (start.run before).returned rest,
    (start.run before).table.symbol? h = none
  final : ∀ first second third, first <+: second → second <+: third → third <+: changes → ∀ h,
    ((start.run first).table.symbol? h).isSome → (start.run second).table.symbol? h = none →
      (start.run third).table.symbol? h = none
  steady : ∀ first second, first <+: second → second <+: changes → ∀ h s s',
    (start.run first).table.symbol? h = some s → (start.run second).table.symbol? h = some s' →
      s'.name = s.name ∧ s'.kind = s.kind ∧ s'.isStatic = s.isStatic ∧ s'.span = s.span ∧
        s'.qualifiers = s.qualifiers ∧ s'.parent = s.parent

theorem emptyYoung : SymbolTable.empty.symbols.Young 0 := by
  intro i slot found
  have only : SymbolTable.empty.symbols.slots = #[⟨0,some SymbolTable.emptyRoot⟩] := rfl
  rw [only] at found
  have listed := List.mem_of_getElem? (Array.getElem?_toList ▸ found)
  simp at listed
  simp [listed]

/-- A run of fewer than 2^32 moves never gives out a handle twice. -/
theorem runUnaliased (id : Nat) (name : String) (language : Language) (settings : Settings)
    (changes : List Change) (few : moves { id, name, language, settings } changes < 2 ^ 32) :
    Unaliased { id, name, language, settings } changes := by
  have consistent := SymbolTable.emptyConsistent
  refine ⟨(returnedFresh _ consistent emptyYoung changes (by omega)).2,?_,?_,?_⟩
  · rintro before rest rfl h listed
    rw [movesAppend] at few
    obtain ⟨m,n,turns,total⟩ := runMoves { id, name, language, settings } consistent before
    have unissued := (returnedFresh _ (runConsistent _ consistent before)
      (turns.stillYoung emptyYoung (k := 0) (by omega)) rest (by omega)).1 h listed
    exact Option.eq_none_iff_forall_ne_some.mpr fun s live => unissued (.inr ⟨s,live⟩)
  · intro first second third early late inside h live gone
    obtain ⟨s,live⟩ := Option.isSome_iff_exists.mp live
    obtain ⟨k,m,n,consistent₁,young,turns,room⟩ :=
      runBetween _ consistent emptyYoung few early (late.trans inside)
    obtain ⟨k',m',n',_,young',turns',room'⟩ := runBetween _ consistent emptyYoung few late inside
    rcases turns.fate young room consistent₁.store live with retired | ⟨s',live',_⟩
    · exact Arena.retiredDead (turns'.retired young' room' retired)
    · cases live'.symm.trans gone
  · intro first second early inside h s s' live live'
    obtain ⟨k,m,n,consistent₁,young,turns,room⟩ :=
      runBetween _ consistent emptyYoung few early inside
    rcases turns.fate young room consistent₁.store live with retired | ⟨s'',live'',same⟩
    · cases (Arena.retiredDead retired).symm.trans live'
    · cases Option.some.inj (live''.symm.trans live')
      exact ⟨Symbol.nameOutline same,Symbol.kindOutline same,Symbol.staticOutline same,
        Symbol.spanOutline same,Symbol.qualifiersOutline same,Symbol.parentOutline same⟩

def pointTwice : List Change :=
  let point : FileDecl :=
    { path := "src/Point.java", package := ["geometry"]
      types := [{ outline := { name := "Point", kind := .type .classType } }] }
  [.putFile point,.putFile point,.dropFile "src/Point.java"]

theorem pointTwiceUnaliased :
    moves { id := 0, name := "app", language := .bare, settings := default } pointTwice = 9 ∧
    Unaliased { id := 0, name := "app", language := .bare, settings := default } pointTwice :=
  ⟨by decide +kernel,runUnaliased 0 "app" .bare default pointTwice (by decide +kernel)⟩

end Codebase
end CodeIndex
