import CodeIndex.Proofs.Surveys

/-! Scopes that are gone. A file keeps the innermost scope of every offset as it was when the file was indexed.
Where that scope was replaced since, or by a later declaration of the same file, the scope at the offset is
the file, even if other declarations around the offset are still there. -/
namespace CodeIndex

@[simp] theorem Body.scopesOnly (keep : Handle → Bool) (b : Body) : (b.only keep).scopes = b.scopes := by
  simp [Body.only]

namespace SymbolTable

theorem Retains.scopes {t t' : SymbolTable} {keep : Handle → Bool} (retains : Retains keep t t') {f : Handle}
    (kept : keep f) {s s' : Symbol} (live : t.symbol? f = some s) (live' : t'.symbol? f = some s') :
    s'.body.scopes = s.body.scopes := by
  have same := retains f kept
  rw [live,live',Option.map_some,Option.map_some] at same
  have bodies := congrArg (·.body.scopes) (Option.some.inj same)
  simpa [Symbol.mapBody] using bodies

theorem dropScopes {t : SymbolTable} (c : t.Consistent) {f : Handle} {s s' : Symbol}
    (live : t.symbol? f = some s) {path : String} (live' : (t.dropFile path).2.symbol? f = some s') :
    s'.body.scopes = s.body.scopes := by
  cases found : t.files.get? (Path.normalize path) with
  | none =>
    have same : (t.dropFile path).2 = t := by simp [dropFile,found]
    rw [same] at live'
    rw [Option.some.inj (live.symm.trans live')]
  | some file =>
    have outside := ((dropFilePrunes c found).live live').1
    have retains : Retains (· = f) t (t.dropFile path).2 :=
      c.retainsDrop found fun x within => decide_eq_false fun same => outside (same ▸ within)
    exact retains.scopes (by simp) live live'

section

variable {t t' : SymbolTable} (c : t.Consistent) {f : Handle} {s : Symbol} (live : t.symbol? f = some s)
  (isFile : s.kind = .file)
include c live isFile

theorem Consistent.fileOutside {p y : Handle} {name : String} (listed : y ∈ t.declared p name) :
    ¬t.Within y f := by
  intro within
  cases owner : t.symbol? p with
  | none =>
    have none : t.declared p name = [] := by
      simp only [declared,membersOf,owner]
      rfl
    simp [none] at listed
  | some o =>
    rw [declaredShelf owner] at listed
    obtain ⟨sy,there⟩ := ((c.listed owner _ y).mp listed).live
    obtain ⟨package,file⟩ := c.memberKind owner listed there
    cases c.noFileWithin there package within live isFile
    cases Option.some.inj (live.symm.trans there)
    exact file isFile

theorem attachScopes {p h : Handle} {d : Draft} (ok : t.attach p d = .ok (h,t')) {s' : Symbol}
    (live' : t'.symbol? f = some s') : s'.body.scopes = s.body.scopes := by
  have apart : ∀ y ∈ t.declared p d.name, ¬t.Within y f := fun y => c.fileOutside live isFile
  obtain ⟨body,o,members,gone,o',checked,owner,scope,prunes,cleared,_,_,grows⟩ := attachClears c ok
  have other : h ≠ f := by
    rintro rfl
    obtain ⟨s₁,live₁,_⟩ := prunes.stays live fun lost => by
      obtain ⟨y,listed,within⟩ := cleared h lost
      refine apart y ?_ within
      rw [declaredShelf owner,← underShelf scope]
      exact (memReplaced.mp listed).2.1
    simp [grows.fresh] at live₁
  have retains : Retains (· = f) t t' := c.retainsAttach ok (decide_eq_false other)
    fun y listed x within => decide_eq_false fun same => apart y listed (same ▸ within)
  exact retains.scopes (by simp) live live'

end

theorem putFileStays {t : SymbolTable} (c : t.Consistent) (stocked : t.Stocked) {decl : FileDecl}
    (upright : ¬decl.span.isInverted) : InnerStay (t.dropFile (Path.normalize decl.path)).2 (t.putFile decl).2 := by
  intro x s live plain
  have hosts := putFileHosts c stocked upright
  cases put : (t.putFile decl).1 with
  | ok file => exact (putFileIndexes c put).others live plain
  | error failure =>
    rw [put] at hosts
    have cleared := (dropFileSteps (fun _ _ => True) c (Path.normalize decl.path)).consistent c
    obtain ⟨root,top,isPackage,_⟩ := cleared.root
    have paves := makePackagePaves cleared top isPackage decl.package
    rw [hosts.symbols,site,← dropFileNormal]
    exact paves.others live plain

def fileSpans (t : SymbolTable) (file : Handle) (decl : FileDecl) : List (Span × Option Handle) :=
  (decl.span,some file) :: spansOf (t.standingsAll (some file) decl.members)

section

variable {t t' : SymbolTable} {file : Handle} {decl : FileDecl} {inner : List (Span × Handle)} {m n k : Nat}
  {o : Symbol}

theorem Surveyed.spans (surveyed : t.Surveyed file decl inner) :
    t.fileSpans file decl = t.leftOf ((decl.span,file) :: inner) := by
  obtain ⟨o,live,_⟩ := surveyed.kept
  have alive : t.isLive file := by simp [liveSome,live]
  rw [fileSpans,surveyed.stands]
  simp [leftOf,Option.filter,alive]

theorem Surveyed.nested (surveyed : t.Surveyed file decl inner) (nested : decl.Nested) :
    SpanMap.Nested ((decl.span,file) :: inner) := by
  refine SpanMap.Nested.relabel nested ?_
  have declared := congrArg (List.map Prod.fst) surveyed.stands
  simp only [spansOf,leftOf,List.map_map] at declared
  have spans := (standingsAllSpans t decl.members (some file)).symm.trans declared
  rw [FileDecl.spans,spans]
  simp

theorem Surveyed.later (surveyed : t.Surveyed file decl inner) (turns : Turns m n t t')
    (young : t.symbols.Young k) (room : k + n < 2 ^ 32) {e : Span × Handle}
    (listed : e ∈ (decl.span,file) :: inner) :
    ((some e.2).filter t.isLive).filter t'.isLive = (some e.2).filter t'.isLive := by
  cases alive : t.isLive e.2 with
  | true => simp [Option.filter,alive]
  | false =>
    have issued : t.symbols.Issued e.2 := by
      rcases List.mem_cons.mp listed with self | inside
      · obtain ⟨o,live,_⟩ := surveyed.kept
        exact .inr ⟨o,by rw [self]; exact live⟩
      · exact surveyed.issued e inside
    have dead := liveNot.mpr (Arena.retiredDead (turns.retired young room (issuedDead issued alive)))
    simp [Option.filter,alive,dead]

theorem Surveyed.scopeAt (surveyed : t.Surveyed file decl inner) (nested : decl.Nested)
    (turns : Turns m n t t') (young : t.symbols.Young k) (room : k + n < 2 ^ 32)
    (indexed : t'.files.get? (Path.normalize decl.path) = some file) (live : t'.symbol? file = some o)
    (isFile : o.kind = .file) (scopes : SpanMap.ofList ((decl.span,file) :: inner) = .ok o.body.scopes)
    (offset : UInt32) : ∃ h, t'.scopeAt? decl.path offset = some h ∧
      ((∃ span x, SpanMap.InnermostAt (t.fileSpans file decl) offset span x ∧
          h = (x.filter t'.isLive).getD file) ∨
        (∀ e ∈ t.fileSpans file decl, ¬e.1.contains offset) ∧ h = file) := by
  rw [scopeAtFile indexed live isFile,SpanMap.atReading scopes,surveyed.spans]
  cases found : SpanMap.reading ((decl.span,file) :: inner) offset with
  | none =>
    refine ⟨file,rfl,.inr ⟨fun e listed => ?_,rfl⟩⟩
    obtain ⟨e,there,rfl⟩ := List.mem_map.mp listed
    exact (SpanMap.readingNone _ _).mp found e there
  | some e =>
    have innermost := SpanMap.readingInnermost (surveyed.nested nested) found
    refine ⟨_,rfl,.inl ⟨e.1,_,innermost.map fun h => (some h).filter t.isLive,?_⟩⟩
    rw [surveyed.later turns young room (SpanMap.readingListed found)]
    rfl

end

theorem fileSpansInner {t : SymbolTable} {file : Handle} {decl : FileDecl} {o : Symbol}
    (live : t.symbol? file = some o) (isFile : o.kind = .file)
    (carries : t.Carries file (MemberDecl.plans decl.members)) (span : Span) :
    (span,some file) ∉ spansOf (t.standingsAll (some file) decl.members) := by
  intro listed
  obtain ⟨⟨d,h⟩,stands,same⟩ := List.mem_map.mp listed
  obtain ⟨_,rfl⟩ := Prod.mk.inj same
  obtain ⟨q,mirrors⟩ := carries.stands (standsMembers decl.members) stands
  obtain ⟨s,live',fits⟩ := mirrors.held
  cases Option.some.inj (live.symm.trans live')
  exact fits.inner.2 isFile

theorem fileInnermost {t : SymbolTable} {file : Handle} {decl : FileDecl} {o : Symbol}
    (live : t.symbol? file = some o) (isFile : o.kind = .file)
    (carries : t.Carries file (MemberDecl.plans decl.members)) {span : Span} {offset : UInt32}
    (innermost : SpanMap.InnermostAt (t.fileSpans file decl) offset span (some file))
    {e : Span × Option Handle} (listed : e ∈ spansOf (t.standingsAll (some file) decl.members))
    (around : e.1.contains offset) : ¬decl.span.covers e.1 := by
  intro covered
  have notInner := fileSpansInner live isFile carries
  have own : span = decl.span := by
    rcases List.mem_cons.mp innermost.listed with self | inside
    · exact congrArg Prod.fst self
    · exact (notInner span inside).elim
  have same : e.1 = span :=
    Span.coversAntisymm (innermost.smallest e (List.mem_cons_of_mem _ listed) around) (own ▸ covered)
  have last := innermost.last
  have there : e ∈ (spansOf (t.standingsAll (some file) decl.members)).filter (·.1 = span) :=
    List.mem_filter.mpr ⟨listed,by simpa using same⟩
  rw [fileSpans,List.filter_cons_of_pos (by simp [own]),List.getLast?_cons_of_ne_nil (List.ne_nil_of_mem there)] at last
  exact notInner span (List.mem_of_mem_filter (List.mem_of_getLast? last))

end SymbolTable

namespace Codebase

section

variable {c : Codebase} (consistent : c.table.Consistent) (stocked : c.table.Stocked) {k : Nat}
  (young : c.table.symbols.Young k) {f : Handle} {s s' : Symbol} (live : c.table.symbol? f = some s)
  (isFile : s.kind = .file)
include consistent stocked young live isFile

theorem applyScopes (change : Change) (room : k + c.removals change < 2 ^ 32)
    (live' : (c.apply change).2.table.symbol? f = some s') : s'.body.scopes = s.body.scopes := by
  have still : c.table.symbol? f = some s' → s'.body.scopes = s.body.scopes := by
    intro live'
    rw [Option.some.inj (live.symm.trans live')]
  cases change with
  | putFile decl =>
    by_cases inverted : decl.span.isInverted
    · have same : c.table.putFile decl = (.error _,c.table) := if_pos inverted
      simp only [apply,putFile,same] at live'
      exact still live'
    · obtain ⟨n,n',dropped,put,counted⟩ := putFileRemovals consistent inverted
      rcases dropped.fate young (by omega) consistent.store live with retired | ⟨s₁,live₁,same⟩
      · -- The handle of the version before is not given out again.
        have young' := dropped.stillYoung young (by omega)
        cases (Arena.retiredDead (put.moves.retired young' (by omega) retired)).symm.trans live'
      · have plain : s₁.kind ≠ .package := by
          simp [Symbol.kindOutline same,isFile]
        have stays := SymbolTable.putFileStays consistent stocked inverted live₁ plain
        cases Option.some.inj (stays.symm.trans live')
        exact SymbolTable.dropScopes consistent live live₁
  | dropFile path => exact SymbolTable.dropScopes consistent live live'
  | attach scope draft =>
    rw [applyAttach] at live'
    cases ran : c.table.attach scope draft with
    | error failure =>
      rw [ran] at live'
      exact still live'
    | ok result =>
      rw [ran] at live'
      exact SymbolTable.attachScopes consistent live isFile ran live'
  | addDependency dependency =>
    rw [applyDependency] at live'
    exact still live'

end

theorem runScopes {c : Codebase} (consistent : c.table.Consistent) (stocked : c.table.Stocked) {k : Nat}
    (young : c.table.symbols.Young k) (changes : List Change) (room : k + c.moves changes < 2 ^ 32) {f : Handle}
    {s s' : Symbol} (live : c.table.symbol? f = some s) (isFile : s.kind = .file)
    (live' : (c.run changes).table.symbol? f = some s') : s'.body.scopes = s.body.scopes := by
  induction changes generalizing c k s with
  | nil => rw [Option.some.inj (live.symm.trans live')]
  | cons change rest ih =>
    have consistent' := applyConsistent c consistent change
    obtain ⟨turns,_⟩ := applyMoves c consistent change
    obtain ⟨m,n,others,total⟩ := runMoves (c.apply change).2 consistent' rest
    unfold moves at room
    have young' := turns.stillYoung young (by omega)
    rcases turns.fate young (by omega) consistent.store live with retired | ⟨s₁,live₁,same⟩
    · cases (Arena.retiredDead (others.retired young' (by omega) retired)).symm.trans live'
    · have first := applyScopes consistent stocked young live isFile change (by omega) live₁
      rw [← first]
      exact ih consistent' (applyStocked consistent stocked change) young' (by omega) live₁
        ((Symbol.kindOutline same).trans isFile) live'

theorem runSurveyed {c : Codebase} (consistent : c.table.Consistent) (young : c.table.symbols.Young 0)
    {before later : List Change} {decl : FileDecl} (few : c.moves (before ++ .putFile decl :: later) < 2 ^ 32)
    {file : Handle} (put : ((c.run before).table.putFile decl).1 = .ok file) :
    ∃ inner k, ((c.run before).putFile decl).2.table.Surveyed file decl inner ∧
      ((c.run before).putFile decl).2.table.symbols.Young k ∧
      k + ((c.run before).putFile decl).2.moves later < 2 ^ 32 := by
  have consistent' := runConsistent c consistent before
  obtain ⟨m,n,turns,total⟩ := runMoves c consistent before
  obtain ⟨n',turns',surveyed⟩ := SymbolTable.putFileSurveyed consistent' put
  have counted : (c.run before).removals (.putFile decl) = n' := removalsCounted consistent' turns'
  simp only [movesAppend,moves,counted,apply] at few
  have young' := turns.stillYoung young (by omega)
  obtain ⟨inner,surveyed⟩ := surveyed _ young' (by omega)
  exact ⟨inner,0 + n + n',surveyed,turns'.stillYoung young' (by omega),by omega⟩

/-- After every run of fewer than 2^32 moves that indexed a file with nested spans and left it there, the scope
at an offset is what stood for the innermost declaration around it, the last one of those with the same span.
If that is gone, or if there was none, the scope is the file. So a declaration that lies in the span of the file
is passed over for the file only around one that is gone. -/
theorem replacedScopes (id : Nat) (name : String) (language : Language) (settings : Settings)
    (before later : List Change) (decl : FileDecl) (file : SymbolRef) :
    let c := run { id, name, language, settings } before
    let t := (c.putFile decl).2.table
    let t' := (run (c.putFile decl).2 later).table
    moves { id, name, language, settings } (before ++ .putFile decl :: later) < 2 ^ 32 →
    (c.putFile decl).1 = .ok file → decl.Nested →
    t'.files.get? (Path.normalize decl.path) = some file.handle → ∀ offset,
    (∃ h, t'.scopeAt? decl.path offset = some h ∧
      ((∃ span x, SpanMap.InnermostAt (t.fileSpans file.handle decl) offset span x ∧
          h = (x.filter t'.isLive).getD file.handle) ∨
        (∀ e ∈ t.fileSpans file.handle decl, ¬e.1.contains offset) ∧ h = file.handle)) ∧
    (t'.scopeAt? decl.path offset = some file.handle →
      ∀ m h, (m,some h) ∈ t.standingsAll (some file.handle) decl.members →
        m.draft.span.contains offset → decl.span.covers m.draft.span →
        ∃ span x, SpanMap.InnermostAt (t.fileSpans file.handle decl) offset span x ∧
          x.filter t'.isLive = none) := by
  intro c t t' few ok nested indexed offset
  have consistent : c.table.Consistent := runConsistent _ SymbolTable.emptyConsistent before
  have stocked : c.table.Stocked := runStocked SymbolTable.emptyConsistent SymbolTable.emptyStocked before
  have consistent₁ : t.Consistent := applyConsistent c consistent (.putFile decl)
  have stocked₁ : t.Stocked := applyStocked consistent stocked (.putFile decl)
  have consistent' : t'.Consistent := runConsistent _ consistent₁ later
  obtain ⟨f,put,rfl⟩ := putFileTable ok
  obtain ⟨inner,k,surveyed,young,left⟩ := runSurveyed SymbolTable.emptyConsistent emptyYoung few put
  have room : k + (c.putFile decl).2.moves later < 2 ^ 32 := left
  obtain ⟨m,n,turns,total⟩ := runMoves (c.putFile decl).2 consistent₁ later
  obtain ⟨s,live,isFile,listed⟩ := surveyed.kept
  obtain ⟨s',live',isFile',_⟩ := (consistent'.indexed _ f).mp indexed
  rw [← runScopes consistent₁ stocked₁ young later room live isFile live'] at listed
  have which := surveyed.scopeAt nested turns young (by omega) indexed live' isFile' listed offset
  refine ⟨which,fun found d h stands around covered => ?_⟩
  have declared : (d.draft.span,some h) ∈ SymbolTable.spansOf (t.standingsAll (some f) decl.members) :=
    List.mem_map.mpr ⟨(d,some h),stands,rfl⟩
  obtain ⟨h',found',⟨span,x,innermost,is⟩ | ⟨outside,_⟩⟩ := which
  · refine ⟨span,x,innermost,Option.eq_none_iff_forall_ne_some.mpr fun y left => ?_⟩
    cases Option.some.inj (found.symm.trans found')
    rw [left,Option.getD_some] at is
    obtain ⟨rfl,_⟩ := Option.filter_eq_some_iff.mp left
    have carries := (SymbolTable.putFileIndexes consistent put).indexed.carries
    exact SymbolTable.fileInnermost live isFile carries (is ▸ innermost) declared around covered
  · exact (outside _ (List.mem_cons_of_mem _ declared) around).elim

def atlasOutline : TypeOutline := { name := "Atlas", kind := .type .classType, span := ⟨0,100⟩ }

def atlasPage (span : Span) : TypeOutline := { name := "Page", kind := .type .classType, span }

def atlasFile : FileDecl where
  path := "maps/Atlas.java"
  package := ["maps"]
  span := ⟨0,120⟩
  types := [{ outline := atlasOutline
              members := [.type (atlasPage ⟨10,20⟩) [],.type (atlasPage ⟨30,40⟩) []] }]

def atlasApp : Codebase := ((ledgerApp []).putFile atlasFile).2

theorem atlasStands :
    (.type atlasOutline [.type (atlasPage ⟨10,20⟩) [],.type (atlasPage ⟨30,40⟩) []],some ⟨3,0⟩) ∈
      atlasApp.table.standingsAll (some ⟨2,0⟩) atlasFile.members := by
  have type : atlasApp.table.standing? ⟨2,0⟩
      (.type atlasOutline [.type (atlasPage ⟨10,20⟩) [],.type (atlasPage ⟨30,40⟩) []]) [] = some ⟨3,0⟩ := by
    decide +kernel
  simp [atlasFile,FileDecl.members,SymbolTable.standingsAll,SymbolTable.standings,type]

theorem atlasPassedOver : ((ledgerApp []).putFile atlasFile).1 = .ok ⟨0,⟨2,0⟩⟩ ∧ atlasFile.Nested ∧
    atlasApp.table.files.get? (Path.normalize atlasFile.path) = some ⟨2,0⟩ ∧
    atlasApp.table.scopeAt? atlasFile.path 15 = some ⟨2,0⟩ ∧
    ∃ m, (m,some ⟨3,0⟩) ∈ atlasApp.table.standingsAll (some ⟨2,0⟩) atlasFile.members ∧
      atlasApp.table.isLive ⟨3,0⟩ ∧ m.draft.span.contains 15 :=
  ⟨by decide +kernel,by decide +kernel,by decide +kernel,by decide +kernel,_,atlasStands,by decide +kernel,
    by decide⟩

def atlasAgain : List Change := [.attach ⟨3,0⟩ (.ofType (atlasPage ⟨50,60⟩))]

theorem atlasPageGone : (atlasApp.run atlasAgain).table.scopeAt? atlasFile.path 35 = some ⟨2,0⟩ ∧
    ∃ span x, SpanMap.InnermostAt (atlasApp.table.fileSpans ⟨2,0⟩ atlasFile) 35 span x ∧
      x.filter (atlasApp.run atlasAgain).table.isLive = none := by
  have few : moves { id := 0, name := "app", language := .java, settings := default }
      ([] ++ .putFile atlasFile :: atlasAgain) < 2 ^ 32 := by decide +kernel
  have ok : ((ledgerApp []).putFile atlasFile).1 = .ok ⟨0,⟨2,0⟩⟩ := by decide +kernel
  have indexed : (atlasApp.run atlasAgain).table.files.get? (Path.normalize atlasFile.path) = some ⟨2,0⟩ := by
    decide +kernel
  have found : (atlasApp.run atlasAgain).table.scopeAt? atlasFile.path 35 = some ⟨2,0⟩ := by decide +kernel
  have stands := atlasStands
  refine ⟨found,?_⟩
  unfold atlasApp ledgerApp at *
  exact (replacedScopes 0 "app" .java default [] atlasAgain atlasFile ⟨0,⟨2,0⟩⟩ few ok (by decide +kernel) indexed
    35).2 found _ _ stands (by decide) (by decide)

end Codebase
end CodeIndex
