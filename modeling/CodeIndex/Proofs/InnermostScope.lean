import CodeIndex.Proofs.Acceptance
import CodeIndex.Proofs.Rollback
import CodeIndex.Proofs.ScopeLookup

/-! The scopes of a file that was just indexed. Every type and method that the file declares has its span in
the scopes of the file, outer before inner, with the handle of the symbol that stands for it. Where the spans
are nested or disjoint, the scope at an offset is therefore the innermost declaration around it. -/
namespace CodeIndex

mutual

def MemberDecl.spans : MemberDecl → List Span
  | .field _ => []
  | .method decl => [decl.span]
  | .type outline members => outline.span :: MemberDecl.spansAll members

def MemberDecl.spansAll : List MemberDecl → List Span
  | [] => []
  | m :: rest => m.spans ++ MemberDecl.spansAll rest

end

mutual

def MemberDecl.Distinct : MemberDecl → Prop
  | .field _ => True
  | .method _ => True
  | .type _ members => MemberDecl.DistinctAll members

def MemberDecl.DistinctAll : List MemberDecl → Prop
  | [] => True
  | m :: rest => (m.Distinct ∧ ∀ later ∈ rest, ¬later.draft.replaces m.draft) ∧ MemberDecl.DistinctAll rest

end

def FileDecl.spans (decl : FileDecl) : List Span := decl.span :: MemberDecl.spansAll decl.members

def FileDecl.Nested (decl : FileDecl) : Prop := SpanMap.Nested (decl.spans.map fun span => (span,()))

instance (decl : FileDecl) : Decidable decl.Nested := inferInstanceAs (Decidable (SpanMap.Nested _))

def FileDecl.Distinct (decl : FileDecl) : Prop := MemberDecl.DistinctAll decl.members

theorem MemberDecl.spansFlat (members : List MemberDecl) :
    MemberDecl.spansAll members = members.flatMap MemberDecl.spans := by
  induction members with
  | nil => rfl
  | cons m rest ih => rw [MemberDecl.spansAll,ih,List.flatMap_cons]

namespace SymbolTable

inductive Marks (t : SymbolTable) : Handle → Handle → MemberDecl → List (Span × Handle) → Prop where
  | field {p h decl} (held : t.Holds p h (.ofField decl)) : Marks t p h (.field decl) []
  | method {p h decl} (held : t.Holds p h (.ofMethod decl)) : Marks t p h (.method decl) [(decl.span,h)]
  | type {p h outline members} {entries : List (Handle × MemberDecl × List (Span × Handle))}
      (held : t.Holds p h (.ofType outline)) (all : entries.map (·.2.1) = members)
      (lists : t.Lists h (·.1.draft) entries) (each : ∀ e ∈ entries, Marks t h e.1 e.2.1 e.2.2) :
      Marks t p h (.type outline members) ((outline.span,h) :: entries.flatMap (·.2.2))

def Marked (t : SymbolTable) (p : Handle) (members : List MemberDecl) (spans : List (Span × Handle)) : Prop :=
  ∃ entries : List (Handle × MemberDecl × List (Span × Handle)), entries.map (·.2.1) = members ∧
    t.Lists p (·.1.draft) entries ∧ (∀ e ∈ entries, t.Marks p e.1 e.2.1 e.2.2) ∧
    entries.flatMap (·.2.2) = spans

def MarksFile (t : SymbolTable) (file : Handle) (decl : FileDecl) (spans : List (Span × Handle)) : Prop :=
  ∃ inner, t.Marked file decl.members inner ∧ spans = (decl.span,file) :: inner

theorem entriesOnce {t : SymbolTable} {p : Handle}
    {entries entries' : List (Handle × MemberDecl × List (Span × Handle))}
    (decls : entries.map (·.2.1) = entries'.map (·.2.1))
    (lists : ∀ name, (entries.filter fun e => e.2.1.draft.name = name).map Prod.fst =
      (entries'.filter fun e => e.2.1.draft.name = name).map Prod.fst)
    (once : ∀ e ∈ entries, ∀ spans, t.Marks p e.1 e.2.1 spans → e.2.2 = spans)
    (each : ∀ e ∈ entries', t.Marks p e.1 e.2.1 e.2.2) :
    entries.flatMap (·.2.2) = entries'.flatMap (·.2.2) := by
  induction entries generalizing entries' with
  | nil =>
    rw [List.map_nil] at decls
    rw [List.map_eq_nil_iff.mp decls.symm]
  | cons e rest ih =>
    obtain ⟨e',rest',rfl,decl,others⟩ := List.map_eq_cons_iff.mp decls.symm
    have decl : e'.2.1 = e.2.1 := decl
    have first := lists e.2.1.draft.name
    rw [List.filter_cons_of_pos (by simp),List.filter_cons_of_pos (by simp [decl]),List.map_cons,
      List.map_cons] at first
    obtain ⟨handle,_⟩ := List.cons.inj first
    have head : e.2.2 = e'.2.2 :=
      once e List.mem_cons_self e'.2.2 (by rw [handle,← decl]; exact each e' List.mem_cons_self)
    have tail := ih others.symm (fun name => ?_) (fun e inside => once e (List.mem_cons_of_mem _ inside))
      fun e inside => each e (List.mem_cons_of_mem _ inside)
    · rw [List.flatMap_cons,List.flatMap_cons,head,tail]
    · have both := lists name
      by_cases here : e.2.1.draft.name = name
      · rw [List.filter_cons_of_pos (by simp [here]),List.filter_cons_of_pos (by simp [decl,here]),
          List.map_cons,List.map_cons] at both
        exact (List.cons.inj both).2
      · rw [List.filter_cons_of_neg (by simp [here]),List.filter_cons_of_neg (by simp [decl,here])] at both
        exact both

section

variable {t t' : SymbolTable} {p h : Handle} {m : MemberDecl} {spans : List (Span × Handle)}

theorem Marks.held (marks : t.Marks p h m spans) : t.Holds p h m.draft := by
  cases marks with
  | field held | method held | type held => exact held

theorem Marks.transfer (marks : t.Marks p h m spans)
    (same : ∀ {x}, t.Within h x → t'.symbol? x = t.symbol? x) : t'.Marks p h m spans := by
  induction marks with
  | field held => exact .field (held.transfer (same .self))
  | method held => exact .method (held.transfer (same .self))
  | type held all lists each ih =>
    refine .type (held.transfer (same .self)) all ?_ fun e inside => ?_
    · exact fun name => (declaredTransfer (same .self) name).trans (lists name)
    · exact ih e inside fun within => same (((each e inside).held.within .self).trans within)

theorem Marks.live (marks : t.Marks p h m spans) : ∀ e ∈ spans, t.isLive e.2 := by
  have here : ∀ {p h d}, t.Holds p h d → t.isLive h := by
    rintro p h d ⟨s,live,_⟩
    simp [liveSome,live]
  induction marks with
  | field => exact fun _ => List.not_mem_nil.elim
  | method held => exact List.forall_mem_singleton.mpr (here held)
  | type held all lists each ih =>
    refine List.forall_mem_cons.mpr ⟨here held,fun e inside => ?_⟩
    obtain ⟨entry,listed,inside⟩ := List.mem_flatMap.mp inside
    exact ih entry listed e inside

theorem Marks.once (marks : t.Marks p h m spans) {spans' : List (Span × Handle)}
    (marks' : t.Marks p h m spans') : spans = spans' := by
  induction marks generalizing spans' with
  | field | method =>
    cases marks'
    rfl
  | type held all lists each ih =>
    cases marks' with
    | type _ all' lists' each' =>
      rw [entriesOnce (all.trans all'.symm) (fun name => (lists name).symm.trans (lists' name))
        (fun e inside _ => ih e inside) each']

theorem Marks.declared (marks : t.Marks p h m spans) : spans.map Prod.fst = m.spans := by
  induction marks with
  | field | method => rfl
  | type held all lists each ih =>
    rw [List.map_cons,List.map_flatMap,MemberDecl.spans,MemberDecl.spansFlat,← all,List.flatMap_map]
    rw [List.flatMap_congr ih]

theorem Marked.declared {members : List MemberDecl} (marked : t.Marked p members spans) :
    spans.map Prod.fst = MemberDecl.spansAll members := by
  obtain ⟨entries,rfl,_,each,rfl⟩ := marked
  rw [List.map_flatMap,MemberDecl.spansFlat,List.flatMap_map]
  exact List.flatMap_congr fun e inside => (each e inside).declared

theorem Marked.once {members : List MemberDecl} (marked : t.Marked p members spans)
    {spans' : List (Span × Handle)} (marked' : t.Marked p members spans') : spans = spans' := by
  obtain ⟨entries,all,lists,each,rfl⟩ := marked
  obtain ⟨entries',all',lists',each',rfl⟩ := marked'
  exact entriesOnce (all.trans all'.symm) (fun name => (lists name).symm.trans (lists' name))
    (fun e inside _ => (each e inside).once) each'

theorem Marked.live {members : List MemberDecl} (marked : t.Marked p members spans) :
    ∀ e ∈ spans, t.isLive e.2 := by
  obtain ⟨entries,_,_,each,rfl⟩ := marked
  intro e inside
  obtain ⟨entry,listed,inside⟩ := List.mem_flatMap.mp inside
  exact (each entry listed).live e inside

theorem Marked.scopes (c : t.Consistent) {members : List MemberDecl} (marked : t.Marked p members spans)
    (scopes : SpanMap Handle) : (t.modify p (·.withScopes scopes)).Marked p members spans := by
  obtain ⟨entries,all,lists,each,flat⟩ := marked
  refine ⟨entries,all,fun name => ?_,fun e inside => ?_,flat⟩
  · rw [scopesDeclared,lists name]
  · exact (each e inside).transfer (c.scopesBeside (each e inside).held scopes)

theorem Marked.add (c : t.Consistent) {before : List MemberDecl} {early : List (Span × Handle)}
    (marked : t.Marked p before early) (adds : Adds t t' p h m.plan) (marks : t'.Marks p h m spans)
    (apart : ∀ earlier ∈ before, ¬m.draft.replaces earlier.draft) :
    t'.Marked p (before ++ [m]) (early ++ spans) := by
  obtain ⟨entries,rfl,lists,each,rfl⟩ := marked
  have stays : ∀ e ∈ entries, m.draft.replaces e.2.1.draft = false := fun e inside =>
    Bool.eq_false_iff.mpr (apart _ (List.mem_map.mpr ⟨e,inside,rfl⟩))
  have spares : Spares t t' p m.draft := m.planDraft ▸ adds.spares
  have listed := adds.listed
  rw [m.planDraft] at listed
  have more := lists.add (a := (m,spans)) (fun e inside => (each e inside).held) listed
  rw [List.filter_eq_self.mpr fun e inside => by simp [stays e inside]] at more
  refine ⟨entries ++ [(h,m,spans)],by simp,more,fun e inside => ?_,by simp⟩
  rcases List.mem_append.mp inside with old | last
  · exact (each e old).transfer ((each e old).held.beside c spares (stays e old))
  · cases List.mem_singleton.mp last
    exact marks

end

namespace Edit

mutual

theorem memberMarked {t t' : SymbolTable} (c : t.Consistent) {p : Handle} (scope : t.Kinded p IsBody)
    {spans : List (Span × Handle)} : (m : MemberDecl) → m.Distinct → addMember p m t = .ok spans t' →
      ∃ h, Adds t t' p h m.plan ∧ t'.Marks p h m spans
  | .field decl, _, ran => by
    obtain ⟨h,adds⟩ := memberAdds c scope _ ran
    obtain ⟨_,_,_,done⟩ := bindOk ran
    cases done
    exact ⟨h,adds,.field adds.mirrors.held⟩
  | .method decl, _, ran => by
    obtain ⟨added,t₁,ran,done⟩ := bindOk ran
    cases done
    have adds := methodAdds c scope.inner ran
    obtain ⟨h,t₂,_,ran⟩ := bindOk ran
    obtain ⟨_,t₃,_,ran⟩ := bindOk ran
    obtain ⟨_,t₄,_,done⟩ := bindOk ran
    cases done
    exact ⟨h,adds,.method adds.mirrors.held⟩
  | .type outline members, distinct, ran => by
    obtain ⟨h,t₁,first,ran⟩ := bindOk ran
    obtain ⟨inner,t₂,second,done⟩ := bindOk ran
    cases done
    obtain ⟨places,c₁,scope₁,body⟩ := outlinePlaced c scope first
    obtain ⟨carries,leaves⟩ := membersCarried c₁ body places.carries members second
    have adds := typeAdds c₁ places scope₁ body second carries leaves
    have blank : t₁.Marked h [] [] := ⟨[],rfl,places.blank,fun _ => List.not_mem_nil.elim,rfl⟩
    obtain ⟨entries,all,lists,each,rfl⟩ :=
      membersMarked c₁ body blank members distinct (fun _ _ _ => List.not_mem_nil.elim) second
    exact ⟨h,adds,.type adds.mirrors.held all lists each⟩

theorem membersMarked {t t' : SymbolTable} (c : t.Consistent) {p : Handle} (scope : t.Kinded p IsBody)
    {before : List MemberDecl} {early spans : List (Span × Handle)} (marked : t.Marked p before early) :
    (members : List MemberDecl) → MemberDecl.DistinctAll members →
      (∀ m ∈ members, ∀ earlier ∈ before, ¬m.draft.replaces earlier.draft) →
      addMembers p members t = .ok spans t' → t'.Marked p (before ++ members) (early ++ spans)
  | [], _, _, ran => by
    cases ran
    simpa using marked
  | m :: rest, distinct, apart, ran => by
    obtain ⟨⟨inner,later⟩,others⟩ := distinct
    obtain ⟨first,t₁,ran₁,ran⟩ := bindOk ran
    obtain ⟨second,t₂,ran₂,done⟩ := bindOk ran
    cases done
    obtain ⟨h,adds,marks⟩ := memberMarked c scope m inner ran₁
    have progress := addMemberProgress anything c scope m m.namedTrue
    rw [afterOk ran₁] at progress
    have marked₁ := marked.add c adds marks (apart m List.mem_cons_self)
    rw [List.append_cons,← List.append_assoc]
    refine membersMarked (progress.steps.consistent c) (progress.kinded c scope) marked₁ rest others
      (fun m' inside earlier => ?_) ran₂
    rw [List.mem_append,List.mem_singleton]
    rintro (old | rfl)
    · exact apart m' (List.mem_cons_of_mem m inside) earlier old
    · exact later m' inside

end

end Edit

theorem putFileMarked {t : SymbolTable} (c : t.Consistent) {decl : FileDecl} (distinct : decl.Distinct)
    {file : Handle} (ok : (t.putFile decl).1 = .ok file) : ∃ inner o,
      (t.putFile decl).2.Marked file decl.members inner ∧
      (t.putFile decl).2.symbol? file = some o ∧ o.kind = .file ∧
      SpanMap.ofList ((decl.span,file) :: inner) = .ok o.body.scopes := by
  obtain ⟨t₀,q,o,t₁,scopes,t₂,c₀,_,_,grows,_,ran,made⟩ := putFileOk c ok
  have c₁ := grows.consistent c₀
  have scope : t₁.Kinded file IsBody := ⟨_,grows.added,.inl rfl⟩
  have progress := Edit.addTypesProgress Edit.anything c₁ scope decl.span decl.types decl.namedTrue.types
  rw [Edit.afterOk ran] at progress
  have c₂ := progress.steps.consistent c₁
  obtain ⟨inner,added,listed⟩ := Edit.typesRan ran
  have blank : t₁.Marked file [] [] :=
    ⟨[],rfl,fun name => (declaredShelf grows.added name).trans (grows.empty _),fun _ => List.not_mem_nil.elim,rfl⟩
  have marked := Edit.membersMarked c₁ scope blank decl.members distinct (fun _ _ _ => List.not_mem_nil.elim) added
  have isFile : t₁.Kinded file (· = .file) := ⟨_,grows.added,rfl⟩
  obtain ⟨s,live,isFile⟩ := progress.kinded c₁ isFile
  rw [made]
  refine ⟨inner,s.mapBody (·.withScopes scopes),marked.scopes c₂ scopes,?_,?_,?_⟩
  · rw [symbolModify,if_pos rfl,live]
    rfl
  · exact (Body.kindBare _).symm.trans (by rw [Symbol.mapBody,Body.bareScopes,Body.kindBare]; exact isFile)
  · rw [scopesOfFile isFile]
    exact listed

theorem scopeInnermost {t : SymbolTable} (c : t.Consistent) (stocked : t.Stocked) {decl : FileDecl}
    (nested : decl.Nested) (distinct : decl.Distinct) {file : Handle} (ok : (t.putFile decl).1 = .ok file)
    {spans : List (Span × Handle)} (marks : (t.putFile decl).2.MarksFile file decl spans) (offset : UInt32) :
    ∃ h, (t.putFile decl).2.scopeAt? decl.path offset = some h ∧
      ((∃ span, SpanMap.InnermostAt spans offset span h) ∨
        (∀ e ∈ spans, ¬e.1.contains offset) ∧ h = file) := by
  obtain ⟨inner,o,marked,live,isFile,listed⟩ := putFileMarked c distinct ok
  obtain ⟨inner',marked',rfl⟩ := marks
  cases marked.once marked'
  have hosts := putFileHosts c stocked ((putFileAccepted c decl).mp ⟨file,ok⟩).span
  rw [ok] at hosts
  have alive : ∀ e ∈ (decl.span,file) :: inner, (t.putFile decl).2.isLive e.2 :=
    List.forall_mem_cons.mpr ⟨by simp [liveSome,live],marked.live⟩
  have spread : SpanMap.Nested ((decl.span,file) :: inner) := by
    refine SpanMap.Nested.relabel nested ?_
    rw [List.map_cons,marked.declared,List.map_map]
    exact (List.map_id _).symm
  rw [scopeAtFile hosts.indexed live isFile,SpanMap.atReading listed]
  cases found : SpanMap.reading ((decl.span,file) :: inner) offset with
  | none => exact ⟨file,rfl,.inr ⟨(SpanMap.readingNone _ _).mp found,rfl⟩⟩
  | some e =>
    have here := alive e (SpanMap.readingListed found)
    exact ⟨e.2,by simp [Option.filter,here],.inl ⟨e.1,SpanMap.readingInnermost spread found⟩⟩

end SymbolTable

namespace Codebase

/-- Right after any run indexed a file with nested spans and distinct names, the scope at an offset is the
innermost declaration around it, the last one of those with the same span, or else the file. -/
theorem innermostScope (id : Nat) (name : String) (language : Language) (settings : Settings)
    (changes : List Change) (decl : FileDecl) (file : SymbolRef) :
    let c := run { id, name, language, settings } changes
    let t := (c.putFile decl).2.table
    (c.putFile decl).1 = .ok file → decl.Nested → decl.Distinct →
    (∃ spans, t.MarksFile file.handle decl spans) ∧
    ∀ spans, t.MarksFile file.handle decl spans → ∀ offset, ∃ h, t.scopeAt? decl.path offset = some h ∧
      ((∃ span, SpanMap.InnermostAt spans offset span h) ∨
        (∀ e ∈ spans, ¬e.1.contains offset) ∧ h = file.handle) := by
  intro c t ok nested distinct
  have consistent : c.table.Consistent := runConsistent _ SymbolTable.emptyConsistent changes
  have stocked : c.table.Stocked := runStocked SymbolTable.emptyConsistent SymbolTable.emptyStocked changes
  obtain ⟨f,put,rfl⟩ := putFileTable ok
  obtain ⟨inner,_,marked,_⟩ := SymbolTable.putFileMarked consistent distinct put
  exact ⟨⟨_,inner,marked,rfl⟩,fun spans => SymbolTable.scopeInnermost consistent stocked nested distinct put⟩

def shelfFile : FileDecl where
  path := "shop/Shelf.java"
  package := ["shop"]
  span := ⟨0,40⟩
  types := [
    { outline := { name := "Shelf", kind := .type .classType, span := ⟨5,30⟩ }
      members := [
        .field { name := "add", type := .simple "int" },
        .method { name := "add", span := ⟨10,20⟩ },
        .method { name := "add", span := ⟨20,25⟩ },
        .type { name := "Place", kind := .type .classType, span := ⟨26,30⟩ }
          [.method { name := "fill", span := ⟨26,30⟩ }]] }]

theorem shelfInnermost :
    let t := ((ledgerApp []).putFile shelfFile).2.table
    ∃ spans, t.MarksFile ⟨2,0⟩ shelfFile spans ∧ ∃ span, SpanMap.InnermostAt spans 27 span ⟨8,0⟩ := by
  have distinct : shelfFile.Distinct := by
    simp [FileDecl.Distinct,FileDecl.members,shelfFile,MemberDecl.DistinctAll,MemberDecl.Distinct,
      MemberDecl.draft,Draft.replaces,Draft.ofField,Draft.ofMethod,Draft.ofType]
  have ok : ((ledgerApp []).putFile shelfFile).1 = .ok ⟨0,⟨2,0⟩⟩ := by decide +kernel
  have there : ((ledgerApp []).putFile shelfFile).2.table.scopeAt? shelfFile.path 27 = some ⟨8,0⟩ := by
    decide +kernel
  unfold ledgerApp at ok there ⊢
  obtain ⟨⟨spans,marks⟩,innermost⟩ := innermostScope 0 "app" .java default [] shelfFile ⟨0,⟨2,0⟩⟩ ok
    (by decide +kernel) distinct
  obtain ⟨h,found,which⟩ := innermost spans marks 27
  rw [there] at found
  cases Option.some.inj found
  exact ⟨spans,marks,which.resolve_right fun outside => by simpa using outside.2⟩

end Codebase
end CodeIndex
