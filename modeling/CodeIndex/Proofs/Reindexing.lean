import CodeIndex.Proofs.Refusal
import Mathlib.Algebra.GroupWithZero.Nat
import Mathlib.Tactic.Choose

/-! Indexing files over and over. Dropping a file right after it was indexed leaves what was there before, with
the packages on its way. Indexing the same file again takes the old version away and puts as many symbols in,
however often it is done, and the handles of every earlier version are stale. -/
namespace CodeIndex

def Plan.weight : Plan → Nat
  | ⟨_,inner⟩ => 1 + ((Draft.kept Plan.draft inner).attach.map fun plan => plan.1.weight).sum
termination_by plan => sizeOf plan
decreasing_by
  have listed := (Draft.keptSublist Plan.draft inner).subset plan.2
  have smaller := List.sizeOf_lt_of_mem listed
  simp only [Plan.mk.sizeOf_spec]
  omega

def Plan.total (plans : List Plan) : Nat := 1 + ((Draft.kept Plan.draft plans).map Plan.weight).sum

theorem Plan.weightTotal (d : Draft) (inner : List Plan) : Plan.weight ⟨d,inner⟩ = Plan.total inner := by
  rw [Plan.weight,Plan.total,List.attach_map_val]

def FileDecl.weight (decl : FileDecl) : Nat := Plan.total (MemberDecl.plans decl.members)

namespace SymbolTable

structure Covers (t : SymbolTable) (h : Handle) (handles : List Handle) : Prop where
  once : handles.Nodup
  all : ∀ x, x ∈ handles ↔ t.Within h x

theorem Within.child {t : SymbolTable} {p x : Handle} (within : t.Within p x) :
    x = p ∨ ∃ y s, t.symbol? y = some s ∧ s.parent = some p ∧ t.Within y x := by
  induction within with
  | self => exact .inl rfl
  | inner live parent _ ih =>
    rcases ih with rfl | ⟨y,s,live',parent',below⟩
    · exact .inr ⟨_,_,live,parent,.self⟩
    · exact .inr ⟨y,s,live',parent',.inner live parent below⟩

theorem distinctEntries (draft : α → Draft) {entries : List (Handle × α)}
    (once : ∀ name, ((entries.filter fun e => (draft e.2).name = name).map Prod.fst).Nodup)
    (named : ∀ e ∈ entries, ∀ e' ∈ entries, e.1 = e'.1 → (draft e.2).name = (draft e'.2).name) :
    entries.Pairwise fun e e' => e.1 ≠ e'.1 := by
  induction entries with
  | nil => exact .nil
  | cons e rest ih =>
    refine List.pairwise_cons.mpr ⟨fun e' later same => ?_,ih (fun name => ?_) fun a first b second => ?_⟩
    · have here := once (draft e.2).name
      rw [List.filter_cons_of_pos (by simp),List.map_cons] at here
      refine (List.nodup_cons.mp here).1 (List.mem_map.mpr ⟨e',List.mem_filter.mpr ⟨later,?_⟩,same.symm⟩)
      simp [named e (by simp) e' (by simp [later]) same]
    · exact (once name).sublist (((List.sublist_cons_self e rest).filter _).map _)
    · exact named a (by simp [first]) b (by simp [second])

theorem Consistent.coversScope {t : SymbolTable} (c : t.Consistent) {p : Handle} {o : Symbol}
    (owner : t.symbol? p = some o) (plain : o.kind ≠ .package) {entries : List (Handle × Plan)}
    (lists : t.Lists p Plan.draft entries) (held : ∀ e ∈ entries, t.Holds p e.1 e.2.draft)
    (each : ∀ e ∈ entries, ∃ handles, t.Covers e.1 handles ∧ handles.length = e.2.weight) :
    ∃ handles, t.Covers p handles ∧ handles.length = 1 + (entries.map fun e => e.2.weight).sum := by
  choose! inner covers sizes using each
  have shelf : ∀ name, t.declared p name = o.shelf (.member name) := declaredShelf owner
  have distinct : entries.Pairwise fun e e' => e.1 ≠ e'.1 := by
    refine distinctEntries Plan.draft (fun name => ?_) fun e first e' second same => ?_
    · rw [← lists name,shelf]
      exact (c.tidy owner).once _
    · obtain ⟨s,live,fits⟩ := held e first
      obtain ⟨s',live',fits'⟩ := held e' second
      rw [← same] at live'
      cases Option.some.inj (live.symm.trans live')
      exact fits.name.symm.trans fits'.name
  refine ⟨p :: entries.flatMap inner,⟨?_,fun x => ?_⟩,?_⟩
  · refine List.nodup_cons.mpr ⟨fun again => ?_,List.pairwise_flatMap.mpr ⟨fun e listed => ?_,?_⟩⟩
    · obtain ⟨e,listed,inside⟩ := List.mem_flatMap.mp again
      obtain ⟨s,live,fits⟩ := held e listed
      exact c.ownerOutside live fits.parent (((covers e listed).all p).mp inside)
    · exact (covers e listed).once
    · refine distinct.imp_of_mem ?_
      rintro e e' first second apart x inside y inside' rfl
      obtain ⟨s,live,fits⟩ := held e first
      obtain ⟨s',live',fits'⟩ := held e' second
      exact c.siblingsApart live fits.parent live' fits'.parent apart (((covers e first).all x).mp inside)
        (((covers e' second).all x).mp inside')
  · rw [List.mem_cons,List.mem_flatMap]
    constructor
    · rintro (rfl | ⟨e,listed,inside⟩)
      · exact .self
      · exact ((held e listed).within .self).trans (((covers e listed).all x).mp inside)
    · intro within
      rcases within.child with here | ⟨y,s,live,parent,below⟩
      · exact .inl here
      · have shelved := c.onShelf live parent owner
        rw [c.ownHome live parent owner plain,← shelf,lists] at shelved
        obtain ⟨e,kept,rfl⟩ := List.mem_map.mp shelved
        have listed := (List.mem_filter.mp kept).1
        exact .inr ⟨e,listed,((covers e listed).all x).mpr below⟩
  · have same : entries.map (List.length ∘ inner) = entries.map fun e => e.2.weight :=
      List.map_congr_left sizes
    rw [List.length_cons,List.length_flatMap]
    change (entries.map (List.length ∘ inner)).sum + 1 = _
    rw [same,Nat.add_comm]

theorem Consistent.coversMirrored {t : SymbolTable} (c : t.Consistent) {p h : Handle} {plan : Plan}
    (mirrors : t.Mirrors p h plan) : ∃ handles, t.Covers h handles ∧ handles.length = plan.weight := by
  induction mirrors with
  | @mk p h d inner entries held kept lines each ih =>
    obtain ⟨s,live,fits⟩ := held
    obtain ⟨handles,covers,size⟩ := c.coversScope live fits.plain lines.lists (fun e inside => (each e inside).held) ih
    refine ⟨handles,covers,?_⟩
    rw [size,Plan.weightTotal,Plan.total,← kept,List.map_map]
    rfl

theorem Consistent.coversFile {t : SymbolTable} (c : t.Consistent) {f : Handle} {decl : FileDecl}
    (indexed : t.IndexedAs f decl) : ∃ handles, t.Covers f handles ∧ handles.length = decl.weight := by
  obtain ⟨s,_,live,isFile,_⟩ := indexed.entry
  obtain ⟨entries,kept,lines,each⟩ := indexed.carries
  obtain ⟨handles,covers,size⟩ := c.coversScope live (by simp [isFile]) lines.lists
    (fun e inside => (each e inside).held) fun e inside => c.coversMirrored (each e inside)
  refine ⟨handles,covers,?_⟩
  rw [size,FileDecl.weight,Plan.total,← kept,List.map_map]
  rfl

theorem Hosts.alike {t₀ t₁ t : SymbolTable} {path : String} {f : Handle} (hosts : Hosts t₁ path f t)
    (alike : Alike t₀ t₁) : Hosts t₀ path f t := by
  have live : t₁.isLive = t₀.isLive := funext fun x => by simp only [liveSome,alike.symbols]
  obtain ⟨consistent,stocked,retains,fresh,gate,files,root⟩ := hosts
  refine ⟨consistent,stocked,fun x kept => ?_,alike.symbols f ▸ fresh,?_,alike.files ▸ files,
    root.trans alike.root⟩
  · rw [← live] at kept ⊢
    rw [retains x kept,alike.symbols]
  · intro y s q live new parent old
    exact gate live (by rw [alike.symbols,new]) parent (by rw [alike.symbols]; exact old)

theorem Hosts.count {t₀ t : SymbolTable} {path : String} {f : Handle} (hosts : Hosts t₀ path f t)
    (c₀ : t₀.Consistent) {handles : List Handle} (covers : t.Covers f handles) :
    t.symbols.live = t₀.symbols.live + handles.length := by
  have apart : ∀ {x}, x ∈ handles → t₀.symbol? x = none :=
    fun inside => hosts.apart c₀ ((covers.all _).mp inside)
  have all : (t₀.symbols.toList.map Prod.fst ++ handles).length = t.symbols.live := by
    refine Arena.census (List.nodup_append.mpr ⟨Arena.handlesNodup t₀.symbols,covers.once,?_⟩) fun x => ?_
    · rintro x old y new rfl
      have live : (t₀.symbol? x).isSome := (Arena.memListed t₀.symbols x).mp old
      simp [apart new] at live
    · change _ ↔ (t.symbol? x).isSome
      rw [List.mem_append,Arena.memListed,covers.all,hosts.withinIff c₀]
      change (t₀.symbol? x).isSome ∨ _ ↔ _
      cases before : t₀.symbol? x with
      | none => simp
      | some s =>
        have kept := hosts.retains.live (x := x) (by simp [liveSome,before])
        simp [kept,before]
  rw [← all,List.length_append,List.length_map,Arena.toListLength]

theorem packagePresent {t : SymbolTable} {names : List String} {p q : Handle}
    (leads : names.foldlM t.subpackage? p = some q) : (t.makePackage p names).2 = t := by
  induction names generalizing p with
  | nil => rfl
  | cons name rest ih =>
    obtain ⟨h,first,later⟩ := Option.bind_eq_some_iff.mp leads
    obtain ⟨o,owner,bound⟩ := Option.bind_eq_some_iff.mp first
    simp only [makePackage,owner,bound]
    exact ih later

theorem Restores.alike {t t' t'' : SymbolTable} {names : List String} (restores : Restores t t' names)
    (alike : Alike t' t'') : Restores t t'' names := by
  obtain ⟨old,new,files,root⟩ := restores
  refine ⟨?_,?_,alike.files.trans files,alike.root.trans root⟩
  · simpa only [alike.symbols] using old
  · simpa only [Laid,alike.symbols,alike.subpackages,alike.root] using new

theorem putFileDropped {t : SymbolTable} (c : t.Consistent) (stocked : t.Stocked) {decl : FileDecl} {f : Handle}
    (ok : (t.putFile decl).1 = .ok f) : Alike (t.site decl) ((t.putFile decl).2.dropFile decl.path).2 := by
  have ready := c.siteReady stocked decl
  have hosts := putFileHosts c stocked ((putFileAccepted c decl).mp ⟨f,ok⟩).span
  rw [ok] at hosts
  exact hosts.dropped ready.consistent ready.stocked ready.absent

structure Version (t₀ : SymbolTable) (decl : FileDecl) (f : Handle) (t : SymbolTable) : Prop where
  hosts : Hosts t₀ decl.path f t
  indexed : t.IndexedAs f decl

theorem Version.next {t₀ t : SymbolTable} {decl : FileDecl} {f : Handle} (ready : t₀.Ready decl)
    (version : Version t₀ decl f t) (proper : decl.Proper) :
    ∃ f', (t.putFile decl).1 = .ok f' ∧ Version t₀ decl f' (t.putFile decl).2 := by
  obtain ⟨hosts,indexed⟩ := version
  have c := hosts.consistent
  obtain ⟨f',ok⟩ := (putFileAccepted c decl).mpr proper
  have again := putFileHosts c hosts.stocked proper.span
  rw [ok] at again
  have dropped := hosts.dropped ready.consistent ready.stocked ready.absent
  obtain ⟨q,leads⟩ := ready.leads
  have same : t.site decl = (t.dropFile decl.path).2 := by
    refine packagePresent (q := q) ?_
    rw [dropped.subpackages,dropped.root]
    exact leads
  exact ⟨f',ok,(same ▸ again).alike dropped,(putFileIndexes c ok).indexed⟩

theorem Version.count {t₀ t : SymbolTable} {decl : FileDecl} {f : Handle} (ready : t₀.Ready decl)
    (version : Version t₀ decl f t) : t.symbols.live = t₀.symbols.live + decl.weight := by
  obtain ⟨handles,covers,size⟩ := version.hosts.consistent.coversFile version.indexed
  rw [version.hosts.count ready.consistent covers,size]

theorem Version.paths {t₀ t : SymbolTable} {decl : FileDecl} {f : Handle} (ready : t₀.Ready decl)
    (version : Version t₀ decl f t) : t.files.keys = t₀.files.keys ++ [Path.normalize decl.path] := by
  rw [version.hosts.files,OrderedMap.insert,OrderedMap.alter,OrderedMap.putAbsent _ ready.absent]
  simp [OrderedMap.keys]

theorem putFileUndone {t : SymbolTable} (c : t.Consistent) (stocked : t.Stocked) {decl : FileDecl} {f : Handle}
    (ok : (t.putFile decl).1 = .ok f) (absent : t.files.get? (Path.normalize decl.path) = none) :
    Restores t ((t.putFile decl).2.dropFile decl.path).2 decl.package := by
  have same : t.site decl = (t.makePackage t.root decl.package).2 := by rw [site,dropFileAbsent absent]
  exact (same ▸ c.packageRestores stocked decl.package).alike (putFileDropped c stocked ok)

theorem putFileFirst {t : SymbolTable} (c : t.Consistent) (stocked : t.Stocked) {decl : FileDecl} {f : Handle}
    (ok : (t.putFile decl).1 = .ok f) : Version (t.site decl) decl f (t.putFile decl).2 := by
  have hosts := putFileHosts c stocked ((putFileAccepted c decl).mp ⟨f,ok⟩).span
  rw [ok] at hosts
  exact ⟨hosts,(putFileIndexes c ok).indexed⟩

end SymbolTable

namespace Codebase

def reindexed (c : Codebase) (decl : FileDecl) (k : Nat) : Codebase :=
  c.run (List.replicate k (.putFile decl))

theorem reindexedNext (c : Codebase) (decl : FileDecl) (k : Nat) :
    (c.reindexed decl (k + 1)).table = ((c.reindexed decl k).table.putFile decl).2 := by
  rw [reindexed,List.replicate_succ',runAppend]
  rfl

theorem reindexedTwice (c : Codebase) (decl : FileDecl) (i k : Nat) :
    (c.reindexed decl i).reindexed decl k = c.reindexed decl (i + k) := by
  rw [reindexed,reindexed,reindexed,← runAppend,List.replicate_append_replicate]

section

variable {c : Codebase} (consistent : c.table.Consistent) {decl : FileDecl}
include consistent

theorem reindexedVersion (stocked : c.table.Stocked) {f : Handle} (ok : (c.table.putFile decl).1 = .ok f)
    (k : Nat) : ∃ f', ((c.reindexed decl k).table.putFile decl).1 = .ok f' ∧
      SymbolTable.Version (c.table.site decl) decl f' (c.reindexed decl (k + 1)).table := by
  have ready := consistent.siteReady stocked decl
  have proper := (SymbolTable.putFileAccepted consistent decl).mp ⟨f,ok⟩
  induction k with
  | zero => exact ⟨f,ok,SymbolTable.putFileFirst consistent stocked ok⟩
  | succ k ih =>
    obtain ⟨_,_,version⟩ := ih
    rw [reindexedNext c decl (k + 1)]
    exact version.next ready proper

theorem putFileAges (upright : ¬decl.span.isInverted) {h : Handle} (lies : c.table.lies decl.path h) :
    (c.apply (.putFile decl)).2.table.symbols.Aged
      (c.insertions (.putFile decl) + c.removals (.putFile decl)) h := by
  obtain ⟨n,n',dropped,put,counted⟩ := putFileRemovals consistent upright
  have aged := SymbolTable.clearedAges consistent lies
  rw [← SymbolTable.dropFileNormal] at aged
  have given : 1 ≤ c.insertions (.putFile decl) := by
    obtain ⟨m₁,_,m₂,_,_,_,_,_,_,sum,_⟩ := put
    omega
  obtain ⟨slot,d,found,generation,some,bound⟩ := put.moves.aged aged
  exact ⟨slot,d,found,generation,some,by omega⟩

theorem reindexedStale (upright : ¬decl.span.isInverted) {h : Handle} (lies : c.table.lies decl.path h) {k : Nat}
    (later : 0 < k) (few : c.moves (List.replicate k (.putFile decl)) < 2 ^ 32) :
    (c.reindexed decl k).table.symbol? h = none := by
  obtain ⟨k,rfl⟩ := Nat.exists_eq_succ_of_ne_zero (Nat.ne_of_gt later)
  rw [List.replicate_succ,moves] at few
  obtain ⟨m,n,turns,total⟩ :=
    runMoves _ (applyConsistent c consistent (.putFile decl)) (List.replicate k (.putFile decl))
  exact (turns.aged (putFileAges consistent upright lies)).dead (by omega)

end

structure Replays (c : Codebase) (decl : FileDecl) (k : Nat) : Prop where
  accepted : ∀ i ≤ k, ∃ file, ((c.reindexed decl i).putFile decl).1 = .ok file
  count : (c.reindexed decl (k + 1)).table.count = (c.reindexed decl 1).table.count
  paths : (c.reindexed decl (k + 1)).table.files.keys = (c.reindexed decl 1).table.files.keys
  stale : ∀ i < k, (c.reindexed decl (i + 1)).moves (List.replicate (k - i) (.putFile decl)) < 2 ^ 32 →
    ∀ h, (c.reindexed decl (i + 1)).table.lies decl.path h → (c.reindexed decl (k + 1)).table.symbol? h = none

theorem replays {c : Codebase} (consistent : c.table.Consistent) (stocked : c.table.Stocked)
    (counted : c.table.symbols.count = c.table.symbols.live) {decl : FileDecl} {f : Handle}
    (ok : (c.table.putFile decl).1 = .ok f) (k : Nat) : c.Replays decl k := by
  have ready := consistent.siteReady stocked decl
  have upright := ((SymbolTable.putFileAccepted consistent decl).mp ⟨f,ok⟩).span
  have version := reindexedVersion consistent stocked ok
  obtain ⟨_,_,last⟩ := version k
  obtain ⟨_,_,first⟩ := version 0
  have census : ∀ j, (c.reindexed decl j).table.count = (c.reindexed decl j).table.symbols.live :=
    fun j => runCounted consistent counted (List.replicate j (.putFile decl))
  refine ⟨fun i _ => ?_,?_,?_,fun i before few h lies => ?_⟩
  · obtain ⟨f',ok',_⟩ := version i
    exact ⟨_,congrArg (Except.map (c.reindexed decl i).ref) ok'⟩
  · rw [census,census,last.count ready,first.count ready]
  · rw [last.paths ready,first.paths ready]
  · obtain ⟨_,_,earlier⟩ := version i
    have stale := reindexedStale earlier.hosts.consistent upright lies (k := k - i) (by omega) few
    rwa [reindexedTwice,show i + 1 + (k - i) = k + 1 by omega] at stale

/-- After any run, a file that is not indexed yet can be indexed and dropped again, and leaves nothing but
packages. A file that is accepted can be indexed again and again without the codebase growing. -/
theorem reindexedCleanly (id : Nat) (name : String) (language : Language) (settings : Settings)
    (changes : List Change) (decl : FileDecl) (file : SymbolRef) :
    let c := run { id, name, language, settings } changes
    (c.putFile decl).1 = .ok file →
    (c.table.files.get? (Path.normalize decl.path) = none →
      ∃ t, ((c.putFile decl).2.dropFile decl.path).2 = { c with table := t } ∧
        c.table.Restores t decl.package) ∧
    ∀ k, c.Replays decl k := by
  intro c ok
  have consistent : c.table.Consistent := runConsistent _ SymbolTable.emptyConsistent changes
  have stocked : c.table.Stocked := runStocked SymbolTable.emptyConsistent SymbolTable.emptyStocked changes
  have counted : c.table.symbols.count = c.table.symbols.live :=
    runCounted SymbolTable.emptyConsistent rfl changes
  obtain ⟨f,ok,_⟩ := putFileTable ok
  exact ⟨fun absent => ⟨_,rfl,SymbolTable.putFileUndone consistent stocked ok absent⟩,
    replays consistent stocked counted ok⟩

theorem ledgerReindexed :
    (∃ t, (((ledgerApp []).putFile ledgerFile).2.dropFile ledgerFile.path).2 = { ledgerApp [] with table := t } ∧
      (ledgerApp []).table.Restores t ledgerFile.package) ∧
    ((ledgerApp []).reindexed ledgerFile 3).table.count = ((ledgerApp []).reindexed ledgerFile 1).table.count ∧
    ((ledgerApp []).reindexed ledgerFile 3).table.symbol? ⟨3,1⟩ = none := by
  have lies : ((ledgerApp []).reindexed ledgerFile 1).table.lies ledgerFile.path ⟨3,1⟩ := by decide +kernel
  have few : ((ledgerApp []).reindexed ledgerFile 1).moves (List.replicate 2 (.putFile ledgerFile)) < 2 ^ 32 := by
    decide +kernel
  have ok : ((ledgerApp []).putFile ledgerFile).1 = .ok ⟨0,⟨2,0⟩⟩ := by decide +kernel
  obtain ⟨undone,replays⟩ := reindexedCleanly 0 "app" .java default [] ledgerFile ⟨0,⟨2,0⟩⟩ ok
  exact ⟨undone rfl,(replays 2).count,(replays 2).stale 0 (by decide) few _ lies⟩

end Codebase
end CodeIndex
