import CodeIndex.Proofs.Bodies
import CodeIndex.Proofs.Placement

/-! What stays of a table when some handles are left out of account. A body without the handles that are not
kept does not change when such a handle is put on its lists or taken off them. A table from which all of
them are gone is therefore known in full: its symbols are those from before, without these handles. -/
namespace CodeIndex

namespace OrderedMap

variable {κ : Type u} {α : Type v}

def only (keep : α → Bool) (m : OrderedMap κ α) : OrderedMap κ α := ⟨m.entries.filter fun e => keep e.2⟩

variable [DecidableEq κ]

theorem putAbsent {key : κ} (f : Option α → α) {entries : List (κ × α)} (absent : lookup key entries = none) :
    put key f entries = entries ++ [(key,f none)] := by
  induction entries with
  | nil => rfl
  | cons entry rest ih =>
    obtain ⟨k,a⟩ := entry
    unfold lookup at absent
    unfold put
    split at absent
    · cases absent
    · rename_i other
      rw [if_neg other,ih absent]
      rfl

theorem onlyInsert {m : OrderedMap κ α} {keep : α → Bool} {key : κ} {a : α}
    (absent : m.get? key = none) (out : keep a = false) : (m.insert key a).only keep = m.only keep := by
  simp [only,insert,alter,putAbsent _ absent,out]

theorem onlyAll {m : OrderedMap κ α} {keep : α → Bool} (unique : m.keys.Nodup)
    (all : ∀ key a, m.get? key = some a → keep a) : m.only keep = m := by
  have same : m.entries.filter (fun e => keep e.2) = m.entries :=
    List.filter_eq_self.mpr fun e inside => all e.1 e.2 ((getEntry unique).mp inside)
  simp only [only,same]

theorem eraseAbsent {m : OrderedMap κ α} {key : κ} (absent : m.get? key = none) : m.erase key = m := by
  have others : m.entries.filter (fun e => e.1 ≠ key) = m.entries := by
    refine List.filter_eq_self.mpr fun e inside => decide_eq_true ?_
    rintro rfl
    obtain ⟨entries⟩ := m
    induction entries with
    | nil => cases inside
    | cons entry rest ih =>
      obtain ⟨k,b⟩ := entry
      simp only [get?,lookup] at absent
      split at absent
      · cases absent
      · rename_i other
        rcases List.mem_cons.mp inside with rfl | later
        · exact other rfl
        · exact ih later absent
  simp only [erase,others]

theorem eraseInsert {m : OrderedMap κ α} {key : κ} (absent : m.get? key = none) (a : α) :
    (m.insert key a).erase key = m := by
  have others : m.entries.filter (fun e => e.1 ≠ key) = m.entries :=
    congrArg OrderedMap.entries (eraseAbsent absent)
  simp only [erase,insert,alter,putAbsent _ absent,List.filter_append,others]
  simp

theorem onlyCongr {m : OrderedMap κ α} {keep keep' : α → Bool} (unique : m.keys.Nodup)
    (same : ∀ key a, m.get? key = some a → keep a = keep' a) : m.only keep = m.only keep' := by
  have filtered : m.entries.filter (fun e => keep e.2) = m.entries.filter fun e => keep' e.2 :=
    List.filter_congr fun e inside => same e.1 e.2 ((getEntry unique).mp inside)
  simp only [only,filtered]

end OrderedMap

namespace Members
open OrderedMap

def only (keep : Handle → Bool) (m : Members) : Members :=
  ⟨(m.entries.map fun e => (e.1,e.2.filter keep)).filter fun e => !e.2.isEmpty⟩

variable {m : Members} {keep : Handle → Bool}

theorem onlyPut {name : String} {f : Option (List Handle) → List Handle}
    (same : (f (m.get? name)).filter keep = ((m.get? name).getD []).filter keep) :
    only keep (m.alter name f) = only keep m := by
  obtain ⟨entries⟩ := m
  simp only [only,alter,OrderedMap.mk.injEq]
  simp only [get?] at same
  induction entries with
  | nil => simpa [put,lookup] using same
  | cons entry rest ih =>
    obtain ⟨k,declared⟩ := entry
    simp only [lookup] at same
    unfold put
    split
    · rename_i here
      rw [if_pos here] at same
      simp only [List.map_cons,List.filter_cons,same,Option.getD_some]
    · rename_i other
      rw [if_neg other] at same
      simp only [List.map_cons,List.filter_cons,ih same]

theorem onlyPush {h : Handle} (out : keep h = false) (m : Members) (name : String) :
    (m.push name h).only keep = m.only keep := by
  refine onlyPut ?_
  simp [List.filter_append,out]

theorem onlyFilter {h : Handle} (out : keep h = false) (listed : List Handle) :
    (listed.filter (· ≠ h)).filter keep = listed.filter keep := by
  rw [List.filter_filter]
  refine List.filter_congr fun x _ => ?_
  by_cases same : x = h
  · simp [same,out]
  · simp [same]

theorem onlyErase (unique : m.keys.Nodup) {name : String}
    (out : ∀ h ∈ m.under name, keep h = false) : only keep (m.erase name) = only keep m := by
  simp only [only,erase,List.filter_map,List.filter_filter,OrderedMap.mk.injEq]
  congr 1
  refine List.filter_congr fun e inside => ?_
  by_cases here : e.1 = name
  · have bound := (getEntry unique).mp inside
    have nothing : e.2.filter keep = [] := by
      refine List.filter_eq_nil_iff.mpr fun h listed => ?_
      have under : h ∈ m.under name := by simp [Members.under,← here,bound,listed]
      simp [out h under]
    simp [Function.comp,nothing]
  · simp [here]

theorem onlyDrop {h : Handle} (out : keep h = false) (unique : m.keys.Nodup) (name : String) :
    (m.drop name h).only keep = m.only keep := by
  unfold drop
  cases found : m.get? name with
  | none => rfl
  | some declared =>
    have under : m.under name = declared := by simp [Members.under,found]
    simp only
    split
    · rename_i emptied
      refine onlyErase unique fun x listed => ?_
      have single : x = h := by simpa using List.filter_eq_nil_iff.mp emptied x (under ▸ listed)
      exact single ▸ out
    · refine onlyPut ?_
      rw [found]
      exact onlyFilter out declared

theorem onlyDropAll (unique : m.keys.Nodup) {other : Members} (tidy : other.keys.Nodup)
    (out : ∀ name, ∀ h ∈ other.under name, keep h = false) : (dropAll m other).only keep = m.only keep := by
  have each : ∀ e ∈ other.entries, ∀ h ∈ e.2, keep h = false :=
    fun e inside h listed => out e.1 h ((memUnder tidy).mpr ⟨e.2,inside,listed⟩)
  unfold dropAll
  clear tidy out
  generalize other.entries = entries at each
  induction entries generalizing m with
  | nil => rfl
  | cons entry rest ih =>
    obtain ⟨here,later⟩ := List.forall_mem_cons.mp each
    have names := dropEachInvariant (P := fun m => m.keys.Nodup)
      (fun m name h unique => keysDrop unique name h) entry.1 entry.2 unique
    rw [List.foldl_cons,ih names later]
    clear ih later names each
    generalize entry.2 = handles at here
    induction handles generalizing m with
    | nil => rfl
    | cons h others ih =>
      obtain ⟨first,last⟩ := List.forall_mem_cons.mp here
      rw [List.foldl_cons,ih (keysDrop unique entry.1 h) last,onlyDrop first unique]

theorem onlyAll (unique : m.keys.Nodup) (stocked : m.Stocked)
    (all : ∀ name, ∀ h ∈ m.under name, keep h) : m.only keep = m := by
  have each : ∀ e ∈ m.entries, (e.1,e.2.filter keep) = e := by
    intro e inside
    have same : e.2.filter keep = e.2 := List.filter_eq_self.mpr fun h listed =>
      all e.1 h ((memUnder unique).mpr ⟨e.2,inside,listed⟩)
    rw [same]
  have mapped : m.entries.map (fun e => (e.1,e.2.filter keep)) = m.entries :=
    (List.map_congr_left each).trans (List.map_id m.entries)
  have filled : m.entries.filter (fun e => !e.2.isEmpty) = m.entries :=
    List.filter_eq_self.mpr fun e inside => by simpa using stocked e inside
  simp only [only,mapped,filled]

end Members

namespace Body

def only (keep : Handle → Bool) (b : Body) : Body :=
  (((b.mapMembers (·.only keep)).mapParameters (·.filter keep)).mapFiles (·.filter keep)).mapSubpackages
    (·.only keep)

variable {keep : Handle → Bool} {h : Handle}

theorem onlyMembers {b : Body} {f : Members → Members} (same : (f b.members).only keep = b.members.only keep) :
    (b.mapMembers f).only keep = b.only keep := by
  cases b <;> simp_all [only,mapMembers,members,members?,mapParameters,mapFiles,mapSubpackages]

theorem onlyUnlisted (out : keep h = false) {b : Body} (tidy : b.Tidy) (name : String) :
    (b.unlisted name h).only keep = b.only keep := by
  rw [← onlyMembers (b := b) (f := (·.drop name h)) (Members.onlyDrop out tidy.members name)]
  cases b <;>
    simp only [unlisted,only,mapMembers,mapParameters,mapFiles,mapSubpackages,Members.onlyFilter out]

theorem onlyLinked (out : keep h = false) (name : String) (parameter : Bool) (b : Body) :
    (SymbolTable.linked name h parameter b).only keep = b.only keep := by
  rw [← onlyMembers (b := b) (f := (·.push name h)) (Members.onlyPush out b.members name)]
  unfold SymbolTable.linked
  split
  · cases b <;>
      simp [only,mapMembers,mapParameters,mapFiles,mapSubpackages,List.filter_append,out]
  · rfl

theorem onlyFile (out : keep h = false) (b : Body) :
    (b.mapFiles (· ++ [h])).only keep = b.only keep := by
  cases b <;> simp [only,mapMembers,mapParameters,mapFiles,mapSubpackages,List.filter_append,out]

theorem onlySubpackage (out : keep h = false) {b : Body} {name : String}
    (absent : b.subpackages.get? name = none) :
    (b.mapSubpackages (·.insert name h)).only keep = b.only keep := by
  cases b with
  | package subpackages files members =>
    have same : (subpackages.insert name h).only keep = _ := OrderedMap.onlyInsert absent out
    simp [only,mapMembers,mapParameters,mapFiles,mapSubpackages,same]
  | _ => rfl

theorem onlyAll {b : Body} (tidy : b.Tidy) (stocked : b.Stocked) (all : ∀ place, ∀ h ∈ b.shelf place, keep h) :
    b.only keep = b := by
  have members := Members.onlyAll tidy.members stocked fun name => all (.member name)
  have subpackages : b.subpackages.only keep = b.subpackages :=
    OrderedMap.onlyAll tidy.subpackages fun name h bound => all (.subpackage name) h (by simp [shelf,bound])
  have files := List.filter_eq_self.mpr (all .files)
  have parameters := List.filter_eq_self.mpr (all .parameters)
  cases b <;> simp_all [only,mapMembers,mapParameters,mapFiles,mapSubpackages,shelf,Body.members,members?,
    Body.subpackages,Body.files,Body.parameters]

theorem mapSubpackagesTwice (f g : OrderedMap String Handle → OrderedMap String Handle) (b : Body) :
    (b.mapSubpackages f).mapSubpackages g = b.mapSubpackages (g ∘ f) := by cases b <;> rfl

theorem kindSubpackages (f : OrderedMap String Handle → OrderedMap String Handle) (b : Body) :
    (b.mapSubpackages f).kind = b.kind := by cases b <;> rfl

theorem mapSubpackagesPlain (f : OrderedMap String Handle → OrderedMap String Handle) {b : Body}
    (other : b.kind ≠ .package) : b.mapSubpackages f = b := by
  cases b <;> first | rfl | exact absurd rfl other

theorem mapSubpackagesSame (b : Body) : b.mapSubpackages id = b := by cases b <;> rfl

theorem onlySubpackages {keep : Handle → Bool} {b : Body}
    {f : OrderedMap String Handle → OrderedMap String Handle}
    (same : (b.mapSubpackages f).only keep = b) : (b.mapSubpackages f).mapSubpackages (·.only keep) = b := by
  cases b with
  | package subpackages files members =>
    simp only [only,mapMembers,mapParameters,mapFiles,mapSubpackages,Body.package.injEq] at same ⊢
    simp [same.1]
  | _ => rfl

end Body

namespace SymbolTable

def Retains (keep : Handle → Bool) (t t' : SymbolTable) : Prop :=
  ∀ x, keep x → (t'.symbol? x).map (Symbol.mapBody (Body.only keep)) =
    (t.symbol? x).map (Symbol.mapBody (Body.only keep))

variable {keep : Handle → Bool} {t t' : SymbolTable}

theorem retainsRefl (t : SymbolTable) : Retains keep t t := fun _ _ => rfl

theorem Retains.trans {t'' : SymbolTable} (first : Retains keep t t') (second : Retains keep t' t'') :
    Retains keep t t'' := fun x kept => (second x kept).trans (first x kept)

theorem Retains.live (retains : Retains keep t t') {x : Handle} (kept : keep x) :
    (t'.symbol? x).isSome = (t.symbol? x).isSome := by
  simpa using congrArg Option.isSome (retains x kept)

theorem retainsModify {p : Handle} {f : Body → Body}
    (same : ∀ o, t.symbol? p = some o → (f o.body).only keep = o.body.only keep) :
    Retains keep t (t.modify p f) := by
  intro x _
  rw [symbolModify]
  split
  · rename_i here
    subst here
    cases live : t.symbol? x with
    | none => rfl
    | some o => simp [Symbol.mapBody,same o live]
  · rfl

theorem retainsOptional {p : Option Handle} {f : Body → Body}
    (same : ∀ q o, p = some q → t.symbol? q = some o → (f o.body).only keep = o.body.only keep) :
    Retains keep t (t.modify? p f) := by
  cases p with
  | none => exact retainsRefl t
  | some q => exact retainsModify fun o => same q o rfl

theorem retainsOutside {p : Handle} (out : keep p = false) (f : Body → Body) :
    Retains keep t (t.modify p f) := by
  intro x kept
  rw [symbolModify,if_neg]
  rintro rfl
  simp [out] at kept

theorem Consistent.retainsPlanted (c : t.Consistent) {s : Symbol} (out : keep (t.slotFor s) = false) :
    Retains keep t (t.planted s) := by
  intro x kept
  rw [c.symbolPlanted,if_neg]
  rintro rfl
  simp [out] at kept

theorem retainsSame (same : ∀ x, keep x → t'.symbol? x = t.symbol? x) : Retains keep t t' :=
  fun x kept => congrArg _ (same x kept)

theorem unlinkTable {h p : Handle} {s : Symbol} (live : t.symbol? h = some s) (parent : s.parent = some p) :
    t.unlink h = (t.modify p (Body.unlisted s.name h)).modify?
      ((t.symbol? p).bind (listingPackage? · s.kind)) (·.mapMembers (·.drop s.name h)) := by
  unfold unlink
  rw [live]
  simp only [parent]
  rfl

theorem retainsUnlink (tidy : ∀ q o, t.symbol? q = some o → o.body.Tidy) {h : Handle}
    (out : keep h = false) : Retains keep t (t.unlink h) := by
  cases live : t.symbol? h with
  | none => simp only [unlink,live,retainsRefl]
  | some s =>
    cases parent : s.parent with
    | none => simp only [unlink,live,parent,retainsRefl]
    | some p =>
      rw [unlinkTable live parent]
      refine (retainsModify fun o owner => Body.onlyUnlisted out (tidy p o owner) s.name).trans
        (retainsOptional fun q o _ owner => Body.onlyMembers (Members.onlyDrop out ?_ s.name))
      rw [symbolModify] at owner
      split at owner
      · obtain ⟨o',owner',rfl⟩ := Option.map_eq_some_iff.mp owner
        exact (Body.tidyUnlisted (tidy q o' owner') s.name h).members
      · exact (tidy q o owner).members

theorem Consistent.retainsRemove (c : t.Consistent) {h : Handle} {s : Symbol} (live : t.symbol? h = some s)
    (package : s.kind ≠ .package) (file : s.kind ≠ .file) (out : ∀ x, t.Within h x → keep x = false) :
    Retains keep t (t.remove h) := by
  obtain ⟨p,_,parent,_⟩ := c.plainOwner live package
  refine (retainsUnlink (fun _ _ => c.tidy) (out h .self)).trans (retainsSame fun x kept => ?_)
  refine removeSymbol c live parent package file fun within => ?_
  simp [out x within] at kept

theorem Consistent.retainsRemoveAll (c : t.Consistent) {handles : List Handle}
    (plain : ∀ h ∈ handles, ∀ {s}, t.symbol? h = some s → s.kind ≠ .package ∧ s.kind ≠ .file)
    (out : ∀ h ∈ handles, ∀ x, t.Within h x → keep x = false) :
    Retains keep t (handles.foldl remove t) := by
  induction handles generalizing t with
  | nil => exact retainsRefl t
  | cons h rest ih =>
    obtain ⟨here,later⟩ := List.forall_mem_cons.mp plain
    obtain ⟨first,others⟩ := List.forall_mem_cons.mp out
    rw [List.foldl_cons]
    cases live : t.symbol? h with
    | none =>
      rw [removeDead live]
      exact ih c later others
    | some s =>
      obtain ⟨package,file⟩ := here live
      have prunes := removePrunes c live package file
      refine (c.retainsRemove live package file first).trans (ih (prunes.consistent c) ?_ ?_)
      · intro x listed sx held
        obtain ⟨_,s₀,live₀,same⟩ := prunes.live held
        exact Symbol.kindOutline same ▸ later x listed live₀
      · exact fun x listed y within => others x listed y (prunes.withinBefore within)

theorem Consistent.retainsLink (c : t.Consistent) {p : Handle} {package : Option Handle} {s : Symbol}
    (out : keep (t.slotFor s) = false) : Retains keep t (t.link p package s).2 := by
  rw [linkTable]
  exact ((c.retainsPlanted out).trans
    (retainsModify fun o _ => Body.onlyLinked out s.name _ o.body)).trans
    (retainsOptional fun q o _ _ => Body.onlyMembers (Members.onlyPush out _ s.name))

theorem Consistent.retainsAttach (c : t.Consistent) {p h : Handle} {d : Draft}
    (ok : t.attach p d = .ok (h,t')) (out : keep h = false)
    (inner : ∀ y ∈ t.declared p d.name, ∀ x, t.Within y x → keep x = false) : Retains keep t t' := by
  obtain ⟨body,o,members,gone,o',checked,owner,scope,prunes,_,_,linked,_⟩ := attachClears c ok
  have table : t' = _ := (congrArg Prod.snd linked).symm
  have handle : h = SymbolTable.slotFor _ _ := (congrArg Prod.fst linked).symm
  rw [table]
  have replaced : ∀ {x}, x ∈ t.replacedBy members d.kind d.name → x ∈ o.shelf (.member d.name) :=
    fun listed => underShelf scope d.name ▸ (memReplaced.mp listed).2.1
  refine (c.retainsRemoveAll ?_ ?_).trans ((prunes.consistent c).retainsLink (handle ▸ out))
  · exact fun x listed s live => c.memberKind owner (replaced listed) live
  · exact fun x listed => inner x (declaredShelf owner d.name ▸ replaced listed)

theorem Consistent.retainsPackage (c : t.Consistent) {p : Handle} {o : Symbol} (owner : t.symbol? p = some o)
    (package : o.kind = .package) (names : List String) (kept : ∀ x, keep x → (t.symbol? x).isSome) :
    Retains keep t (t.makePackage p names).2 := by
  induction names generalizing t p o with
  | nil => exact retainsRefl t
  | cons name rest ih =>
    unfold makePackage
    simp only [owner]
    cases found : o.subpackages.get? name with
    | some h =>
      have bound : o.body.subpackages.get? name = some h := Symbol.subpackagesBody o ▸ found
      obtain ⟨s,live,kind,_⟩ := c.subpackage owner (Symbol.subpackageShelf bound)
      exact ih c live kind kept
    | none =>
      have grows := subpackageGrows c owner package found
      have out : keep (t.slotFor (emptyPackage name p o)) = false := by
        refine Bool.eq_false_iff.mpr fun inside => ?_
        have live := kept _ inside
        simp [c.slotFresh] at live
      have first : Retains keep t ((t.planted (emptyPackage name p o)).modify p
          (·.mapSubpackages (·.insert name (t.slotFor (emptyPackage name p o))))) := by
        refine (c.retainsPlanted out).trans (retainsModify fun o' live => ?_)
        cases Option.some.inj ((c.plantedOld _ owner).symm.trans live)
        exact Body.onlySubpackage out (Symbol.subpackagesBody o ▸ found)
      exact first.trans (ih (grows.consistent c) grows.added rfl fun x inside =>
        (first.live inside).trans (kept x inside))

theorem Consistent.retainsFile (c : t.Consistent) {path : String} {decl : FileDecl} {p : Handle} {o : Symbol}
    (out : keep (t.slotFor (emptyFile path decl p o)) = false) :
    Retains keep t (t.withFile path decl p o) :=
  (c.retainsPlanted out).trans (retainsModify fun o' _ => Body.onlyFile out o'.body)

theorem Consistent.retainsDrop (c : t.Consistent) {path : String} {file : Handle}
    (found : t.files.get? (Path.normalize path) = some file)
    (out : ∀ x, t.Within file x → keep x = false) : Retains keep t (t.dropFile path).2 := by
  have prunes := dropFilePrunes c found
  obtain ⟨s,live,isFile,_⟩ := (c.indexed _ file).mp found
  have package : s.kind ≠ .package := by simp [isFile]
  obtain ⟨p,o,parent,owner⟩ := c.plainOwner live package
  rw [dropFileFound found live parent] at prunes ⊢
  have unlisted : Retains keep t (unlistAll p { t with files := t.files.erase (Path.normalize path) }
      s.body.members) := by
    refine retainsModify (t := { t with files := _ }) fun o' owner' => Body.onlyMembers ?_
    refine Members.onlyDropAll (c.tidy owner').members (c.tidy live).members fun name h listed => ?_
    obtain ⟨sx,inside⟩ := ((c.listed live (.member name) h).mp listed).live
    exact out h (.inner inside (c.ownMember live package (.member name) listed inside) .self)
  have trims := (unlistTrims { t with files := t.files.erase (Path.normalize path) } p
    (c.tidy live).members)
  refine (unlisted.trans (retainsUnlink ?_ (out file .self))).trans (retainsSame fun x kept => ?_)
  · intro q o' owner'
    obtain ⟨o₀,owner₀,_⟩ := liveOutline (trims.outline q).symm owner'
    obtain ⟨o₁,owner₁,_,tidy,_⟩ := trims.live owner₀
    cases Option.some.inj (owner'.symm.trans owner₁)
    exact tidy (c.tidy owner₀)
  · -- What is kept is not freed with the file.
    have stays : ¬t.Within file x := fun within => by simp [out x within] at kept
    rcases releaseKeeps ((unlistAll p { t with files := t.files.erase (Path.normalize path) }
      s.body.members).unlink file).symbols [file] x with same | gone
    · exact same
    · have dead := (deadOutline (prunes.kept stays)).mp gone
      obtain ⟨s',live',same,_⟩ := trims.live (q := file) live
      have unlinks := (unlinkTrims live' (Symbol.parentOutline same ▸ parent)).dead
        (trims.dead (q := x) dead)
      exact Eq.trans gone unlinks.symm

theorem Retains.exact (retains : Retains keep t t') (c' : t'.Consistent) (stocked : t'.Stocked)
    (all : ∀ x s, t'.symbol? x = some s → keep x) {x : Handle} (kept : keep x) :
    t'.symbol? x = (t.symbol? x).map (Symbol.mapBody (Body.only keep)) := by
  rw [← retains x kept]
  cases live : t'.symbol? x with
  | none => rfl
  | some s =>
    have same : s.body.only keep = s.body := by
      refine Body.onlyAll (c'.tidy live) (stocked x s live) fun place h listed => ?_
      obtain ⟨sx,inside⟩ := ((c'.listed live place h).mp listed).live
      exact all h sx inside
    simp [Symbol.mapBody,same]

end SymbolTable
end CodeIndex
