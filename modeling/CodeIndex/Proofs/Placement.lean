import CodeIndex.Proofs.Naming

/-! The exact effect of attaching a draft to a scope other than a package. The new symbol comes last under
its name; of the symbols that were there, a method leaves all, and anything else leaves the methods.
Outside the scope nothing changes but the lists of packages. -/
namespace CodeIndex

structure Symbol.Matches (s : Symbol) (p : Handle) (d : Draft) : Prop where
  parent : s.parent = some p
  name : s.name = d.name
  kind : s.kind = d.kind
  isStatic : s.isStatic = d.isStatic
  span : s.span = d.span
  body : d.body? = some s.body.bare

theorem Symbol.Matches.outline {s s' : Symbol} {p : Handle} {d : Draft} (fits : s.Matches p d)
    (same : s'.outline = s.outline) : s'.Matches p d where
  parent := (Symbol.parentOutline same).trans fits.parent
  name := (Symbol.nameOutline same).trans fits.name
  kind := (Symbol.kindOutline same).trans fits.kind
  isStatic := (Symbol.staticOutline same).trans fits.isStatic
  span := (Symbol.spanOutline same).trans fits.span
  body := by
    have bodies : s'.body.bare = s.body.bare := congrArg Symbol.body same
    rw [bodies,fits.body]

theorem Symbol.Matches.inner {s : Symbol} {p : Handle} {d : Draft} (fits : s.Matches p d) :
    s.kind ≠ .package ∧ s.kind ≠ .file := by
  have made := fits.body
  unfold Draft.body? at made
  rw [Symbol.kind,← Body.kindBare]
  split at made <;> cases bare : s.body.bare <;> simp_all [Body.kind]

theorem Symbol.Matches.plain {s : Symbol} {p : Handle} {d : Draft} (fits : s.Matches p d) :
    s.kind ≠ .package := fits.inner.1

namespace SymbolTable

def Holds (t : SymbolTable) (p h : Handle) (d : Draft) : Prop :=
  ∃ s, t.symbol? h = some s ∧ s.Matches p d

def parametersOf (t : SymbolTable) (h : Handle) : List Handle :=
  match t.symbol? h with
  | some s => s.body.parameters
  | none => []

def outlives (t : SymbolTable) (d : Draft) (h : Handle) : Bool :=
  d.kind = .method || match t.symbol? h with
    | some s => s.kind = .method || s.name ≠ d.name
    | none => true

theorem checkedDraft {d : Draft} {body : Body} (ok : d.check = .ok body) : d.body? = some body := by
  unfold Draft.check at ok
  split at ok
  · contradiction
  · split at ok
    · contradiction
    · rename_i made
      split at ok
      · contradiction
      · split at ok
        · contradiction
        · rw [made,Except.ok.inj ok]

theorem outlivesNot {t : SymbolTable} {d : Draft} {h : Handle} {s : Symbol} (live : t.symbol? h = some s) :
    t.outlives d h = false ↔ d.kind ≠ .method ∧ s.kind ≠ .method ∧ s.name = d.name := by
  simp [outlives,live]

namespace Consistent

variable {t : SymbolTable} (c : t.Consistent) {p : Handle} {o : Symbol} (owner : t.symbol? p = some o)
  (plain : o.kind ≠ .package)
include c owner plain

theorem memberNamed {x : Handle} {place : Shelf} (listed : x ∈ o.shelf place) :
    ∃ s, t.symbol? x = some s ∧ s.parent = some p ∧ x ∈ o.shelf (.member s.name) ∧
      (∀ name, place = .member name → s.name = name) := by
  have belongs := (c.listed owner place x).mp listed
  obtain ⟨s,live⟩ := belongs.live
  have parent := c.ownMember owner plain place listed live
  have home := c.onShelf live parent owner
  rw [c.ownHome live parent owner plain] at home
  refine ⟨s,live,parent,home,?_⟩
  rintro name rfl
  exact belongs.memberName live

theorem replacedCases {members : Members} (scope : o.members? = some members) (d : Draft) :
    t.replacedBy members d.kind d.name = [] ∧ (∀ place, ∀ x ∈ o.shelf place, t.outlives d x) ∨
    ∃ y s, t.replacedBy members d.kind d.name = [y] ∧ t.symbol? y = some s ∧ s.parent = some p ∧
      s.name = d.name ∧ s.kind ≠ .package ∧ s.kind ≠ .file ∧
      ∀ place, ∀ x ∈ o.shelf place, (t.outlives d x = false ↔ x = y) := by
  have replaced : ∀ {x place}, x ∈ o.shelf place →
      (t.outlives d x = false ↔ x ∈ t.replacedBy members d.kind d.name) := by
    intro x place listed
    obtain ⟨s,live,_,home,_⟩ := c.memberNamed owner plain listed
    rw [outlivesNot live,memReplaced,underShelf scope]
    constructor
    · rintro ⟨other,method,named⟩
      exact ⟨other,named ▸ home,s,live,method⟩
    · rintro ⟨other,under,s',live',method⟩
      cases Option.some.inj (live.symm.trans live')
      obtain ⟨s'',live'',_,_,named⟩ := c.memberNamed owner plain under
      cases Option.some.inj (live.symm.trans live'')
      exact ⟨other,method,named _ rfl⟩
  have once : (t.replacedBy members d.kind d.name).Nodup := by
    unfold replacedBy
    split
    · exact List.nodup_nil
    · rw [underShelf scope]
      exact ((c.tidy owner).once _).sublist List.filter_sublist
  cases found : t.replacedBy members d.kind d.name with
  | nil =>
    refine .inl ⟨rfl,fun place x listed => ?_⟩
    have stays := not_congr (replaced listed)
    simpa [found] using stays
  | cons y rest =>
    have first : y ∈ t.replacedBy members d.kind d.name := by simp [found]
    obtain ⟨_,under,s,live,method⟩ := memReplaced.mp first
    rw [underShelf scope] at under
    obtain ⟨s',live',parent,_,named⟩ := c.memberNamed owner plain under
    cases Option.some.inj (live.symm.trans live')
    obtain ⟨package,file⟩ := c.memberKind owner under live
    have single : rest = [] := by
      refine List.eq_nil_iff_forall_not_mem.mpr fun z later => ?_
      obtain ⟨_,under',sz,liveZ,methodZ⟩ :=
        memReplaced.mp (show z ∈ t.replacedBy members d.kind d.name by simp [found,later])
      rw [underShelf scope] at under'
      have same := c.single owner plain under under' live liveZ method methodZ
      rw [found] at once
      exact (List.nodup_cons.mp once).1 (same ▸ later)
    subst single
    refine .inr ⟨y,s,rfl,live,parent,named _ rfl,package,file,fun place x listed => ?_⟩
    rw [replaced listed,found,List.mem_singleton]

end Consistent

section

variable {t : SymbolTable} (c : t.Consistent) {p y : Handle} {o s : Symbol} (owner : t.symbol? p = some o)
  (plain : o.kind ≠ .package) (live : t.symbol? y = some s) (parent : s.parent = some p)
include c owner live parent

theorem unlinkOther {x : Handle} {sx : Symbol} (live' : t.symbol? x = some sx)
    (other : sx.kind ≠ .package) (apart : x ≠ p) : (t.unlink y).symbol? x = some sx := by
  have unlisted : ∀ f, (t.modify p f).symbol? x = some sx := by
    intro f
    rw [symbolModify,if_neg apart,live']
  simp only [unlink,live,parent,owner,Option.bind_some]
  cases listed : listingPackage? o s.kind with
  | none => exact unlisted _
  | some q =>
    obtain ⟨_,_,_,oq,package,isPackage⟩ := c.listing owner listed
    have away : x ≠ q := by
      rintro rfl
      exact other (Option.some.inj (live'.symm.trans package) ▸ isPackage)
    simp only [modify?]
    rw [symbolModify,if_neg away]
    exact unlisted _

include plain

theorem unlinkOwner : (t.unlink y).symbol? p = some (o.mapBody (Body.unlisted s.name y)) := by
  have unlisted : (t.modify p (Body.unlisted s.name y)).symbol? p =
      some (o.mapBody (Body.unlisted s.name y)) := by
    rw [symbolModify,if_pos rfl,owner,Option.map_some]
  simp only [unlink,live,parent,owner,Option.bind_some]
  cases listed : listingPackage? o s.kind with
  | none => exact unlisted
  | some q =>
    obtain ⟨_,_,_,oq,package,isPackage⟩ := c.listing owner listed
    have away : p ≠ q := by
      rintro rfl
      exact plain (Option.some.inj (owner.symm.trans package) ▸ isPackage)
    simp only [modify?]
    rw [symbolModify,if_neg away]
    exact unlisted

omit owner plain in
theorem removeSymbol (package : s.kind ≠ .package) (file : s.kind ≠ .file) {x : Handle}
    (outside : ¬t.Within y x) : (t.remove y).symbol? x = (t.unlink y).symbol? x := by
  rcases releaseKeeps (t.unlink y).symbols [y] x with same | gone
  · exact same
  · have dead := (deadOutline ((removePrunes c live package file).kept outside)).mp gone
    rw [(unlinkTrims live parent).dead dead]
    exact gone

end

def Replaced (t : SymbolTable) (p : Handle) (d : Draft) (y : Handle) : Prop :=
  ∃ s, t.symbol? y = some s ∧ s.parent = some p ∧ t.outlives d y = false

theorem Consistent.ownerOutside {t : SymbolTable} (c : t.Consistent) {p y : Handle} {s : Symbol}
    (live : t.symbol? y = some s) (parent : s.parent = some p) : ¬t.Within y p := by
  intro within
  obtain ⟨o,owner,_⟩ := c.parentLive live parent
  exact c.notInside owner (Inside.within ⟨s,p,live,parent,.self⟩ within)

theorem clearedSymbols {t : SymbolTable} (c : t.Consistent) {p : Handle} {o : Symbol}
    (owner : t.symbol? p = some o) (plain : o.kind ≠ .package) {members : Members}
    (scope : o.members? = some members) (d : Draft) :
    (∃ o', ((t.replacedBy members d.kind d.name).foldl remove t).symbol? p = some o' ∧
      o'.outline = o.outline ∧ ∀ place, o'.shelf place = (o.shelf place).filter (t.outlives d)) ∧
    ∀ {x sx}, t.symbol? x = some sx → sx.kind ≠ .package → x ≠ p →
      (∀ y, t.Replaced p d y → ¬t.Within y x) →
      ((t.replacedBy members d.kind d.name).foldl remove t).symbol? x = some sx := by
  rcases c.replacedCases owner plain scope d with
    ⟨none,all⟩ | ⟨y,s,one,live,parent,named,package,file,only⟩
  · rw [none]
    refine ⟨⟨o,owner,rfl,fun place => ?_⟩,fun live _ _ _ => live⟩
    exact (List.filter_eq_self.mpr (all place)).symm
  · rw [one]
    have home : y ∈ o.shelf (.member s.name) := by
      have shelved := c.onShelf live parent owner
      rwa [c.ownHome live parent owner plain] at shelved
    have replaced : t.Replaced p d y := ⟨s,live,parent,(only _ y home).mpr rfl⟩
    simp only [List.foldl_cons,List.foldl_nil]
    constructor
    · rw [removeSymbol c live parent package file (c.ownerOutside live parent),
        unlinkOwner c owner plain live parent]
      refine ⟨_,rfl,by simp [Symbol.outline,Symbol.mapBody,Body.unlisted],fun place => ?_⟩
      have kept : ∀ x ∈ o.shelf place, t.outlives d x = decide (x ≠ y) := by
        intro x listed
        have single := only place x listed
        cases outlives : t.outlives d x <;> simp_all
      have shelf : (o.mapBody (Body.unlisted s.name y)).shelf place = _ :=
        Body.shelfUnlisted o.body s.name y place
      rw [shelf,List.filter_congr kept]
      split
      · rfl
      · rename_i elsewhere
        refine (List.filter_eq_self.mpr fun x listed => ?_).symm
        refine decide_eq_true fun same => elsewhere ?_
        subst same
        cases (c.listed owner place x).mp listed with
        | own live' =>
          cases Option.some.inj (live.symm.trans live')
          exact .inl (Symbol.memberHome package file)
        | parameter => exact .inr (.inl rfl)
        | type live' =>
          cases Option.some.inj (live.symm.trans live')
          exact .inl rfl
    · intro x sx live' other apart outside
      rw [removeSymbol c live parent package file (outside y replaced)]
      exact unlinkOther c owner live parent live' other apart

theorem linkSymbols {t : SymbolTable} (c : t.Consistent) {p : Handle} {s o : Symbol}
    (owner : t.symbol? p = some o) (plain : o.kind ≠ .package) :
    (t.link p (listingPackage? o s.kind) s).2.symbol? p =
      some (o.mapBody (linked s.name (t.slotFor s) (s.kind = .value .parameter))) ∧
    ∀ {x sx}, t.symbol? x = some sx → sx.kind ≠ .package → x ≠ p →
      (t.link p (listingPackage? o s.kind) s).2.symbol? x = some sx := by
  have found : ∀ {x sx}, t.symbol? x = some sx → sx.kind ≠ .package →
      (t.link p (listingPackage? o s.kind) s).2.symbol? x = if x = p
        then some (sx.mapBody (linked s.name (t.slotFor s) (s.kind = .value .parameter)))
        else some sx := by
    intro x sx live other
    have planted : ∀ f, ((t.planted s).modify p f).symbol? x =
        if x = p then some (sx.mapBody f) else some sx := by
      intro f
      rw [symbolModify,c.plantedOld s live]
      split <;> rfl
    rw [linkTable]
    cases listed : listingPackage? o s.kind with
    | none => exact planted _
    | some q =>
      obtain ⟨_,_,_,oq,package,isPackage⟩ := c.listing owner listed
      have away : x ≠ q := by
        rintro rfl
        exact other (Option.some.inj (live.symm.trans package) ▸ isPackage)
      simp only [modify?]
      rw [symbolModify,if_neg away,planted]
  constructor
  · rw [found owner plain,if_pos rfl]
  · intro x sx live other apart
    rw [found live other,if_neg apart]

theorem linkedMembers {b : Body} (scope : b.members?.isSome) (name : String) (h : Handle)
    (parameter : Bool) (n : String) : (linked name h parameter b).shelf (.member n) =
      b.shelf (.member n) ++ if n = name then [h] else [] := by
  have pushed := Body.gainsPush scope name h (.member n)
  have same : (linked name h parameter b).shelf (.member n) =
      (b.mapMembers (·.push name h)).shelf (.member n) := by
    unfold linked
    split
    · cases b <;> rfl
    · rfl
  rw [same,pushed]
  simp only [Shelf.member.injEq]
  split <;> simp

theorem linkedParameters {b : Body} (method : b.kind = .method) (name : String) (h : Handle)
    (parameter : Bool) : (linked name h parameter b).parameters =
      b.parameters ++ if parameter then [h] else [] := by
  cases b with
  | method header parameters members =>
    cases parameter <;> simp [linked,Body.mapMembers,Body.mapParameters,Body.parameters]
  | _ => cases method

structure Places (t t' : SymbolTable) (p h : Handle) (d : Draft) : Prop where
  held : t'.Holds p h d
  blank : ∀ name, t'.declared h name = []
  unset : t'.parametersOf h = []
  listed : ∀ name, t'.declared p name =
    (t.declared p name).filter (t.outlives d) ++ if name = d.name then [h] else []
  parameters : t.Kinded p (· = .method) → t'.parametersOf p =
    (t.parametersOf p).filter (t.outlives d) ++ if d.kind = .value .parameter then [h] else []
  others : ∀ {x s}, t.symbol? x = some s → s.kind ≠ .package → x ≠ p →
    (∀ y, t.Replaced p d y → ¬t.Within y x) → t'.symbol? x = some s
  apart : ∀ {x s}, t.symbol? x = some s → (∀ y, t.Replaced p d y → ¬t.Within y x) → ¬t'.Within h x

theorem Grows.newInside {t t' : SymbolTable} {h p : Handle} {s o : Symbol} (grows : Grows t t' h s p o)
    (c : t.Consistent) {x : Handle} (within : t'.Within h x) : t.symbol? x = none := by
  induction within with
  | self => exact grows.fresh
  | inner live parent _ ih =>
    rcases grows.live live with ⟨rfl,_⟩ | ⟨s₀,live₀,same⟩
    · exact grows.fresh
    · obtain ⟨o,owner,_⟩ := c.parentLive live₀ (Symbol.parentOutline same ▸ parent)
      simp [ih] at owner

theorem attachPlaces {t t' : SymbolTable} (c : t.Consistent) {p h : Handle} {d : Draft} {o : Symbol}
    (owner : t.symbol? p = some o) (plain : o.kind ≠ .package) (ok : t.attach p d = .ok (h,t')) :
    Places t t' p h d := by
  obtain ⟨body,o₀,members,gone,o',checked,owner₀,scope,prunes,cleared,same,link,grows⟩ :=
    attachClears c ok
  cases Option.some.inj (owner.symm.trans owner₀)
  obtain ⟨bare,kind,_,_⟩ := checkedBody checked
  obtain ⟨⟨o₁,owner₁,_,shelves⟩,kept⟩ := clearedSymbols c owner plain scope d
  cases Option.some.inj (owner₁.symm.trans grows.owner)
  have kind' : (drafted d p o body).kind = d.kind := kind
  have slot := congrArg Prod.fst link
  obtain ⟨inside,outside⟩ := linkSymbols (prunes.consistent c) (s := drafted d p o body) owner₁
    (Symbol.kindOutline same ▸ plain)
  rw [kind',link] at inside outside
  change SymbolTable.slotFor _ _ = h at slot
  rw [slot] at inside
  have isScope : o'.body.members?.isSome := (scopeOutline same).trans (by rw [scope]; rfl)
  have replaced : ∀ y ∈ t.replacedBy members d.kind d.name, t.Replaced p d y := by
    intro y listed
    obtain ⟨other,under,s,live,method⟩ := memReplaced.mp listed
    rw [underShelf scope] at under
    obtain ⟨s',live',parent,_,named⟩ := c.memberNamed owner plain under
    cases Option.some.inj (live.symm.trans live')
    exact ⟨s,live,parent,(outlivesNot live).mpr ⟨other,method,named _ rfl⟩⟩
  have added := grows.added
  constructor
  · refine ⟨_,added,rfl,rfl,kind',rfl,rfl,?_⟩
    rw [checkedDraft checked]
    exact congrArg some bare.symm
  · intro name
    rw [declaredShelf added]
    exact grows.empty _
  · simp only [parametersOf,added]
    exact grows.empty .parameters
  · intro name
    rw [declaredShelf inside,declaredShelf owner,← shelves]
    exact linkedMembers isScope _ _ _ _
  · rintro ⟨o₂,owner₂,method⟩
    cases Option.some.inj (owner.symm.trans owner₂)
    have parameters : o'.body.parameters = o.body.parameters.filter (t.outlives d) := shelves .parameters
    simp only [parametersOf,inside,owner,← parameters]
    have isMethod : o'.body.kind = .method := (Symbol.kindOutline same).trans method
    refine (linkedParameters isMethod _ _ _).trans ?_
    simp
  · intro x s live other away stays
    exact outside (kept live other away stays) other away
  · intro x s live stays within
    have dead := grows.newInside (prunes.consistent c) within
    obtain ⟨s',live',_⟩ := prunes.stays live fun lost => by
      obtain ⟨y,listed,inner⟩ := cleared x lost
      exact stays y (replaced y listed) inner
    simp [dead] at live'

end SymbolTable
end CodeIndex
