import CodeIndex.Proofs.Catalogue
import Mathlib.Data.List.Forall2

/-! The order in which files are indexed does not show in qualified names. Two tables that hold the same
files have different handles, and their packages list what is in them in different orders; but where no
two files of a package declare a type of one name, every path of names leads to the same declaration in
both, or to nothing in both. -/
namespace CodeIndex

def FileDecl.Apart (decls : List FileDecl) : Prop :=
  ∀ d ∈ decls, ∀ e ∈ decls, d.package = e.package → ∀ a ∈ d.types, ∀ b ∈ e.types,
    a.outline.name = b.outline.name → d = e

namespace Symbol

structure Alike (s s' : Symbol) : Prop where
  name : s.name = s'.name
  kind : s.kind = s'.kind
  qualifiers : s.qualifiers = s'.qualifiers
  isStatic : s.isStatic = s'.isStatic
  span : s.span = s'.span
  body : s.body.bare = s'.body.bare

theorem Alike.childQualifiers {s s' : Symbol} (alike : s.Alike s') :
    s.childQualifiers = s'.childQualifiers := by
  have same : { s.outline with parent := s'.parent } = s'.outline := by
    simp [outline,mapBody,alike.name,alike.qualifiers,alike.isStatic,alike.span,alike.body]
  rw [← childQualifiersOfOutline s,← childQualifiersOfOutline s',← same]
  rfl

theorem alikeOutline {s s' : Symbol} (same : s.outline = s'.outline) : s.Alike s' where
  name := nameOutline same
  kind := kindOutline same
  qualifiers := qualifiersOutline same
  isStatic := staticOutline same
  span := spanOutline same
  body := congrArg Symbol.body same

theorem Matches.alike {s s' : Symbol} {p p' : Handle} {d : Draft} (fits : s.Matches p d)
    (fits' : s'.Matches p' d) (qualifiers : s.qualifiers = s'.qualifiers) : s.Alike s' where
  name := fits.name.trans fits'.name.symm
  kind := fits.kind.trans fits'.kind.symm
  qualifiers := qualifiers
  isStatic := fits.isStatic.trans fits'.isStatic.symm
  span := fits.span.trans fits'.span.symm
  body := Option.some.inj (fits.body.symm.trans fits'.body)

theorem barePackage {s : Symbol} (package : s.kind = .package) : s.body.bare = .package {} [] {} := by
  obtain ⟨_,_,_,_,_,body⟩ := s
  cases body with
  | package => rfl
  | _ => cases package

end Symbol

theorem pairedEntries {P : α → γ → Prop} {Q : β → γ → Prop} {entries : List (α × γ)}
    {entries' : List (β × γ)} (same : entries.map Prod.snd = entries'.map Prod.snd)
    (each : ∀ e ∈ entries, P e.1 e.2) (each' : ∀ e ∈ entries', Q e.1 e.2) (keep : γ → Bool) :
    List.Forall₂ (fun a b => ∃ c, P a c ∧ Q b c) ((entries.filter (keep ·.2)).map Prod.fst)
      ((entries'.filter (keep ·.2)).map Prod.fst) := by
  induction entries generalizing entries' with
  | nil =>
    cases List.map_eq_nil_iff.mp same.symm
    exact .nil
  | cons e rest ih =>
    obtain ⟨e',rest',rfl,head,tail⟩ := List.map_eq_cons_iff.mp same.symm
    obtain ⟨first,others⟩ := List.forall_mem_cons.mp each
    obtain ⟨first',others'⟩ := List.forall_mem_cons.mp each'
    have later := ih tail.symm others others'
    rw [head] at first'
    simp only [List.filter_cons,head]
    split
    · exact .cons ⟨e.2,first,first'⟩ later
    · exact later

theorem pairedMember {R : α → β → Prop} {as : List α} {bs : List β} (paired : List.Forall₂ R as bs)
    {a : α} (inside : a ∈ as) : ∃ b ∈ bs, R a b := by
  induction paired with
  | nil => cases inside
  | cons first _ ih =>
    rcases List.mem_cons.mp inside with rfl | later
    · exact ⟨_,by simp,first⟩
    · obtain ⟨b,there,related⟩ := ih later
      exact ⟨b,by simp [there],related⟩

namespace SymbolTable

structure Twins (t t' : SymbolTable) (h h' : Handle) : Prop where
  alike : ∃ s s', t.symbol? h = some s ∧ t'.symbol? h' = some s' ∧ s.Alike s'
  source : (∃ names : List String, names.foldlM t.subpackage? t.root = some h ∧
      names.foldlM t'.subpackage? t'.root = some h') ∨
    ∃ p p' plan, t.Mirrors p h plan ∧ t'.Mirrors p' h' plan

theorem Carries.paired {t t' : SymbolTable} {p p' : Handle} {plans : List Plan}
    (carries : t.Carries p plans) (carries' : t'.Carries p' plans) (name : String) :
    List.Forall₂ (fun h h' => ∃ plan, t.Mirrors p h plan ∧ t'.Mirrors p' h' plan)
      (t.declared p name) (t'.declared p' name) := by
  obtain ⟨entries,all,lines,each⟩ := carries
  obtain ⟨entries',all',lines',each'⟩ := carries'
  rw [lines.lists,lines'.lists]
  exact pairedEntries (all.trans all'.symm) each each' fun plan => plan.draft.name = name

theorem mirrorsTwins {t t' : SymbolTable} (c : t.Consistent) (c' : t'.Consistent) {p p' h h' : Handle}
    {o o' : Symbol} {plan : Plan} (owner : t.symbol? p = some o) (owner' : t'.symbol? p' = some o')
    (names : o.childQualifiers = o'.childQualifiers) (mirrors : t.Mirrors p h plan)
    (mirrors' : t'.Mirrors p' h' plan) : Twins t t' h h' := by
  obtain ⟨s,live,fits⟩ := mirrors.held
  obtain ⟨s',live',fits'⟩ := mirrors'.held
  obtain ⟨_,above,qualifiers⟩ := c.parentLive live fits.parent
  obtain ⟨_,above',qualifiers'⟩ := c'.parentLive live' fits'.parent
  cases Option.some.inj (owner.symm.trans above)
  cases Option.some.inj (owner'.symm.trans above')
  refine ⟨⟨s,s',live,live',fits.alike fits' ?_⟩,.inr ⟨p,p',plan,mirrors,mirrors'⟩⟩
  rw [qualifiers,qualifiers',names]

theorem Consistent.childless {t : SymbolTable} (c : t.Consistent) {h : Handle} {s : Symbol}
    (live : t.symbol? h = some s) (plain : s.kind ≠ .package) (name : String) :
    t.subpackage? h name = none := by
  refine Option.eq_none_iff_forall_ne_some.mpr fun x found => plain ?_
  obtain ⟨o,sx,owner,inside,package,_,parent⟩ := c.subpackageFound found
  cases Option.some.inj (live.symm.trans owner)
  exact c.parentOfPackage inside package parent owner

theorem mirrorsStep {t t' : SymbolTable} (c : t.Consistent) (c' : t'.Consistent) {p p' h h' : Handle}
    {s s' : Symbol} {plan : Plan} (live : t.symbol? h = some s) (live' : t'.symbol? h' = some s')
    (alike : s.Alike s') (mirrors : t.Mirrors p h plan) (mirrors' : t'.Mirrors p' h' plan)
    (name : String) : Option.Rel (Twins t t') (t.child? h name) (t'.child? h' name) := by
  obtain ⟨d,inner⟩ := plan
  obtain ⟨⟨_,held,fits⟩,carries⟩ := mirrorsIff.mp mirrors
  obtain ⟨_,carries'⟩ := mirrorsIff.mp mirrors'
  cases Option.some.inj (live.symm.trans held)
  have paired := carries.paired carries' name
  unfold child?
  generalize t.declared h name = listed,t'.declared h' name = listed' at paired ⊢
  cases paired with
  | nil =>
    rw [c.childless live fits.plain,c'.childless live' (alike.kind ▸ fits.plain)]
    exact .none
  | cons first _ =>
    obtain ⟨plan,inside,inside'⟩ := first
    exact .some (mirrorsTwins c c' live live' alike.childQualifiers inside inside')

theorem leadsConcat {t : SymbolTable} {names : List String} {name : String} {p q : Handle} :
    (names ++ [name]).foldlM t.subpackage? p = some q ↔
      ∃ above, names.foldlM t.subpackage? p = some above ∧ t.subpackage? above name = some q := by
  simp [List.foldlM_append,Option.bind_eq_some_iff]

namespace Consistent

variable {t : SymbolTable} (c : t.Consistent)
include c

theorem leadsPackage {names : List String} {q : Handle}
    (leads : names.foldlM t.subpackage? t.root = some q) :
    ∃ s, t.symbol? q = some s ∧ s.kind = .package := by
  cases names using List.reverseRecOn with
  | nil =>
    cases Option.some.inj leads
    obtain ⟨s,live,package,_⟩ := c.root
    exact ⟨s,live,package⟩
  | append_singleton =>
    obtain ⟨_,_,found⟩ := leadsConcat.mp leads
    obtain ⟨_,s,_,live,package,_⟩ := c.subpackageFound found
    exact ⟨s,live,package⟩

theorem leadsBelow {names : List String} {name : String} {q : Handle}
    (leads : (names ++ [name]).foldlM t.subpackage? t.root = some q) : ∃ p s,
      names.foldlM t.subpackage? t.root = some p ∧ t.symbol? q = some s ∧ s.name = name ∧
      s.parent = some p := by
  obtain ⟨p,before,found⟩ := leadsConcat.mp leads
  obtain ⟨_,s,_,live,_,named,parent⟩ := c.subpackageFound found
  exact ⟨p,s,before,live,named,parent⟩

theorem oneWay {names names' : List String} {q : Handle}
    (leads : names.foldlM t.subpackage? t.root = some q)
    (leads' : names'.foldlM t.subpackage? t.root = some q) : names = names' := by
  -- Backwards: the package itself says its name and the package around it.
  induction names using List.reverseRecOn generalizing names' q with
  | nil =>
    cases Option.some.inj leads
    cases names' using List.reverseRecOn with
    | nil => rfl
    | append_singleton =>
      obtain ⟨_,_,_,live,_,parent⟩ := c.leadsBelow leads'
      exact absurd rfl (c.notRoot live parent)
  | append_singleton names name ih =>
    obtain ⟨p,s,before,live,named,parent⟩ := c.leadsBelow leads
    cases names' using List.reverseRecOn with
    | nil =>
      cases Option.some.inj leads'
      exact absurd rfl (c.notRoot live parent)
    | append_singleton =>
      obtain ⟨p',s',before',live',named',parent'⟩ := c.leadsBelow leads'
      cases Option.some.inj (live.symm.trans live')
      cases Option.some.inj (parent.symm.trans parent')
      rw [ih before before',← named,← named']

end Consistent

namespace Catalogue

variable {t : SymbolTable} {decls : List FileDecl} (catalogue : t.Catalogue decls)
include catalogue

theorem plain {h : Handle} {s : Symbol} (live : t.symbol? h = some s) (package : s.kind = .package) :
    s.isStatic = false ∧ s.span = {} := by
  rcases catalogue.packages live package with rfl | ⟨_,_,_,above,o,_,_,same⟩
  · obtain ⟨s',live',same⟩ := catalogue.top
    cases Option.some.inj (live.symm.trans live')
    have same : s.outline = emptyRoot.outline := same
    exact ⟨Symbol.staticOutline same,Symbol.spanOutline same⟩
  · have same : s.outline = (emptyPackage s.name above o).outline := same
    exact ⟨Symbol.staticOutline same,Symbol.spanOutline same⟩

theorem declaredBy {names : List String} {q x : Handle} {name : String}
    (leads : names.foldlM t.subpackage? t.root = some q) (listed : x ∈ t.declared q name) :
    ∃ decl ∈ decls, decl.package = names ∧ ∃ f, t.IndexedAs f decl ∧ x ∈ t.declared f name := by
  have c := catalogue.consistent
  obtain ⟨o,owner,package⟩ := c.leadsPackage leads
  rw [declaredShelf owner] at listed
  have belongs := (c.listed owner _ x).mp listed
  obtain ⟨s,live⟩ := belongs.live
  have named := belongs.memberName live
  obtain ⟨notPackage,notFile⟩ := c.memberKind owner listed live
  generalize Shelf.member name = place at belongs
  cases belongs with
  | own live' parent | parameter live' parent =>
    cases Option.some.inj (live.symm.trans live')
    exact ((catalogue.packaged live parent owner package).elim notPackage notFile).elim
  | type live' type parent file isFile above =>
    cases Option.some.inj (live.symm.trans live')
    obtain ⟨decl,inside,indexed⟩ := catalogue.files file isFile
    obtain ⟨s',q',file',_,_,_,above',leads'⟩ := indexed.entry
    cases Option.some.inj (file.symm.trans file')
    cases Option.some.inj (above.symm.trans above')
    refine ⟨decl,inside,c.oneWay leads' leads,_,indexed,?_⟩
    have shelved := c.onShelf live parent file
    rw [Symbol.memberHome notPackage notFile,named] at shelved
    rwa [declaredShelf file]

theorem sole (apart : FileDecl.Apart decls) {names : List String} {q x y : Handle} {name : String}
    (leads : names.foldlM t.subpackage? t.root = some q) (first : x ∈ t.declared q name)
    (second : y ∈ t.declared q name) : x = y := by
  have c := catalogue.consistent
  obtain ⟨d,inside,package,f,indexed,listed⟩ := catalogue.declaredBy leads first
  obtain ⟨e,inside',package',g,indexed',listed'⟩ := catalogue.declaredBy leads second
  obtain ⟨_,a,_,_,declared,named⟩ := indexed.types listed
  obtain ⟨_,b,_,_,declared',named'⟩ := indexed'.types listed'
  cases apart d inside e inside' (package.trans package'.symm) a declared b declared'
    (named.trans named'.symm)
  obtain ⟨s,_,live,file,path,_⟩ := indexed.entry
  obtain ⟨s',_,live',file',path',_⟩ := indexed'.entry
  have same := (c.indexed _ f).mpr ⟨s,live,file,path⟩
  cases Option.some.inj (same.symm.trans ((c.indexed _ g).mpr ⟨s',live',file',path'⟩))
  exact indexed.alone c listed listed'

variable {t' : SymbolTable} (catalogue' : t'.Catalogue decls)
include catalogue'

theorem typeTwins {names : List String} {q q' x : Handle} {name : String}
    (leads : names.foldlM t.subpackage? t.root = some q)
    (leads' : names.foldlM t'.subpackage? t'.root = some q') (listed : x ∈ t.declared q name) :
    ∃ x' ∈ t'.declared q' name, Twins t t' x x' := by
  obtain ⟨decl,inside,rfl,f,indexed,inFile⟩ := catalogue.declaredBy leads listed
  obtain ⟨f',indexed'⟩ := catalogue'.each decl inside
  obtain ⟨s,_,live,_,_,names,_⟩ := indexed.entry
  obtain ⟨s',_,live',_,_,names',_⟩ := indexed'.entry
  obtain ⟨x',there,plan,mirrors,mirrors'⟩ :=
    pairedMember (indexed.carries.paired indexed'.carries name) inFile
  rw [← indexed'.listed catalogue'.consistent leads'] at there
  have twins := mirrorsTwins catalogue.consistent catalogue'.consistent live live'
    (names.trans names'.symm) mirrors mirrors'
  exact ⟨x',(List.mem_filter.mp there).1,twins⟩

theorem subpackageThere {names : List String} {q q' k : Handle} {name : String}
    (leads : names.foldlM t.subpackage? t.root = some q)
    (leads' : names.foldlM t'.subpackage? t'.root = some q') (found : t.subpackage? q name = some k) :
    ∃ k', t'.subpackage? q' name = some k' := by
  have c := catalogue.consistent
  obtain ⟨_,s,_,live,package,_,parent⟩ := c.subpackageFound found
  rcases catalogue.packages live package with rfl | ⟨decl,inside,way,_,_,⟨rest,split⟩,reached,_⟩
  · exact absurd rfl (c.notRoot live parent)
  · -- The package is on the way to a file, which the other table holds as well.
    cases c.oneWay reached (leadsConcat.mpr ⟨q,leads,found⟩)
    obtain ⟨f',indexed'⟩ := catalogue'.each decl inside
    obtain ⟨_,_,_,_,_,_,_,whole⟩ := indexed'.entry
    rw [← split,List.foldlM_append] at whole
    obtain ⟨k',below,_⟩ := Option.bind_eq_some_iff.mp whole
    obtain ⟨above,before,found'⟩ := leadsConcat.mp below
    cases Option.some.inj (leads'.symm.trans before)
    exact ⟨k',found'⟩

theorem subpackageAlike {q q' k k' : Handle} {name : String} {o o' : Symbol}
    (owner : t.symbol? q = some o) (owner' : t'.symbol? q' = some o') (alike : o.Alike o')
    (found : t.subpackage? q name = some k) (found' : t'.subpackage? q' name = some k') :
    ∃ s s', t.symbol? k = some s ∧ t'.symbol? k' = some s' ∧ s.Alike s' := by
  have c := catalogue.consistent
  have c' := catalogue'.consistent
  obtain ⟨_,s,_,live,package,named,parent⟩ := c.subpackageFound found
  obtain ⟨_,s',_,live',package',named',parent'⟩ := c'.subpackageFound found'
  obtain ⟨_,above,qualifiers⟩ := c.parentLive live parent
  obtain ⟨_,above',qualifiers'⟩ := c'.parentLive live' parent'
  cases Option.some.inj (owner.symm.trans above)
  cases Option.some.inj (owner'.symm.trans above')
  obtain ⟨isStatic,span⟩ := catalogue.plain live package
  obtain ⟨isStatic',span'⟩ := catalogue'.plain live' package'
  exact ⟨s,s',live,live',
    { name := named.trans named'.symm
      kind := package.trans package'.symm
      qualifiers := by rw [qualifiers,qualifiers',alike.childQualifiers]
      isStatic := isStatic.trans isStatic'.symm
      span := span.trans span'.symm
      body := (Symbol.barePackage package).trans (Symbol.barePackage package').symm }⟩

variable (apart : FileDecl.Apart decls)
include apart

theorem packageStep {names : List String} {q q' : Handle} {o o' : Symbol}
    (leads : names.foldlM t.subpackage? t.root = some q)
    (leads' : names.foldlM t'.subpackage? t'.root = some q') (owner : t.symbol? q = some o)
    (owner' : t'.symbol? q' = some o') (alike : o.Alike o') (name : String) :
    Option.Rel (Twins t t') (t.child? q name) (t'.child? q' name) := by
  unfold child?
  cases listed : t.declared q name with
  | cons x rest =>
    have first : x ∈ t.declared q name := by simp [listed]
    obtain ⟨x',there,twins⟩ := catalogue.typeTwins catalogue' leads leads' first
    cases listed' : t'.declared q' name with
    | nil => simp [listed'] at there
    | cons y' rest' =>
      have first' : y' ∈ t'.declared q' name := by simp [listed']
      cases catalogue'.sole apart leads' there first'
      exact .some twins
  | nil =>
    cases listed' : t'.declared q' name with
    | cons y' rest' =>
      have first' : y' ∈ t'.declared q' name := by simp [listed']
      obtain ⟨y,there,_⟩ := catalogue'.typeTwins catalogue leads' leads first'
      simp [listed] at there
    | nil =>
      cases found : t.subpackage? q name with
      | some k =>
        obtain ⟨k',found'⟩ := catalogue.subpackageThere catalogue' leads leads' found
        simp only [found']
        exact .some ⟨catalogue.subpackageAlike catalogue' owner owner' alike found found',
          .inl ⟨names ++ [name],leadsConcat.mpr ⟨q,leads,found⟩,leadsConcat.mpr ⟨q',leads',found'⟩⟩⟩
      | none =>
        cases found' : t'.subpackage? q' name with
        | none => exact .none
        | some k' =>
          obtain ⟨k,back⟩ := catalogue'.subpackageThere catalogue leads' leads found'
          simp [found] at back

theorem twinsStep {h h' : Handle} (twins : Twins t t' h h') (name : String) :
    Option.Rel (Twins t t') (t.child? h name) (t'.child? h' name) := by
  obtain ⟨⟨s,s',live,live',alike⟩,source⟩ := twins
  rcases source with ⟨names,leads,leads'⟩ | ⟨p,p',plan,mirrors,mirrors'⟩
  · exact catalogue.packageStep catalogue' apart leads leads' live live' alike name
  · exact mirrorsStep catalogue.consistent catalogue'.consistent live live' alike mirrors mirrors' name

theorem twinsWalk {h h' : Handle} (twins : Twins t t' h h') (path : List String) :
    Option.Rel (Twins t t') (path.foldlM t.child? h) (path.foldlM t'.child? h') := by
  induction path generalizing h h' with
  | nil => exact .some twins
  | cons name rest ih =>
    have step := catalogue.twinsStep catalogue' apart twins name
    rw [List.foldlM_cons,List.foldlM_cons]
    generalize t.child? h name = found,t'.child? h' name = found' at step ⊢
    cases step with
    | none => exact .none
    | some inner => exact ih inner

theorem qualifiedTwins (dotted : String) :
    Option.Rel (Twins t t') (t.qualified? dotted) (t'.qualified? dotted) := by
  obtain ⟨s,live,same⟩ := catalogue.top
  obtain ⟨s',live',same'⟩ := catalogue'.top
  have roots : Twins t t' t.root t'.root :=
    ⟨⟨s,s',live,live',Symbol.alikeOutline (same.trans same'.symm)⟩,.inl ⟨[],rfl,rfl⟩⟩
  exact catalogue.twinsWalk catalogue' apart roots (Text.segments dotted)

end Catalogue
end SymbolTable

namespace Codebase

/-- Files that are accepted, have different paths and do not compete for type names give the same answers
for every qualified name, whatever the order in which they are indexed. -/
theorem orderIrrelevant (id : Nat) (name : String) (language : Language) (settings : Settings)
    {decls decls' : List FileDecl} (perm : decls.Perm decls')
    (accepted : ∀ decl ∈ decls, ∃ ref, (putFile { id, name, language, settings } decl).1 = .ok ref)
    (paths : (decls.map fun decl => Path.normalize decl.path).Nodup) (apart : FileDecl.Apart decls) :
    let t := (run { id, name, language, settings } (decls.map .putFile)).table
    let t' := (run { id, name, language, settings } (decls'.map .putFile)).table
    ∀ dotted, Option.Rel (fun h h' => ∃ s s', t.symbol? h = some s ∧ t'.symbol? h' = some s' ∧ s.Alike s')
      (t.qualified? dotted) (t'.qualified? dotted) := by
  intro t t' dotted
  have proper : ∀ decl ∈ decls, decl.Proper := by
    intro decl inside
    obtain ⟨ref,ok⟩ := accepted decl inside
    obtain ⟨file,put,_⟩ := putFileTable ok
    exact (SymbolTable.putFileAccepted SymbolTable.emptyConsistent decl).mp ⟨file,put⟩
  have catalogue : t.Catalogue decls := runCatalogue rfl proper paths
  have proper' : ∀ decl ∈ decls', decl.Proper := fun decl inside => proper decl (perm.mem_iff.mpr inside)
  have catalogue' : t'.Catalogue decls' := runCatalogue rfl proper' ((perm.map _).nodup_iff.mp paths)
  have twins := catalogue.qualifiedTwins (catalogue'.congr fun decl => perm.symm.mem_iff) apart dotted
  generalize t.qualified? dotted = found,t'.qualified? dotted = found' at twins ⊢
  cases twins with
  | none => exact .none
  | some twin => exact .some twin.alike

def cartFile : FileDecl where
  path := "shop/Cart.java"
  package := ["shop"]
  types := [
    { outline := { name := "Cart", kind := .type .classType }
      members := [
        .method { name := "total" },
        .method { name := "total", parameters := [{ name := "limit", type := .simple "int" }] }] }]

def tillFile : FileDecl where
  path := "shop/Till.java"
  package := ["shop"]
  types := [{ outline := { name := "Till", kind := .type .classType } }]

def shopIndexed (decls : List FileDecl) : SymbolTable :=
  (run { id := 0, name := "app", language := .java, settings := default } (decls.map .putFile)).table

theorem cartElsewhere : (shopIndexed [cartFile,tillFile]).qualified? "shop.Cart.total" = some ⟨4,0⟩ ∧
    (shopIndexed [tillFile,cartFile]).qualified? "shop.Cart.total" = some ⟨6,0⟩ := by
  decide +kernel

theorem cartOrderIrrelevant :
    (shopIndexed [cartFile,tillFile]).qualified? "shop.Cart.total" = some ⟨4,0⟩ ∧
    (shopIndexed [tillFile,cartFile]).qualified? "shop.Cart.total" = some ⟨6,0⟩ ∧
    ∃ s s', (shopIndexed [cartFile,tillFile]).symbol? ⟨4,0⟩ = some s ∧
      (shopIndexed [tillFile,cartFile]).symbol? ⟨6,0⟩ = some s' ∧ s.Alike s' := by
  have perm : [cartFile,tillFile].Perm [tillFile,cartFile] := .swap tillFile cartFile []
  have answers := orderIrrelevant 0 "app" .java default perm
    (by
      intro decl inside
      rcases List.mem_pair.mp inside with rfl | rfl
      · exact ⟨⟨0,⟨2,0⟩⟩,by decide +kernel⟩
      · exact ⟨⟨0,⟨2,0⟩⟩,by decide +kernel⟩)
    (by decide +kernel) (by simp [FileDecl.Apart,cartFile,tillFile]) "shop.Cart.total"
  obtain ⟨first,second⟩ := cartElsewhere
  refine ⟨first,second,?_⟩
  unfold shopIndexed at first second ⊢
  rw [first,second] at answers
  cases answers with
  | some alike => exact alike

end Codebase
end CodeIndex
