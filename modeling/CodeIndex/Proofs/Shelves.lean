import CodeIndex.Proofs.Members

/-! Where symbols are listed. A symbol has an outline, what it declares on its own, and shelves that
list other symbols. Edits of a table change outlines never and shelves one handle at a time. -/
namespace CodeIndex

inductive Shelf where
  | member (name : String)
  | subpackage (name : String)
  | files
  | parameters
  deriving DecidableEq

namespace Body

def members (b : Body) : Members := b.members?.getD {}

def subpackages : Body → OrderedMap String Handle
  | .package subpackages _ _ => subpackages
  | _ => {}

def files : Body → List Handle
  | .package _ files _ => files
  | _ => []

def parameters : Body → List Handle
  | .method _ parameters _ => parameters
  | _ => []

def shelf (b : Body) : Shelf → List Handle
  | .member name => b.members.under name
  | .subpackage name => (b.subpackages.get? name).toList
  | .files => b.files
  | .parameters => b.parameters

def bare : Body → Body
  | .package .. => .package {} [] {}
  | .file source _ _ => .file source {} {}
  | .type kind header _ => .type kind header {}
  | .method header _ _ => .method header [] {}
  | body => body

structure Tidy (b : Body) : Prop where
  members : b.members.keys.Nodup
  subpackages : b.subpackages.keys.Nodup
  once : ∀ place, (b.shelf place).Nodup

@[simp] theorem kindBare (b : Body) : b.bare.kind = b.kind := by cases b <;> rfl

@[simp] theorem bareMembers (f : Members → Members) (b : Body) : (b.mapMembers f).bare = b.bare := by
  cases b <;> rfl

@[simp] theorem bareParameters (f : List Handle → List Handle) (b : Body) :
    (b.mapParameters f).bare = b.bare := by cases b <;> rfl

@[simp] theorem bareFiles (f : List Handle → List Handle) (b : Body) :
    (b.mapFiles f).bare = b.bare := by cases b <;> rfl

@[simp] theorem bareSubpackages (f : OrderedMap String Handle → OrderedMap String Handle)
    (b : Body) : (b.mapSubpackages f).bare = b.bare := by cases b <;> rfl

@[simp] theorem bareScopes (scopes : SpanMap Handle) (b : Body) :
    (b.withScopes scopes).bare = b.bare := by cases b <;> rfl

theorem shelfBare (b : Body) (place : Shelf) : b.bare.shelf place = [] := by
  cases b <;> cases place <;> rfl

theorem tidyOfEmpty {b : Body} (empty : ∀ place, b.shelf place = []) (members : b.members.keys = [])
    (subpackages : b.subpackages.keys = []) : b.Tidy :=
  ⟨by simp [members],by simp [subpackages],fun place => by simp [empty]⟩

theorem tidyBare (b : Body) : b.bare.Tidy := by
  refine tidyOfEmpty (shelfBare b) ?_ ?_ <;> cases b <;> rfl

theorem shelfScopes (scopes : SpanMap Handle) (b : Body) (place : Shelf) :
    (b.withScopes scopes).shelf place = b.shelf place := by
  cases b <;> cases place <;> rfl

theorem tidyScopes {b : Body} (tidy : b.Tidy) (scopes : SpanMap Handle) :
    (b.withScopes scopes).Tidy := by
  cases b with
  | file source members old => exact ⟨tidy.members,tidy.subpackages,tidy.once⟩
  | _ => exact tidy

theorem membersMembers (f : Members → Members) {b : Body} (scope : b.members?.isSome) :
    (b.mapMembers f).members = f b.members := by
  cases b <;> first | rfl | simp [members?] at scope

theorem mapMembersPlain (f : Members → Members) {b : Body} (plain : b.members?.isSome = false) :
    b.mapMembers f = b := by
  cases b <;> first | rfl | simp [members?] at plain

theorem shelfMembers (f : Members → Members) (b : Body) {place : Shelf}
    (other : ∀ name, place ≠ .member name) : (b.mapMembers f).shelf place = b.shelf place := by
  cases place with
  | member name => exact absurd rfl (other name)
  | _ => cases b <;> rfl

theorem subpackagesMembers (f : Members → Members) (b : Body) :
    (b.mapMembers f).subpackages = b.subpackages := by cases b <;> rfl

theorem scopeBare (b : Body) : b.bare.members?.isSome = b.members?.isSome := by cases b <;> rfl

def Gains (b b' : Body) (spot : Shelf) (h : Handle) : Prop :=
  ∀ place, b'.shelf place = if place = spot then b.shelf place ++ [h] else b.shelf place

theorem gainsMem {b b' : Body} {spot : Shelf} {h : Handle} (gains : Gains b b' spot h)
    (place : Shelf) (x : Handle) :
    x ∈ b'.shelf place ↔ x ∈ b.shelf place ∨ place = spot ∧ x = h := by
  rw [gains place]
  split <;> simp_all

theorem gainsTidy {b b' : Body} {spot : Shelf} {h : Handle} (gains : Gains b b' spot h)
    (tidy : b.Tidy) (fresh : h ∉ b.shelf spot) (members : b'.members.keys.Nodup)
    (subpackages : b'.subpackages.keys.Nodup) : b'.Tidy := by
  refine ⟨members,subpackages,fun place => ?_⟩
  rw [gains place]
  split
  · rename_i here
    subst here
    refine List.nodup_append.mpr ⟨tidy.once place,by simp,?_⟩
    rintro x inside y single rfl
    cases List.mem_singleton.mp single
    exact fresh inside
  · exact tidy.once place

theorem gainsPush {b : Body} (scope : b.members?.isSome) (name : String) (h : Handle) :
    Gains b (b.mapMembers (·.push name h)) (.member name) h := by
  intro place
  cases place with
  | member n =>
    simp only [shelf,membersMembers _ scope,Members.underPush,Shelf.member.injEq]
    split
    · rename_i same
      rw [same]
    · rfl
  | _ => rw [shelfMembers _ _ (by simp)]; simp

theorem tidyPush {b : Body} (tidy : b.Tidy) (scope : b.members?.isSome) {name : String} {h : Handle}
    (fresh : h ∉ b.shelf (.member name)) : (b.mapMembers (·.push name h)).Tidy := by
  refine gainsTidy (gainsPush scope name h) tidy fresh ?_ ?_
  · rw [membersMembers _ scope]
    exact Members.keysPush tidy.members name h
  · rw [subpackagesMembers]
    exact tidy.subpackages

theorem gainsParameter {b : Body} (method : b.kind = .method) (h : Handle) :
    Gains b (b.mapParameters (· ++ [h])) .parameters h := by
  intro place
  cases b with
  | method header parameters members => cases place <;> rfl
  | _ => simp [kind] at method

theorem parametersPlain (f : List Handle → List Handle) {b : Body} (other : b.kind ≠ .method) :
    b.mapParameters f = b := by
  cases b <;> first | rfl | exact absurd rfl other

theorem tidyParameter {b : Body} (tidy : b.Tidy) {h : Handle} (fresh : h ∉ b.shelf .parameters) :
    (b.mapParameters (· ++ [h])).Tidy := by
  by_cases method : b.kind = .method
  · refine gainsTidy (gainsParameter method h) tidy fresh ?_ ?_
    · cases b <;> exact tidy.members
    · cases b <;> exact tidy.subpackages
  · rw [parametersPlain _ method]
    exact tidy

theorem gainsFile {b : Body} (package : b.kind = .package) (h : Handle) :
    Gains b (b.mapFiles (· ++ [h])) .files h := by
  intro place
  cases b with
  | package subpackages files members => cases place <;> rfl
  | _ => simp [kind] at package

theorem tidyFile {b : Body} (tidy : b.Tidy) (package : b.kind = .package) {h : Handle}
    (fresh : h ∉ b.shelf .files) : (b.mapFiles (· ++ [h])).Tidy := by
  refine gainsTidy (gainsFile package h) tidy fresh ?_ ?_
  · cases b <;> exact tidy.members
  · cases b <;> exact tidy.subpackages

theorem gainsSubpackage {b : Body} (package : b.kind = .package) {name : String}
    (absent : b.subpackages.get? name = none) (h : Handle) :
    Gains b (b.mapSubpackages (·.insert name h)) (.subpackage name) h := by
  intro place
  cases b with
  | package subpackages files members =>
    cases place with
    | subpackage n =>
      have missing : subpackages.get? name = none := absent
      simp only [mapSubpackages,shelf,Body.subpackages,OrderedMap.getInsert,Shelf.subpackage.injEq]
      split
      · rename_i same
        rw [same,missing]
        rfl
      · rfl
    | _ => rfl
  | _ => simp [kind] at package

theorem tidySubpackage {b : Body} (tidy : b.Tidy) (package : b.kind = .package) {name : String}
    (absent : b.subpackages.get? name = none) (h : Handle) :
    (b.mapSubpackages (·.insert name h)).Tidy := by
  refine gainsTidy (gainsSubpackage package absent h) tidy (by simp [shelf,absent]) ?_ ?_
  · cases b <;> exact tidy.members
  · cases b with
    | package subpackages files members =>
      exact OrderedMap.keysAlterNodup tidy.subpackages name _
    | _ => exact tidy.subpackages

def unlisted (name : String) (h : Handle) (b : Body) : Body :=
  ((b.mapMembers (·.drop name h)).mapParameters (·.filter (· ≠ h))).mapFiles (·.filter (· ≠ h))

theorem tidyFewer {b b' : Body} (tidy : b.Tidy)
    (fewer : ∀ place, (b'.shelf place).Sublist (b.shelf place)) (members : b'.members.keys.Nodup)
    (subpackages : b'.subpackages.keys.Nodup) : b'.Tidy :=
  ⟨members,subpackages,fun place => (tidy.once place).sublist (fewer place)⟩

theorem shelfPlain {b : Body} (plain : b.members?.isSome = false) (name : String) :
    b.shelf (.member name) = [] := by
  cases b <;> first | rfl | simp [members?] at plain

theorem shelfDrop (b : Body) (name : String) (h : Handle) (place : Shelf) :
    (b.mapMembers (·.drop name h)).shelf place =
      if place = .member name then (b.shelf place).filter (· ≠ h) else b.shelf place := by
  cases place with
  | member n =>
    cases scope : b.members?.isSome with
    | true =>
      simp only [shelf,membersMembers _ scope,Members.underDrop,Shelf.member.injEq]
      split
      · rename_i same
        rw [same]
      · rfl
    | false =>
      rw [mapMembersPlain _ scope,shelfPlain scope]
      simp
  | _ => rw [shelfMembers _ _ (by simp)]; simp

theorem tidyMembers {b : Body} (tidy : b.Tidy) {f : Members → Members}
    (keys : (f b.members).keys.Nodup) (once : ∀ name, ((f b.members).under name).Nodup) :
    (b.mapMembers f).Tidy := by
  cases scope : b.members?.isSome with
  | true =>
    refine ⟨membersMembers f scope ▸ keys,subpackagesMembers f b ▸ tidy.subpackages,fun place => ?_⟩
    cases place with
    | member name =>
      simp only [shelf,membersMembers f scope]
      exact once name
    | _ => rw [shelfMembers f b (by simp)]; exact tidy.once _
  | false =>
    rw [mapMembersPlain f scope]
    exact tidy

theorem tidyDrop {b : Body} (tidy : b.Tidy) (name : String) (h : Handle) :
    (b.mapMembers (·.drop name h)).Tidy := by
  refine tidyMembers tidy (Members.keysDrop tidy.members name h) fun n => ?_
  rw [Members.underDrop]
  split
  · exact (tidy.once (.member name)).sublist List.filter_sublist
  · exact tidy.once (.member n)

theorem shelfParameters (keep : Handle → Bool) (b : Body) (place : Shelf) :
    (b.mapParameters (·.filter keep)).shelf place =
      if place = .parameters then (b.shelf place).filter keep else b.shelf place := by
  cases b <;> cases place <;> rfl

theorem shelfFiles (keep : Handle → Bool) (b : Body) (place : Shelf) :
    (b.mapFiles (·.filter keep)).shelf place =
      if place = .files then (b.shelf place).filter keep else b.shelf place := by
  cases b <;> cases place <;> rfl

theorem shelfUnlisted (b : Body) (name : String) (h : Handle) (place : Shelf) :
    (b.unlisted name h).shelf place =
      if place = .member name ∨ place = .parameters ∨ place = .files then
        (b.shelf place).filter (· ≠ h)
      else b.shelf place := by
  unfold unlisted
  rw [shelfFiles,shelfParameters,shelfDrop]
  cases place <;> simp

theorem tidyUnlisted {b : Body} (tidy : b.Tidy) (name : String) (h : Handle) :
    (b.unlisted name h).Tidy := by
  have dropped := tidyDrop tidy name h
  refine tidyFewer tidy ?_ ?_ ?_
  · intro place
    rw [shelfUnlisted]
    split
    · exact List.filter_sublist
    · exact List.Sublist.refl _
  · have same : (b.unlisted name h).members = (b.mapMembers (·.drop name h)).members := by
      cases b <;> rfl
    rw [same]
    exact dropped.members
  · have same : (b.unlisted name h).subpackages = b.subpackages := by cases b <;> rfl
    rw [same]
    exact tidy.subpackages

theorem packageOfSubpackage {b : Body} {name : String} {h : Handle}
    (listed : h ∈ b.shelf (.subpackage name)) : b.kind = .package := by
  cases b with
  | package => rfl
  | _ => simp [shelf,subpackages,OrderedMap.get?,OrderedMap.lookup] at listed

theorem packageOfFile {b : Body} {h : Handle} (listed : h ∈ b.shelf .files) : b.kind = .package := by
  cases b with
  | package => rfl
  | _ => simp [shelf,files] at listed

theorem memOwned {b : Body} (tidy : b.Tidy) (other : b.kind ≠ .package) {h : Handle} :
    h ∈ b.owned ↔ ∃ name, h ∈ b.shelf (.member name) := by
  have listed := Members.memHandles (h := h) tidy.members
  cases b with
  | package => exact absurd rfl other
  | value | primitive =>
    simp [owned,shelf,members,members?,Members.under,OrderedMap.get?,OrderedMap.lookup]
  | _ => exact listed

end Body

namespace Symbol

def outline (s : Symbol) : Symbol := s.mapBody Body.bare

def shelf (s : Symbol) (place : Shelf) : List Handle := s.body.shelf place

def home (s : Symbol) : Shelf :=
  match s.kind with
  | .package => .subpackage s.name
  | .file => .files
  | _ => .member s.name

theorem memberHome {s : Symbol} (package : s.kind ≠ .package) (file : s.kind ≠ .file) :
    s.home = .member s.name := by
  unfold home
  split <;> simp_all

theorem subpackagesBody (s : Symbol) : s.subpackages = s.body.subpackages := by
  obtain ⟨_,_,_,_,_,body⟩ := s
  cases body <;> rfl

theorem subpackageShelf {s : Symbol} {name : String} {h : Handle}
    (bound : s.body.subpackages.get? name = some h) : h ∈ s.shelf (.subpackage name) := by
  simp [shelf,Body.shelf,bound]

theorem kindOutline {s s' : Symbol} (same : s.outline = s'.outline) : s.kind = s'.kind := by
  simpa [outline,mapBody,kind] using congrArg Symbol.kind same

theorem nameOutline {s s' : Symbol} (same : s.outline = s'.outline) : s.name = s'.name := by
  simpa [outline,mapBody] using congrArg Symbol.name same

theorem parentOutline {s s' : Symbol} (same : s.outline = s'.outline) : s.parent = s'.parent := by
  simpa [outline,mapBody] using congrArg Symbol.parent same

theorem qualifiersOutline {s s' : Symbol} (same : s.outline = s'.outline) :
    s.qualifiers = s'.qualifiers := by
  simpa [outline,mapBody] using congrArg Symbol.qualifiers same

theorem staticOutline {s s' : Symbol} (same : s.outline = s'.outline) : s.isStatic = s'.isStatic := by
  simpa [outline,mapBody] using congrArg Symbol.isStatic same

theorem spanOutline {s s' : Symbol} (same : s.outline = s'.outline) : s.span = s'.span := by
  simpa [outline,mapBody] using congrArg Symbol.span same

theorem homeOutline {s s' : Symbol} (same : s.outline = s'.outline) : s.home = s'.home := by
  simp only [home,kindOutline same,nameOutline same]

theorem childQualifiersOfOutline (s : Symbol) : s.outline.childQualifiers = s.childQualifiers := by
  obtain ⟨name,qualifiers,isStatic,span,parent,body⟩ := s
  cases body <;> rfl

theorem childQualifiersOutline {s s' : Symbol} (same : s.outline = s'.outline) :
    s.childQualifiers = s'.childQualifiers := by
  rw [← childQualifiersOfOutline s,same,childQualifiersOfOutline]

end Symbol
end CodeIndex
