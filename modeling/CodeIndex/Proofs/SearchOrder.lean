import CodeIndex.Proofs.Dependencies
import CodeIndex.Resolver

/-! The order of a chain. Following dependencies along every way, depth first, meets a codebase as often
as there are ways to it; the chain keeps the first meeting with each. A new dependency is met after all
the others, so it only adds to the end of the chain and no answer found before changes. -/
namespace CodeIndex.Codebase

mutual

def preorder : Codebase → List Codebase
  | ⟨id,name,language,settings,table,dependencies⟩ =>
    ⟨id,name,language,settings,table,dependencies⟩ :: preorderAll dependencies

def preorderAll : List Codebase → List Codebase
  | [] => []
  | c :: rest => preorder c ++ preorderAll rest

end

def firsts (known : List Nat) : List Codebase → List Codebase
  | [] => []
  | d :: rest => if d.id ∈ known then firsts known rest else d :: firsts (known ++ [d.id]) rest

def ids (cs : List Codebase) : List Nat := cs.map (·.id)

theorem firstsAppend (known : List Nat) (ds es : List Codebase) :
    firsts known (ds ++ es) = firsts known ds ++ firsts (known ++ ids (firsts known ds)) es := by
  induction ds generalizing known with
  | nil => simp [firsts,ids]
  | cons d rest ih =>
    simp only [List.cons_append,firsts]
    split
    · exact ih known
    · rw [ih,List.cons_append]
      simp [ids]

theorem firstsKnown {known : List Nat} {ds : List Codebase} (all : ∀ d ∈ ds, d.id ∈ known) :
    firsts known ds = [] := by
  induction ds with
  | nil => rfl
  | cons d rest ih =>
    rw [firsts,if_pos (all d (by simp))]
    exact ih fun e later => all e (by simp [later])

theorem firstsCover (known : List Nat) (ds : List Codebase) (i : Nat) :
    i ∈ known ++ ids (firsts known ds) ↔ i ∈ known ∨ i ∈ ids ds := by
  induction ds generalizing known with
  | nil => simp [firsts,ids]
  | cons d rest ih =>
    rw [firsts]
    split
    · rename_i met
      rw [ih]
      have old : i = d.id → i ∈ known := fun same => same ▸ met
      simp only [ids,List.map_cons,List.mem_cons]
      tauto
    · have later := ih (known ++ [d.id])
      simp only [ids,List.map_cons,List.mem_cons,List.mem_append] at later ⊢
      tauto

theorem firstsCongr {known known' : List Nat} (same : ∀ i, i ∈ known ↔ i ∈ known')
    (ds : List Codebase) : firsts known ds = firsts known' ds := by
  induction ds generalizing known known' with
  | nil => rfl
  | cons d rest ih =>
    simp only [firsts,same d.id]
    split
    · exact ih same
    · rw [ih fun i => ?_]
      simp [same i]

theorem firstsFilter (known seen : List Nat) (ds : List Codebase) :
    firsts (known ++ seen) ds = (firsts seen ds).filter fun d => d.id ∉ known := by
  induction ds generalizing seen with
  | nil => rfl
  | cons d rest ih =>
    by_cases met : d.id ∈ seen
    · simp [firsts,met,ih]
    · by_cases old : d.id ∈ known
      · have same : ∀ i, i ∈ known ++ seen ↔ i ∈ known ++ (seen ++ [d.id]) := by
          intro i
          have last : i = d.id → i ∈ known := fun same => same ▸ old
          simp only [List.mem_append,List.mem_singleton]
          tauto
        simp [firsts,met,old,firstsCongr same,ih]
      · simp [firsts,met,old,ih]

mutual

theorem memPreorder (d : Codebase) : (c : Codebase) → (d ∈ preorder c ↔ Part d c)
  | ⟨id,name,language,settings,table,dependencies⟩ => by
    rw [preorder,List.mem_cons,memPreorderAll d dependencies]
    constructor
    · rintro (rfl | ⟨e,direct,part⟩)
      · exact .self _
      · exact .dependency direct part
    · intro part
      cases part with
      | self => exact .inl rfl
      | dependency direct part => exact .inr ⟨_,direct,part⟩

theorem memPreorderAll (d : Codebase) :
    (cs : List Codebase) → (d ∈ preorderAll cs ↔ ∃ c ∈ cs, Part d c)
  | [] => by simp [preorderAll]
  | c :: rest => by
    rw [preorderAll,List.mem_append,memPreorder d c,memPreorderAll d rest]
    simp

end

/-- In this world, a codebase with a known id is one of those entered, or all its parts are known. -/
def Settled (world : Codebase → Prop) (known : List Nat) (entered : List Codebase) : Prop :=
  ∀ d, world d → d.id ∈ known → d ∈ entered ∨ ∀ e, Part e d → e.id ∈ known

theorem directSmaller {c e : Codebase} (direct : e ∈ c.dependencies) : sizeOf e < sizeOf c := by
  obtain ⟨id,name,language,settings,table,dependencies⟩ := c
  have inside : sizeOf e < sizeOf dependencies := List.sizeOf_lt_of_mem direct
  simp only [mk.sizeOf_spec]
  omega

section

variable {world : Codebase → Prop} (whole : ∀ {d e}, world d → Part e d → world e)
  (unique : ∀ {d e}, world d → world e → d.id = e.id → d = e)
include unique

theorem Settled.enter {known : List Nat} {entered : List Codebase}
    (settled : Settled world known entered) {c : Codebase} (there : world c) :
    Settled world (known ++ [c.id]) (c :: entered) := by
  intro d inside listed
  rcases List.mem_append.mp listed with before | last
  · rcases settled d inside before with pending | parts
    · exact .inl (by simp [pending])
    · exact .inr fun e part => by simp [parts e part]
  · exact .inl (by simp [unique inside there (List.mem_singleton.mp last)])

include whole

theorem Settled.leave {known : List Nat} {entered : List Codebase}
    (settled : Settled world known entered) {c : Codebase} (there : world c) :
    Settled world (known ++ ids (firsts known (preorder c))) entered := by
  intro d inside listed
  rcases (firstsCover known (preorder c) d.id).mp listed with before | within
  · rcases settled d inside before with pending | parts
    · exact .inl pending
    · exact .inr fun e part => List.mem_append.mpr (.inl (parts e part))
  · -- A codebase met below `c` is part of it, and so are its own parts.
    obtain ⟨x,member,same⟩ := List.mem_map.mp within
    have part := (memPreorder x c).mp member
    obtain rfl := unique (whole there part) inside same
    refine .inr fun e further => (firstsCover known (preorder c) e.id).mpr (.inr ?_)
    exact List.mem_map.mpr ⟨e,(memPreorder e c).mpr (further.trans part),rfl⟩

mutual

theorem visitFirsts (listed entered : List Codebase) (settled : Settled world (ids listed) entered) :
    (c : Codebase) → world c → (∀ d ∈ entered, sizeOf c < sizeOf d) →
      visit listed c = listed ++ firsts (ids listed) (preorder c)
  | ⟨id,name,language,settings,table,dependencies⟩, there, smaller => by
    unfold visit
    split
    · rename_i known
      obtain ⟨x,member,same⟩ := List.any_eq_true.mp known
      have met : id ∈ ids listed := List.mem_map.mpr ⟨x,member,of_decide_eq_true same⟩
      -- What was entered is larger than what is visited, so a visit never comes back to it.
      rcases settled _ there met with pending | parts
      · exact absurd (smaller _ pending) (Nat.lt_irrefl _)
      · rw [firstsKnown fun d member => parts d ((memPreorder d _).mp member),List.append_nil]
    · rename_i unknown
      have new : id ∉ ids listed := by
        intro met
        obtain ⟨x,member,same⟩ := List.mem_map.mp met
        exact unknown (List.any_eq_true.mpr ⟨x,member,decide_eq_true same⟩)
      have entering := settled.enter unique there
      have known : ids (listed ++ [⟨id,name,language,settings,table,dependencies⟩]) =
          ids listed ++ [id] := by simp [ids]
      rw [visitAllFirsts _ (⟨id,name,language,settings,table,dependencies⟩ :: entered)
        (known ▸ entering) dependencies
        (fun e direct => whole there (.dependency direct (.self e))) ?_,known,preorder,firsts,
        if_neg new,List.append_assoc]
      · rfl
      · intro e direct d inside
        have below := directSmaller (c := ⟨id,name,language,settings,table,dependencies⟩) direct
        rcases List.mem_cons.mp inside with rfl | before
        · exact below
        · exact Nat.lt_trans below (smaller d before)

theorem visitAllFirsts (listed entered : List Codebase)
    (settled : Settled world (ids listed) entered) :
    (cs : List Codebase) → (∀ c ∈ cs, world c) → (∀ c ∈ cs, ∀ d ∈ entered, sizeOf c < sizeOf d) →
      visitAll listed cs = listed ++ firsts (ids listed) (preorderAll cs)
  | [], _, _ => by simp [visitAll,preorderAll,firsts]
  | c :: rest, there, smaller => by
    have first := visitFirsts listed entered settled c (there c (by simp)) (smaller c (by simp))
    have left := settled.leave whole unique (there c (by simp))
    have known : ids (listed ++ firsts (ids listed) (preorder c)) =
        ids listed ++ ids (firsts (ids listed) (preorder c)) := List.map_append
    rw [visitAll,first,visitAllFirsts _ entered (known ▸ left) rest
      (fun e later => there e (by simp [later])) fun e later => smaller e (by simp [later]),
      known,preorderAll,firstsAppend,List.append_assoc]

end

end

theorem chainFirsts {c : Codebase} (distinct : c.Distinct) : c.chain = firsts [] c.preorder := by
  have nothing : Settled (Part · c) (ids []) [] := fun d _ met => absurd met List.not_mem_nil
  simpa [chain,ids] using visitFirsts (fun there part => part.trans there) distinct [] [] nothing c
    (.self c) (by simp)

def DistinctTogether (c d : Codebase) : Prop :=
  ∀ {e f}, Part e c ∨ Part e d → Part f c ∨ Part f d → e.id = f.id → e = f

theorem DistinctTogether.first {c d : Codebase} (together : DistinctTogether c d) : c.Distinct :=
  fun part part' => together (.inl part) (.inl part')

theorem DistinctTogether.second {c d : Codebase} (together : DistinctTogether c d) : d.Distinct :=
  fun part part' => together (.inr part) (.inr part')

theorem visitAllConcat (listed cs : List Codebase) (last : Codebase) :
    visitAll listed (cs ++ [last]) = visit (visitAll listed cs) last := by
  induction cs generalizing listed with
  | nil => simp [visitAll]
  | cons c rest ih =>
    rw [List.cons_append,visitAll,visitAll,ih]

theorem DistinctTogether.known {c d : Codebase} (together : DistinctTogether c d) :
    c.chain.any (·.id = d.id) ↔ d ∈ c.chain := by
  constructor
  · intro met
    obtain ⟨e,inside,same⟩ := List.any_eq_true.mp met
    exact together (.inl (chainPart inside)) (.inr (.self d)) (of_decide_eq_true same) ▸ inside
  · intro inside
    exact List.any_eq_true.mpr ⟨d,inside,decide_eq_true rfl⟩

theorem visitDependencies {c : Codebase} (distinct : c.Distinct) {first : Codebase}
    (same : first.id = c.id) : visitAll [first] c.dependencies = first :: c.chain.tail := by
  have settled : Settled (Part · c) (ids [first]) [c] := by
    intro d part met
    have known : d.id = c.id := (List.mem_singleton.mp met).trans same
    exact .inl (by simp [distinct part (.self c) known])
  have alike := visitAllFirsts (fun there part => part.trans there) distinct [first] [c] settled
    c.dependencies (fun e direct => .dependency direct (.self e)) (by
      intro e direct d inside
      rw [List.mem_singleton.mp inside]
      exact directSmaller direct)
  rw [alike,chainFirsts distinct]
  obtain ⟨id,name,language,settings,table,dependencies⟩ := c
  simp [preorder,firsts,ids,same]

theorem chainAdded {c d : Codebase} (together : DistinctTogether c d) (new : d ∉ c.chain) :
    (c.addDependency d).chain =
      c.addDependency d :: c.chain.tail ++ d.chain.filter fun e => e.id ∉ ids c.chain := by
  have distinct : c.Distinct := together.first
  have added : c.addDependency d = { c with dependencies := c.dependencies ++ [d] } :=
    if_neg fun met => new (together.known.mp met)
  have begins : (c.addDependency d).chain =
      visit (c.addDependency d :: c.chain.tail) d := by
    have same : (c.addDependency d).id = c.id := by rw [added]
    rw [← visitDependencies distinct same,← visitAllConcat]
    simp [added,chain,visit]
  have known : ids (c.addDependency d :: c.chain.tail) = ids c.chain := by
    obtain ⟨rest,same⟩ := chainFirst c
    rw [same]
    simp [ids,added]
  have settled : Settled (fun e => Part e c ∨ Part e d) (ids (c.addDependency d :: c.chain.tail)) [] := by
    intro e there met
    rw [known] at met ⊢
    obtain ⟨x,inside,same⟩ := List.mem_map.mp met
    obtain rfl := together (.inl (chainPart inside)) there same
    exact .inr fun f part => List.mem_map.mpr ⟨f,chainHolds distinct inside part,rfl⟩
  have downward : ∀ {x e}, Part x c ∨ Part x d → Part e x → Part e c ∨ Part e d :=
    fun there part => there.imp part.trans part.trans
  have all := visitFirsts downward together _ [] settled d (.inr (.self d)) (by simp)
  have left := firstsFilter (ids c.chain) [] d.preorder
  rw [List.append_nil] at left
  rw [begins,all,known,left,chainFirsts together.second]

theorem ownTypeAdded (c d : Codebase) (names : List String) :
    (c.addDependency d).ownType? names = c.ownType? names := by
  unfold addDependency
  split <;> rfl

theorem typeAdded {c d : Codebase} (together : DistinctTogether c d) {path : List String}
    {ref : SymbolRef} (found : c.type? path = some ref) : (c.addDependency d).type? path = some ref := by
  by_cases inside : d ∈ c.chain
  · rw [addDependency,if_pos (together.known.mpr inside)]
    exact found
  · obtain ⟨rest,same⟩ := chainFirst c
    unfold type? at found ⊢
    split at found
    · cases found
    · rename_i filled
      have before : (c.addDependency d :: rest).findSome? (·.ownType? (path.flatMap Text.segments)) =
          some ref := by
        rw [List.findSome?_cons,ownTypeAdded]
        rw [same,List.findSome?_cons] at found
        exact found
      rw [if_neg filled,chainAdded together inside,same,List.tail_cons,List.findSome?_append,before]
      rfl

theorem chainKept {c d home : Codebase} (together : DistinctTogether c d) (inside : home ∈ c.chain)
    (other : home.id ≠ c.id) : home ∈ (c.addDependency d).chain := by
  by_cases known : d ∈ c.chain
  · rw [addDependency,if_pos (together.known.mpr known)]
    exact inside
  · obtain ⟨rest,same⟩ := chainFirst c
    rw [same] at inside
    rcases List.mem_cons.mp inside with rfl | later
    · exact absurd rfl other
    · rw [chainAdded together known,same]
      simp [later]

theorem resolveAdded {c d home : Codebase} (together : DistinctTogether c d) {ref : SymbolRef}
    {s : Symbol} (found : c.resolve? ref = some (home,s)) :
    (c.addDependency d).resolve? ref =
      some (if home.id = c.id then c.addDependency d else home,s) := by
  obtain ⟨inside,names,live⟩ := resolveChain.mp found
  refine resolveChain.mpr ?_
  split
  · rename_i own
    obtain rfl := chainId inside (chainSelf c) own
    have same : (home.addDependency d).id = home.id ∧ (home.addDependency d).table = home.table := by
      unfold addDependency
      split <;> exact ⟨rfl,rfl⟩
    refine ⟨chainSelf _,?_,?_⟩
    · exact names.trans (by rw [Codebase.ref,Codebase.ref,same.1])
    · rw [same.2]
      exact live
  · rename_i other
    exact ⟨chainKept together inside other,names,live⟩

/-- The chain is the depth-first preorder of what a codebase depends on, each codebase once. Depending on
another one either changes nothing or adds it, and what it brings that is new, at the end; answers found
before stay. -/
theorem searchOrder (c : Codebase) (distinct : c.Distinct) :
    c.chain = firsts [] c.preorder ∧ c.chain.head? = some c ∧ c.chain.Nodup ∧
    (∀ d, d ∈ c.chain ↔ Part d c) ∧
    ∀ d, DistinctTogether c d →
      (d ∈ c.chain → (c.addDependency d).chain = c.chain) ∧
      (d ∉ c.chain → (c.addDependency d).chain = c.addDependency d :: c.chain.tail ++
        d :: d.chain.tail.filter fun e => e.id ∉ ids c.chain) ∧
      (∀ depth dotted t, (Resolver.mk c depth).type? dotted = some t →
        (Resolver.mk (c.addDependency d) depth).type? dotted = some t) ∧
      ∀ ref home s, c.resolve? ref = some (home,s) → (c.addDependency d).resolve? ref =
        some (if home.id = c.id then c.addDependency d else home,s) := by
  obtain ⟨rest,first⟩ := chainFirst c
  refine ⟨chainFirsts distinct,by simp [first],(visitIds [] (by simp) c).of_map _,?_,?_⟩
  · intro d
    exact ⟨chainPart,chainHolds distinct (chainSelf c)⟩
  · intro d together
    refine ⟨?_,?_,?_,fun ref home s => resolveAdded together⟩
    · intro inside
      rw [addDependency,if_pos (together.known.mpr inside)]
    · intro new
      obtain ⟨others,begins⟩ := chainFirst d
      have unmet : d.id ∉ ids c.chain := by
        intro met
        obtain ⟨e,inside,same⟩ := List.mem_map.mp met
        exact new (together.known.mp (List.any_eq_true.mpr ⟨e,inside,decide_eq_true same⟩))
      rw [chainAdded together new,begins,List.tail_cons,List.filter_cons_of_pos (by simp [unmet])]
    · intro depth dotted t found
      obtain ⟨ref,path,rfl⟩ := Option.map_eq_some_iff.mp found
      exact Option.map_eq_some_iff.mpr ⟨ref,typeAdded together path,rfl⟩

theorem togetherNamed {c d : Codebase} (named : Nat → Codebase)
    (each : ∀ e ∈ c.preorder ++ d.preorder, named e.id = e) : DistinctTogether c d := by
  have known : ∀ {e}, Part e c ∨ Part e d → named e.id = e := by
    intro e part
    refine each e (List.mem_append.mpr ?_)
    rwa [memPreorder,memPreorder]
  intro e f there there' same
  rw [← known there,same,known there']

def baseFile : FileDecl where
  path := "base/Item.java"
  package := ["base"]
  types := [{ outline := { name := "Item", kind := .type .classType } }]

def baseLibrary : Codebase :=
  (putFile { id := 3, name := "base", language := .java, settings := default } baseFile).2

def overBase (id : Nat) (name : String) (more : List Codebase) : Codebase :=
  { id, name, language := .java, settings := default, dependencies := baseLibrary :: more }

def extraLibrary : Codebase := { id := 5, name := "extra", language := .java, settings := default }

def giftLibrary : Codebase := overBase 4 "gifts" [extraLibrary]

def shopApp : Codebase :=
  { id := 0, name := "shop", language := .java, settings := default
    dependencies := [overBase 1 "left" [],overBase 2 "right" []] }

theorem shopTogether : DistinctTogether shopApp giftLibrary := by
  refine togetherNamed (fun id => match id with
    | 0 => shopApp
    | 1 => overBase 1 "left" []
    | 2 => overBase 2 "right" []
    | 3 => baseLibrary
    | 4 => giftLibrary
    | _ => extraLibrary) ?_
  have parts : shopApp.preorder ++ giftLibrary.preorder = [shopApp,overBase 1 "left" [],baseLibrary,
    overBase 2 "right" [],baseLibrary,giftLibrary,baseLibrary,extraLibrary] := rfl
  simp only [parts,List.forall_mem_cons]
  exact ⟨rfl,rfl,rfl,rfl,rfl,rfl,rfl,rfl,by simp⟩

theorem shopSearchOrder : shopApp.Distinct ∧ DistinctTogether shopApp giftLibrary ∧
    ids shopApp.chain = [0,1,3,2] ∧ giftLibrary ∉ shopApp.chain ∧
    ids (shopApp.addDependency giftLibrary).chain = [0,1,3,2,4,5] ∧
    (shopApp.addDependency giftLibrary).chain = shopApp.addDependency giftLibrary ::
      shopApp.chain.tail ++ giftLibrary :: giftLibrary.chain.tail.filter fun e =>
        e.id ∉ ids shopApp.chain := by
  have listed : ids shopApp.chain = [0,1,3,2] := by decide +kernel
  have new : giftLibrary ∉ shopApp.chain := by
    intro inside
    have met : giftLibrary.id ∈ ids shopApp.chain := List.mem_map.mpr ⟨_,inside,rfl⟩
    rw [listed] at met
    revert met
    decide
  have order := (searchOrder shopApp shopTogether.first).2.2.2.2 giftLibrary shopTogether
  exact ⟨shopTogether.first,shopTogether,listed,new,by decide +kernel,order.2.1 new⟩

end CodeIndex.Codebase
