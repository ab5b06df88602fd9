import CodeIndex.Interchange
import CodeIndex.Proofs.JsonText
import Mathlib.Data.List.Forall2

/-! The written forms of a type expression. Each level is a record or a list of its parts; a record may hold
further fields and a span that is nowhere may be left out. Every form that stays within the nesting that
reading allows is read as the expression it was written for. -/
namespace CodeIndex

theorem mapMRelated {f : β → Option α} {as : List α} {bs : List β}
    (related : List.Forall₂ (fun a b => f b = some a) as bs) : bs.mapM f = some as := by
  induction related with
  | nil => rfl
  | cons head _ ih => simp [head,ih]

theorem mapMCongr {f g : α → Option β} {as : List α} (same : ∀ a ∈ as, f a = g a) : as.mapM f = as.mapM g := by
  induction as with
  | nil => rfl
  | cons a rest ih =>
    rw [List.mapM_cons,List.mapM_cons,same a (by simp),ih fun later inside => same later (by simp [inside])]

namespace Json

mutual

def nesting : Json → Nat
  | .list items => 1 + deepest items
  | .record fields => 1 + deepestField fields
  | _ => 0

def deepest : List Json → Nat
  | [] => 0
  | first :: rest => max first.nesting (deepest rest)

def deepestField : List (Option String × Json) → Nat
  | [] => 0
  | (_,value) :: rest => max value.nesting (deepestField rest)

end

def Holds (names : List String) (fields known : List (String × Json)) : Prop :=
  (fields.filter (·.1 ∈ names)).Perm known

theorem singlePerm {fields others : List (String × Json)} (same : fields.Perm others) (name : String) :
    single fields name = single others name := by
  have found := same.filter fun field => field.1 = name
  unfold single
  generalize fields.filter (fun field => field.1 = name) = mine at found
  generalize others.filter (fun field => field.1 = name) = theirs at found
  match mine, theirs, found.length_eq with
  | [], [], _ => rfl
  | [field], [field'], _ => rw [List.perm_singleton.mp found]
  | _ :: _ :: _, _ :: _ :: _, _ => rfl

theorem singleKnown {names : List String} {fields known : List (String × Json)} (holds : Holds names fields known)
    {name : String} (listed : name ∈ names) : single fields name = single known name := by
  rw [← singlePerm holds name]
  unfold single
  rw [List.filter_filter]
  congr 1
  refine List.filter_congr fun field _ => ?_
  by_cases here : field.1 = name <;> simp [here,listed]

theorem partsKnown {names : List String} {fields known : List (String × Json)}
    (holds : Holds names fields known) : (ofFields fields).parts? names = names.mapM (single known) := by
  have named : (fields.map fun field => ((some field.1 : Option String),field.2)).mapM
      (fun entry => entry.1.map fun name => (name,entry.2)) = some fields :=
    mapMRelated (List.forall₂_map_right_iff.mpr (List.forall₂_same.mpr fun _ _ => rfl))
  calc (ofFields fields).parts? names
    _ = (some fields).bind (fun read => names.mapM (single read)) :=
      congrArg (fun named => named.bind fun read => names.mapM (single read)) named
    _ = names.mapM (single known) := mapMCongr fun name listed => singleKnown holds listed

theorem textsRead (names : List String) : (names.map ofString).mapM string? = some names :=
  mapMRelated (List.forall₂_map_right_iff.mpr (List.forall₂_same.mpr fun _ _ => rfl))

theorem wordRead (n : UInt32) : (natural n.toNat).word32? = some n := by
  have small : n.toNat < UInt32.size := n.toNat_lt
  simp [word32?,below?,small]

end Json

namespace Span
open Json

inductive Spelled (s : Span) : Json → Prop where
  | list : Spelled s (.list [.natural s.start.toNat,.natural s.stop.toNat])
  | record {fields : List (String × Json)}
      (known : Holds ["start","end"] fields
        [("start",.natural s.start.toNat),("end",.natural s.stop.toNat)]) : Spelled s (.ofFields fields)

theorem spelledRecord (s : Span) : Spelled s s.toJson := .record (by simp [Holds])

theorem readSpelled {s : Span} {j : Json} (spelled : Spelled s j) : ofJson? j = some s := by
  cases spelled with
  | list => simp [ofJson?,parts?,wordRead]
  | record known => simp [ofJson?,partsKnown known,single,wordRead]

end Span

namespace TypeExpr
open Json

inductive SpanSpelled (s : Span) : List Json → Prop where
  | given {j : Json} (spelled : s.Spelled j) : SpanSpelled s [j]
  | leftOut (nowhere : s = {}) : SpanSpelled s []

inductive Spelled : TypeExpr → Json → Prop where
  | list {e : TypeExpr} {arguments span : List Json} (inner : List.Forall₂ Spelled e.arguments arguments)
      (last : SpanSpelled e.span span) :
      Spelled e (.list ([.list (e.segments.map ofString),.bool e.isArray,.list arguments] ++ span))
  | record {e : TypeExpr} {arguments span : List Json} {fields : List (String × Json)}
      (inner : List.Forall₂ Spelled e.arguments arguments) (last : SpanSpelled e.span span)
      (known : Holds partNames fields ([("segments",.list (e.segments.map ofString)),
        ("is_array",.bool e.isArray),("type_arguments",.list arguments)] ++ span.map (("range",·)))) :
      Spelled e (.ofFields fields)

mutual

def toListJson : TypeExpr → Json
  | ⟨segments,isArray,arguments,span⟩ =>
    .list [.list (segments.map ofString),.bool isArray,.list (toListJsons arguments),
      .list [.natural span.start.toNat,.natural span.stop.toNat]]

def toListJsons : List TypeExpr → List Json
  | [] => []
  | e :: rest => toListJson e :: toListJsons rest

end

mutual

theorem spelledList : (e : TypeExpr) → Spelled e e.toListJson
  | ⟨_,_,arguments,_⟩ => .list (spelledLists arguments) (.given .list)

theorem spelledLists : (es : List TypeExpr) → List.Forall₂ Spelled es (toListJsons es)
  | [] => .nil
  | e :: rest => .cons (spelledList e) (spelledLists rest)

end

mutual

theorem spelledRecord : (e : TypeExpr) → Spelled e e.toJson
  | ⟨_,_,arguments,span⟩ =>
    .record (spelledRecords arguments) (.given span.spelledRecord) (by simp [Holds,partNames])

theorem spelledRecords : (es : List TypeExpr) → List.Forall₂ Spelled es (listToJson es)
  | [] => .nil
  | e :: rest => .cons (spelledRecord e) (spelledRecords rest)

end

theorem deepestTexts (names : List String) : deepest (names.map ofString) = 0 := by
  induction names with
  | nil => rfl
  | cons name rest ih => simp [deepest,ofString,nesting,ih]

theorem nestingWritten (e : TypeExpr) : e.toJson.nesting = 2 + deepest (listToJson e.arguments) := by
  cases e
  simp only [toJson,Span.toJson,ofFields,List.map_cons,List.map_nil,nesting,deepestField,deepestTexts]
  omega

theorem readArguments {depth : Nat}
    (reads : ∀ e j, Spelled e j → e.toJson.nesting ≤ depth → readWithin depth j = some e)
    {arguments : List TypeExpr} {written : List Json} (spelled : List.Forall₂ Spelled arguments written)
    (shallow : deepest (listToJson arguments) ≤ depth) : written.mapM (readWithin depth) = some arguments := by
  refine mapMRelated ?_
  induction spelled with
  | nil => exact .nil
  | cons head _ ih =>
    rw [listToJson,deepest] at shallow
    exact .cons (reads _ _ head (by omega)) (ih (by omega))

theorem partsSpelled {e : TypeExpr} {j : Json} (spelled : Spelled e j) :
    ∃ arguments span, List.Forall₂ Spelled e.arguments arguments ∧ SpanSpelled e.span span ∧
      j.parts? partNames = some [some (.list (e.segments.map ofString)),some (.bool e.isArray),
        some (.list arguments),span.head?] := by
  cases spelled with
  | @list _ arguments span inner last =>
    refine ⟨arguments,span,inner,last,?_⟩
    cases last <;> simp [parts?,partNames]
  | @record _ arguments span fields inner last known =>
    refine ⟨arguments,span,inner,last,?_⟩
    rw [partsKnown known]
    cases last <;> simp [single,partNames]

theorem spanRead {s : Span} {span : List Json} (last : SpanSpelled s span) : spanOrDefault span.head? = some s := by
  cases last with
  | given spelled => exact Span.readSpelled spelled
  | leftOut nowhere =>
    rw [nowhere]
    rfl

theorem readSpelled (depth : Nat) : ∀ e j, Spelled e j → e.toJson.nesting ≤ depth → readWithin depth j = some e := by
  induction depth using Nat.strongRecOn with
  | _ depth ih =>
    intro e j spelled shallow
    rw [nestingWritten] at shallow
    obtain ⟨below,rfl⟩ := Nat.exists_eq_add_of_le' (show 2 ≤ depth by omega)
    obtain ⟨arguments,span,inner,last,parts⟩ := partsSpelled spelled
    have read := readArguments (ih below (by omega)) inner (by omega)
    simp only [readWithin,parts,Option.bind_eq_bind,Option.bind_some,list?,bool?,textsRead,read,spanRead last]
    cases e
    rfl

theorem writableTexts (names : List String) : Writable (.list (names.map ofString)) := by
  refine .list fun item listed => ?_
  obtain ⟨name,_,rfl⟩ := List.mem_map.mp listed
  exact .text name

theorem writableWord (n : UInt32) : Writable (.natural n.toNat) :=
  .natural _ (Nat.lt_trans n.toNat_lt (by decide))

theorem writableSpan (s : Span) : Writable s.toJson :=
  .record (by simp) (by simp [writableWord])

mutual

theorem writableRecord : (e : TypeExpr) → Writable e.toJson
  | ⟨segments,isArray,arguments,span⟩ => by
    have inner : Writable (.list (listToJson arguments)) := .list (writableRecords arguments)
    refine .record (by simp) ?_
    simp only [List.forall_mem_cons]
    exact ⟨writableTexts segments,.bool isArray,inner,writableSpan span,by simp⟩

theorem writableRecords : (es : List TypeExpr) → ∀ j ∈ listToJson es, Writable j
  | [] => by simp [listToJson]
  | e :: rest => List.forall_mem_cons.mpr ⟨writableRecord e,writableRecords rest⟩

end

mutual

theorem writableList : (e : TypeExpr) → Writable e.toListJson
  | ⟨segments,isArray,arguments,span⟩ => by
    have inner : Writable (.list (toListJsons arguments)) := .list (writableLists arguments)
    have words : Writable (.list [.natural span.start.toNat,.natural span.stop.toNat]) :=
      .list (by simp [writableWord])
    rw [toListJson]
    refine .list ?_
    simp only [List.forall_mem_cons]
    exact ⟨writableTexts segments,.bool isArray,inner,words,by simp⟩

theorem writableLists : (es : List TypeExpr) → ∀ j ∈ toListJsons es, Writable j
  | [] => by simp [toListJsons]
  | e :: rest => List.forall_mem_cons.mpr ⟨writableList e,writableLists rest⟩

end

def read? (text : String) : Option TypeExpr := (Json.parse? text).bind ofJson?

theorem readText {e : TypeExpr} (shallow : e.toJson.nesting ≤ deepestNesting) {j : Json}
    (spelled : Spelled e j) {text : String} (parsed : Json.parse? text = some j) : read? text = some e := by
  rw [read?,parsed,Option.bind_some]
  exact readSpelled deepestNesting e j spelled shallow

/-- Whatever prints values so that parsing gives them back, a type expression within the nesting that reading allows
is read from its printed record and from its printed list, and from every text of one of its forms. -/
theorem typeKept (print : Json → String) (inverse : ∀ j, Writable j → Json.parse? (print j) = some j)
    (e : TypeExpr) (shallow : e.toJson.nesting ≤ deepestNesting) :
    read? (print e.toJson) = some e ∧ read? (print e.toListJson) = some e ∧
      ∀ j, Spelled e j → ∀ text, Json.parse? text = some j → read? text = some e :=
  ⟨readText shallow (spelledRecord e) (inverse _ (writableRecord e)),
    readText shallow (spelledList e) (inverse _ (writableList e)),
    fun _ spelled _ parsed => readText shallow spelled parsed⟩

def index : TypeExpr where
  segments := ["util","Map\n"]
  isArray := true
  arguments := [.simple "Größe"]
  span := ⟨0,17⟩

def argumentRecord : Json :=
  .ofFields [("note",.null),("type_arguments",.list []),("segments",.list [ofString "Größe"]),
    ("is_array",.bool false)]

def indexMixed : Json :=
  .list [.list [ofString "util",ofString "Map\n"],.bool true,.list [argumentRecord],
    .ofFields [("start",.natural 0),("end",.natural 17)]]

theorem indexMixedSpelled : Spelled index indexMixed := by
  have known : Holds partNames [("note",.null),("type_arguments",.list []),
      ("segments",.list [ofString "Größe"]),("is_array",.bool false)]
      [("segments",.list [ofString "Größe"]),("is_array",.bool false),("type_arguments",.list [])] :=
    (List.perm_append_singleton _ _).symm
  have argument : Spelled (.simple "Größe") argumentRecord := .record .nil (.leftOut rfl) known
  exact .list (.cons argument .nil) (.given (Span.spelledRecord ⟨0,17⟩))

theorem indexMixedWritable : Writable indexMixed := by
  have argument : Writable argumentRecord := by
    refine .record (by decide) ?_
    simp only [List.forall_mem_cons]
    exact ⟨.null,.list (by simp),writableTexts ["Größe"],.bool false,by simp⟩
  refine .list ?_
  simp only [List.forall_mem_cons]
  exact ⟨writableTexts ["util","Map\n"],.bool true,.list (by simp [argument]),writableSpan ⟨0,17⟩,by simp⟩

theorem indexKept :
    index.toJson.nesting = 4 ∧ (∀ j, Writable j → Json.parse? j.write = some j) ∧
    read? index.toJson.write = some index ∧ read? index.toListJson.write = some index ∧
    read? indexMixed.write = some index := by
  have shallow : index.toJson.nesting = 4 := by decide
  have inverse : ∀ j, Writable j → Json.parse? j.write = some j := fun _ => writtenParsed
  obtain ⟨record,list,spelled⟩ := typeKept Json.write inverse index (by rw [shallow]; decide)
  exact ⟨shallow,inverse,record,list,spelled _ indexMixedSpelled _ (inverse _ indexMixedWritable)⟩

end TypeExpr
end CodeIndex
