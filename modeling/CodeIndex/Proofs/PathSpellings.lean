import CodeIndex.Proofs.Path

/-! One form for all spellings of a path. The form holds no backslash, no empty segment and no dot, and double
dots only where they lead a relative path; a text of that form is left as it is. Whatever else can be written
for a slash ends in the same form. -/
namespace CodeIndex

namespace Text

variable {isSeparator : Char → Bool}

theorem cutWithin {chars piece : List Char} (inside : piece ∈ cut isSeparator chars) :
    ∀ c ∈ piece, c ∈ chars := by
  induction chars generalizing piece with
  | nil =>
    have empty : piece = [] := by simpa [cut] using inside
    simp [empty]
  | cons d rest ih =>
    rw [cut] at inside
    cases cuts : cut isSeparator rest with
    | nil => exact absurd cuts (cutFilled rest)
    | cons first later =>
      rw [cuts] at inside ih
      split at inside
      · rcases List.mem_cons.mp inside with empty | member
        · simp [empty]
        · exact fun c listed => List.mem_cons_of_mem _ (ih member c listed)
      · rcases List.mem_cons.mp inside with longer | member
        · intro c listed
          rw [longer] at listed
          exact (List.mem_cons.mp listed).elim (fun here => by simp [here])
            fun within => List.mem_cons_of_mem _ (ih (by simp) c within)
        · exact fun c listed => List.mem_cons_of_mem _ (ih (List.mem_cons_of_mem _ member) c listed)

theorem joinedCut (c : Char) (chars : List Char) : [c].intercalate (cut (· = c) chars) = chars := by
  induction chars with
  | nil => rfl
  | cons d rest ih =>
    rw [cut]
    cases cuts : cut (· = c) rest with
    | nil => exact absurd cuts (cutFilled rest)
    | cons piece pieces =>
      rw [cuts] at ih
      split
      · rename_i here
        have same : d = c := by simpa using here
        rw [List.intercalate_cons_cons,ih,same]
        rfl
      · cases pieces with
        | nil => simpa using ih
        | cons next later =>
          rw [List.intercalate_cons_cons] at ih ⊢
          rw [List.cons_append,List.cons_append,ih]

theorem joinedWithin {c d : Char} {pieces : List (List Char)} (inside : d ∈ [c].intercalate pieces) :
    d = c ∨ ∃ piece ∈ pieces, d ∈ piece := by
  induction pieces with
  | nil => simp at inside
  | cons piece rest ih =>
    cases rest with
    | nil => exact .inr ⟨piece,by simp,by simpa using inside⟩
    | cons next later =>
      rw [List.intercalate_cons_cons,List.append_assoc,List.mem_append,List.singleton_append,
        List.mem_cons] at inside
      rcases inside with first | here | others
      · exact .inr ⟨piece,by simp,first⟩
      · exact .inl here
      · exact (ih others).imp_right fun ⟨found,member,within⟩ => ⟨found,by simp [member],within⟩

end Text

namespace Path
open Text

def body (path : String) : List Char :=
  match path.toList with
  | '/' :: rest => rest
  | chars => chars

def between (path : String) : List (List Char) :=
  if body path = [] then [] else cut (· = '/') (body path)

/-- The form of an absolute or a relative path that is used as a key. -/
structure InForm (absolute : Bool) (path : String) : Prop where
  noBackslash : '\\' ∉ path.toList
  rooted : path.toList.head? = some '/' ↔ absolute = true
  single : (body path).head? ≠ some '/'
  ordinary : ∀ segment ∈ between path, segment ≠ [] ∧ segment ≠ ['.']
  leading : ∃ ups names, between path = List.replicate ups ['.','.'] ++ names ∧ ['.','.'] ∉ names ∧
    (absolute = true → ups = 0)

theorem canonicalLeading {absolute : Bool} {kept : List (List Char)} (canonical : Canonical absolute kept) :
    ∃ ups names, kept.reverse = List.replicate ups ['.','.'] ++ names ∧ ['.','.'] ∉ names ∧
      (absolute = true → ups = 0) := by
  induction canonical with
  | nil => exact ⟨0,[],rfl,by simp,fun _ => rfl⟩
  | @name segment rest filled dot dots clean before ih =>
    obtain ⟨ups,names,split,plain,none⟩ := ih
    refine ⟨ups,names ++ [segment],?_,?_,none⟩
    · rw [List.reverse_cons,split,List.append_assoc]
    · simp [plain,Ne.symm dots]
  | @dots rest relative only before ih =>
    refine ⟨rest.length + 1,[],?_,by simp,by simp [relative]⟩
    have all : rest.reverse = List.replicate rest.length ['.','.'] :=
      List.eq_replicate_iff.mpr ⟨List.length_reverse,fun segment inside => only segment (by simpa using inside)⟩
    rw [List.reverse_cons,all,List.append_nil,List.replicate_succ']

theorem canonicalUps {absolute : Bool} {ups : Nat} (relative : absolute = true → ups = 0) :
    Canonical absolute (List.replicate ups ['.','.']) := by
  induction ups with
  | zero => exact .nil
  | succ n ih =>
    have free : absolute = false := by
      cases absolute with
      | true => exact absurd (relative rfl) (by simp)
      | false => rfl
    refine .dots free (fun segment inside => List.eq_of_mem_replicate inside) (ih ?_)
    simp [free]

theorem canonicalNames {absolute : Bool} {names ups : List (List Char)} (before : Canonical absolute ups)
    (plain : ∀ name ∈ names, name ≠ [] ∧ name ≠ ['.'] ∧ name ≠ ['.','.'] ∧ ∀ c ∈ name, isSeparator c = false) :
    Canonical absolute (names ++ ups) := by
  induction names with
  | nil => exact before
  | cons name rest ih =>
    obtain ⟨filled,dot,dots,clean⟩ := plain name (by simp)
    exact .name filled dot dots clean (ih fun later inside => plain later (by simp [inside]))

theorem joinedHead {absolute : Bool} {kept : List (List Char)} (canonical : Canonical absolute kept) :
    (['/'].intercalate kept.reverse).head? ≠ some '/' := by
  intro slash
  obtain ⟨rest,starts⟩ := List.head?_eq_some_iff.mp slash
  have relative := joinedRelative canonical
  rw [starts] at relative
  simp [isAbsolute,isSeparator] at relative

theorem bodyForm {absolute : Bool} {kept : List (List Char)} (canonical : Canonical absolute kept) :
    body (form absolute kept) = ['/'].intercalate kept.reverse := by
  have head := joinedHead canonical
  unfold body form
  rw [String.toList_ofList]
  cases absolute with
  | true => rfl
  | false =>
    simp only [Bool.false_eq_true,if_false]
    split
    · rename_i rest starts
      rw [starts] at head
      exact absurd rfl head
    · rfl

theorem betweenForm {absolute : Bool} {kept : List (List Char)} (canonical : Canonical absolute kept) :
    between (form absolute kept) = kept.reverse := by
  have clean := canonicalClean canonical
  unfold between
  rw [bodyForm canonical]
  cases kept with
  | nil => rfl
  | cons last earlier =>
    have cuts : cut (· = '/') (['/'].intercalate (last :: earlier).reverse) = (last :: earlier).reverse := by
      refine cutJoined (by simp) (by simp) fun segment inside c listed => ?_
      have plain := (clean segment (List.mem_reverse.mp inside)).2.2 c listed
      exact decide_eq_false fun slash => by simp [slash,isSeparator] at plain
    split
    · -- An empty body has one empty piece, which no segment is.
      rename_i empty
      rw [empty] at cuts
      have listed : [] ∈ (last :: earlier).reverse := by
        rw [← cuts]
        simp [cut]
      exact absurd rfl (clean [] (List.mem_reverse.mp listed)).1
    · exact cuts

theorem formInForm {absolute : Bool} {kept : List (List Char)} (canonical : Canonical absolute kept) :
    InForm absolute (form absolute kept) := by
  refine ⟨?_,?_,?_,?_,?_⟩
  · have joined : '\\' ∉ ['/'].intercalate kept.reverse := by
      intro inside
      rcases joinedWithin inside with slash | ⟨segment,member,within⟩
      · simp at slash
      · have plain := (canonicalClean canonical segment (List.mem_reverse.mp member)).2.2 '\\' within
        simp [isSeparator] at plain
    unfold form
    rw [String.toList_ofList]
    split
    · simpa using joined
    · exact joined
  · unfold form
    rw [String.toList_ofList]
    cases absolute with
    | true => simp
    | false => simpa using joinedHead canonical
  · rw [bodyForm canonical]
    exact joinedHead canonical
  · rw [betweenForm canonical]
    intro segment inside
    obtain ⟨filled,dot,_⟩ := canonicalClean canonical segment (List.mem_reverse.mp inside)
    exact ⟨filled,dot⟩
  · rw [betweenForm canonical]
    exact canonicalLeading canonical

theorem joinedBetween (path : String) : ['/'].intercalate (between path) = body path := by
  unfold between
  split
  · rename_i empty
    rw [empty]
    rfl
  · exact joinedCut '/' (body path)

theorem bodyWithin (path : String) : ∀ c ∈ body path, c ∈ path.toList := by
  unfold body
  split
  · rename_i rest starts
    rw [starts]
    exact fun c later => List.mem_cons_of_mem _ later
  · exact fun c inside => inside

theorem InForm.clean {absolute : Bool} {path : String} (inForm : InForm absolute path) :
    ∀ segment ∈ between path, ∀ c ∈ segment, isSeparator c = false := by
  intro segment inside c listed
  unfold between at inside
  split at inside
  · cases inside
  · have noSlash := of_decide_eq_false (cutClean _ segment inside c listed)
    have noBackslash : c ≠ '\\' := fun same =>
      inForm.noBackslash (same ▸ bodyWithin path c (cutWithin inside c listed))
    simp [isSeparator,noSlash,noBackslash]

theorem InForm.canonical {absolute : Bool} {path : String} (inForm : InForm absolute path) :
    Canonical absolute (between path).reverse := by
  obtain ⟨ups,names,split,plain,relative⟩ := inForm.leading
  rw [split,List.reverse_append,List.reverse_replicate]
  refine canonicalNames (canonicalUps relative) fun name inside => ?_
  have listed := List.mem_reverse.mp inside
  have member : name ∈ between path := split ▸ List.mem_append_right _ listed
  obtain ⟨filled,dot⟩ := inForm.ordinary name member
  exact ⟨filled,dot,fun dots => plain (dots ▸ listed),inForm.clean name member⟩

theorem InForm.written {absolute : Bool} {path : String} (inForm : InForm absolute path) :
    path = form absolute (between path).reverse := by
  refine String.toList_injective ?_
  unfold form
  rw [List.reverse_reverse,joinedBetween,String.toList_ofList]
  cases absolute with
  | true =>
    obtain ⟨rest,starts⟩ := List.head?_eq_some_iff.mp (inForm.rooted.mpr rfl)
    simp [body,starts]
  | false =>
    unfold body
    rw [if_neg Bool.false_ne_true]
    split
    · rename_i rest starts
      have rooted := inForm.rooted.mp (by simp [starts])
      contradiction
    · rfl

theorem fixedIff (path : String) : normalize path = path ↔ InForm (isAbsolute path.toList) path := by
  constructor
  · intro fixed
    obtain ⟨kept,canonical,written⟩ := normalizeForm path
    have inForm := formInForm canonical
    rw [← written,fixed] at inForm
    exact inForm
  · intro inForm
    rw [inForm.written]
    exact formFixed inForm.canonical

inductive SpellsSlash : String → Prop where
  | backslash : SpellsSlash "\\"
  | doubled : SpellsSlash "//"
  | dot : SpellsSlash "/./"
  | detour (name : String) (filled : name ≠ "") (clean : ∀ c ∈ name.toList, isSeparator c = false)
      (dot : name ≠ ".") (dots : name ≠ "..") : SpellsSlash ("/" ++ name ++ "/../")

def Traceless (segments : List (List Char)) : Prop :=
  ∀ absolute kept, segments.foldl (fold absolute) kept = kept

theorem tracelessDetour {name : List Char} (filled : name ≠ []) (dot : name ≠ ['.'])
    (dots : name ≠ ['.','.']) : Traceless [name,['.','.']] := by
  intro absolute kept
  simp [fold,filled,dot,dots]

theorem spelledCut {spelling : String} (spells : SpellsSlash spelling) :
    ∃ c rest segments, spelling.toList = c :: rest ∧ isSeparator c = true ∧ Traceless segments ∧
      ∀ before after, cut isSeparator (before ++ spelling.toList ++ after) =
        cut isSeparator before ++ segments ++ cut isSeparator after := by
  have backslash : isSeparator '\\' = true := by simp [isSeparator]
  have dot : isSeparator '.' = false := by simp [isSeparator]
  cases spells with
  | backslash =>
    refine ⟨'\\',[],[],by decide,backslash,fun _ _ => rfl,fun before after => ?_⟩
    simpa using cutConcat backslash before after
  | doubled =>
    refine ⟨'/',['/'],[[]],by decide,slashSeparates,fun _ _ => by simp [fold],fun before after => ?_⟩
    simp [show "//".toList = ['/','/'] by decide,cutConcat slashSeparates,cut,slashSeparates]
  | dot =>
    refine ⟨'/',['.','/'],[['.']],by decide,slashSeparates,fun _ _ => by simp [fold],fun before after => ?_⟩
    simp [show "/./".toList = ['/','.','/'] by decide,cutConcat slashSeparates,cut,slashSeparates,dot]
  | detour name filled clean notDot dots =>
    have trace : Traceless [name.toList,['.','.']] :=
      tracelessDetour (by simpa using filled) (fun same => notDot (String.toList_injective same))
        fun same => dots (String.toList_injective same)
    have spelled : ("/" ++ name ++ "/../").toList = '/' :: (name.toList ++ ['/','.','.','/']) := by
      simp [show "/".toList = ['/'] by decide,show "/../".toList = ['/','.','.','/'] by decide]
    refine ⟨'/',_,_,spelled,slashSeparates,trace,fun before after => ?_⟩
    rw [spelled,List.append_assoc,List.cons_append,cutConcat slashSeparates,List.append_assoc,List.cons_append,
      cutAppend clean slashSeparates]
    simp [cut,slashSeparates,dot]

theorem absoluteConcat {c : Char} (separates : isSeparator c = true) (before rest : List Char) :
    isAbsolute (before ++ c :: rest) = (before.isEmpty || isAbsolute before) := by
  cases before with
  | nil => simpa [isAbsolute] using separates
  | cons d later => simp [isAbsolute]

theorem normalizeCongr {path other : String} (starts : isAbsolute path.toList = isAbsolute other.toList)
    (folds : (cut isSeparator path.toList).foldl (fold (isAbsolute other.toList)) [] =
      (cut isSeparator other.toList).foldl (fold (isAbsolute other.toList)) []) :
    normalize path = normalize other := by
  simp only [normalize,keptSegments,starts,folds]

theorem normalizeSpelled {spelling : String} (spells : SpellsSlash spelling) (before after : String) :
    normalize (before ++ spelling ++ after) = normalize (before ++ "/" ++ after) := by
  obtain ⟨c,rest,segments,starts,separates,traceless,cuts⟩ := spelledCut spells
  have plain : (before ++ "/" ++ after).toList = before.toList ++ '/' :: after.toList := by
    simp [show "/".toList = ['/'] by decide]
  refine normalizeCongr ?_ ?_
  · rw [plain,absoluteConcat slashSeparates,String.toList_append,String.toList_append,starts,List.append_assoc,
      List.cons_append,absoluteConcat separates]
  · rw [plain,cutConcat slashSeparates,String.toList_append,String.toList_append,cuts]
    simp only [List.foldl_append,traceless _ _]

/-- Normalizing is a canonical form: it settles at once, it gives a text of the form and leaves every text of the
form as it is, and it does not see how a slash is spelled. -/
theorem normalizeCanonical (path : String) :
    normalize (normalize path) = normalize path ∧
    InForm (isAbsolute path.toList) (normalize path) ∧
    (normalize path = path ↔ InForm (isAbsolute path.toList) path) ∧
    ∀ before after, path = before ++ "/" ++ after → ∀ spelling, SpellsSlash spelling →
      normalize (before ++ spelling ++ after) = normalize path := by
  obtain ⟨kept,canonical,written⟩ := normalizeForm path
  refine ⟨normalizeFixed path,?_,fixedIff path,?_⟩
  · rw [written]
    exact formInForm canonical
  · intro before after split spelling spells
    rw [split]
    exact normalizeSpelled spells before after

theorem detourNormalized :
    normalize "../src/./geometry\\Point.java" = "../src/geometry/Point.java" ∧
    InForm false "../src/geometry/Point.java" ∧
    normalize ("../src" ++ "/util/../" ++ "./geometry\\Point.java") = "../src/geometry/Point.java" := by
  obtain ⟨_,inForm,_,spelled⟩ := normalizeCanonical "../src/./geometry\\Point.java"
  have form : normalize "../src/./geometry\\Point.java" = "../src/geometry/Point.java" := by decide +kernel
  rw [form] at inForm spelled
  exact ⟨form,inForm,spelled "../src" "./geometry\\Point.java" (by decide +kernel) _
    (.detour "util" (by decide) (by simp [isSeparator]) (by decide) (by decide))⟩

end Path
end CodeIndex
