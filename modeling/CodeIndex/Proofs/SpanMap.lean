import CodeIndex.Text.SpanMap
import Mathlib.Data.List.Induction
import Mathlib.Data.List.Nodup

/-! The row of pieces as a function of the offset. Laying a span over a row changes what is held at the
offsets of the span and nowhere else, and joining pieces changes nothing. A row without joinable
neighbours is determined by what it holds, so rows that were built in different orders can be compared
offset by offset. -/
namespace CodeIndex

namespace Span

@[grind =] theorem containsIff (s : Span) (x : UInt32) :
    s.contains x = true ↔ s.start ≤ x ∧ x < s.stop := by simp [contains]

@[grind =] theorem coversIff (s other : Span) :
    s.covers other = true ↔ s.start ≤ other.start ∧ other.stop ≤ s.stop := by simp [covers]

@[grind =] theorem overlapsIff (s other : Span) :
    s.overlaps other = true ↔ s.start < other.stop ∧ other.start < s.stop := by simp [overlaps]

@[grind =] theorem emptyIff (s : Span) : s.isEmpty = true ↔ s.stop ≤ s.start := by simp [isEmpty]

@[grind =] theorem invertedIff (s : Span) : s.isInverted = true ↔ s.stop < s.start := by
  simp [isInverted]

theorem coversAntisymm {s other : Span} (outer : s.covers other) (inner : other.covers s) :
    s = other := by
  obtain ⟨start,stop⟩ := s
  obtain ⟨start',stop'⟩ := other
  grind

end Span

namespace SpanMap

variable {α : Type u}

@[grind =] theorem latest (a b : UInt32) : max a b = if a ≤ b then b else a := rfl

@[grind =] theorem earliest (a b : UInt32) : min a b = if a ≤ b then a else b := rfl

def held (row : List (Piece α)) (x : UInt32) : Option (Span × α) :=
  (row.find? (·.contains x)).map fun p => (p.origin,p.value)

inductive Row : UInt32 → List (Piece α) → Prop where
  | nil (low) : Row low []
  | cons {low p rest} (after : low ≤ p.start) (filled : p.start < p.stop) (others : Row p.stop rest) :
      Row low (p :: rest)

theorem heldCons (p : Piece α) (row : List (Piece α)) (x : UInt32) :
    held (p :: row) x =
      if p.start ≤ x ∧ x < p.stop then some (p.origin,p.value) else held row x := by
  unfold held Piece.contains
  rw [List.find?_cons]
  split <;> split <;> simp_all

theorem heldAppend (first second : List (Piece α)) (x : UInt32) :
    held (first ++ second) x = (held first x).or (held second x) := by
  simp only [held,List.find?_append]
  cases first.find? (·.contains x) <;> simp

theorem heldBetween (start stop : UInt32) (origin : Span) (value : α) (x : UInt32) :
    held (Piece.between start stop origin value) x =
      if start ≤ x ∧ x < stop then some (origin,value) else none := by
  unfold Piece.between
  split
  · exact heldCons _ [] x
  · rename_i empty
    have outside : ¬(start ≤ x ∧ x < stop) := by grind
    rw [if_neg outside]
    rfl

theorem Row.weaken {low low' : UInt32} {row : List (Piece α)} (sorted : Row low row)
    (lower : low' ≤ low) : Row low' row := by
  cases sorted with
  | nil => exact .nil low'
  | cons after filled others => exact .cons (by grind) filled others

theorem Row.heldBelow {low x : UInt32} {row : List (Piece α)} (sorted : Row low row)
    (below : x < low) : held row x = none := by
  induction sorted with
  | nil => rfl
  | @cons low p rest after filled others ih =>
    have outside : ¬(p.start ≤ x ∧ x < p.stop) := by grind
    rw [heldCons,if_neg outside,ih (by grind)]

def overlaid (span : Span) (value : α) : Option (Span × α) → Span × α
  | some (origin,old) => if origin.covers span then (span,value) else (origin,old)
  | none => (span,value)

theorem heldOverlap {span : Span} {value : α} {cursor start stop enter leave x : UInt32}
    {entry : Span × α} {rest : Option (Span × α)} (filled : start < stop)
    (low : span.start ≤ cursor) (high : cursor ≤ span.stop) (before : span.start < stop)
    (behind : start < span.stop) (reach : cursor = span.start ∨ cursor ≤ start)
    (inner : enter = max start span.start) (outer : leave = min stop span.stop)
    (nothing : x < stop → rest = none) :
    (((((if start ≤ x ∧ x < span.start then some entry else none).or
      (if cursor ≤ x ∧ x < enter then some (span,value) else none)).or
      (if enter ≤ x ∧ x < leave then some (overlaid span value (some entry)) else none)).or
      (if span.stop ≤ x ∧ x < stop then some entry else none)).or
      (if span.contains x ∧ (leave ≤ x ∨ rest.isSome) then some (overlaid span value rest) else rest)) =
    if span.contains x ∧ (cursor ≤ x ∨ (if start ≤ x ∧ x < stop then some entry else rest).isSome) then
      some (overlaid span value (if start ≤ x ∧ x < stop then some entry else rest))
    else if start ≤ x ∧ x < stop then some entry else rest := by
  by_cases within : span.contains x
  · have first : ¬(start ≤ x ∧ x < span.start) := by grind
    have last : ¬(span.stop ≤ x ∧ x < stop) := by grind
    rw [if_neg first,if_neg last,Option.none_or,Option.or_none]
    by_cases both : enter ≤ x ∧ x < leave
    · have gap : ¬(cursor ≤ x ∧ x < enter) := by grind
      have inside : start ≤ x ∧ x < stop := by grind
      simp [gap,both,inside,within]
    · have outside : ¬(start ≤ x ∧ x < stop) := by grind
      rw [if_neg both,if_neg outside,Option.or_none]
      by_cases gap : cursor ≤ x ∧ x < enter
      · simp [gap,within,nothing (by grind),overlaid]
      · rw [if_neg gap,Option.none_or]
        by_cases early : x < stop
        · have short : ¬leave ≤ x := by grind
          have late : ¬cursor ≤ x := by grind
          simp [nothing early,short,late]
        · have long : leave ≤ x := by grind
          have later : cursor ≤ x := by grind
          simp [within,long,later]
  · have gap : ¬(cursor ≤ x ∧ x < enter) := by grind
    have both : ¬(enter ≤ x ∧ x < leave) := by grind
    rw [if_neg gap,if_neg both,Option.or_none,Option.or_none]
    by_cases inside : start ≤ x ∧ x < stop
    · by_cases ahead : x < span.start
      · simp [inside,ahead,within]
      · have after : span.stop ≤ x := by grind
        simp [inside,ahead,within,after]
    · have first : ¬(start ≤ x ∧ x < span.start) := by grind
      have last : ¬(span.stop ≤ x ∧ x < stop) := by grind
      rw [if_neg inside,if_neg first,if_neg last]
      simp [within]

theorem heldOverlay {span : Span} {value : α} {low cursor : UInt32} {row : List (Piece α)}
    (sorted : Row low row) (start : span.start ≤ cursor) (stop : cursor ≤ span.stop)
    (ahead : cursor = span.start ∨ Row cursor row) (x : UInt32) :
    held (overlay span value cursor row) x =
      if span.contains x ∧ (cursor ≤ x ∨ (held row x).isSome) then
        some (overlaid span value (held row x))
      else held row x := by
  induction row generalizing low cursor with
  | nil =>
    rw [overlay,heldBetween]
    have nothing : held ([] : List (Piece α)) x = none := rfl
    rw [nothing]
    by_cases inside : cursor ≤ x ∧ x < span.stop
    · rw [if_pos inside,if_pos (by grind)]
      rfl
    · rw [if_neg inside,if_neg (by grind)]
  | cons p rest ih =>
    obtain _ | ⟨after,filled,others⟩ := sorted
    have reach : cursor = span.start ∨ cursor ≤ p.start := by
      rcases ahead with same | sorted'
      · exact .inl same
      · obtain _ | ⟨after',_,_⟩ := sorted'
        exact .inr after'
    rw [overlay]
    split
    · -- The piece ends before the span.
      rename_i before
      rw [heldCons,heldCons,ih others start stop (.inl (by grind))]
      grind
    · split
      · -- The piece and all after it begin behind the span.
        rename_i behind
        have nothing : x < span.stop → held (p :: rest) x = none := fun inside =>
          (Row.cons (Std.le_refl p.start) filled others).heldBelow (by grind)
        rw [heldAppend,heldBetween]
        by_cases inside : cursor ≤ x ∧ x < span.stop
        · rw [if_pos inside,nothing inside.2,if_pos (by grind)]
          rfl
        · rw [if_neg inside,if_neg (by
            rintro ⟨within,later | found⟩
            · grind
            · rw [nothing (by grind)] at found
              cases found)]
          rfl
      · have tail := @ih _ (min p.stop span.stop) others (by grind) (by grind)
          (.inr (others.weaken (by grind)))
        have middle : held (if p.origin.covers span then
              Piece.between (max p.start span.start) (min p.stop span.stop) span value
            else Piece.between (max p.start span.start) (min p.stop span.stop) p.origin p.value) x =
            if max p.start span.start ≤ x ∧ x < min p.stop span.stop then
              some (overlaid span value (some (p.origin,p.value))) else none := by
          rw [overlaid]
          split <;> exact heldBetween _ _ _ _ x
        simp only [heldAppend,heldBetween,heldCons,middle,tail]
        exact heldOverlap filled start stop (by grind) (by grind) reach rfl rfl others.heldBelow

theorem rowBetween {low start stop : UInt32} {origin : Span} {value : α} {rest : List (Piece α)}
    (next : start < stop → low ≤ start ∧ Row stop rest) (skip : ¬start < stop → Row low rest) :
    Row low (Piece.between start stop origin value ++ rest) := by
  unfold Piece.between
  split
  · rename_i filled
    exact .cons (next filled).1 filled (next filled).2
  · exact skip ‹_›

theorem rowOverlay {span : Span} {value : α} {low cursor : UInt32} {row : List (Piece α)}
    (sorted : Row low row) (start : span.start ≤ cursor) (stop : cursor ≤ span.stop)
    (ahead : cursor = span.start ∨ Row cursor row) (after : low ≤ cursor ∨ span.stop ≤ cursor) :
    Row low (overlay span value cursor row) := by
  induction row generalizing low cursor with
  | nil =>
    rw [overlay,← List.append_nil (Piece.between cursor span.stop span value)]
    exact rowBetween (fun open' => ⟨by grind,.nil _⟩) fun _ => .nil low
  | cons p rest ih =>
    obtain _ | ⟨first,filled,others⟩ := sorted
    have reach : cursor = span.start ∨ cursor ≤ p.start := by
      rcases ahead with same | sorted'
      · exact .inl same
      · obtain _ | ⟨first',_,_⟩ := sorted'
        exact .inr first'
    rw [overlay]
    split
    · exact .cons first filled (ih others start stop (.inl (by grind)) (.inl (by grind)))
    · split
      · exact rowBetween (fun gap => ⟨by grind,.cons (by grind) filled others⟩)
          fun _ => .cons first filled others
      · have tail := @ih _ (min p.stop span.stop) others (by grind) (by grind)
          (.inr (others.weaken (by grind))) (by grind)
        simp only [List.append_assoc]
        have common : ∀ (origin : Span) (entry : α), Row (max p.start span.start)
            (Piece.between (max p.start span.start) (min p.stop span.stop) origin entry ++
              (Piece.between span.stop p.stop p.origin p.value ++
                overlay span value (min p.stop span.stop) rest)) := by
          intro origin entry
          have behind : Row (min p.stop span.stop) (Piece.between span.stop p.stop p.origin p.value ++
              overlay span value (min p.stop span.stop) rest) :=
            rowBetween (fun open' => ⟨by grind,tail⟩) fun _ => tail.weaken (by grind)
          exact rowBetween (fun open' => ⟨Std.le_refl _,behind⟩) fun _ => behind.weaken (by grind)
        have rejoined : Row (max p.start span.start) ((if p.origin.covers span then
              Piece.between (max p.start span.start) (min p.stop span.stop) span value
            else Piece.between (max p.start span.start) (min p.stop span.stop) p.origin p.value) ++
              (Piece.between span.stop p.stop p.origin p.value ++
                overlay span value (min p.stop span.stop) rest)) := by
          split <;> exact common _ _
        refine rowBetween (fun early => ⟨first,?_⟩) fun late => ?_
        · exact rowBetween (fun gap => by grind) fun _ => rejoined.weaken (by grind)
        · exact rowBetween (fun gap => ⟨by grind,rejoined⟩) fun _ => rejoined.weaken (by grind)

/-- No two neighbours touch and come from one span. -/
inductive Apart : List (Piece α) → Prop where
  | nil : Apart []
  | one (p) : Apart [p]
  | cons {p q rest} (apart : ¬(p.stop = q.start ∧ p.origin = q.origin)) (others : Apart (q :: rest)) :
      Apart (p :: q :: rest)

theorem rowJoin {low : UInt32} {p : Piece α} {row : List (Piece α)} (sorted : Row low (p :: row)) :
    Row low (join p row) := by
  obtain _ | ⟨first,filled,others⟩ := sorted
  cases row with
  | nil => exact .cons first filled others
  | cons q rest =>
    obtain _ | ⟨first',filled',others'⟩ := others
    rw [join]
    split
    · exact .cons first (Std.lt_of_lt_of_le filled (Std.le_trans first' (Std.le_of_lt filled'))) others'
    · exact .cons first filled (.cons first' filled' others')

theorem apartJoin {p : Piece α} {row : List (Piece α)} (apart : Apart row) : Apart (join p row) := by
  cases row with
  | nil => exact .one p
  | cons q rest =>
    rw [join]
    split
    · rename_i touch
      cases apart with
      | one => exact .one _
      | cons apart' others => exact .cons (touch.2 ▸ apart') others
    · exact .cons ‹_› apart

theorem heldJoin {low : UInt32} {p : Piece α} {row : List (Piece α)} (sorted : Row low (p :: row))
    (same : ∀ q ∈ row.head?, p.origin = q.origin → p.value = q.value) (x : UInt32) :
    held (join p row) x = held (p :: row) x := by
  obtain _ | ⟨first,filled,others⟩ := sorted
  cases row with
  | nil => rfl
  | cons q rest =>
    obtain _ | ⟨first',filled',others'⟩ := others
    rw [join]
    split
    · rename_i touch
      have value := same q rfl touch.2
      simp only [heldCons,touch,value]
      grind
    · rfl

theorem Row.heldStart {low : UInt32} {p : Piece α} {row : List (Piece α)} (sorted : Row low (p :: row)) :
    held (p :: row) p.start = some (p.origin,p.value) := by
  obtain _ | ⟨_,filled,_⟩ := sorted
  rw [heldCons,if_pos ⟨Std.le_refl _,filled⟩]

theorem Row.fromStart {low : UInt32} {p : Piece α} {row : List (Piece α)} (sorted : Row low (p :: row)) :
    Row p.start (p :: row) := by
  obtain _ | ⟨_,filled,others⟩ := sorted
  exact .cons (Std.le_refl _) filled others

theorem Apart.tail {p : Piece α} {row : List (Piece α)} (apart : Apart (p :: row)) : Apart row := by
  cases apart with
  | one => exact .nil
  | cons _ others => exact others

def OneValue (row : List (Piece α)) : Prop :=
  ∀ {x y origin value value'}, held row x = some (origin,value) → held row y = some (origin,value') →
    value = value'

theorem OneValue.tail {low : UInt32} {p : Piece α} {row : List (Piece α)} (sorted : Row low (p :: row))
    (one : OneValue (p :: row)) : OneValue row := by
  obtain _ | ⟨_,_,others⟩ := sorted
  have later : ∀ {x entry}, held row x = some entry → held (p :: row) x = some entry := by
    intro x entry found
    have outside : ¬(p.start ≤ x ∧ x < p.stop) := by
      rintro ⟨_,inside⟩
      rw [others.heldBelow inside] at found
      cases found
    rw [heldCons,if_neg outside]
    exact found
  intro x y origin value value' first second
  exact one (later first) (later second)

theorem joinAll {low : UInt32} {row : List (Piece α)} (sorted : Row low row) (one : OneValue row) :
    Row low (row.foldr join []) ∧ Apart (row.foldr join []) ∧
      ∀ x, held (row.foldr join []) x = held row x := by
  induction row generalizing low with
  | nil => exact ⟨sorted,.nil,fun _ => rfl⟩
  | cons p rest ih =>
    have start := sorted.heldStart
    have whole := sorted
    obtain _ | ⟨first,filled,others⟩ := sorted
    obtain ⟨sorted',apart,same⟩ := ih others (one.tail whole)
    have joined : Row low (p :: rest.foldr join []) := .cons first filled sorted'
    refine ⟨rowJoin joined,apartJoin apart,fun x => ?_⟩
    rw [List.foldr_cons,heldJoin joined ?_ x,heldCons,heldCons,same]
    intro q head origin
    cases listed : rest.foldr join [] with
    | nil => simp [listed] at head
    | cons q' others' =>
      rw [listed] at head sorted' same
      cases Option.some.inj head
      have found := (same q.start).symm.trans sorted'.heldStart
      obtain _ | ⟨after,_,_⟩ := sorted'
      have there : held (p :: rest) q.start = some (q.origin,q.value) := by
        rw [heldCons,if_neg (by grind),found]
      exact one start (origin ▸ there)

theorem Row.heldFrom {low x : UInt32} {row : List (Piece α)} {entry : Span × α} (sorted : Row low row)
    (found : held row x = some entry) : low ≤ x := by
  refine Std.not_lt.mp fun below => ?_
  rw [sorted.heldBelow below] at found
  cases found

theorem stopExt {low : UInt32} {p q : Piece α} {row row' : List (Piece α)}
    (sorted : Row low (p :: row)) (apart : Apart (p :: row))
    (same : ∀ x, held (p :: row) x = held (q :: row') x) (start : p.start = q.start)
    (origin : p.origin = q.origin) : q.stop ≤ p.stop := by
  refine Std.not_lt.mp fun longer => ?_
  obtain _ | ⟨_,filled,others⟩ := sorted
  have here := same p.stop
  rw [heldCons,heldCons,if_neg fun inside => Std.lt_irrefl inside.2,
    if_pos ⟨start ▸ Std.le_of_lt filled,longer⟩] at here
  cases apart with
  | one => cases here
  | @cons _ r rest apart' _ =>
    obtain _ | ⟨after,filled',others'⟩ := others
    rw [heldCons] at here
    split at here
    · rename_i inside
      simp only [Option.some.injEq,Prod.mk.injEq] at here
      exact apart' ⟨Std.le_antisymm after inside.1,origin.trans here.1.symm⟩
    · have later := others'.heldFrom here
      grind

theorem heldTail {low : UInt32} {p : Piece α} {row row' : List (Piece α)} (sorted : Row low (p :: row))
    (sorted' : Row low (p :: row')) (same : ∀ x, held (p :: row) x = held (p :: row') x) (x : UInt32) :
    held row x = held row' x := by
  obtain _ | ⟨_,_,others⟩ := sorted
  obtain _ | ⟨_,_,others'⟩ := sorted'
  by_cases early : x < p.stop
  · rw [others.heldBelow early,others'.heldBelow early]
  · have here := same x
    rw [heldCons,heldCons,if_neg fun inside => early inside.2,if_neg fun inside => early inside.2]
      at here
    exact here

theorem rowExt {low : UInt32} {row row' : List (Piece α)} (sorted : Row low row)
    (sorted' : Row low row') (apart : Apart row) (apart' : Apart row')
    (same : ∀ x, held row x = held row' x) : row = row' := by
  induction row generalizing low row' with
  | nil =>
    cases row' with
    | nil => rfl
    | cons q rest => cases (same q.start).trans sorted'.heldStart
  | cons p rest ih =>
    cases row' with
    | nil => cases (same p.start).symm.trans sorted.heldStart
    | cons q rest' =>
      have first := sorted.heldStart
      have first' := sorted'.heldStart
      have start : p.start = q.start := Std.le_antisymm
        (sorted.fromStart.heldFrom ((same q.start).trans first'))
        (sorted'.fromStart.heldFrom ((same p.start).symm.trans first))
      have entry := first.symm.trans ((same p.start).trans (start ▸ first'))
      simp only [Option.some.injEq,Prod.mk.injEq] at entry
      have stop : p.stop = q.stop := Std.le_antisymm
        (stopExt sorted' apart' (fun x => (same x).symm) start.symm entry.1.symm)
        (stopExt sorted apart same start entry.1)
      have piece : p = q := by
        obtain ⟨_,_,_,_⟩ := p
        obtain ⟨_,_,_,_⟩ := q
        simp_all
      subst piece
      have others := heldTail sorted sorted' same
      obtain _ | ⟨_,_,sorted⟩ := sorted
      obtain _ | ⟨_,_,sorted'⟩ := sorted'
      rw [ih sorted sorted' apart.tail apart'.tail others]

structure Sound (m : SpanMap α) : Prop where
  sorted : Row 0 m.pieces
  apart : Apart m.pieces
  within : ∀ {x origin value}, held m.pieces x = some (origin,value) → origin.contains x
  one : OneValue m.pieces

def lay (x : UInt32) (found : Option (Span × α)) (e : Span × α) : Option (Span × α) :=
  if e.1.contains x then some (overlaid e.1 e.2 found) else found

theorem layOld {m : SpanMap α} (sound : m.Sound) {span : Span} {value old : α} {origin : Span}
    {x : UInt32} (found : lay x (held m.pieces x) (span,value) = some (origin,old)) :
    (origin = span ∧ old = value ∧ span.contains x) ∨
      origin ≠ span ∧ held m.pieces x = some (origin,old) := by
  unfold lay at found
  split at found
  · rename_i inside
    cases before : held m.pieces x with
    | none =>
      rw [before] at found
      cases found
      exact .inl ⟨rfl,rfl,inside⟩
    | some entry =>
      obtain ⟨origin',old'⟩ := entry
      rw [before,overlaid] at found
      split at found
      · cases found
        exact .inl ⟨rfl,rfl,inside⟩
      · rename_i uncovered
        cases found
        refine .inr ⟨?_,rfl⟩
        rintro rfl
        exact uncovered (by grind)
  · rename_i outside
    refine .inr ⟨?_,found⟩
    rintro rfl
    exact outside (sound.within found)

theorem insertSound {m : SpanMap α} (sound : m.Sound) {span : Span} (upright : ¬span.isInverted)
    (value : α) : ∃ m', m.insert span value = .ok m' ∧ m'.Sound ∧
      ∀ x, held m'.pieces x = lay x (held m.pieces x) (span,value) := by
  unfold insert
  rw [if_neg upright]
  split
  · rename_i empty
    refine ⟨m,rfl,sound,fun x => ?_⟩
    have outside : ¬span.contains x := by grind
    rw [lay,if_neg outside]
  · have start : ∀ x, held (overlay span value span.start m.pieces) x =
        lay x (held m.pieces x) (span,value) := by
      intro x
      rw [heldOverlay sound.sorted (Std.le_refl _) (by grind) (.inl rfl) x,lay]
      by_cases inside : span.contains x
      · rw [if_pos inside,if_pos ⟨inside,.inl (by grind)⟩]
      · rw [if_neg inside,if_neg fun both => inside both.1]
    have sorted : Row 0 (overlay span value span.start m.pieces) :=
      rowOverlay sound.sorted (Std.le_refl span.start) (by grind) (.inl rfl) (.inl (by grind))
    have one : OneValue (overlay span value span.start m.pieces) := by
      intro x y origin old old' first second
      rw [start] at first second
      rcases layOld sound first with ⟨rfl,rfl,_⟩ | ⟨other,kept⟩
      · rcases layOld sound second with ⟨_,rfl,_⟩ | ⟨other,_⟩
        · rfl
        · exact absurd rfl other
      · rcases layOld sound second with ⟨same,_⟩ | ⟨_,kept'⟩
        · exact absurd same other
        · exact sound.one kept kept'
    obtain ⟨sorted',apart,same⟩ := joinAll sorted one
    refine ⟨_,rfl,⟨sorted',apart,?_,?_⟩,fun x => (same x).trans (start x)⟩
    · intro x origin old found
      rw [same,start] at found
      rcases layOld sound found with ⟨rfl,_,inside⟩ | ⟨_,kept⟩
      · exact inside
      · exact sound.within kept
    · intro x y origin old old' first second
      rw [same] at first second
      exact one first second

def reading (spans : List (Span × α)) (x : UInt32) : Option (Span × α) := spans.foldl (lay x) none

theorem insertAllSound (spans : List (Span × α)) (upright : ∀ e ∈ spans, ¬e.1.isInverted)
    {m : SpanMap α} (sound : m.Sound) :
    ∃ m', spans.foldlM (fun m (span,value) => m.insert span value) m = .ok m' ∧ m'.Sound ∧
      ∀ x, held m'.pieces x = spans.foldl (lay x) (held m.pieces x) := by
  induction spans generalizing m with
  | nil => exact ⟨m,rfl,sound,fun _ => rfl⟩
  | cons e rest ih =>
    obtain ⟨span,value⟩ := e
    have straight : ¬span.isInverted := upright (span,value) (by simp)
    obtain ⟨m₁,first,sound₁,same₁⟩ := insertSound sound straight value
    obtain ⟨m₂,others,sound₂,same₂⟩ := ih (fun e later => upright e (by simp [later])) sound₁
    refine ⟨m₂,?_,sound₂,fun x => ?_⟩
    · simp only [List.foldlM_cons,first]
      exact others
    · rw [same₂,same₁,List.foldl_cons]

theorem ofListSound (spans : List (Span × α)) (upright : ∀ e ∈ spans, ¬e.1.isInverted) :
    ∃ m, ofList spans = .ok m ∧ m.Sound ∧ ∀ x, held m.pieces x = reading spans x :=
  insertAllSound spans upright
    ⟨.nil 0,.nil,fun found => (nomatch found),fun found => (nomatch found)⟩

theorem atHeld (m : SpanMap α) (x : UInt32) : m.at? x = (held m.pieces x).map Prod.snd := by
  simp only [at?,held,Option.map_map]
  rfl

theorem insertUpright {m m' : SpanMap α} {span : Span} {value : α} (ok : m.insert span value = .ok m') :
    ¬span.isInverted := by
  intro inverted
  simp [insert,inverted] at ok

theorem insertAllUpright {spans : List (Span × α)} {m m' : SpanMap α}
    (ok : spans.foldlM (fun m (span,value) => m.insert span value) m = .ok m') :
    ∀ e ∈ spans, ¬e.1.isInverted := by
  induction spans generalizing m with
  | nil => simp
  | cons e rest ih =>
    simp only [List.foldlM_cons] at ok
    cases first : m.insert e.1 e.2 with
    | error failure =>
      rw [first] at ok
      cases ok
    | ok m₁ =>
      rw [first] at ok
      exact List.forall_mem_cons.mpr ⟨insertUpright first,ih ok⟩

def Nested (spans : List (Span × α)) : Prop :=
  ∀ e ∈ spans, ∀ e' ∈ spans, ¬e.1.isEmpty → ¬e'.1.isEmpty → e.1.overlaps e'.1 →
    e.1.covers e'.1 ∨ e'.1.covers e.1

instance (spans : List (Span × α)) : Decidable (Nested spans) := by
  unfold Nested
  infer_instance

theorem Nested.relabel {β : Type v} {spans : List (Span × α)} {spans' : List (Span × β)} (nested : Nested spans)
    (same : spans'.map Prod.fst = spans.map Prod.fst) : Nested spans' := by
  have old : ∀ {e}, e ∈ spans' → ∃ e' ∈ spans, e'.1 = e.1 := fun listed =>
    List.mem_map.mp (same ▸ List.mem_map.mpr ⟨_,listed,rfl⟩)
  intro e first e' second
  obtain ⟨a,inside,span⟩ := old first
  obtain ⟨b,inside',span'⟩ := old second
  rw [← span,← span']
  exact nested a inside b inside'

structure InnermostAt (spans : List (Span × α)) (x : UInt32) (span : Span) (value : α) : Prop where
  here : span.contains x
  smallest : ∀ e ∈ spans, e.1.contains x → e.1.covers span
  last : (spans.filter (·.1 = span)).getLast? = some (span,value)

theorem readingConcat (spans : List (Span × α)) (e : Span × α) (x : UInt32) :
    reading (spans ++ [e]) x = lay x (reading spans x) e := by
  simp [reading]

theorem readingNone (spans : List (Span × α)) (x : UInt32) :
    reading spans x = none ↔ ∀ e ∈ spans, ¬e.1.contains x := by
  induction spans using List.reverseRecOn with
  | nil => simp [reading]
  | append_singleton spans e ih =>
    rw [readingConcat,lay]
    split
    · rename_i inside
      simp only [reduceCtorEq,List.mem_append,List.mem_singleton,false_iff]
      exact fun outside => outside e (.inr rfl) inside
    · rename_i outside
      simp only [ih,List.mem_append,List.mem_singleton]
      exact ⟨fun others e' listed => listed.elim (others e') (fun same => same ▸ outside),
        fun all e' listed => all e' (.inl listed)⟩

theorem readingListed {spans : List (Span × α)} {x : UInt32} {e : Span × α}
    (found : reading spans x = some e) : e ∈ spans := by
  induction spans using List.reverseRecOn generalizing e with
  | nil => cases found
  | append_singleton spans last ih =>
    have earlier : ∀ {e}, reading spans x = some e → e ∈ spans ++ [last] :=
      fun found => List.mem_append_left _ (ih found)
    rw [readingConcat,lay] at found
    split at found
    · cases before : reading spans x with
      | none =>
        rw [before,overlaid] at found
        cases found
        simp
      | some old =>
        rw [before,overlaid] at found
        split at found
        · cases found
          simp
        · cases found
          exact earlier before
    · exact earlier found

theorem atReading {spans : List (Span × α)} {m : SpanMap α} (made : ofList spans = .ok m) (x : UInt32) :
    m.at? x = (reading spans x).map Prod.snd := by
  obtain ⟨m',made',_,same⟩ := ofListSound spans (insertAllUpright made)
  cases Except.ok.inj (made.symm.trans made')
  rw [atHeld,same]

theorem atListed {spans : List (Span × α)} {m : SpanMap α} (made : ofList spans = .ok m) {x : UInt32}
    {value : α} (found : m.at? x = some value) : ∃ span, (span,value) ∈ spans := by
  rw [atReading made] at found
  obtain ⟨e,listed,rfl⟩ := Option.map_eq_some_iff.mp found
  exact ⟨e.1,readingListed listed⟩

theorem lastConcat (spans : List (Span × α)) (e : Span × α) (span : Span) :
    ((spans ++ [e]).filter (·.1 = span)).getLast? =
      if e.1 = span then some e else (spans.filter (·.1 = span)).getLast? := by
  rw [List.filter_append]
  split <;> rename_i here <;> simp [here]

theorem InnermostAt.listed {spans : List (Span × α)} {x : UInt32} {span : Span} {value : α}
    (innermost : InnermostAt spans x span value) : (span,value) ∈ spans :=
  List.mem_of_mem_filter (List.mem_of_getLast? innermost.last)

theorem InnermostAt.map {β : Type v} {spans : List (Span × α)} {x : UInt32} {span : Span} {value : α}
    (innermost : InnermostAt spans x span value) (f : α → β) :
    InnermostAt (spans.map fun e => (e.1,f e.2)) x span (f value) where
  here := innermost.here
  smallest := by
    intro e listed
    obtain ⟨e,there,rfl⟩ := List.mem_map.mp listed
    exact innermost.smallest e there
  last := by
    rw [List.filter_map,List.getLast?_map]
    exact congrArg (Option.map fun e => (e.1,f e.2)) innermost.last

theorem coversSelf (s : Span) : s.covers s := by grind

theorem coversTrans {a b c : Span} (outer : a.covers b) (inner : b.covers c) : a.covers c := by grind

theorem readingInnermost {spans : List (Span × α)} (nested : Nested spans) {x : UInt32} {span : Span}
    {value : α} (found : reading spans x = some (span,value)) : InnermostAt spans x span value := by
  induction spans using List.reverseRecOn generalizing span value with
  | nil => cases found
  | append_singleton spans e ih =>
    have nested' : Nested spans := fun a inA b inB => nested a (by simp [inA]) b (by simp [inB])
    have smallest : ∀ {s : Span}, (∀ e' ∈ spans, e'.1.contains x → e'.1.covers s) →
        (e.1.contains x → e.1.covers s) → ∀ e' ∈ spans ++ [e], e'.1.contains x → e'.1.covers s := by
      intro s old new e' listed
      rcases List.mem_append.mp listed with earlier | single
      · exact old e' earlier
      · exact List.mem_singleton.mp single ▸ new
    rw [readingConcat,lay] at found
    split at found
    · rename_i inside
      cases before : reading spans x with
      | none =>
        rw [before] at found
        cases found
        have outside := (readingNone spans x).mp before
        refine ⟨inside,smallest (fun e' listed there => absurd there (outside e' listed)) fun _ =>
          coversSelf e.1,?_⟩
        rw [lastConcat,if_pos rfl]
      | some entry =>
        obtain ⟨origin,old⟩ := entry
        have innermost := ih nested' before
        rw [before,overlaid] at found
        split at found
        · rename_i covered
          cases found
          refine ⟨inside,smallest (fun e' listed there =>
            coversTrans (innermost.smallest e' listed there) covered) fun _ => coversSelf e.1,?_⟩
          rw [lastConcat,if_pos rfl]
        · rename_i uncovered
          cases found
          have here := innermost.here
          have covers : e.1.covers span := by
            have both := nested (span,value) (by simp [innermost.listed]) e (by simp) (by grind)
              (by grind) (by grind)
            exact both.resolve_left uncovered
          refine ⟨here,smallest innermost.smallest fun _ => covers,?_⟩
          rw [lastConcat,if_neg fun same : e.1 = span => uncovered (same ▸ coversSelf _)]
          exact innermost.last
    · rename_i outside
      have innermost := ih nested' found
      refine ⟨innermost.here,smallest innermost.smallest fun there => absurd there outside,?_⟩
      rw [lastConcat,if_neg fun same : e.1 = span => outside (same ▸ innermost.here)]
      exact innermost.last

theorem InnermostAt.span {spans spans' : List (Span × α)} {x : UInt32} {s s' : Span} {v v' : α}
    (first : InnermostAt spans x s v) (second : InnermostAt spans' x s' v')
    (same : ∀ e, e ∈ spans ↔ e ∈ spans') : s = s' :=
  Span.coversAntisymm (second.smallest _ ((same _).mp first.listed) first.here)
    (first.smallest _ ((same _).mpr second.listed) second.here)

theorem readingPerm {spans spans' : List (Span × α)} (nested : Nested spans)
    (distinct : ((spans.filter (!·.1.isEmpty)).map Prod.fst).Nodup) (perm : spans.Perm spans')
    (x : UInt32) : reading spans x = reading spans' x := by
  have same : ∀ e, e ∈ spans ↔ e ∈ spans' := fun e => perm.mem_iff
  have nested' : Nested spans' := fun a inA b inB => nested a ((same a).mpr inA) b ((same b).mpr inB)
  cases first : reading spans x with
  | none =>
    have outside := (readingNone spans x).mp first
    exact ((readingNone spans' x).mpr fun e listed => outside e ((same e).mpr listed)).symm
  | some entry =>
    obtain ⟨s,v⟩ := entry
    have innermost := readingInnermost nested first
    cases second : reading spans' x with
    | none =>
      have outside := (readingNone spans' x).mp second
      exact absurd innermost.here (outside (s,v) ((same _).mp innermost.listed))
    | some entry' =>
      obtain ⟨s',v'⟩ := entry'
      have innermost' := readingInnermost nested' second
      have span := innermost.span innermost' same
      subst span
      have here := innermost.here
      have filled : ∀ {w}, (s,w) ∈ spans → (s,w) ∈ spans.filter (!·.1.isEmpty) := fun listed =>
        List.mem_filter.mpr ⟨listed,by grind⟩
      have entries := List.inj_on_of_nodup_map distinct (filled innermost.listed)
        (filled ((same _).mpr innermost'.listed)) rfl
      rw [entries]

/-- Spans that are nested or disjoint can be put into a map. At each offset the innermost span gives its
value, the last listed one of equal spans; where no span lies the map is empty. If no span that is not
empty is listed twice, the order of the list does not matter. -/
theorem innermostWins (spans : List (Span × α)) (upright : ∀ e ∈ spans, ¬e.1.isInverted)
    (nested : Nested spans) :
    ∃ m, ofList spans = .ok m ∧
      (∀ x value, m.at? x = some value ↔ ∃ span, InnermostAt spans x span value) ∧
      (∀ x, m.at? x = none ↔ ∀ e ∈ spans, ¬e.1.contains x) ∧
      (((spans.filter (!·.1.isEmpty)).map Prod.fst).Nodup → ∀ spans', spans.Perm spans' →
        ∃ m', ofList spans' = .ok m' ∧ m'.toList = m.toList) := by
  obtain ⟨m,made,sound,same⟩ := ofListSound spans upright
  refine ⟨m,made,fun x value => ?_,fun x => ?_,fun distinct spans' perm => ?_⟩
  · rw [atHeld,same]
    constructor
    · intro found
      obtain ⟨⟨span,_⟩,read,rfl⟩ := Option.map_eq_some_iff.mp found
      exact ⟨span,readingInnermost nested read⟩
    · rintro ⟨span,innermost⟩
      cases found : reading spans x with
      | none => exact absurd innermost.here ((readingNone spans x).mp found _ innermost.listed)
      | some entry =>
        obtain ⟨span',value'⟩ := entry
        have innermost' := readingInnermost nested found
        have equal := innermost.span innermost' fun _ => Iff.rfl
        subst equal
        have last := innermost'.last.symm.trans innermost.last
        simpa using last
  · rw [atHeld,same,Option.map_eq_none_iff,readingNone]
  · obtain ⟨m',made',sound',same'⟩ := ofListSound spans' fun e listed =>
      upright e (perm.mem_iff.mpr listed)
    have pieces : m'.pieces = m.pieces := rowExt sound'.sorted sound.sorted sound'.apart sound.apart
      fun x => by rw [same',same,readingPerm nested distinct perm]
    exact ⟨m',made',by rw [toList,pieces,toList]⟩

def methodSpans : List (Span × Char) :=
  [(⟨0,14⟩,'A'),(⟨0,7⟩,'B'),(⟨5,5⟩,'C'),(⟨7,9⟩,'D'),(⟨8,9⟩,'E')]

theorem methodSpansInnermost :
    ∃ m m', ofList methodSpans = .ok m ∧ ofList methodSpans.reverse = .ok m' ∧
      m'.toList = m.toList ∧ m.at? 8 = some 'E' ∧ m.at? 14 = none := by
  obtain ⟨m,made,value,nothing,order⟩ := innermostWins methodSpans (by decide) (by decide)
  obtain ⟨m',made',same⟩ := order (by decide) methodSpans.reverse (List.reverse_perm _).symm
  exact ⟨m,m',made,made',same,(value 8 'E').mpr ⟨⟨8,9⟩,by decide,by decide,by decide⟩,
    (nothing 14).mpr (by decide)⟩

end SpanMap
end CodeIndex
