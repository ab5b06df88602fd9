import CodeIndex.Proofs.SpanMap

/-! Spans that overlap in part. A map reads at each offset as if only the spans there had been inserted, one
after another, each in place of the one before if that covers it. Its pieces stay in order and within their
origins, with one value for each origin and nothing left to join. -/
namespace CodeIndex.SpanMap

variable {α : Type u}

def standing (spans : List (Span × α)) : Option (Span × α) :=
  spans.foldl
    (fun current e => match current with
      | none => some e
      | some old => if old.1.covers e.1 then some e else some old)
    none

theorem readingStanding (spans : List (Span × α)) (x : UInt32) :
    reading spans x = standing (spans.filter (·.1.contains x)) := by
  rw [reading,standing,List.foldl_filter]
  congr 1
  funext current e
  rw [lay]
  split
  · cases current with
    | none => rfl
    | some old =>
      simp only [overlaid]
      split <;> rfl
  · rfl

structure Tidy (pieces : List (Piece α)) : Prop where
  filled : ∀ p ∈ pieces, p.start < p.stop
  ordered : pieces.Pairwise fun p q => p.stop ≤ q.start
  within : ∀ p ∈ pieces, p.origin.covers ⟨p.start,p.stop⟩
  values : ∀ p ∈ pieces, ∀ q ∈ pieces, p.origin = q.origin → p.value = q.value
  apart : ∀ p ∈ pieces, ∀ q ∈ pieces, p.stop = q.start → p.origin ≠ q.origin

namespace Row

variable {low : UInt32} {row : List (Piece α)}

theorem filled (sorted : Row low row) : ∀ p ∈ row, low ≤ p.start ∧ p.start < p.stop := by
  induction sorted with
  | nil => simp
  | cons after filled _ ih =>
    refine List.forall_mem_cons.mpr ⟨⟨after,filled⟩,fun q later => ⟨?_,(ih q later).2⟩⟩
    exact Std.le_trans after (Std.le_trans (Std.le_of_lt filled) (ih q later).1)

theorem ordered (sorted : Row low row) : row.Pairwise fun p q => p.stop ≤ q.start := by
  induction sorted with
  | nil => exact .nil
  | cons _ _ others ih => exact .cons (fun q later => (others.filled q later).1) ih

theorem heldPiece (sorted : Row low row) {p : Piece α} (inside : p ∈ row) {x : UInt32} (here : p.contains x) :
    held row x = some (p.origin,p.value) := by
  have reach : p.start ≤ x ∧ x < p.stop := by simpa [Piece.contains] using here
  induction sorted with
  | nil => cases inside
  | cons _ _ others ih =>
    rw [heldCons]
    rcases List.mem_cons.mp inside with rfl | later
    · rw [if_pos reach]
    · have after := (others.filled p later).1
      rw [if_neg (by grind),ih later]

theorem apart (sorted : Row low row) (apart : Apart row) :
    ∀ p ∈ row, ∀ q ∈ row, p.stop = q.start → p.origin ≠ q.origin := by
  induction sorted with
  | nil => simp
  | @cons _ first rest _ filled others ih =>
    have later := ih apart.tail
    have behind := others.filled
    intro p inside q inside' touch
    rcases List.mem_cons.mp inside with rfl | further
    · rcases List.mem_cons.mp inside' with rfl | further'
      · grind
      · cases apart with
        | one => cases further'
        | @cons _ r _ apart' _ =>
          rcases List.mem_cons.mp further' with rfl | beyond
          · exact fun same => apart' ⟨touch,same⟩
          · -- The neighbour lies in between, and is not empty.
            have between := (List.pairwise_cons.mp others.ordered).1 q beyond
            have neighbour := behind r (by simp)
            grind
    · rcases List.mem_cons.mp inside' with rfl | further'
      · have after := behind p further
        grind
      · exact later p further q further' touch

end Row

theorem Sound.tidy {m : SpanMap α} (sound : m.Sound) : Tidy m.pieces where
  filled p inside := (sound.sorted.filled p inside).2
  ordered := sound.sorted.ordered
  within p inside := by
    have filled := (sound.sorted.filled p inside).2
    have each : ∀ x, p.contains x → p.origin.contains x := fun x here =>
      sound.within (sound.sorted.heldPiece inside here)
    have first := each p.start (by simp [Piece.contains,filled])
    have last : p.stop ≤ p.origin.stop := by
      refine Std.not_lt.mp fun beyond => ?_
      have outside := each (max p.start p.origin.stop) (by simp only [Piece.contains]; grind)
      grind
    grind
  values p inside q inside' same := by
    have here : ∀ p ∈ m.pieces, held m.pieces p.start = some (p.origin,p.value) := fun p inside =>
      sound.sorted.heldPiece inside (by simp [Piece.contains,(sound.sorted.filled p inside).2])
    exact sound.one (here p inside) (same ▸ here q inside')
  apart := sound.sorted.apart sound.apart

/-- Spans can be put into a map however they overlap. At each offset the map has the value that stands after the
spans there are taken in turn, so it has one wherever a span lies, and its pieces are tidy. -/
theorem overlapsStand (spans : List (Span × α)) (upright : ∀ e ∈ spans, ¬e.1.isInverted) :
    ∃ m, ofList spans = .ok m ∧
      (∀ x, m.at? x = (standing (spans.filter (·.1.contains x))).map Prod.snd) ∧
      (∀ x, (m.at? x).isSome ↔ ∃ e ∈ spans, e.1.contains x) ∧ Tidy m.pieces := by
  obtain ⟨m,made,sound,same⟩ := ofListSound spans upright
  have reads : ∀ x, m.at? x = (reading spans x).map Prod.snd := fun x => by rw [atHeld,same]
  refine ⟨m,made,fun x => by rw [reads,readingStanding],fun x => ?_,sound.tidy⟩
  rw [reads,Option.isSome_map,Option.isSome_iff_ne_none,ne_eq,readingNone]
  simp

def crossingSpans : List (Span × Char) := [(⟨0,6⟩,'A'),(⟨4,10⟩,'B'),(⟨2,8⟩,'C'),(⟨5,6⟩,'D')]

theorem crossingSpansStand :
    (∀ e ∈ crossingSpans, ¬e.1.isInverted) ∧
    ∃ m, ofList crossingSpans = .ok m ∧ Tidy m.pieces ∧
      m.at? 3 = some 'A' ∧ m.at? 5 = some 'D' ∧ m.at? 7 = some 'B' ∧ m.at? 10 = none := by
  have upright : ∀ e ∈ crossingSpans, ¬e.1.isInverted := by decide
  obtain ⟨m,made,value,_,tidy⟩ := overlapsStand crossingSpans upright
  refine ⟨upright,m,made,tidy,?_⟩
  simp only [value]
  decide

end CodeIndex.SpanMap
