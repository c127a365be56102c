import Mathlib.Data.List.Basic
import VersionedTrees.Proofs.Key.Neighbours

/-!
# Gaps among siblings

Siblings in order that are cut in two leave a gap: in front of all of them, behind all of them, or between
two of them. `PathKey.inGap` is the position that goes there. It keeps the order, whatever labels the
siblings next to the gap have (`PathKey.finds_inGap`).
-/

namespace VersionedTrees

namespace PathKey

variable {parent key : PathKey} {siblings front back : List PathKey}

/-- Positions are listed in order. -/
def InOrder (siblings : List PathKey) : Prop :=
  siblings.Pairwise fun left right => compare left right = .lt

/-- Complete positions below one parent, in order. -/
structure Siblings (parent : PathKey) (siblings : List PathKey) : Prop where
  inOrder : InOrder siblings
  complete : ∀ sibling ∈ siblings, sibling.Complete
  below : ∀ sibling ∈ siblings, sibling.parent = some parent

/-- The position in the gap between siblings in front of it and siblings behind it. -/
def inGap (parent : PathKey) (front back : List PathKey) : Except PathFault PathKey :=
  match front.getLast?, back.head? with
  | none, none => .ok parent.firstChild
  | none, some next => next.before
  | some previous, none => previous.after
  | some previous, some next => between previous next

/-- The siblings next to a gap, of which there are two at most. -/
def nextTo (front back : List PathKey) : List PathKey :=
  front.getLast?.toList ++ back.head?.toList

/-- Positions that are in order stay so with one in a gap that comes after the last in front of it and
before the first behind it. -/
theorem InOrder.insert (inOrder : InOrder (front ++ back))
    (above : ∀ previous, front.getLast? = some previous → compare previous key = .lt)
    (below : ∀ next, back.head? = some next → compare key next = .lt) :
    InOrder (front ++ key :: back) := by
  obtain ⟨inFront, inBack, apart⟩ := List.pairwise_append.mp inOrder
  have behind : ∀ next ∈ back, compare key next = .lt := by
    cases back with
    | nil => exact fun _ impossible => absurd impossible List.not_mem_nil
    | cons first rest =>
        have first_lt := below first rfl
        rw [List.forall_mem_cons]
        exact ⟨first_lt, fun next inside =>
          Std.TransCmp.lt_trans first_lt ((List.pairwise_cons.mp inBack).1 next inside)⟩
  have ahead : ∀ previous ∈ front, compare previous key = .lt := by
    rcases List.eq_nil_or_concat' front with rfl | ⟨rest, last, rfl⟩
    · exact fun _ impossible => absurd impossible List.not_mem_nil
    · have last_lt := above last List.getLast?_concat
      intro previous inside
      rcases List.mem_append.mp inside with inside | inside
      · exact Std.TransCmp.lt_trans
          ((List.pairwise_append.mp inFront).2.2 previous inside last List.mem_cons_self) last_lt
      · obtain rfl := List.mem_singleton.mp inside
        exact last_lt
  refine List.pairwise_append.mpr ⟨inFront, List.pairwise_cons.mpr ⟨behind, inBack⟩, ?_⟩
  intro previous inside next inside'
  rcases List.mem_cons.mp inside' with rfl | inside'
  · exact ahead previous inside
  · exact apart previous inside next inside'

theorem isLabel_one : IsLabel [1] :=
  .closing (by decide)

/-- With a position in a gap, siblings are siblings again. -/
theorem Siblings.insert (siblings : Siblings parent (front ++ back)) (complete : key.Complete)
    (isBelow : key.parent = some parent)
    (above : ∀ previous, front.getLast? = some previous → compare previous key = .lt)
    (below : ∀ next, back.head? = some next → compare key next = .lt) :
    Siblings parent (front ++ key :: back) where
  inOrder := siblings.inOrder.insert above below
  complete := by
    intro sibling inside
    rw [List.mem_append, List.mem_cons, or_left_comm, ← List.mem_append] at inside
    rcases inside with rfl | inside
    · exact complete
    · exact siblings.complete sibling inside
  below := by
    intro sibling inside
    rw [List.mem_append, List.mem_cons, or_left_comm, ← List.mem_append] at inside
    rcases inside with rfl | inside
    · exact isBelow
    · exact siblings.below sibling inside

/-- In every gap among siblings there is a position, unless a component next to the gap is too large. -/
theorem finds_inGap (complete : parent.Complete) (siblings : Siblings parent (front ++ back)) :
    Finds ((nextTo front back).flatMap label) (fun key => Siblings parent (front ++ key :: back))
      (inGap parent front back) := by
  have labels : ∀ sibling ∈ nextTo front back, sibling.label ⊆ (nextTo front back).flatMap label :=
    fun sibling inside _ component => List.mem_flatMap.mpr ⟨sibling, inside, component⟩
  have ahead : ∀ previous, front.getLast? = some previous → previous ∈ nextTo front back :=
    fun previous last => List.mem_append_left _ (Option.mem_toList.mpr last)
  have behind : ∀ next, back.head? = some next → next ∈ nextTo front back :=
    fun next first => List.mem_append_right _ (Option.mem_toList.mpr first)
  cases last : front.getLast? with
  | none =>
      cases first : back.head? with
      | none =>
          rw [inGap, last, first]
          refine .found (siblings.insert (complete_extend parent isLabel_one)
            (complete.parent_extend isLabel_one) ?_ ?_)
          · rw [last]
            exact nofun
          · rw [first]
            exact nofun
      | some next =>
          have inside : next ∈ front ++ back := List.mem_append_right _ (List.mem_of_head? first)
          have isBelow := siblings.below next inside
          rw [inGap, last, first]
          refine ((finds_before (siblings.complete next inside) isBelow).grow
            (labels next (behind next first))).weaken fun key precedes => ?_
          refine siblings.insert precedes.complete (precedes.sameParent.trans isBelow) ?_ ?_
          · rw [last]
            exact nofun
          · rintro other same
            obtain rfl := Option.some.inj (first.symm.trans same)
            exact precedes.below
  | some previous =>
      have inside : previous ∈ front ++ back := List.mem_append_left _ (List.mem_of_getLast? last)
      have isBelow := siblings.below previous inside
      cases first : back.head? with
      | none =>
          rw [inGap, last, first]
          refine ((finds_after (siblings.complete previous inside) isBelow).grow
            (labels previous (ahead previous last))).weaken fun key follows => ?_
          refine siblings.insert follows.complete (follows.sameParent.trans isBelow) ?_ ?_
          · rintro other same
            obtain rfl := Option.some.inj (last.symm.trans same)
            exact follows.above
          · rw [first]
            exact nofun
      | some next =>
          have inside' : next ∈ front ++ back := List.mem_append_right _ (List.mem_of_head? first)
          have ordered : compare previous next = .lt := (List.pairwise_append.mp siblings.inOrder).2.2
            previous (List.mem_of_getLast? last) next (List.mem_of_head? first)
          rw [inGap, last, first]
          refine ((finds_between (siblings.complete previous inside) (siblings.complete next inside')
            isBelow (siblings.below next inside') ordered).grow
              (List.append_subset.mpr
                ⟨labels previous (ahead previous last), labels next (behind next first)⟩)).weaken
                fun key lies => ?_
          refine siblings.insert lies.complete (lies.sameParent.trans isBelow) ?_ ?_
          · rintro other same
            obtain rfl := Option.some.inj (last.symm.trans same)
            exact lies.above
          · rintro other same
            obtain rfl := Option.some.inj (first.symm.trans same)
            exact lies.below

end PathKey

end VersionedTrees
