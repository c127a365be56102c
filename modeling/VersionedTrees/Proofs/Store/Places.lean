import Mathlib.Data.List.TakeDrop
import VersionedTrees.Proofs.Key.Gaps
import VersionedTrees.Proofs.Store.Adding

/-!
# Places among siblings

Below a parent with a position, the children that this position is the parent of are a list. A place cuts
the list in two (`Store.Opens`), and an insertion at the place puts a new element into that gap
(`Store.Settles`). Only a place that the list does not have, a node elsewhere in the tree whose key is the
position for that gap, or a component next to the gap that leads out of the 32-bit range stands against
it. After any run of insertions the lists are those to which the elements have been put one after the
other (`Store.places_as_lists`).
-/

namespace VersionedTrees

/-! ## Lists with places -/

namespace Place

variable {place : Place} {list longer : List PathKey}

/-- A place cuts a list in two: in front of it, behind it, or next to its anchor. -/
inductive Cuts : Place → List PathKey → List PathKey → Prop where
  | first (back : List PathKey) : Cuts .first [] back
  | last (front : List PathKey) : Cuts .last front []
  | before (front : List PathKey) (anchor : PathKey) (back : List PathKey) :
      Cuts (.before (.path anchor)) front (anchor :: back)
  | after (front : List PathKey) (anchor : PathKey) (back : List PathKey) :
      Cuts (.after (.path anchor)) (front ++ [anchor]) back

/-- One list becomes another by an element that is put in a place. -/
def Puts (place : Place) (new : PathKey) (list longer : List PathKey) : Prop :=
  ∃ front back, place.Cuts front back ∧ list = front ++ back ∧ longer = front ++ new :: back

/-- The anchor of a place, if it has one, is in a list. -/
def Anchored (list : List PathKey) : Place → Prop
  | .first | .last => True
  | .before anchor | .after anchor => ∃ sibling ∈ list, anchor = .path sibling

/-- One list becomes another by elements that are put in places, one after the other. -/
inductive Fills : List (Place × PathKey) → List PathKey → List PathKey → Prop where
  | nil (list : List PathKey) : Fills [] list list
  | cons {place : Place} {new : PathKey} {more : List (Place × PathKey)}
      {list longer longest : List PathKey} (puts : place.Puts new list longer)
      (fills : Fills more longer longest) : Fills ((place, new) :: more) list longest

/-- Elements that are put first and elements that are put then. -/
theorem Fills.append {first second : List (Place × PathKey)} {longest : List PathKey}
    (fills : Fills first list longer) (more : Fills second longer longest) :
    Fills (first ++ second) list longest := by
  induction fills with
  | nil => exact more
  | cons puts _ inductionHypothesis => exact .cons puts (inductionHypothesis more)

end Place

namespace Store

variable {C : Type} {store next : Store C} {parent new : PathKey} {anchor : Key} {place : Place}
  {payload : Payload C} {siblings front back : List PathKey}

/-! ## The free position -/

/-- An anchor among siblings splits them, and any other is refused. -/
theorem splitSiblings_cases (siblings : List PathKey) (parent anchor : Key) :
    (∃ front found back, anchor = .path found ∧ siblings = front ++ found :: back ∧
      splitSiblings siblings parent anchor = .ok (front, found, back)) ∨
    (¬ ∃ sibling ∈ siblings, anchor = .path sibling) ∧
      ∃ error, splitSiblings siblings parent anchor = .error error ∧
        (error.kind = .invalidKey ∨ error.kind = .malformedTree) := by
  cases anchor with
  | number value =>
      refine .inr ⟨?_, _, rfl, .inl rfl⟩
      rintro ⟨_, _, same⟩
      cases same
  | text value =>
      refine .inr ⟨?_, _, rfl, .inl rfl⟩
      rintro ⟨_, _, same⟩
      cases same
  | path position =>
      rw [splitSiblings, Key.position?]
      dsimp only
      rw [List.span_eq_takeWhile_dropWhile]
      have whole := List.takeWhile_append_dropWhile (p := (· ≠ position)) (l := siblings)
      cases rest : siblings.dropWhile (· ≠ position) with
      | nil =>
          refine .inr ⟨?_, _, rfl, .inr rfl⟩
          rintro ⟨sibling, inside, same⟩
          cases same
          rw [List.dropWhile_eq_nil_iff] at rest
          simpa using rest position inside
      | cons found back =>
          have stopped := List.head?_dropWhile_not (· ≠ position) siblings
          rw [rest] at stopped
          have same : found = position := by simpa using stopped
          rw [rest] at whole
          exact .inl ⟨_, found, back, congrArg _ same.symm, whole.symm, rfl⟩

/-- The position for a place is the one in the gap to which the place cuts the siblings. A place without its
anchor has none. -/
theorem freePosition_cases (parent : PathKey) (siblings : List PathKey) (place : Place) :
    (∃ front back, place.Cuts front back ∧ siblings = front ++ back ∧
      freePosition (.path parent) parent siblings place =
        (PathKey.inGap parent front back).mapError .path) ∨
    ¬ place.Anchored siblings ∧
      ∃ error, freePosition (.path parent) parent siblings place = .error error ∧
        (error.kind = .invalidKey ∨ error.kind = .malformedTree) := by
  cases place with
  | first =>
      refine .inl ⟨[], siblings, .first siblings, rfl, ?_⟩
      cases siblings <;> rfl
  | last =>
      refine .inl ⟨siblings, [], .last siblings, (List.append_nil siblings).symm, ?_⟩
      rw [freePosition, positionAfter, PathKey.inGap]
      cases siblings.getLast? <;> rfl
  | before anchor =>
      rcases splitSiblings_cases siblings (.path parent) anchor with
        ⟨front, found, back, rfl, rfl, split⟩ | ⟨nowhere, error, refused, kind⟩
      · refine .inl ⟨front, found :: back, .before front found back, rfl, ?_⟩
        rw [freePosition, split, PathKey.inGap]
        change (positionAhead found front).mapError TreeError.path = _
        rw [positionAhead]
        cases front.getLast? <;> rfl
      · rw [freePosition, refused]
        exact .inr ⟨nowhere, error, rfl, kind⟩
  | after anchor =>
      rcases splitSiblings_cases siblings (.path parent) anchor with
        ⟨front, found, back, rfl, rfl, split⟩ | ⟨nowhere, error, refused, kind⟩
      · refine .inl ⟨front ++ [found], back, .after front found back,
          (List.append_assoc front [found] back).symm, ?_⟩
        rw [freePosition, split, PathKey.inGap, List.getLast?_concat]
        change (positionBehind found back).mapError TreeError.path = _
        cases back <;> rfl
      · rw [freePosition, refused]
        exact .inr ⟨nowhere, error, rfl, kind⟩

/-! ## The siblings of a store -/

/-- The children that a position is the parent of are siblings. -/
theorem mem_siblings_iff (wellFormed : store.WellFormed) : new ∈ store.siblings (.path parent) parent ↔
    store.layout.IsChild (.path new) (.path parent) ∧ new.parent = some parent := by
  rw [siblings_eq, List.mem_filter, List.mem_filterMap, PathKey.isParentOf, beq_iff_eq]
  refine and_congr_left fun _ => ?_
  constructor
  · rintro ⟨child, inside, same⟩
    cases child with
    | path position =>
        obtain rfl := Option.some.inj same
        exact (wellFormed.listed.mem_iff _ _).mp inside
    | number value => cases same
    | text value => cases same
  · intro isChild
    exact ⟨.path new, (wellFormed.listed.mem_iff _ _).mpr isChild, rfl⟩

/-- Siblings are listed in order. -/
theorem inOrder_siblings (wellFormed : store.WellFormed) (parent : PathKey) :
    PathKey.InOrder (store.siblings (.path parent) parent) := by
  rw [siblings_eq]
  refine List.Pairwise.filter _ (List.Pairwise.filterMap _ ?_ (wellFormed.listed.ordered (.path parent)))
  intro left right before position found position' found'
  cases left <;> cases found
  cases right <;> cases found'
  exact before

theorem siblings_of_wellFormed (wellFormed : store.WellFormed) (complete : store.CompleteKeys)
    (parent : PathKey) : PathKey.Siblings parent (store.siblings (.path parent) parent) where
  inOrder := inOrder_siblings wellFormed parent
  complete sibling inside :=
    complete (.path sibling) ((mem_siblings_iff wellFormed).mp inside).1.holds
  below _ inside := ((mem_siblings_iff wellFormed).mp inside).2

/-- Siblings with a new one among them are the siblings of the store to which it is added. -/
theorem siblings_of_becomes (wellFormed : store.WellFormed)
    (becomes : store.Becomes (store.layout.place (.path new) ⟨some (.path parent), payload⟩) next)
    (whole : store.siblings (.path parent) parent = front ++ back)
    (longer : PathKey.Siblings parent (front ++ new :: back)) :
    next.siblings (.path parent) parent = front ++ new :: back := by
  refine eq_of_ordered (inOrder_siblings becomes.wellFormed parent) longer.inOrder fun sibling => ?_
  rw [mem_siblings_iff becomes.wellFormed, becomes.layout_eq, Layout.isChild_place_iff, List.mem_append,
    List.mem_cons, or_left_comm, ← List.mem_append, ← whole, mem_siblings_iff wellFormed]
  by_cases same : new = sibling
  · subst same
    have below := longer.below new (List.mem_append_right _ List.mem_cons_self)
    simp [below]
  · have different : Key.path new ≠ .path sibling := fun equal => same (Key.path.inj equal)
    rw [if_neg different, or_iff_right (Ne.symm same)]

/-- The siblings below another parent stay as they are when a node is added. -/
theorem Adds.siblings_eq {key : Key} {position : PathKey}
    (adds : store.Adds (.path parent) key payload next) (different : position ≠ parent) :
    next.siblings (.path position) position = store.siblings (.path position) position := by
  have notParent : Key.path position ≠ .path parent := fun same => different (Key.path.inj same)
  by_cases isKey : Key.path position = key
  · -- a new node has no children, and there were none under its key
    have absent := layout_eq_none_iff.mp (contains_eq_false_iff.mp adds.absent)
    rw [siblings, siblings, isKey, adds.added, absent]
    rfl
  · rw [siblings, siblings, adds.others _ isKey notParent]

/-! ## Insertions at a place -/

/-- A new node with a payload, at a place among the children of a node that has a position. -/
structure Placing (C : Type) where
  parent : PathKey
  place : Place
  payload : Payload C

/-- Inserts a new node at a place. -/
def insertAt (store : Store C) (placing : Placing C) : Except TreeError Key × Store C :=
  store.insert (some (.path placing.parent)) (.automatic placing.place) placing.payload

/-- The place of a new node cuts the siblings below its parent in two. -/
structure Opens (store : Store C) (placing : Placing C) (front back : List PathKey) : Prop where
  cuts : placing.place.Cuts front back
  whole : store.siblings (.path placing.parent) placing.parent = front ++ back

/-- How an insertion at a place ends. The new element gets the position in the gap to which the place cuts the
siblings, it goes there, and the rest of the tree stays as it is. Or nothing changes: the parent or the anchor
is missing, that very position is the key of a node that stands elsewhere, or there is none in that gap since a
component next to it is too large. -/
inductive Settles (store : Store C) (placing : Placing C) : Except TreeError Key × Store C → Prop where
  | placed {front back : List PathKey} {new : PathKey} {next : Store C}
      (opens : store.Opens placing front back) (free : PathKey.inGap placing.parent front back = .ok new)
      (fits : PathKey.Siblings placing.parent (front ++ new :: back))
      (adds : store.Adds (.path placing.parent) (.path new) placing.payload next)
      (became : next.siblings (.path placing.parent) placing.parent = front ++ new :: back) :
      Settles store placing (.ok (.path new), next)
  | orphaned (absent : store.contains (.path placing.parent) = false) :
      Settles store placing (.error (.nodeNotFound (.path placing.parent)), store)
  | unanchored {error : TreeError} (kind : error.kind = .invalidKey ∨ error.kind = .malformedTree)
      (nowhere : ¬ placing.place.Anchored (store.siblings (.path placing.parent) placing.parent)) :
      Settles store placing (.error error, store)
  | taken {front back : List PathKey} {new : PathKey} (opens : store.Opens placing front back)
      (free : PathKey.inGap placing.parent front back = .ok new)
      (fits : PathKey.Siblings placing.parent (front ++ new :: back))
      (there : store.contains (.path new) = true)
      (elsewhere : new ∉ store.siblings (.path placing.parent) placing.parent) :
      Settles store placing (.error (.shape (.positionTaken (.path new))), store)
  | overflow {front back : List PathKey} {component : Int32} (opens : store.Opens placing front back)
      (refused : PathKey.inGap placing.parent front back = .error .overflow) (large : IsLarge component)
      (inside : component ∈ (PathKey.nextTo front back).flatMap PathKey.label) :
      Settles store placing (.error (.path .overflow), store)

/-- The position in the gap to which the place cuts the siblings is taken, or the new element is put there. -/
theorem WellFormed.settles_of_position (wellFormed : store.WellFormed)
    (holds : store.layout.Holds (.path parent)) (opens : store.Opens ⟨parent, place, payload⟩ front back)
    (free : PathKey.inGap parent front back = .ok new)
    (fits : PathKey.Siblings parent (front ++ new :: back)) :
    store.Settles ⟨parent, place, payload⟩
      (if store.contains (.path new) then (.error (.shape (.positionTaken (.path new))), store)
      else match store.putBelow (.path parent) (.path new) payload with
        | .error error => (.error error, store)
        | .ok next => (.ok (.path new), next)) := by
  by_cases there : store.contains (.path new) = true
  · rw [if_pos there]
    refine .taken opens free fits there (opens.whole ▸ fun inside => ?_)
    -- the new position would be in a list in order twice
    have once := nodup_of_ordered fits.inOrder
    exact (List.nodup_middle.mp once).notMem inside
  · have absent := eq_false_of_ne_true there
    obtain ⟨next, put, becomes⟩ :=
      wellFormed.putBelow_of_new holds (contains_eq_false_iff.mp absent) payload
    rw [if_neg there, put]
    exact .placed opens free fits (adds_of_putBelow absent holds put)
      (siblings_of_becomes wellFormed becomes opens.whole fits)

/-- Every insertion at a place below a node with a position settles. -/
theorem WellFormed.settles_insertAt (wellFormed : store.WellFormed) (complete : store.CompleteKeys)
    (placing : Placing C) : store.Settles placing (store.insertAt placing) := by
  obtain ⟨parent, place, payload⟩ := placing
  rw [insertAt]
  by_cases holds : store.layout.Holds (.path parent)
  case neg =>
    have absent := Layout.not_holds_iff.mp holds
    rw [insert_of_absent absent]
    exact .orphaned (contains_eq_false_iff.mpr absent)
  case pos =>
    rw [insert_automatic holds rfl]
    rcases freePosition_cases parent (store.siblings (.path parent) parent) place with
      ⟨front, back, cuts, whole, free⟩ | ⟨nowhere, error, refused, kind⟩
    · have siblings := siblings_of_wellFormed wellFormed complete parent
      rw [whole] at siblings
      have finds := PathKey.finds_inGap (complete (.path parent) holds) siblings
      have opens : store.Opens ⟨parent, place, payload⟩ front back := ⟨cuts, whole⟩
      rw [free]
      cases search : PathKey.inGap parent front back <;> rw [search] at finds <;> cases finds
      case ok.found fits => exact wellFormed.settles_of_position holds opens search fits
      case error.overflow inside large => exact .overflow opens search large inside
    · rw [refused]
      exact .unanchored kind nowhere

/-! ## Runs of insertions -/

variable {placing : Placing C} {told : Except TreeError Key}

/-- Reachable stores are closed under insertions at a place. -/
theorem Reachable.insertAt (reachable : store.Reachable) (placing : Placing C) :
    (store.insertAt placing).2.Reachable := by
  have next := reachable.step
    (.insert (some (.path placing.parent)) (.automatic placing.place) placing.payload)
  rwa [StoreEdit.edit, Edit.effect_map] at next

theorem Settles.completeKeys (settles : store.Settles placing (told, next))
    (complete : store.CompleteKeys) : next.CompleteKeys := by
  cases settles with
  | placed _ _ fits adds _ =>
      intro key holds
      rcases adds.holds_iff.mp holds with rfl | before
      · exact fits.complete _ (List.mem_append_right _ List.mem_cons_self)
      · exact complete key before
  | orphaned | unanchored | taken | overflow => exact complete

theorem Settles.layout_eq {key : Key} {standing : Standing C} (settles : store.Settles placing (told, next))
    (found : store.layout key = some standing) : next.layout key = some standing := by
  cases settles with
  | placed _ _ _ adds _ => exact adds.layout_eq found
  | orphaned | unanchored | taken | overflow => exact found

/-- The element that an insertion has put among the siblings below a parent, with its place. -/
def putBy (position : PathKey) (placing : Placing C) : Except TreeError Key → List (Place × PathKey)
  | .ok (.path new) => if placing.parent = position then [(placing.place, new)] else []
  | _ => []

/-- The elements that a run of insertions puts among the siblings below a parent, with their places. -/
def placedBelow (position : PathKey) : Store C → List (Placing C) → List (Place × PathKey)
  | _, [] => []
  | store, placing :: more =>
      putBy position placing (store.insertAt placing).1 ++
        placedBelow position (store.insertAt placing).2 more

/-- The store after a run of insertions, however each of them ends. -/
def afterPlacings (store : Store C) (placings : List (Placing C)) : Store C :=
  placings.foldl (fun store placing => (store.insertAt placing).2) store

/-- An insertion puts its element among the siblings below its parent, and leaves the other lists alone. -/
theorem Settles.fills (settles : store.Settles placing (told, next)) (position : PathKey) :
    Place.Fills (putBy position placing told) (store.siblings (.path position) position)
      (next.siblings (.path position) position) := by
  cases settles with
  | placed opens _ _ adds became =>
      by_cases same : placing.parent = position
      · subst same
        rw [putBy, if_pos rfl]
        exact .cons ⟨_, _, opens.cuts, opens.whole, became⟩ (.nil _)
      · rw [putBy, if_neg same, adds.siblings_eq (Ne.symm same)]
        exact .nil _
  | orphaned | unanchored | taken | overflow => exact .nil _

/-- An insertion adds no other key than that of its element. -/
theorem Settles.holds_cases {key : Key} (settles : store.Settles placing (told, next))
    (holds : next.layout.Holds key) : store.layout.Holds key ∨
      ∃ position place new, (place, new) ∈ putBy position placing told ∧ key = .path new := by
  cases settles with
  | @placed _ _ new _ _ _ _ adds _ =>
      rcases adds.holds_iff.mp holds with rfl | before
      · refine .inr ⟨placing.parent, placing.place, new, ?_, rfl⟩
        rw [putBy, if_pos rfl]
        exact List.mem_singleton_self _
      · exact .inl before
  | orphaned | unanchored | taken | overflow => exact .inl holds

/-- What a run of insertions at places does: each list of siblings has got its elements one after the other in
their places, what stood in the store still stands there, and there are no other keys than those and the new
ones. -/
structure Filled (store : Store C) (placings : List (Placing C)) (reached : Store C) : Prop where
  reachable : reached.Reachable
  complete : reached.CompleteKeys
  fills : ∀ position, Place.Fills (store.placedBelow position placings)
    (store.siblings (.path position) position) (reached.siblings (.path position) position)
  kept : ∀ key standing, store.layout key = some standing → reached.layout key = some standing
  keys : ∀ key, reached.layout.Holds key → store.layout.Holds key ∨
    ∃ position place new, (place, new) ∈ store.placedBelow position placings ∧ key = .path new

/-- After any run of insertions at places, the siblings below each parent are the list to which the elements
have been put in these places, all that stood in the store still stands, and every further insertion
settles. -/
theorem places_as_lists (reachable : store.Reachable) (complete : store.CompleteKeys)
    (placings : List (Placing C)) :
    store.Filled placings (store.afterPlacings placings) ∧
      ∀ placing, (store.afterPlacings placings).Settles placing
        ((store.afterPlacings placings).insertAt placing) := by
  induction placings generalizing store with
  | nil =>
      exact ⟨⟨reachable, complete, fun _ => .nil _, fun _ _ found => found, fun _ holds => .inl holds⟩,
        reachable.wellFormed.settles_insertAt complete⟩
  | cons placing more inductionHypothesis =>
      have settles := reachable.wellFormed.settles_insertAt complete placing
      obtain ⟨filled, further⟩ :=
        inductionHypothesis (reachable.insertAt placing) (settles.completeKeys complete)
      refine ⟨⟨filled.reachable, filled.complete, fun position => ?_, fun key standing found => ?_,
        fun key holds => ?_⟩, further⟩
      · exact (settles.fills position).append (filled.fills position)
      · exact filled.kept key standing (settles.layout_eq found)
      · rcases filled.keys key holds with middle | ⟨position, place, new, inside, same⟩
        · rcases settles.holds_cases middle with before | ⟨position, place, new, inside, same⟩
          · exact .inl before
          · exact .inr ⟨position, place, new, List.mem_append_left _ inside, same⟩
        · exact .inr ⟨position, place, new, List.mem_append_right _ inside, same⟩

/-- Below a root, two elements are put in the last place, one between them, and one before that. An anchor that
is not there is refused. Where the first position stands below another node, no element can be put first. -/
theorem places_as_lists_between :
    let root : StoreEdit String := .insert none (.automatic .first) (.content "root")
    let store : Store String := .ofEdits ⟨1⟩ [root]
    let placings : List (Placing String) :=
      [⟨.root, .last, .content "a"⟩, ⟨.root, .last, .content "d"⟩,
        ⟨.root, .after (.path ⟨[1]⟩), .content "c"⟩, ⟨.root, .before (.path ⟨[2, 1]⟩), .content "b"⟩]
    let further : Placing String := ⟨.root, .before (.path ⟨[5]⟩), .content "e"⟩
    let reached := store.afterPlacings placings
    let crowded : Store String := .ofEdits ⟨1⟩
      [root, .insert (some .root) (.exactly (.number 5)) (.content "shelf"),
        .insert (some (.number 5)) (.exactly (.path ⟨[1]⟩)) (.content "kept")]
    let first : Placing String := ⟨.root, .first, .content "e"⟩
    store.Reachable ∧ store.CompleteKeys ∧ store.Filled placings reached ∧
      reached.siblings .root .root = [⟨[1]⟩, ⟨[2, -1]⟩, ⟨[2, 1]⟩, ⟨[3]⟩] ∧
      store.placedBelow .root placings = [(.last, ⟨[1]⟩), (.last, ⟨[3]⟩),
        (.after (.path ⟨[1]⟩), ⟨[2, 1]⟩), (.before (.path ⟨[2, 1]⟩), ⟨[2, -1]⟩)] ∧
      reached.Settles further (reached.insertAt further) ∧
      (reached.insertAt further).1 = .error (.shape (.notAChild (.path ⟨[5]⟩) .root)) ∧
      crowded.Settles first (crowded.insertAt first) ∧
      (crowded.insertAt first).1 = .error (.shape (.positionTaken (.path ⟨[1]⟩))) := by
  intro root store placings further reached crowded first
  have checked : ∀ key ∈ store.keys, key.Complete := by decide +kernel
  have complete : store.CompleteKeys := fun key holds => checked key (mem_keys_iff.mpr holds)
  have checkedCrowded : ∀ key ∈ crowded.keys, key.Complete := by decide +kernel
  have completeCrowded : crowded.CompleteKeys :=
    fun key holds => checkedCrowded key (mem_keys_iff.mpr holds)
  obtain ⟨filled, settles⟩ := places_as_lists (reachable_ofEdits _ _) complete placings
  obtain ⟨-, settlesCrowded⟩ := places_as_lists (reachable_ofEdits _ _) completeCrowded []
  exact ⟨reachable_ofEdits _ _, complete, filled, by decide +kernel, by decide +kernel, settles further,
    by decide +kernel, settlesCrowded first, by decide +kernel⟩

end Store

end VersionedTrees
