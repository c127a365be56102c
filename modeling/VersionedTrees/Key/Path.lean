/-!
# Position keys

A position key names a place in an ordered tree. Each level of the tree adds one *label*: a run of
even components closed by a single odd one. Plain positions are odd numbers; an even component is a
caret that opens room between two siblings, so that `[2, 1]` stands between `[1]` and `[3]` and no
other key has to change. The root is the empty sequence.

The order of keys is the lexicographic order of their components, which is document order: an
ancestor comes before its descendants, and a subtree comes before the next sibling. `between`,
`after` and `before` find free sibling positions; components are 32-bit, so each of them can run
out of room.
-/

namespace VersionedTrees

/-- A component that ends a label. -/
def closesLabel (component : Int32) : Bool :=
  component.toInt % 2 == 1

/-- A place in an ordered tree, as the components of the labels from the root down. Keys that come
from outside need not end where a label ends; see `PathKey.Complete`. -/
structure PathKey where
  components : List Int32
deriving DecidableEq

/-- Why a position key could not be made. -/
inductive PathFault where
  /-- The components stop in the middle of a label. -/
  | unclosedLabel (components : List Int32)
  /-- The root has no siblings. -/
  | rootHasNoSiblings
  /-- The two keys do not share a parent. -/
  | notSiblings (left right : PathKey)
  /-- The first key does not come before the second. -/
  | notBefore (left right : PathKey)
  /-- A component would leave the 32-bit range. -/
  | overflow
  /-- A label that stops in its middle leaves nothing to count on from. -/
  | emptyLabel
deriving DecidableEq

namespace PathKey

/-- The key of a tree's root. -/
def root : PathKey := ⟨[]⟩

/-- A key whose components end where a label ends. -/
def Complete (key : PathKey) : Prop :=
  ∀ last, key.components.getLast? = some last → closesLabel last = true

instance (key : PathKey) : Decidable key.Complete :=
  match found : key.components.getLast? with
  | none => .isTrue fun last same => by simp [found] at same
  | some last =>
    if closes : closesLabel last = true then
      .isTrue fun other same => by
        have : last = other := by simpa [found] using same
        exact this ▸ closes
    else
      .isFalse fun complete => closes (complete last found)

/-- The key with the given components, if they end where a label ends. -/
def ofComponents (components : List Int32) : Except PathFault PathKey :=
  if (PathKey.mk components).Complete then .ok ⟨components⟩ else .error (.unclosedLabel components)

/-- The root is the empty path. -/
def isRoot (key : PathKey) : Bool :=
  key.components.isEmpty

/-- The number of levels below the root. -/
def depth (key : PathKey) : Nat :=
  key.components.countP closesLabel

/-- What precedes the last label of a sequence of components. -/
def beforeLastLabel (components : List Int32) : List Int32 :=
  (components.reverse.tail.dropWhile fun component => !closesLabel component).reverse

/-- The position one level up; the root has none. -/
def parent (key : PathKey) : Option PathKey :=
  if key.isRoot then none else some ⟨beforeLastLabel key.components⟩

/-- The components that set a key apart from its siblings. -/
def label (key : PathKey) : List Int32 :=
  key.components.drop (beforeLastLabel key.components).length

/-- The position a label names below a key. -/
def extend (key : PathKey) (label : List Int32) : PathKey :=
  ⟨key.components ++ label⟩

/-- The first position below a key. -/
def firstChild (key : PathKey) : PathKey :=
  key.extend [1]

/-- Whether the second key lies strictly below the first. -/
def isAncestorOf (key other : PathKey) : Bool :=
  decide (key.components.length < other.components.length) &&
    key.components.isPrefixOf other.components

/-- Whether the second key lies exactly one level below the first. -/
def isParentOf (key other : PathKey) : Bool :=
  other.parent == some key

instance : Ord PathKey where
  compare left right := compare left.components right.components

/-- A component moved by an offset, if it stays within 32 bits. -/
def shift (component : Int32) (offset : Int) : Except PathFault Int32 :=
  let moved := component.toInt + offset
  if -2147483648 ≤ moved ∧ moved < 2147483648 then .ok (Int32.ofInt moved) else .error .overflow

/-- The next odd number after the one that starts a label. -/
def labelAfter : List Int32 → Except PathFault (List Int32)
  | [] => .error .emptyLabel
  | first :: _ => do return [← shift first (if closesLabel first then 2 else 1)]

/-- The last odd number before the one that starts a label. -/
def labelBefore : List Int32 → Except PathFault (List Int32)
  | [] => .error .emptyLabel
  | first :: _ => do return [← shift first (if closesLabel first then -2 else -1)]

/-- A label between two whose first components differ. A gap of two or more has an odd number or a
caret in it; otherwise one of the two ends is a caret, and the room is behind it. -/
def labelInGap (low : Int32) (left : List Int32) (high : Int32) (right : List Int32) :
    Except PathFault (List Int32) := do
  let gap ← shift high (-low.toInt)
  if 2 ≤ gap.toInt then
    let candidate ← shift low (if closesLabel low then 2 else 1)
    if candidate < high then
      return [candidate]
    else
      return [← shift low 1, 1]
  else if closesLabel low then
    return high :: (← labelBefore right)
  else
    return low :: (← labelAfter left)

/-- A label between two labels. What they share at the front is kept. -/
def labelBetween : List Int32 → List Int32 → Except PathFault (List Int32)
  | low :: left, high :: right =>
    if low = high ∧ left ≠ [] ∧ right ≠ [] then do
      return low :: (← labelBetween left right)
    else
      labelInGap low left high right
  | _, _ => .error .emptyLabel

/-- The next free sibling position after a key. -/
def after (key : PathKey) : Except PathFault PathKey :=
  match key.parent with
  | none => .error .rootHasNoSiblings
  | some parent => do return parent.extend (← labelAfter key.label)

/-- The next free sibling position before a key. -/
def before (key : PathKey) : Except PathFault PathKey :=
  match key.parent with
  | none => .error .rootHasNoSiblings
  | some parent => do return parent.extend (← labelBefore key.label)

/-- A sibling position strictly between two siblings; neither of them changes. -/
def between (left right : PathKey) : Except PathFault PathKey :=
  match left.parent with
  | none => .error (.notSiblings left right)
  | some parent =>
    if right.parent ≠ some parent then
      .error (.notSiblings left right)
    else if compare left right ≠ .lt then
      .error (.notBefore left right)
    else do
      return parent.extend (← labelBetween left.label right.label)

/-- The labels of a sequence of components, each written with dots; what follows the last odd
component is left out. -/
def labelTexts : List Int32 → List String → List String
  | [], _ => []
  | component :: rest, pending =>
    let level := pending ++ [toString component.toInt]
    if closesLabel component then
      ".".intercalate level :: labelTexts rest []
    else
      labelTexts rest level

/-- A key as text: a slash before each label, or one slash for the root. -/
def text (key : PathKey) : String :=
  if key.isRoot then "/" else String.join ((labelTexts key.components []).map ("/" ++ ·))

end PathKey

instance : Std.TransOrd PathKey :=
  inferInstanceAs (Std.TransCmp (compareOn PathKey.components))

instance : Std.LawfulEqOrd PathKey where
  eq_of_compare {left right} same := by
    have equal : left.components = right.components :=
      Std.LawfulEqOrd.compare_eq_iff_eq.mp same
    cases left
    cases right
    exact congrArg PathKey.mk equal

end VersionedTrees
