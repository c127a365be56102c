import Mathlib.Data.List.Basic
import VersionedTrees.Proofs.Key.Labels

/-!
# Levels

The levels of a position are not stored. They come from the parity of its components, while ancestors are
told by prefixes and the order of keys is that of their components. On complete keys the three agree
(`PathKey.Complete.levelsAgree`): a proper prefix is what steps to the parent lead to, as many steps lead to
the root as there are odd components, and an ancestor comes before its descendants, with nothing of another
subtree between them.
-/

namespace VersionedTrees

section Grammar

variable {label other : List Int32}

/-- A label has one odd component. -/
theorem IsLabel.countP_closesLabel (isLabel : IsLabel label) : label.countP closesLabel = 1 := by
  induction isLabel with
  | closing closes => rw [List.countP_singleton, if_pos closes]
  | caret opens _ inductionHypothesis =>
      rw [List.countP_cons_of_neg (ne_true_of_eq_false opens), inductionHypothesis]

theorem IsLabel.ne_nil (isLabel : IsLabel label) : label ≠ [] := by
  rintro rfl
  cases isLabel

/-- No label is the beginning of another one. -/
theorem IsLabel.eq_of_isPrefix (isLabel : IsLabel label) (isLabel' : IsLabel other)
    (starts : label <+: other) : label = other := by
  induction isLabel generalizing other with
  | closing closes =>
      cases isLabel' with
      | closing _ =>
          obtain ⟨rfl, -⟩ := List.cons_prefix_cons.mp starts
          rfl
      | caret opens _ =>
          obtain ⟨rfl, -⟩ := List.cons_prefix_cons.mp starts
          exact nomatch closes.symm.trans opens
  | caret opens _ inductionHypothesis =>
      cases isLabel' with
      | closing closes =>
          obtain ⟨rfl, -⟩ := List.cons_prefix_cons.mp starts
          exact nomatch closes.symm.trans opens
      | caret _ isLabel' =>
          obtain ⟨rfl, startsBelow⟩ := List.cons_prefix_cons.mp starts
          rw [inductionHypothesis isLabel' startsBelow]

end Grammar

namespace PathKey

variable {key other parent first second : PathKey} {label : List Int32}

/-! ## Steps to the parent -/

/-- What so many steps to the parent lead to. There is no step from the root. -/
def ancestor? : Nat → PathKey → Option PathKey
  | 0, key => some key
  | steps + 1, key => key.parent.bind (ancestor? steps)

theorem ancestor?_extend (complete : parent.Complete) (isLabel : IsLabel label) (steps : Nat) :
    (parent.extend label).ancestor? (steps + 1) = parent.ancestor? steps := by
  rw [ancestor?, complete.parent_extend isLabel, Option.bind_some]

/-- What holds of the root and goes on to every label below a complete key holds of all complete keys. -/
@[elab_as_elim] theorem Complete.induction {motive : PathKey → Prop} (complete : key.Complete)
    (root : motive root)
    (extend : ∀ parent label, parent.Complete → IsLabel label → motive parent →
      motive (parent.extend label)) : motive key := by
  induction size_eq : key.components.length using Nat.strong_induction_on generalizing key with
  | _ size inductionHypothesis =>
      by_cases isRoot : key = .root
      · exact isRoot ▸ root
      · obtain ⟨parent, label, complete', isLabel, rfl⟩ := complete.exists_extend isRoot
        have shorter : parent.components.length < size := by
          rw [← size_eq, PathKey.extend, List.length_append]
          exact Nat.lt_add_of_pos_right (List.length_pos_iff.mpr isLabel.ne_nil)
        exact extend parent label complete' isLabel (inductionHypothesis _ shorter complete' rfl)

theorem extend_ne_root (parent : PathKey) (isLabel : IsLabel label) : parent.extend label ≠ root := by
  intro same
  rw [extend, root, PathKey.mk.injEq, List.append_eq_nil_iff] at same
  exact isLabel.ne_nil same.2

/-- There are as many steps to the root as there are levels below it. -/
theorem Complete.ancestor?_eq_root_iff (complete : key.Complete) (steps : Nat) :
    key.ancestor? steps = some root ↔ steps = key.depth := by
  revert steps
  refine complete.induction ?root ?extend
  case root =>
    intro steps
    cases steps with
    | zero => exact iff_of_true rfl rfl
    | succ steps =>
        refine iff_of_false (fun same => ?_) (Nat.succ_ne_zero steps)
        cases same
  case extend =>
    intro parent label complete isLabel inductionHypothesis steps
    have deeper : (parent.extend label).depth = parent.depth + 1 := by
      rw [depth, extend, List.countP_append, isLabel.countP_closesLabel, depth]
    rw [deeper]
    cases steps with
    | zero =>
        exact iff_of_false (fun same => extend_ne_root parent isLabel (Option.some.inj same))
          (Nat.succ_ne_zero _).symm
    | succ steps => rw [ancestor?_extend complete isLabel, inductionHypothesis, Nat.add_right_cancel_iff]

/-! ## Prefixes -/

theorem eq_of_components_eq (same : key.components = other.components) : key = other := by
  cases key
  cases other
  exact congrArg mk same

/-- A key is an ancestor of those that go on behind it. -/
theorem isAncestorOf_iff : key.isAncestorOf other = true ↔
    ∃ rest, rest ≠ [] ∧ other.components = key.components ++ rest := by
  rw [isAncestorOf, Bool.and_eq_true, decide_eq_true_iff, List.isPrefixOf_iff_prefix]
  constructor
  · rintro ⟨longer, rest, same⟩
    refine ⟨rest, ?_, same.symm⟩
    rintro rfl
    rw [← same, List.append_nil] at longer
    exact Nat.lt_irrefl _ longer
  · rintro ⟨rest, nonempty, same⟩
    rw [same, List.length_append]
    exact ⟨Nat.lt_add_of_pos_right (List.length_pos_iff.mpr nonempty), List.prefix_append _ _⟩

/-- A key at or below another begins with it. -/
theorem exists_append_of_atOrBelow (below : first = key ∨ key.isAncestorOf first = true) :
    ∃ rest, first.components = key.components ++ rest := by
  rcases below with rfl | below
  · exact ⟨[], (List.append_nil _).symm⟩
  · obtain ⟨rest, -, same⟩ := isAncestorOf_iff.mp below
    exact ⟨rest, same⟩

/-- A complete key does not end within a label. -/
theorem Complete.not_within_label (complete : key.Complete) (isLabel : IsLabel label)
    {front rest : List Int32} (ends : key.components = parent.components ++ front) (nonempty : front ≠ [])
    (cut : label = front ++ rest) : rest = [] := by
  obtain ⟨carets, last, rfl, -, opens⟩ := isLabel.exists_append
  rcases List.eq_nil_or_concat' rest with rfl | ⟨rest, final, rfl⟩
  · rfl
  · -- in front of the end of the label there are carets only
    obtain ⟨rfl, -⟩ := List.append_inj' (cut.trans (List.append_assoc front rest [final]).symm) rfl
    have inside := List.getLast_mem nonempty
    have closes := complete (front.getLast nonempty) (by
      rw [ends, List.getLast?_append_of_ne_nil _ nonempty, List.getLast?_eq_some_getLast nonempty])
    exact nomatch closes.symm.trans (opens _ (List.mem_append_left _ inside))

/-- The ancestors of a label below a key are that key and its ancestors. -/
theorem Complete.isAncestorOf_extend_iff (complete : key.Complete) (isLabel : IsLabel label) :
    key.isAncestorOf (parent.extend label) = true ↔ key = parent ∨ key.isAncestorOf parent = true := by
  constructor
  · intro above
    obtain ⟨rest, nonempty, same⟩ := isAncestorOf_iff.mp above
    rcases List.append_eq_append_iff.mp same with ⟨front, ends, cut⟩ | ⟨more, same, -⟩
    · by_cases nothing : front = []
      · subst nothing
        rw [List.append_nil] at ends
        exact .inl (eq_of_components_eq ends)
      · exact absurd (complete.not_within_label isLabel ends nothing cut) nonempty
    · by_cases nothing : more = []
      · subst nothing
        rw [List.append_nil] at same
        exact .inl (eq_of_components_eq same.symm)
      · exact .inr (isAncestorOf_iff.mpr ⟨more, nothing, same⟩)
  · rintro (rfl | above)
    · exact isAncestorOf_iff.mpr ⟨label, isLabel.ne_nil, rfl⟩
    · obtain ⟨rest, nonempty, same⟩ := isAncestorOf_iff.mp above
      refine isAncestorOf_iff.mpr ⟨rest ++ label, ?_, ?_⟩
      · exact List.append_ne_nil_of_left_ne_nil nonempty label
      · rw [extend, same, List.append_assoc]

/-- An ancestor is what one or more steps to the parent lead to. -/
theorem Complete.isAncestorOf_iff_ancestor? (complete : key.Complete) (complete' : other.Complete) :
    key.isAncestorOf other = true ↔ ∃ steps, other.ancestor? (steps + 1) = some key := by
  refine complete'.induction ?root ?extend
  case root =>
    refine iff_of_false (fun above => ?_) nofun
    obtain ⟨rest, nonempty, same⟩ := isAncestorOf_iff.mp above
    exact nonempty (List.append_eq_nil_iff.mp same.symm).2
  case extend =>
    intro parent label complete' isLabel inductionHypothesis
    rw [complete.isAncestorOf_extend_iff isLabel, inductionHypothesis]
    simp only [ancestor?_extend complete' isLabel]
    constructor
    · rintro (rfl | ⟨steps, found⟩)
      · exact ⟨0, rfl⟩
      · exact ⟨steps + 1, found⟩
    · rintro ⟨_ | steps, found⟩
      · exact .inl (Option.some.inj found).symm
      · exact .inr ⟨steps, found⟩

/-! ## Order -/

/-- An ancestor comes before its descendants. -/
theorem compare_of_isAncestorOf (above : key.isAncestorOf other = true) : compare key other = .lt := by
  obtain ⟨rest, nonempty, same⟩ := isAncestorOf_iff.mp above
  obtain ⟨component, rest, rfl⟩ := List.exists_cons_of_ne_nil nonempty
  change compare key.components other.components = .lt
  have behind := compare_append key.components [] (component :: rest)
  rw [List.append_nil, ← same] at behind
  exact behind

/-- A sequence of components comes before another one that does not begin with it at the first component in
which the two differ. -/
theorem exists_difference {left right : List Int32} (ordered : compare left right = .lt)
    (apart : ¬ left <+: right) : ∃ shared low high left' right',
      left = shared ++ low :: left' ∧ right = shared ++ high :: right' ∧ low.toInt < high.toInt := by
  induction left generalizing right with
  | nil => exact absurd List.nil_prefix apart
  | cons low left inductionHypothesis =>
      cases right with
      | nil => cases ordered
      | cons high right =>
          rcases compare_cons_eq_lt_iff.mp ordered with lower | ⟨rfl, later⟩
          · exact ⟨[], low, high, left, right, rfl, rfl, lower⟩
          · have apart' : ¬ left <+: right := fun starts => apart (List.cons_prefix_cons.mpr ⟨rfl, starts⟩)
            obtain ⟨shared, low', high', left', right', rfl, rfl, lower⟩ := inductionHypothesis later apart'
            exact ⟨low :: shared, low', high', left', right', rfl, rfl, lower⟩

/-- If a key comes before another one and is no ancestor of it, all keys at and below it come before those at
and below the other. -/
theorem compare_of_atOrBelow (ordered : compare key other = .lt) (apart : key.isAncestorOf other = false)
    (below : first = key ∨ key.isAncestorOf first = true)
    (below' : second = other ∨ other.isAncestorOf second = true) : compare first second = .lt := by
  have different : ¬ key.components <+: other.components := by
    rintro ⟨rest, same⟩
    by_cases nothing : rest = []
    · subst nothing
      rw [List.append_nil] at same
      rw [eq_of_components_eq same, Std.compare_self] at ordered
      cases ordered
    · exact nomatch apart.symm.trans (isAncestorOf_iff.mpr ⟨rest, nothing, same.symm⟩)
  obtain ⟨shared, low, high, left, right, key_eq, other_eq, lower⟩ := exists_difference ordered different
  obtain ⟨rest, first_eq⟩ := exists_append_of_atOrBelow below
  obtain ⟨rest', second_eq⟩ := exists_append_of_atOrBelow below'
  change compare first.components second.components = .lt
  rw [first_eq, second_eq, key_eq, other_eq, List.append_assoc, List.append_assoc, compare_append]
  exact compare_cons_eq_lt_iff.mpr (.inl lower)

/-- Of two keys with one parent none is an ancestor of the other. -/
theorem Complete.not_isAncestorOf_of_parent_eq (complete : key.Complete) (complete' : other.Complete)
    (below : key.parent = some parent) (below' : other.parent = some parent) :
    key.isAncestorOf other = false := by
  obtain ⟨completeParent, isLabel, spelled⟩ := complete.eq_extend_label below
  obtain ⟨-, isLabel', spelled'⟩ := complete'.eq_extend_label below'
  have above : parent.isAncestorOf key = true := by
    rw [spelled, completeParent.isAncestorOf_extend_iff isLabel]
    exact .inl rfl
  have first := compare_of_isAncestorOf above
  refine eq_false_of_ne_true fun ancestor => ?_
  rw [spelled', complete.isAncestorOf_extend_iff isLabel'] at ancestor
  rcases ancestor with rfl | higher
  · rw [Std.compare_self] at first
    cases first
  · rw [Std.OrientedOrd.eq_swap, compare_of_isAncestorOf higher] at first
    cases first

/-! ## Agreement -/

/-- Two keys with one parent have labels of which none begins the other one. -/
theorem Complete.not_isPrefix_label (complete : key.Complete) (complete' : other.Complete)
    (different : key ≠ other) (sameParent : key.parent = other.parent) : ¬ key.label <+: other.label := by
  intro starts
  cases below : key.parent with
  | none =>
      rw [parent_eq_none_iff.mp below, parent_eq_none_iff.mp (sameParent.symm.trans below)] at different
      exact different rfl
  | some parent =>
      obtain ⟨-, isLabel, key_eq⟩ := complete.eq_extend_label below
      obtain ⟨-, isLabel', other_eq⟩ := complete'.eq_extend_label (sameParent.symm.trans below)
      rw [key_eq, other_eq, isLabel.eq_of_isPrefix isLabel' starts] at different
      exact different rfl

/-- What the parity of components, prefixes and the order of keys say about levels, for two keys. -/
structure LevelsAgree (key other : PathKey) : Prop where
  isAncestorOf_iff : key.isAncestorOf other = true ↔ ∃ steps, other.ancestor? (steps + 1) = some key
  depth : ∀ steps, other.ancestor? steps = some root ↔ steps = other.depth
  complete_parent : ∀ parent, other.parent = some parent → parent.Complete
  /-- A key other than the root is its parent with a label behind it. -/
  spelled : other ≠ root →
    ∃ parent, other.parent = some parent ∧ IsLabel other.label ∧ other = parent.extend other.label
  labels_apart : key ≠ other → key.parent = other.parent →
    ¬ key.label <+: other.label ∧ ¬ other.label <+: key.label
  ancestor_first : key.isAncestorOf other = true → compare key other = .lt
  /-- Of two keys of which none is an ancestor of the other the subtrees are apart. -/
  subtrees_apart : compare key other = .lt → key.isAncestorOf other = false →
    ∀ first second, (first = key ∨ key.isAncestorOf first = true) →
      (second = other ∨ other.isAncestorOf second = true) → compare first second = .lt

/-- Parity, prefixes and order agree about the levels of complete keys. -/
theorem Complete.levelsAgree (complete : key.Complete) (complete' : other.Complete) :
    key.LevelsAgree other where
  isAncestorOf_iff := complete.isAncestorOf_iff_ancestor? complete'
  depth := complete'.ancestor?_eq_root_iff
  complete_parent _ below := (complete'.eq_extend_label below).1
  spelled notRoot := by
    cases below : other.parent with
    | none => exact absurd (parent_eq_none_iff.mp below) notRoot
    | some parent => exact ⟨parent, rfl, (complete'.eq_extend_label below).2⟩
  labels_apart different sameParent :=
    ⟨complete.not_isPrefix_label complete' different sameParent,
      complete'.not_isPrefix_label complete different.symm sameParent.symm⟩
  ancestor_first := compare_of_isAncestorOf
  subtrees_apart ordered apart _ _ := compare_of_atOrBelow ordered apart

/-- The first key is two levels above the second, of which both labels have carets. -/
theorem Complete.levelsAgree_carets :
    let key : PathKey := ⟨[2, -1]⟩
    let other : PathKey := ⟨[2, -1, -4, 0, 3, 6, 1]⟩
    key.Complete ∧ other.Complete ∧ key.LevelsAgree other ∧ key.isAncestorOf other = true ∧
      other.ancestor? 2 = some key ∧ other.depth = 3 ∧ other.label = [6, 1] := by
  intro key other
  have complete : key.Complete := by decide
  have complete' : other.Complete := by decide
  exact ⟨complete, complete', complete.levelsAgree complete', by decide, by decide, by decide, by decide⟩

end PathKey

end VersionedTrees
