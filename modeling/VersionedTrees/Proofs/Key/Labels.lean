import Mathlib.Data.List.TakeWhile
import VersionedTrees.Key.Basic

/-!
# Labels

A label is a run of carets and the odd component that closes it. A complete key that is not the root is a
complete parent with one label behind it, in one way (`PathKey.Complete.exists_extend`,
`PathKey.Complete.parent_extend`, `PathKey.Complete.label_extend`). Siblings are ordered as their labels
are (`PathKey.compare_extend`).
-/

namespace VersionedTrees

/-- Components that make up one label: carets, and the odd component that closes it. -/
inductive IsLabel : List Int32 → Prop where
  | closing {last : Int32} (closes : closesLabel last = true) : IsLabel [last]
  | caret {component : Int32} {rest : List Int32} (opens : closesLabel component = false)
      (isLabel : IsLabel rest) : IsLabel (component :: rest)

section Grammar

variable {label carets : List Int32} {last : Int32}

theorem IsLabel.exists_append (isLabel : IsLabel label) : ∃ carets last, label = carets ++ [last] ∧
    closesLabel last = true ∧ ∀ component ∈ carets, closesLabel component = false := by
  induction isLabel with
  | @closing last closes =>
      exact ⟨[], last, rfl, closes, fun _ impossible => absurd impossible List.not_mem_nil⟩
  | @caret component rest opens _ inductionHypothesis =>
      obtain ⟨carets, last, rfl, closes, open_⟩ := inductionHypothesis
      exact ⟨component :: carets, last, rfl, closes, List.forall_mem_cons.mpr ⟨opens, open_⟩⟩

theorem isLabel_append (opens : ∀ component ∈ carets, closesLabel component = false)
    (closes : closesLabel last = true) : IsLabel (carets ++ [last]) := by
  induction carets with
  | nil => exact .closing closes
  | cons component carets inductionHypothesis =>
      obtain ⟨first, opens⟩ := List.forall_mem_cons.mp opens
      exact .caret first (inductionHypothesis opens)

/-- Before the last label stands what it was put behind. -/
theorem PathKey.beforeLastLabel_append {components : List Int32}
    (complete : (PathKey.mk components).Complete) (isLabel : IsLabel label) :
    PathKey.beforeLastLabel (components ++ label) = components := by
  obtain ⟨carets, last, rfl, -, opens⟩ := isLabel.exists_append
  have carried : ∀ component ∈ carets.reverse, (!closesLabel component) = true := by
    intro component inside
    rw [opens component (List.mem_reverse.mp inside)]
    rfl
  -- going back, the carets are passed over, and the label before them ends with an odd component
  have stops : components.reverse.dropWhile (fun component => !closesLabel component) =
      components.reverse := by
    cases reversed : components.reverse with
    | nil => rfl
    | cons final others =>
        have closes : closesLabel final = true := by
          apply complete final
          rw [← List.head?_reverse, reversed]
          rfl
        rw [List.dropWhile_cons_of_neg (by rw [closes]; exact Bool.false_ne_true)]
  rw [PathKey.beforeLastLabel, ← List.append_assoc, List.reverse_append, List.reverse_singleton,
    List.singleton_append, List.tail_cons, List.reverse_append,
    List.dropWhile_append_of_pos carried, stops, List.reverse_reverse]

end Grammar

namespace PathKey

variable {key parent : PathKey} {label left right : List Int32}

theorem complete_extend (parent : PathKey) (isLabel : IsLabel label) :
    (parent.extend label).Complete := by
  obtain ⟨carets, last, rfl, closes, -⟩ := isLabel.exists_append
  intro other found
  rw [extend, ← List.append_assoc, List.getLast?_concat] at found
  exact Option.some.inj found ▸ closes

theorem parent_eq_none_iff : key.parent = none ↔ key = root := by
  obtain ⟨components⟩ := key
  cases components with
  | nil => exact iff_of_true rfl rfl
  | cons component components => exact iff_of_false nofun nofun

/-- A label below a complete key makes a key that has this key as its parent. -/
theorem Complete.parent_extend (complete : parent.Complete) (isLabel : IsLabel label) :
    (parent.extend label).parent = some parent := by
  have before := beforeLastLabel_append complete isLabel
  cases found : (parent.extend label).parent with
  | none =>
      rw [parent_eq_none_iff] at found
      obtain ⟨carets, last, rfl, -⟩ := isLabel.exists_append
      have lengths := congrArg (List.length ∘ components) found
      simp [extend, root] at lengths
  | some other =>
      rw [PathKey.parent] at found
      split at found
      · cases found
      · rw [← Option.some.inj found]
        exact congrArg some (congrArg PathKey.mk before)

theorem Complete.label_extend (complete : parent.Complete) (isLabel : IsLabel label) :
    (parent.extend label).label = label := by
  rw [PathKey.label, extend, beforeLastLabel_append complete isLabel]
  exact List.drop_left

/-- A complete key is the root or has a label below a complete parent. -/
theorem Complete.exists_extend (complete : key.Complete) (notRoot : key ≠ root) :
    ∃ (parent : PathKey) (label : List Int32),
      parent.Complete ∧ IsLabel label ∧ key = parent.extend label := by
  obtain ⟨components⟩ := key
  cases reversed : components.reverse with
  | nil =>
      obtain rfl := List.reverse_eq_nil_iff.mp reversed
      exact absurd rfl notRoot
  | cons last others =>
      obtain rfl := List.reverse_eq_iff.mp reversed
      let carried := fun component => !closesLabel component
      have closes : closesLabel last = true :=
        complete last (by rw [← List.head?_reverse, List.reverse_reverse]; rfl)
      refine ⟨⟨(others.dropWhile carried).reverse⟩, (others.takeWhile carried).reverse ++ [last],
        ?_, isLabel_append ?_ closes, ?_⟩
      · intro final found
        rw [List.getLast?_reverse] at found
        have stopped := List.head?_dropWhile_not carried others
        rw [found] at stopped
        simpa [carried] using stopped
      · intro component inside
        have taken := List.mem_takeWhile_imp (List.mem_reverse.mp inside)
        simpa [carried] using taken
      · rw [extend, ← List.append_assoc, ← List.reverse_append, List.takeWhile_append_dropWhile,
          List.reverse_cons]

/-- A complete key below a parent is its label behind that parent. -/
theorem Complete.eq_extend_label (complete : key.Complete) (below : key.parent = some parent) :
    parent.Complete ∧ IsLabel key.label ∧ key = parent.extend key.label := by
  have notRoot : key ≠ root := by
    rintro rfl
    cases below
  obtain ⟨parent', label, complete', isLabel, rfl⟩ := complete.exists_extend notRoot
  rw [complete'.parent_extend isLabel] at below
  obtain rfl := Option.some.inj below
  rw [complete'.label_extend isLabel]
  exact ⟨complete', isLabel, rfl⟩

/-! ## Order -/

/-- One component comes before another if it is the smaller number. -/
theorem compare_cons_eq_lt_iff {low high : Int32} : compare (low :: left) (high :: right) = .lt ↔
    low.toInt < high.toInt ∨ low = high ∧ compare left right = .lt := by
  rw [List.compare_cons_cons, Ordering.then_eq_lt, Std.compare_eq_lt, Std.compare_eq_iff_eq,
    Int32.lt_iff_toInt_lt]

theorem compare_append (shared left right : List Int32) :
    compare (shared ++ left) (shared ++ right) = compare left right := by
  induction shared with
  | nil => rfl
  | cons component shared inductionHypothesis =>
      rw [List.cons_append, List.cons_append, List.compare_cons_cons, Std.compare_self,
        Ordering.eq_then, inductionHypothesis]

/-- Siblings are ordered as their labels are. -/
theorem compare_extend (parent : PathKey) (left right : List Int32) :
    compare (parent.extend left) (parent.extend right) = compare left right :=
  compare_append parent.components left right

end PathKey

/-- A key with a position ends where a label ends. -/
def Key.Complete : Key → Prop
  | .path position => position.Complete
  | .number _ | .text _ => True

instance (key : Key) : Decidable key.Complete :=
  match key with
  | .path position => inferInstanceAs (Decidable position.Complete)
  | .number _ | .text _ => .isTrue trivial

end VersionedTrees
