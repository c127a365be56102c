import VersionedTrees.Error
import VersionedTrees.Proofs.Key.Labels

/-!
# Positions next to a key and between two

Between two siblings there is always a position: `PathKey.between` finds it, with a label that is one
component longer at most, unless it leaves the 32-bit range. The same holds for the positions that
`PathKey.after` and `PathKey.before` find. None of them leaves the range as long as all components are
smaller than half of it (`PathKey.finds_between`, `PathKey.finds_after`, `PathKey.finds_before`).
-/

namespace VersionedTrees

/-! ## Searches that can leave the range -/

/-- A component with an absolute value of 2^30 or more. -/
def IsLarge (component : Int32) : Prop :=
  1073741824 ≤ component.toInt.natAbs

instance (component : Int32) : Decidable (IsLarge component) :=
  inferInstanceAs (Decidable (_ ≤ _))

/-- A search finds what is right, or it leaves the 32-bit range, for which it takes a large component. -/
inductive Finds {α : Type} (among : List Int32) (right : α → Prop) : Except PathFault α → Prop where
  | found {value : α} (isRight : right value) : Finds among right (.ok value)
  | overflow {component : Int32} (inside : component ∈ among) (large : IsLarge component) :
      Finds among right (.error .overflow)

namespace Finds

variable {α β : Type} {among more : List Int32} {right weaker : α → Prop} {right' : β → Prop}
  {search : Except PathFault α}

/-- The search goes on with what was found. -/
theorem bind {next : α → Except PathFault β} (first : Finds among right search)
    (subset : among ⊆ more) (rest : ∀ value, right value → Finds more right' (next value)) :
    Finds more right' (search >>= next) := by
  cases first with
  | found isRight => exact rest _ isRight
  | overflow inside large => exact .overflow (subset inside) large

/-- What was found is a part of what is looked for. -/
theorem map {next : α → β} (first : Finds among right search) (subset : among ⊆ more)
    (rest : ∀ value, right value → right' (next value)) :
    Finds more right' (search >>= fun value => pure (next value)) :=
  first.bind subset fun value isRight => .found (rest value isRight)

theorem grow (first : Finds among right search) (subset : among ⊆ more) : Finds more right search := by
  cases first with
  | found isRight => exact .found isRight
  | overflow inside large => exact .overflow (subset inside) large

theorem weaken (first : Finds among right search) (implies : ∀ value, right value → weaker value) :
    Finds among weaker search := by
  cases first with
  | found isRight => exact .found (implies _ isRight)
  | overflow inside large => exact .overflow inside large

end Finds

namespace PathKey

section Labels

variable {low high : Int32} {label left right : List Int32}

/-- A component is moved, or it would leave the range. -/
theorem shift_cases (component : Int32) (offset : Int) :
    (∃ moved, shift component offset = .ok moved ∧ moved.toInt = component.toInt + offset) ∨
      shift component offset = .error .overflow ∧
        ¬ (-2147483648 ≤ component.toInt + offset ∧ component.toInt + offset < 2147483648) := by
  rw [shift]
  by_cases within : -2147483648 ≤ component.toInt + offset ∧ component.toInt + offset < 2147483648
  · rw [if_pos within]
    exact .inl ⟨_, rfl, Int32.toInt_ofInt_of_le within.1 within.2⟩
  · rw [if_neg within]
    exact .inr ⟨rfl, within⟩

/-- Only a large component leaves the range by a small step. -/
theorem finds_shift (low : Int32) (offset : Int) (small : offset.natAbs ≤ 2) :
    Finds [low] (fun moved => moved.toInt = low.toInt + offset) (shift low offset) := by
  rcases shift_cases low offset with ⟨moved, ok, moved_eq⟩ | ⟨failed, outside⟩
  · rw [ok]
    exact .found moved_eq
  · rw [failed]
    refine .overflow (List.mem_singleton_self low) ?_
    rw [IsLarge]
    omega

/-- Components that are not large are not too far apart. -/
theorem finds_gap (ordered : low.toInt < high.toInt) :
    Finds [low, high] (fun gap => gap.toInt = high.toInt - low.toInt) (shift high (-low.toInt)) := by
  rcases shift_cases high (-low.toInt) with ⟨gap, ok, gap_eq⟩ | ⟨failed, outside⟩
  · rw [ok]
    exact .found (gap_eq.trans Int.sub_eq_add_neg.symm)
  · rw [failed]
    by_cases large : IsLarge low
    · exact .overflow List.mem_cons_self large
    · refine .overflow (List.mem_cons_of_mem low List.mem_cons_self) ?_
      rw [IsLarge] at large ⊢
      omega

theorem closesLabel_eq_true_iff {component : Int32} :
    closesLabel component = true ↔ component.toInt % 2 = 1 := by
  rw [closesLabel, beq_iff_eq]

theorem closesLabel_eq_false_iff {component : Int32} :
    closesLabel component = false ↔ component.toInt % 2 = 0 := by
  rw [closesLabel, beq_eq_false_iff_ne]
  omega

/-! ## Labels next to a label -/

/-- The next odd number is two or one ahead. -/
theorem finds_nextOdd (low : Int32) :
    Finds [low] (fun next => closesLabel next = true ∧
        (closesLabel low = true ∧ next.toInt = low.toInt + 2 ∨
          closesLabel low = false ∧ next.toInt = low.toInt + 1))
      (shift low (if closesLabel low then 2 else 1)) := by
  cases parity : closesLabel low with
  | true =>
      refine (finds_shift low 2 (by decide)).weaken fun next next_eq => ?_
      rw [closesLabel_eq_true_iff] at parity ⊢
      exact ⟨by omega, .inl ⟨rfl, next_eq⟩⟩
  | false =>
      refine (finds_shift low 1 (by decide)).weaken fun next next_eq => ?_
      rw [closesLabel_eq_false_iff] at parity
      rw [closesLabel_eq_true_iff]
      exact ⟨by omega, .inr ⟨rfl, next_eq⟩⟩

/-- The last odd number before is two or one behind. -/
theorem finds_previousOdd (high : Int32) :
    Finds [high] (fun previous => closesLabel previous = true ∧ previous.toInt < high.toInt)
      (shift high (if closesLabel high then -2 else -1)) := by
  cases parity : closesLabel high with
  | true =>
      refine (finds_shift high (-2) (by decide)).weaken fun previous previous_eq => ?_
      rw [closesLabel_eq_true_iff] at parity ⊢
      omega
  | false =>
      refine (finds_shift high (-1) (by decide)).weaken fun previous previous_eq => ?_
      rw [closesLabel_eq_false_iff] at parity
      rw [closesLabel_eq_true_iff]
      omega

/-- After a label comes one of a single component. -/
theorem finds_labelAfter (isLabel : IsLabel label) :
    Finds label (fun next => IsLabel next ∧ compare label next = .lt ∧ next.length = 1)
      (labelAfter label) := by
  cases label with
  | nil => cases isLabel
  | cons first rest =>
      refine (finds_nextOdd first).map (List.cons_subset_cons first (List.nil_subset rest))
        fun next ⟨closes, ahead⟩ => ⟨.closing closes, compare_cons_eq_lt_iff.mpr (.inl ?_), rfl⟩
      omega

/-- Before a label comes one of a single component. -/
theorem finds_labelBefore (isLabel : IsLabel label) :
    Finds label (fun previous => IsLabel previous ∧ compare previous label = .lt ∧ previous.length = 1)
      (labelBefore label) := by
  cases label with
  | nil => cases isLabel
  | cons first rest =>
      refine (finds_previousOdd first).map (List.cons_subset_cons first (List.nil_subset rest))
        fun previous ⟨closes, behind⟩ => ⟨.closing closes, compare_cons_eq_lt_iff.mpr (.inl behind), rfl⟩

/-! ## Labels between two labels -/

/-- A label lies between two others and is one component longer than these at most. -/
structure SplitsLabels (left right label : List Int32) : Prop where
  isLabel : IsLabel label
  above : compare left label = .lt
  below : compare label right = .lt
  length_le : label.length ≤ max left.length right.length + 1

/-- In front of two labels, a caret that both have stays in front of what lies between them. -/
theorem SplitsLabels.cons (splits : SplitsLabels left right label)
    (opens : closesLabel low = false) : SplitsLabels (low :: left) (low :: right) (low :: label) where
  isLabel := .caret opens splits.isLabel
  above := compare_cons_eq_lt_iff.mpr (.inr ⟨rfl, splits.above⟩)
  below := compare_cons_eq_lt_iff.mpr (.inr ⟨rfl, splits.below⟩)
  length_le := by
    have shorter := splits.length_le
    simp only [List.length_cons]
    omega

/-- What lies behind the first component of a label that starts with a caret is a label. -/
theorem isLabel_of_caret (isLabel : IsLabel (low :: left)) (opens : closesLabel low = false) :
    IsLabel left := by
  cases isLabel with
  | closing closes => exact nomatch opens.symm.trans closes
  | caret _ isLabel => exact isLabel

theorem eq_nil_of_closing (isLabel : IsLabel (low :: left)) (closes : closesLabel low = true) :
    left = [] := by
  cases isLabel with
  | closing _ => rfl
  | caret opens _ => exact nomatch opens.symm.trans closes

/-- Between two labels that differ in their first components there is a label: in the gap, if it is wide,
and otherwise behind that of the two components that is a caret. -/
theorem finds_labelInGap (isLabel : IsLabel (low :: left)) (isLabel' : IsLabel (high :: right))
    (ordered : low.toInt < high.toInt) :
    Finds ((low :: left) ++ (high :: right)) (SplitsLabels (low :: left) (high :: right))
      (labelInGap low left high right) := by
  have inLeft : [low] ⊆ (low :: left) ++ (high :: right) := List.cons_subset.mpr
    ⟨List.mem_append_left _ List.mem_cons_self, List.nil_subset _⟩
  have inBoth : [low, high] ⊆ (low :: left) ++ (high :: right) := List.cons_subset.mpr
    ⟨List.mem_append_left _ List.mem_cons_self, List.cons_subset.mpr
      ⟨List.mem_append_right _ List.mem_cons_self, List.nil_subset _⟩⟩
  rw [labelInGap]
  refine (finds_gap ordered).bind inBoth fun gap gap_eq => ?_
  by_cases wide : 2 ≤ gap.toInt
  · rw [if_pos wide]
    refine (finds_nextOdd low).bind inLeft fun candidate ⟨closes, ahead⟩ => ?_
    by_cases before : candidate < high
    · rw [if_pos before]
      rw [Int32.lt_iff_toInt_lt] at before
      refine .found ⟨.closing closes, compare_cons_eq_lt_iff.mpr (.inl ?_),
        compare_cons_eq_lt_iff.mpr (.inl before), ?_⟩
      · omega
      · simp
    · rw [if_neg before]
      rw [Int32.lt_iff_toInt_lt] at before
      -- only an odd number that is followed by the next one has no odd number in a wide gap behind it
      have odd : closesLabel low = true := by
        rcases ahead with ⟨odd, -⟩ | ⟨-, next⟩
        · exact odd
        · omega
      refine (finds_shift low 1 (by decide)).map inLeft fun caret caret_eq =>
        ⟨.caret ?_ (.closing (by decide)), compare_cons_eq_lt_iff.mpr (.inl ?_),
          compare_cons_eq_lt_iff.mpr (.inl ?_), ?_⟩
      · rw [closesLabel_eq_true_iff] at odd
        rw [closesLabel_eq_false_iff]
        omega
      · omega
      · omega
      · simp
  · rw [if_neg wide]
    have inRight : right ⊆ (low :: left) ++ (high :: right) := fun _ inside =>
      List.mem_append_right _ (List.mem_cons_of_mem _ inside)
    have inLeft' : left ⊆ (low :: left) ++ (high :: right) := fun _ inside =>
      List.mem_append_left _ (List.mem_cons_of_mem _ inside)
    cases parity : closesLabel low with
    | true =>
        have opens : closesLabel high = false := by
          rw [closesLabel_eq_true_iff] at parity
          rw [closesLabel_eq_false_iff]
          omega
        refine (finds_labelBefore (isLabel_of_caret isLabel' opens)).map inRight
          fun label ⟨isLabel'', below, length_eq⟩ => ⟨.caret opens isLabel'',
            compare_cons_eq_lt_iff.mpr (.inl ordered), compare_cons_eq_lt_iff.mpr (.inr ⟨rfl, below⟩), ?_⟩
        simp only [List.length_cons]
        omega
    | false =>
        refine (finds_labelAfter (isLabel_of_caret isLabel parity)).map inLeft'
          fun label ⟨isLabel'', above, length_eq⟩ => ⟨.caret parity isLabel'',
            compare_cons_eq_lt_iff.mpr (.inr ⟨rfl, above⟩), compare_cons_eq_lt_iff.mpr (.inl ordered), ?_⟩
        simp only [List.length_cons]
        omega

/-- Between two labels there is a label. -/
theorem finds_labelBetween (isLabel : IsLabel left) (isLabel' : IsLabel right)
    (ordered : compare left right = .lt) :
    Finds (left ++ right) (SplitsLabels left right) (labelBetween left right) := by
  induction isLabel generalizing right with
  | @closing low closes =>
      obtain _ | ⟨high, right⟩ := right
      · cases isLabel'
      · rw [labelBetween, if_neg fun shared => shared.2.1 rfl]
        refine finds_labelInGap (.closing closes) isLabel' ?_
        -- were the first components the same, both labels would end there
        refine (compare_cons_eq_lt_iff.mp ordered).resolve_right fun ⟨same, later⟩ => ?_
        subst same
        rw [eq_nil_of_closing isLabel' closes] at later
        cases later
  | @caret low left opens isLabel inductionHypothesis =>
      obtain _ | ⟨high, right⟩ := right
      · cases isLabel'
      · rw [labelBetween]
        rcases compare_cons_eq_lt_iff.mp ordered with apart | ⟨rfl, later⟩
        · rw [if_neg fun shared => absurd (congrArg Int32.toInt shared.1) (Int.ne_of_lt apart)]
          exact finds_labelInGap (.caret opens isLabel) isLabel' apart
        · have isLabel'' := isLabel_of_caret isLabel' opens
          have nonempty : ∀ {label : List Int32}, IsLabel label → label ≠ [] := by
            rintro _ isLabel rfl
            cases isLabel
          rw [if_pos ⟨rfl, nonempty isLabel, nonempty isLabel''⟩]
          refine (inductionHypothesis isLabel'' later).map ?_ fun label splits => splits.cons opens
          exact List.append_subset.mpr
            ⟨fun _ inside => List.mem_append_left _ (List.mem_cons_of_mem _ inside),
              fun _ inside => List.mem_append_right _ (List.mem_cons_of_mem _ inside)⟩

end Labels

/-! ## Keys -/

/-- A complete key stands below the same parent as two others and between them, with a label that is one
component longer than theirs at most. -/
structure LiesBetween (left right key : PathKey) : Prop where
  complete : key.Complete
  sameParent : key.parent = left.parent
  above : compare left key = .lt
  below : compare key right = .lt
  length_le : key.label.length ≤ max left.label.length right.label.length + 1

/-- A complete key follows a sibling. -/
structure Follows (key next : PathKey) : Prop where
  complete : next.Complete
  sameParent : next.parent = key.parent
  above : compare key next = .lt

/-- A complete key precedes a sibling. -/
structure Precedes (key previous : PathKey) : Prop where
  complete : previous.Complete
  sameParent : previous.parent = key.parent
  below : compare previous key = .lt

section Keys

variable {key parent left right : PathKey}

theorem finds_after (complete : key.Complete) (below : key.parent = some parent) :
    Finds key.label (Follows key) key.after := by
  obtain ⟨complete', isLabel, key_eq⟩ := complete.eq_extend_label below
  rw [after, below]
  refine (finds_labelAfter isLabel).map (List.Subset.refl _) fun label ⟨isLabel', above, _⟩ =>
    ⟨complete_extend parent isLabel', (complete'.parent_extend isLabel').trans below.symm, ?_⟩
  rwa [← compare_extend parent, ← key_eq] at above

theorem finds_before (complete : key.Complete) (below : key.parent = some parent) :
    Finds key.label (Precedes key) key.before := by
  obtain ⟨complete', isLabel, key_eq⟩ := complete.eq_extend_label below
  rw [before, below]
  refine (finds_labelBefore isLabel).map (List.Subset.refl _) fun label ⟨isLabel', behind, _⟩ =>
    ⟨complete_extend parent isLabel', (complete'.parent_extend isLabel').trans below.symm, ?_⟩
  rwa [← compare_extend parent, ← key_eq] at behind

/-- Between two siblings there is a position. -/
theorem finds_between (complete : left.Complete) (complete' : right.Complete)
    (below : left.parent = some parent) (below' : right.parent = some parent)
    (ordered : compare left right = .lt) :
    Finds (left.label ++ right.label) (LiesBetween left right) (between left right) := by
  obtain ⟨completeParent, isLabel, left_eq⟩ := complete.eq_extend_label below
  obtain ⟨-, isLabel', right_eq⟩ := complete'.eq_extend_label below'
  have labels : compare left.label right.label = .lt := by
    rwa [← compare_extend parent, ← left_eq, ← right_eq]
  rw [between, below]
  dsimp only
  rw [if_neg (not_not.mpr below'), if_neg (not_not.mpr ordered)]
  refine (finds_labelBetween isLabel isLabel' labels).map (List.Subset.refl _) fun label splits =>
    ⟨complete_extend parent splits.isLabel,
      (completeParent.parent_extend splits.isLabel).trans below.symm, ?_, ?_, ?_⟩
  · have above := splits.above
    rwa [← compare_extend parent, ← left_eq] at above
  · have below := splits.below
    rwa [← compare_extend parent, ← right_eq] at below
  · rw [completeParent.label_extend splits.isLabel]
    exact splits.length_le

/-- There is nothing between keys that are no siblings or are not in order. -/
theorem between_eq_error
    (unfit : left.parent ≠ right.parent ∨ left = root ∨ right = root ∨ compare left right ≠ .lt) :
    between left right = .error (.notSiblings left right) ∨
      between left right = .error (.notBefore left right) := by
  rw [between]
  cases below : left.parent with
  | none => exact .inl rfl
  | some parent =>
      by_cases siblings : right.parent = some parent
      · have unordered : compare left right ≠ .lt := by
          rcases unfit with apart | isRoot | isRoot | unordered
          · exact absurd (below.trans siblings.symm) apart
          · rw [parent_eq_none_iff.mpr isRoot] at below
            cases below
          · rw [parent_eq_none_iff.mpr isRoot] at siblings
            cases siblings
          · exact unordered
        dsimp only
        rw [if_neg (not_not.mpr siblings), if_pos unordered]
        exact .inr rfl
      · dsimp only
        rw [if_pos siblings]
        exact .inl rfl

/-- Of two complete keys, siblings that are in order have a position between them, and keys that are not
are refused. Next to a complete key that is not the root there are positions on both sides. A search for a
position leaves the 32-bit range only next to large components. -/
theorem finds_neighbours (complete : left.Complete) (complete' : right.Complete) :
    (left.parent = right.parent → left ≠ root → compare left right = .lt →
      Finds (left.label ++ right.label) (LiesBetween left right) (between left right)) ∧
    (left.parent ≠ right.parent ∨ left = root ∨ right = root ∨ compare left right ≠ .lt →
      ∃ fault, between left right = .error fault ∧ (TreeError.path fault).kind = .invalidKey) ∧
    (left ≠ root →
      Finds left.label (Follows left) left.after ∧ Finds left.label (Precedes left) left.before) := by
  have exists_parent : left ≠ root → ∃ parent, left.parent = some parent := fun notRoot =>
    Option.ne_none_iff_exists'.mp (parent_eq_none_iff.not.mpr notRoot)
  refine ⟨fun siblings notRoot ordered => ?_, fun unfit => ?_, fun notRoot => ?_⟩
  · obtain ⟨parent, below⟩ := exists_parent notRoot
    exact finds_between complete complete' below (siblings.symm.trans below) ordered
  · rcases between_eq_error unfit with failed | failed
    · exact ⟨_, failed, rfl⟩
    · exact ⟨_, failed, rfl⟩
  · obtain ⟨parent, below⟩ := exists_parent notRoot
    exact ⟨finds_after complete below, finds_before complete below⟩

/-- Two siblings that share a caret and differ by one behind it, in order and the other way round. -/
theorem finds_neighbours_caret :
    (PathKey.mk [1, 2, -4, 1]).Complete ∧ (PathKey.mk [1, 2, -3]).Complete ∧
      between ⟨[1, 2, -4, 1]⟩ ⟨[1, 2, -3]⟩ = .ok ⟨[1, 2, -4, 3]⟩ ∧
      LiesBetween ⟨[1, 2, -4, 1]⟩ ⟨[1, 2, -3]⟩ ⟨[1, 2, -4, 3]⟩ ∧
      (∃ fault, between ⟨[1, 2, -3]⟩ ⟨[1, 2, -4, 1]⟩ = .error fault ∧
        (TreeError.path fault).kind = .invalidKey) ∧
      (PathKey.mk [1, 2, -4, 1]).after = .ok ⟨[1, 3]⟩ ∧ Follows ⟨[1, 2, -4, 1]⟩ ⟨[1, 3]⟩ ∧
      (PathKey.mk [1, 2, -4, 1]).before = .ok ⟨[1, 1]⟩ ∧ Precedes ⟨[1, 2, -4, 1]⟩ ⟨[1, 1]⟩ := by
  have complete : (PathKey.mk [1, 2, -4, 1]).Complete := by decide
  have complete' : (PathKey.mk [1, 2, -3]).Complete := by decide
  have found : between ⟨[1, 2, -4, 1]⟩ ⟨[1, 2, -3]⟩ = .ok ⟨[1, 2, -4, 3]⟩ := by decide
  have next : (PathKey.mk [1, 2, -4, 1]).after = .ok ⟨[1, 3]⟩ := by decide
  have previous : (PathKey.mk [1, 2, -4, 1]).before = .ok ⟨[1, 1]⟩ := by decide
  obtain ⟨ordered, -, beside⟩ := finds_neighbours complete complete'
  obtain ⟨-, refused, -⟩ := finds_neighbours complete' complete
  obtain ⟨follows, precedes⟩ := beside (by decide)
  have between := ordered (by decide) (by decide) (by decide)
  rw [found] at between
  rw [next] at follows
  rw [previous] at precedes
  refine ⟨complete, complete', found, ?_, refused (.inr (.inr (.inr (by decide)))), next, ?_,
    previous, ?_⟩
  · cases between with
    | found lies => exact lies
  · cases follows with
    | found follows => exact follows
  · cases precedes with
    | found precedes => exact precedes

end Keys

end PathKey

end VersionedTrees
