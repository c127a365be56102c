import VersionedTrees.Delta.Basic
import VersionedTrees.Proofs.Donors.Stages

/-!
# What an expansion retains

An expansion follows a tree from the root down to its tree-references. At a tree-reference it stops, if
the reference is kept, and otherwise it goes on below the target in the donor. What the tree itself has
below the reference is never looked at, and is lost unless the donor has the same keys in the same places
(`Expansion.Mirrors`). So all keys of a tree keep their places exactly if the donors mirror whatever hangs
below its tree-references (`Donors.expand_retains_iff`). Nothing is lost of a tree whose tree-references
have no children.
-/

namespace VersionedTrees

variable {C : Type}

/-! ## Tree-references from above -/

/-- A node is a tree-reference, and no node above it is one. -/
structure Store.Outermost (store : Store C) (top : Key) (reference : Reference) : Prop where
  holds : store.payload? top = some (.treeReference reference)
  first : ∀ higher other, store.layout.Within higher top →
    store.payload? higher = some (.treeReference other) → higher = top

/-- No node above a key is a tree-reference. -/
def Store.Open (store : Store C) (key : Key) : Prop :=
  ∀ top reference, store.layout.Within top key →
    store.payload? top = some (.treeReference reference) → top = key

section Above

variable {store : Store C} {top other key : Key} {reference reference' : Reference}

/-- A key is below one outermost tree-reference at most. -/
theorem Store.Outermost.unique (outermost : store.Outermost top reference)
    (outermost' : store.Outermost other reference') (within : store.layout.Within top key)
    (within' : store.layout.Within other key) : top = other ∧ reference = reference' := by
  have same : top = other := by
    rcases within.total within' with higher | lower
    · exact outermost'.first _ _ higher outermost.holds
    · exact (outermost.first _ _ lower outermost'.holds).symm
  subst same
  have payloads := outermost.holds.symm.trans outermost'.holds
  simp only [Option.some.injEq, Payload.treeReference.injEq] at payloads
  exact ⟨rfl, payloads⟩

end Above

namespace Expansion

/-! ## What the donors mirror -/

/-- The donor key for a key at or below a tree-reference: that of the target for the reference itself. -/
def counterpart (top : Key) (reference : Reference) (key : Key) : Key :=
  if key = top then reference.key else key

/-- A child of a node at or below a tree-reference is a child of its counterpart in the donor, and the
expansion goes on below the node. -/
structure Mirrors (stores : List (Store C)) (kept : Kept) (top : Key) (reference : Reference)
    (key parent : Key) : Prop where
  goes : kept.keeps parent (counterpart top reference parent) = false
  below : ∃ donor, Donors.storeOf stores reference.tree = some donor ∧
    donor.layout.IsChild key (counterpart top reference parent)

/-- The donors mirror what a tree has between a key and the outermost tree-reference above it, if there is
one. -/
def MirrorsDownTo (stores : List (Store C)) (source : Store C) (kept : Kept) (key : Key) : Prop :=
  ∀ lower parent, source.layout.IsChild lower parent → source.layout.Within lower key →
    ∀ top reference, source.Outermost top reference → source.layout.Within top parent →
      Mirrors stores kept top reference lower parent

/-- A key has the parent in a store that it has in a tree. -/
def Retains (source made : Store C) (key : Key) : Prop :=
  ∀ standing, source.layout key = some standing →
    ∃ payload, made.layout key = some ⟨standing.parent, payload⟩

section Retaining

variable {source made : Store C} {key parent : Key}

theorem Retains.isChild (retains : Retains source made key)
    (isChild : source.layout.IsChild key parent) : made.layout.IsChild key parent :=
  let ⟨_, found⟩ := isChild
  retains _ found

theorem retains_of_isRoot (isRoot : source.layout.IsRoot key) (isRoot' : made.layout.IsRoot key) :
    Retains source made key := by
  intro standing found
  obtain ⟨payload, there⟩ := isRoot
  obtain rfl := Option.some.inj (there.symm.trans found)
  exact isRoot'

theorem retains_of_isChild (isChild : source.layout.IsChild key parent)
    (isChild' : made.layout.IsChild key parent) : Retains source made key := by
  intro standing found
  obtain ⟨payload, there⟩ := isChild
  obtain rfl := Option.some.inj (there.symm.trans found)
  exact isChild'

end Retaining

/-! ## The way down -/

namespace Plan

variable {plan : Plan C} {made : Store C} {key parent root : Key} {origin lower : Origin}
  {origins : List Origin}

/-- Where an expansion is when it comes to a key of the tree in its place: in the tree, as long as there
is no tree-reference above the key, and otherwise in the donor. -/
inductive Tracks (plan : Plan C) (key : Key) : Origin → Prop
  | own (isOpen : plan.source.Open key) : Tracks plan key (.own key)
  | donor {top : Key} {reference : Reference} (outermost : plan.source.Outermost top reference)
      (within : plan.source.layout.Within top key) (different : top ≠ key) :
      Tracks plan key (.donor reference.tree key)

theorem Tracks.key_eq (tracks : plan.Tracks key origin) : origin.key = key := by
  cases tracks <;> rfl

/-- How an expansion goes on below a key of the tree in its place: with the children that the tree has
there or, at and below a tree-reference that is not kept, with those that the donor has. -/
inductive GoesOn (plan : Plan C) (parent : Key) : List Origin → Prop
  | own (outside : ∀ top reference, plan.source.layout.Within top parent →
        plan.source.payload? top ≠ some (.treeReference reference)) :
      GoesOn plan parent ((plan.source.tree.childList parent).map .own)
  | donor {top : Key} {reference : Reference} (outermost : plan.source.Outermost top reference)
      (within : plan.source.layout.Within top parent) :
      GoesOn plan parent (if plan.kept.keeps parent (counterpart top reference parent) then []
        else plan.copies reference.tree (counterpart top reference parent))

/-- What follows a key in its place. -/
theorem Tracks.goesOn (isTree : plan.source.layout.IsTree) (tracks : plan.Tracks key origin)
    (holds : plan.source.layout.Holds key) : plan.GoesOn key (plan.below origin) := by
  have self := isTree.within_self holds
  cases tracks with
  | donor outermost within different =>
      have course := GoesOn.donor outermost within
      rwa [counterpart, if_neg (Ne.symm different)] at course
  | own isOpen =>
      obtain ⟨⟨above, payload⟩, found⟩ := holds
      have held : plan.source.payload? key = some payload := Store.payload?_of_layout found
      by_cases isReference : payload.isTreeReference = true
      case neg =>
        rw [below_own held (eq_false_of_ne_true isReference)]
        refine .own fun top reference within there => isReference ?_
        obtain rfl := isOpen top reference within there
        rw [Option.some.inj (held.symm.trans there)]
        rfl
      case pos =>
        cases payload with
        | content value => cases isReference
        | nodeReference reference => cases isReference
        | treeReference reference =>
            have outermost : plan.source.Outermost key reference := ⟨held, isOpen⟩
            have course := GoesOn.donor outermost self
            rw [counterpart, if_pos rfl] at course
            rw [below, held]
            exact course

section Course

variable (wellFormed : ∀ store ∈ plan.source :: plan.donors, store.WellFormed)
  (isChild : plan.source.layout.IsChild key parent)
include wellFormed isChild

/-- Among what follows a node in its place is a child of the node, if the donors mirror it. -/
theorem GoesOn.exists_iff (course : plan.GoesOn parent origins) :
    (∃ lower ∈ origins, lower.key = key) ↔ ∀ top reference, plan.source.Outermost top reference →
      plan.source.layout.Within top parent → Mirrors plan.donors plan.kept top reference key parent := by
  obtain ⟨wellFormedSource, wellFormedDonors⟩ := List.forall_mem_cons.mp wellFormed
  cases course with
  | own outside =>
      have listed := (wellFormedSource.listed.mem_iff parent key).mpr isChild
      exact iff_of_true ⟨.own key, List.mem_map_of_mem listed, rfl⟩
        fun top reference outermost within => absurd outermost.holds (outside top reference within)
  | @donor top reference outermost within =>
      have single : (∀ other reference', plan.source.Outermost other reference' →
          plan.source.layout.Within other parent →
            Mirrors plan.donors plan.kept other reference' key parent) ↔
          Mirrors plan.donors plan.kept top reference key parent := by
        refine ⟨fun all => all top reference outermost within, fun mirrors other reference' outermost' => ?_⟩
        intro within'
        obtain ⟨rfl, rfl⟩ := outermost.unique outermost' within within'
        exact mirrors
      rw [single]
      constructor
      · rintro ⟨lower, inside, rfl⟩
        split at inside
        · exact absurd inside List.not_mem_nil
        · rename_i goes
          rw [copies] at inside
          cases counts : Donors.storeOf plan.donors reference.tree with
          | none => simp [counts] at inside
          | some donor =>
              rw [counts] at inside
              obtain ⟨child, listed, rfl⟩ := List.mem_map.mp inside
              have donorFormed := wellFormedDonors donor (Donors.mem_of_storeOf counts)
              exact ⟨eq_false_of_ne_true goes, donor, counts, (donorFormed.listed.mem_iff _ _).mp listed⟩
      · rintro ⟨goes, donor, counts, isChild'⟩
        have donorFormed := wellFormedDonors donor (Donors.mem_of_storeOf counts)
        rw [goes, if_neg Bool.false_ne_true, copies_of_storeOf counts]
        exact ⟨.donor reference.tree key,
          List.mem_map_of_mem ((donorFormed.listed.mem_iff _ _).mpr isChild'), rfl⟩

/-- A child that follows a node in its place comes to its own place. -/
theorem GoesOn.tracks (course : plan.GoesOn parent origins) (inside : lower ∈ origins)
    (same : lower.key = key) : plan.Tracks key lower := by
  have isTree := (wellFormed plan.source List.mem_cons_self).isTree
  subst same
  cases course with
  | own outside =>
      obtain ⟨child, -, rfl⟩ := List.mem_map.mp inside
      refine .own fun top reference within holds => ?_
      rcases (Layout.within_iff_of_isChild isChild isTree).mp within with same | above
      · exact same
      · exact absurd holds (outside top reference above)
  | @donor top reference outermost within =>
      split at inside
      · exact absurd inside List.not_mem_nil
      · rw [copies] at inside
        cases counts : Donors.storeOf plan.donors reference.tree with
        | none => simp [counts] at inside
        | some donor =>
            rw [counts] at inside
            obtain ⟨child, -, rfl⟩ := List.mem_map.mp inside
            refine .donor outermost (isChild.within within) ?_
            rintro rfl
            exact isChild.not_within isTree within

end Course

/-! ## What is retained -/

/-- An expansion comes to a key in its place. -/
def Follows (plan : Plan C) (root key : Key) : Prop :=
  ∃ origin, plan.Tracks key origin ∧ ∃ above, (origin, above) ∈ plan.steps root

section CarriedOut

variable (carriedOut : plan.CarriedOut root made)
  (wellFormed : ∀ store ∈ plan.source :: plan.donors, store.WellFormed)
  (isRoot : plan.source.root = some root)
include carriedOut wellFormed isRoot

omit carriedOut in
theorem follows_root : plan.Follows root root := by
  have wellFormedSource := wellFormed plan.source List.mem_cons_self
  refine ⟨.own root, .own fun top reference within _ => ?_, none, mem_steps_root wellFormed isRoot⟩
  exact ((wellFormedSource.root root).mp isRoot).within_iff.mp within

/-- A child of a key that the expansion comes to is a child in the expansion if the donors mirror it, and
then the expansion comes to it. -/
theorem CarriedOut.isChild_iff_mirrors (follows : plan.Follows root parent)
    (isChild : plan.source.layout.IsChild key parent) :
    (made.layout.IsChild key parent ↔ ∀ top reference, plan.source.Outermost top reference →
      plan.source.layout.Within top parent → Mirrors plan.donors plan.kept top reference key parent) ∧
    (made.layout.IsChild key parent → plan.Follows root key) := by
  have isTree := (wellFormed plan.source List.mem_cons_self).isTree
  obtain ⟨origin, tracks, above, inside⟩ := follows
  have course := tracks.goesOn isTree (isTree.parent_holds isChild)
  have children : made.layout.IsChild key origin.key ↔ _ :=
    carriedOut.isChild_iff wellFormed isRoot inside
  rw [tracks.key_eq] at children
  refine ⟨children.trans (course.exists_iff wellFormed isChild), fun there => ?_⟩
  obtain ⟨lower, among, same⟩ := children.mp there
  exact ⟨lower, course.tracks wellFormed isChild among same, _,
    mem_steps_next wellFormed isRoot inside (List.mem_map_of_mem among)⟩

/-- An expansion that retains all keys comes to each of them in its place. -/
theorem CarriedOut.follows_of_retains (retains : ∀ key, Retains plan.source made key)
    (holds : plan.source.layout.Holds key) : plan.Follows root key := by
  have wellFormedSource := wellFormed plan.source List.mem_cons_self
  refine wellFormedSource.isTree.induction key holds ?_ ?_
  · intro key isTop
    rw [wellFormedSource.isTree.single key root isTop ((wellFormedSource.root root).mp isRoot)]
    exact follows_root wellFormed isRoot
  · intro key parent isChild _ follows
    exact (carriedOut.isChild_iff_mirrors wellFormed isRoot follows isChild).2
      ((retains key).isChild isChild)

/-- A key is retained if the donors mirror what the tree has above it. -/
theorem CarriedOut.follows_of_mirrors (holds : plan.source.layout.Holds key)
    (mirrors : MirrorsDownTo plan.donors plan.source plan.kept key) :
    plan.Follows root key ∧ Retains plan.source made key := by
  have wellFormedSource := wellFormed plan.source List.mem_cons_self
  have isTree := wellFormedSource.isTree
  revert mirrors
  refine isTree.induction key holds ?_ ?_
  · intro key isTop _
    have isRoot' := (wellFormedSource.root root).mp isRoot
    obtain rfl := isTree.single key root isTop isRoot'
    exact ⟨follows_root wellFormed isRoot, retains_of_isRoot isTop
      ((carriedOut.builds.wellFormed.root key).mp (carriedOut.root_eq wellFormed isRoot))⟩
  · intro key parent isChild _ inductionHypothesis mirrors
    obtain ⟨follows, -⟩ := inductionHypothesis fun lower upper isChild' within =>
      mirrors lower upper isChild' (isChild.within within)
    obtain ⟨children, onward⟩ := carriedOut.isChild_iff_mirrors wellFormed isRoot follows isChild
    have there := children.mpr (mirrors key parent isChild (isTree.within_self isChild.holds))
    exact ⟨onward there, retains_of_isChild isChild there⟩

/-- All keys are retained if the donors mirror what the tree has below its outermost tree-references, and
only then. -/
theorem CarriedOut.retains_iff : (∀ key, Retains plan.source made key) ↔
    ∀ key, MirrorsDownTo plan.donors plan.source plan.kept key := by
  have isTree := (wellFormed plan.source List.mem_cons_self).isTree
  constructor
  · intro retains key lower parent isChild _
    have follows :=
      carriedOut.follows_of_retains wellFormed isRoot retains (isTree.parent_holds isChild)
    exact (carriedOut.isChild_iff_mirrors wellFormed isRoot follows isChild).1.mp
      ((retains lower).isChild isChild)
  · intro mirrors key standing found
    exact (carriedOut.follows_of_mirrors wellFormed isRoot ⟨_, found⟩ (mirrors key)).2 standing found

end CarriedOut

end Plan

end Expansion

/-- Above a key without a tree-reference above it there is nothing to mirror. -/
theorem Store.Open.mirrorsDownTo {source : Store C} {key : Key} (isOpen : source.Open key)
    (isTree : source.layout.IsTree) (stores : List (Store C)) (kept : Kept) :
    Expansion.MirrorsDownTo stores source kept key := by
  intro lower parent isChild within top reference outermost above
  have higher : source.layout.Within top lower := isChild.within above
  obtain rfl := isOpen top reference (higher.trans within) outermost.holds
  obtain rfl := higher.antisymm within
  exact absurd above (isChild.not_within isTree)

/-- If tree-references have no children, none stands above a key. -/
theorem Store.open_of_leaves {source : Store C} {key : Key} (isTree : source.layout.IsTree)
    (leaves : ∀ key parent reference, source.payload? parent = some (.treeReference reference) →
      ¬ source.layout.IsChild key parent) : source.Open key := by
  intro top reference within holds
  by_contra different
  obtain ⟨child, isChild, -⟩ := within.exists_child isTree different
  exact leaves child top reference holds isChild

/-- An expansion retains all keys of a tree, under the parents that they have there, exactly if the donors
mirror what the tree has below its outermost tree-references. A key that has no tree-reference above it is
always retained, so that nothing is lost of a tree whose tree-references have no children. -/
theorem Donors.expand_retains_iff {stores : List (Store C)} {source expanded : Store C} {kept : Kept}
    (reachable : ∀ store ∈ source :: stores, store.Reachable)
    (ok : ((ofStores stores).expand source.tree kept).result = .ok expanded) :
    ((∀ key, Expansion.Retains source expanded key) ↔
      ∀ key, Expansion.MirrorsDownTo stores source kept key) ∧
    (∀ key, source.Open key → Expansion.Retains source expanded key) ∧
    ((∀ key parent reference, source.payload? parent = some (.treeReference reference) →
        ¬ source.layout.IsChild key parent) → ∀ key, Expansion.Retains source expanded key) := by
  have wellFormed : ∀ store ∈ source :: stores, store.WellFormed :=
    fun store inside => (reachable store inside).wellFormed
  have wellFormedSource := wellFormed source List.mem_cons_self
  have isTree := wellFormedSource.isTree
  have iff_and_open : ((∀ key, Expansion.Retains source expanded key) ↔
      ∀ key, Expansion.MirrorsDownTo stores source kept key) ∧
      ∀ key, source.Open key → Expansion.Retains source expanded key := by
    cases isRoot : source.root with
    | none =>
        have nothing := wellFormedSource.layout_of_no_root isRoot
        have retains : ∀ key, Expansion.Retains source expanded key :=
          fun key standing found => nomatch (nothing key).symm.trans found
        refine ⟨iff_of_true retains fun key lower parent isChild => ?_, fun key _ => retains key⟩
        exact absurd (nothing lower) (Layout.holds_iff_ne_none.mp isChild.holds)
    | some root =>
        let plan : Expansion.Plan C := ⟨source, stores, kept⟩
        have carriedOut : plan.CarriedOut root expanded := plan.carriedOut_of_expand wellFormed isRoot ok
        refine ⟨carriedOut.retains_iff wellFormed isRoot, fun key isOpen standing found => ?_⟩
        exact (carriedOut.follows_of_mirrors wellFormed isRoot ⟨_, found⟩
          (isOpen.mirrorsDownTo isTree stores kept)).2 standing found
  obtain ⟨retains_iff, retained⟩ := iff_and_open
  exact ⟨retains_iff, retained, fun leaves key => retained key (Store.open_of_leaves isTree leaves)⟩

/-- A tree with a node of its own below a tree-reference into the chain. -/
def ragged : Store String :=
  .ofEdits ⟨2⟩ [.insert none (.exactly (.number 1)) (.content "own"),
    .insert (some (.number 1)) (.exactly (.number 2)) (.treeReference ⟨⟨1⟩, .number 2⟩),
    .insert (some (.number 2)) (.exactly (.number 5)) (.content "extra")]

theorem reachable_ragged : ∀ store ∈ [ragged, .chain], store.Reachable := by
  intro store inside
  simp only [List.mem_cons, List.not_mem_nil, or_false] at inside
  rcases inside with rfl | rfl <;> exact Store.reachable_ofEdits _ _

/-- The tree-reference keeps its place, and the donors do not mirror all that is below it. -/
theorem Donors.expand_retains_iff_ragged : (∀ store ∈ [ragged, .chain], store.Reachable) ∧
    ∃ expanded, ((ofStores [.chain]).expand ragged.tree).result = .ok expanded ∧
      expanded.entries = [(.number 1, .content "own"), (.number 2, .content "middle"),
        (.number 3, .content "leaf")] ∧
      Expansion.Retains ragged expanded (.number 2) ∧
      ¬ ∀ key, Expansion.MirrorsDownTo [.chain] ragged {} key := by
  have expands : (do
      let expanded ← (ofStores [.chain]).expand ragged.tree
      return (expanded.entries, expanded.layout (.number 5)) : Read _).result = .ok
        ([(.number 1, .content "own"), (.number 2, .content "middle"), (.number 3, .content "leaf")],
          none) := by decide +kernel
  obtain ⟨expanded, ok, told⟩ := Read.result_bind_eq_ok expands
  obtain ⟨entries, lost⟩ := Prod.mk.inj (Except.ok.inj told)
  obtain ⟨retains_iff, retained, -⟩ := expand_retains_iff reachable_ragged ok
  have single : ∀ key ∈ ragged.keys,
      (ragged.payload? key).any (·.isTreeReference) = true → key = .number 2 := by decide +kernel
  have isOpen : ragged.Open (.number 2) := fun top reference within holds =>
    single top (Store.mem_keys_iff.mpr within.top_holds) (by rw [holds]; rfl)
  refine ⟨reachable_ragged, expanded, ok, entries, retained _ isOpen, fun mirrors => ?_⟩
  have held : ragged.layout (.number 5) = some ⟨some (.number 2), .content "extra"⟩ := by decide +kernel
  obtain ⟨payload, there⟩ := retains_iff.mpr mirrors (.number 5) _ held
  cases lost.symm.trans there

/-- A tree with nodes below a tree-reference is a valid delta of its donor and is expanded, and a key is
lost. -/
theorem Donors.not_retains_of_ragged : (∀ store ∈ [ragged, .chain], store.Reachable) ∧
    ((⟨⟨1⟩, ragged⟩ : Delta String).verify Store.chain.tree).result = .ok () ∧
    ragged.layout (.number 5) = some ⟨some (.number 2), .content "extra"⟩ ∧
    ∃ expanded, ((ofStores [.chain]).expand ragged.tree).result = .ok expanded ∧
      (expanded.tree.contains (.number 5)).result = .ok false ∧
      ¬ Expansion.Retains ragged expanded (.number 5) := by
  have expands : (do
      let expanded ← (ofStores [.chain]).expand ragged.tree
      return (expanded.contains (.number 5), expanded.layout (.number 5)) : Read _).result =
        .ok (false, none) := by decide +kernel
  have held : ragged.layout (.number 5) = some ⟨some (.number 2), .content "extra"⟩ := by decide +kernel
  obtain ⟨expanded, ok, told⟩ := Read.result_bind_eq_ok expands
  obtain ⟨absent, lost⟩ := Prod.mk.inj (Except.ok.inj told)
  refine ⟨reachable_ragged, by decide +kernel, held, expanded, ok, congrArg Except.ok absent, ?_⟩
  intro retains
  obtain ⟨payload, there⟩ := retains _ held
  cases lost.symm.trans there

end VersionedTrees
