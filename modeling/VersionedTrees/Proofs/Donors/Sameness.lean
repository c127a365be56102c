import VersionedTrees.Proofs.Donors.Forest
import VersionedTrees.Proofs.Store.Reachable

/-!
# Sameness up to resolution

Two trees are the same up to resolution if they have the same root and the same keys, each key has the
same parent in both, and what it holds is equal or stands for the same content (`SameUpToResolution`). To
decide this, the first tree is walked, and each of its keys is looked up in the second one: it must have
the same content and the same children there. That is enough, since a key that only the second tree has
would be a child of a key that both have, and differ from its children in the first.

The answer does not depend on which of the two trees is walked: as long as the walk finds no difference,
the children are the same, so that both walks come to the same keys (`alike_preorder`).
-/

namespace VersionedTrees

variable {C : Type}

namespace Donors

/-- Payloads that are equal or stand for the same content. A reference that stands for nothing is only the
same as itself. -/
def SameContent (stores : List (Store C)) (left right : Payload C) : Prop :=
  left = right ∨ ∃ value, lent stores left = some value ∧ lent stores right = some value

/-- Sameness of content is an equivalence. A payload that two others share content with stands for one
content only. -/
theorem sameContent_equivalence (stores : List (Store C)) : Equivalence (SameContent stores) where
  refl _ := .inl rfl
  symm := by
    rintro left right (rfl | ⟨value, ours, theirs⟩)
    · exact .inl rfl
    · exact .inr ⟨value, theirs, ours⟩
  trans := by
    rintro left middle right (rfl | ⟨value, ours, theirs⟩) (rfl | ⟨value', theirs', last⟩)
    · exact .inl rfl
    · exact .inr ⟨value', theirs', last⟩
    · exact .inr ⟨value, ours, theirs⟩
    · obtain rfl := Option.some.inj (theirs.symm.trans theirs')
      exact .inr ⟨value, ours, last⟩

section Comparing

variable [DecidableEq C] {stores : List (Store C)} {left right : Payload C} {same : Bool}

/-- Payloads that differ are compared by what they stand for. -/
theorem result_sameContent_of_ne (different : left ≠ right) :
    ((ofStores stores).sameContent left right).result = .ok same ↔ ∃ ours theirs,
      lent stores left = some ours ∧ lent stores right = some theirs ∧ same = decide (ours = theirs) := by
  constructor
  · intro ok
    rw [sameContent, if_neg different] at ok
    obtain ⟨ours, resolved, ok⟩ := Read.result_bind_eq_ok ok
    obtain ⟨theirs, resolved', ok⟩ := Read.result_bind_eq_ok ok
    exact ⟨ours, theirs, result_resolve_iff.mp resolved, result_resolve_iff.mp resolved',
      (Except.ok.inj ok).symm⟩
  · rintro ⟨ours, theirs, lent, lent', rfl⟩
    exact result_sameContent lent lent'

theorem result_sameContent_self : ((ofStores stores).sameContent left left).result = .ok true := by
  rw [sameContent, if_pos rfl]
  rfl

/-- Payloads are found the same if they are. -/
theorem result_sameContent_iff :
    ((ofStores stores).sameContent left right).result = .ok true ↔ SameContent stores left right := by
  constructor
  · intro ok
    by_cases equal : left = right
    · exact .inl equal
    · obtain ⟨ours, theirs, lent, lent', same⟩ := (result_sameContent_of_ne equal).mp ok
      obtain rfl := of_decide_eq_true same.symm
      exact .inr ⟨ours, lent, lent'⟩
  · rintro (rfl | ⟨value, ours, theirs⟩)
    · exact result_sameContent_self
    · exact result_sameContent_of_lent ours theirs

/-- It does not matter which of two payloads comes first. -/
theorem result_sameContent_comm : ((ofStores stores).sameContent left right).result = .ok same ↔
    ((ofStores stores).sameContent right left).result = .ok same := by
  by_cases equal : left = right
  · rw [equal]
  · rw [result_sameContent_of_ne equal, result_sameContent_of_ne (Ne.symm equal)]
    constructor
    · rintro ⟨ours, theirs, lent, lent', rfl⟩
      exact ⟨theirs, ours, lent', lent, by simp only [eq_comm]⟩
    · rintro ⟨theirs, ours, lent', lent, rfl⟩
      exact ⟨ours, theirs, lent, lent', by simp only [eq_comm]⟩

end Comparing

/-! ## Checks -/

/-- A check goes on. -/
def Passes (check : OptionT Read Unit) : Prop :=
  check.run.result = .ok (some ())

/-- Two checks come to the same verdict. Where one fails to come to a verdict so does the other, maybe for
another reason. -/
def Alike (first second : OptionT Read Unit) : Prop :=
  ∀ verdict, first.run.result = .ok verdict ↔ second.run.result = .ok verdict

section Checks

variable {α : Type} {first second : OptionT Read Unit} {next other : OptionT Read Unit}
  {verdict : Option Unit}

/-- What follows a check is carried out if the check passes. -/
theorem result_run_bind_iff : (first >>= fun _ => next).run.result = .ok verdict ↔
    Passes first ∧ next.run.result = .ok verdict ∨
      first.run.result = .ok none ∧ verdict = none := by
  rw [Passes, OptionT.run_bind, Option.elimM, Read.result_bind]
  cases first.run.result with
  | error error => exact iff_of_false nofun fun ended => by simp at ended
  | ok passed =>
      cases passed with
      | none => simp [bind, Except.bind, eq_comm]
      | some _ => simp [bind, Except.bind]

theorem Alike.passes_iff (alike : Alike first second) : Passes first ↔ Passes second :=
  alike (some ())

theorem alike_refl (check : OptionT Read Unit) : Alike check check :=
  fun _ => Iff.rfl

/-- Checks that are alike may be followed by checks that are alike once the first ones pass. -/
theorem Alike.bind (alike : Alike first second) (rest : Passes first → Alike next other) :
    Alike (first >>= fun _ => next) (second >>= fun _ => other) := by
  intro verdict
  rw [result_run_bind_iff, result_run_bind_iff, alike none, ← alike.passes_iff]
  exact or_congr_left (and_congr_right fun passes => rest passes verdict)

/-- Checks of a list of items pass if each of them does. -/
theorem passes_forM_iff {items : List α} {check : α → OptionT Read Unit} :
    Passes (items.forM check) ↔ ∀ item ∈ items, Passes (check item) := by
  induction items with
  | nil => exact iff_of_true rfl fun _ impossible => absurd impossible List.not_mem_nil
  | cons item items inductionHypothesis =>
      rw [List.forall_mem_cons, ← inductionHypothesis]
      exact result_run_bind_iff.trans (or_iff_left fun stopped => nomatch stopped.2)

theorem alike_forM {items : List α} {check check' : α → OptionT Read Unit}
    (alike : ∀ item ∈ items, Alike (check item) (check' item)) :
    Alike (items.forM check) (items.forM check') := by
  induction items with
  | nil => exact alike_refl _
  | cons item items inductionHypothesis =>
      rw [List.forall_mem_cons] at alike
      exact alike.1.bind fun _ => inductionHypothesis alike.2

end Checks

/-! ## One key -/

section Keys

variable [DecidableEq C] {stores : List (Store C)} {left right : Store C} {key : Key}
  {verdict : Option Unit}

theorem result_requireThat (condition : Bool) :
    (requireThat condition).run.result = .ok (if condition then some () else none) := by
  cases condition <;> rfl

/-- A key that one of two trees does not have is a difference. -/
theorem result_requireSameNode_of_absent
    (absent : left.payload? key = none ∨ right.payload? key = none) :
    ((ofStores stores).requireSameNode left.tree right.tree key).run.result = .ok none := by
  have node : ∀ store : Store C, store.tree.node key = pure ((store.payload? key).map (⟨key, ·⟩)) :=
    fun _ => rfl
  rw [requireSameNode, node, node]
  simp only [OptionT.lift_pure, pure_bind]
  rcases absent with absent | absent
  · rw [absent]
    rfl
  · rw [absent]
    cases left.payload? key <;> rfl

/-- A key that two trees have is compared by its content and, if that is the same, by its children. -/
theorem result_requireSameNode_iff {ours theirs : Payload C} (there : left.payload? key = some ours)
    (there' : right.payload? key = some theirs) :
    ((ofStores stores).requireSameNode left.tree right.tree key).run.result = .ok verdict ↔ ∃ same,
      ((ofStores stores).sameContent ours theirs).result = .ok same ∧ verdict =
        if same = true ∧ left.tree.childList key = right.tree.childList key then some () else none := by
  have node : ∀ store : Store C, store.tree.node key = pure ((store.payload? key).map (⟨key, ·⟩)) :=
    fun _ => rfl
  rw [requireSameNode, node, node, there, there', Store.children_eq_pure (Store.holds_of_payload? there),
    Store.children_eq_pure (Store.holds_of_payload? there')]
  simp only [OptionT.lift_pure, pure_bind, Option.map_some, OptionT.run_bind, OptionT.run_lift,
    Option.elimM, Read.result_bind]
  cases ((ofStores stores).sameContent ours theirs).result with
  | error error => simp [bind, Except.bind]
  | ok same => cases same <;> simp [bind, Except.bind, result_requireThat, eq_comm]

/-- A key passes if both trees have it with the same content and the same children. -/
theorem passes_requireSameNode_iff :
    Passes ((ofStores stores).requireSameNode left.tree right.tree key) ↔ ∃ ours theirs,
      left.payload? key = some ours ∧ right.payload? key = some theirs ∧
        SameContent stores ours theirs ∧ left.tree.childList key = right.tree.childList key := by
  constructor
  · intro passes
    cases there : left.payload? key with
    | none => cases passes.symm.trans (result_requireSameNode_of_absent (.inl there))
    | some ours =>
        cases there' : right.payload? key with
        | none => cases passes.symm.trans (result_requireSameNode_of_absent (.inr there'))
        | some theirs =>
            obtain ⟨same, compared, verdict⟩ := (result_requireSameNode_iff there there').mp passes
            split at verdict
            · rename_i both
              obtain ⟨rfl, children⟩ := both
              exact ⟨ours, theirs, rfl, rfl, result_sameContent_iff.mp compared, children⟩
            · cases verdict
  · rintro ⟨ours, theirs, there, there', same, children⟩
    exact (result_requireSameNode_iff there there').mpr
      ⟨true, result_sameContent_iff.mpr same, by simp [children]⟩

/-- A key is compared alike from either tree. -/
theorem alike_requireSameNode (stores : List (Store C)) (left right : Store C) (key : Key) :
    Alike ((ofStores stores).requireSameNode left.tree right.tree key)
      ((ofStores stores).requireSameNode right.tree left.tree key) := by
  intro verdict
  cases there : left.payload? key with
  | none =>
      rw [result_requireSameNode_of_absent (.inl there), result_requireSameNode_of_absent (.inr there)]
  | some ours =>
      cases there' : right.payload? key with
      | none =>
          rw [result_requireSameNode_of_absent (.inr there'),
            result_requireSameNode_of_absent (.inl there')]
      | some theirs =>
          have compared : ∀ same, ((ofStores stores).sameContent ours theirs).result = .ok same ↔
              ((ofStores stores).sameContent theirs ours).result = .ok same :=
            fun _ => result_sameContent_comm
          simp only [result_requireSameNode_iff there there', result_requireSameNode_iff there' there,
            compared, eq_comm (a := left.tree.childList key)]

end Keys

/-! ## The walk -/

section Walk

variable [DecidableEq C] {stores : List (Store C)} {left right : Store C} {answer : Bool}

/-- From either tree the walk below a key comes to the same verdict: if the key passes, its children are
the same in both trees. -/
theorem alike_preorder (stores : List (Store C)) (left right : Store C) (levels : Nat) (key : Key) :
    Alike ((preorder left.tree.childList levels key).forM
        ((ofStores stores).requireSameNode left.tree right.tree))
      ((preorder right.tree.childList levels key).forM
        ((ofStores stores).requireSameNode right.tree left.tree)) := by
  induction levels generalizing key with
  | zero => exact alike_refl _
  | succ levels inductionHypothesis =>
      refine (alike_requireSameNode stores left right key).bind fun passes => ?_
      obtain ⟨-, -, -, -, -, children⟩ := passes_requireSameNode_iff.mp passes
      rw [forM_flatMap_list, forM_flatMap_list, ← children]
      exact alike_forM fun child _ => inductionHypothesis child

/-- Trees with different roots are not the same. -/
theorem result_sameTree_of_root_ne (different : left.root ≠ right.root) :
    ((ofStores stores).sameTree left.tree right.tree).result = .ok false := by
  change (if left.root = right.root then _ else _ : Read Bool).result = _
  rw [if_neg different]
  rfl

section Rooted

variable (wellFormed : left.WellFormed) (sameRoot : left.root = right.root)
include wellFormed sameRoot

/-- Trees with one root are compared key by key. -/
theorem result_sameTree_iff_forM :
    ((ofStores stores).sameTree left.tree right.tree).result = .ok answer ↔ ∃ verdict,
      ((left.rows.map Prod.fst).forM
        ((ofStores stores).requireSameNode left.tree right.tree)).run.result = .ok verdict ∧
          answer = verdict.isSome := by
  have rooted : (ofStores stores).sameTree left.tree right.tree = if left.root = right.root then
      (do return (← (left.tree.visit
        ((ofStores stores).requireSameNode left.tree right.tree)).run).isSome)
      else return false := rfl
  rw [rooted, if_pos sameRoot, wellFormed.visit_eq]
  constructor
  · intro ok
    obtain ⟨verdict, walked, ok⟩ := Read.result_bind_eq_ok ok
    exact ⟨verdict, walked, (Except.ok.inj ok).symm⟩
  · rintro ⟨verdict, walked, rfl⟩
    exact Read.result_bind_of_ok walked

/-- From either tree the walk comes to the same verdict. -/
theorem alike_rows (wellFormed' : right.WellFormed) :
    Alike ((left.rows.map Prod.fst).forM
        ((ofStores stores).requireSameNode left.tree right.tree))
      ((right.rows.map Prod.fst).forM
        ((ofStores stores).requireSameNode right.tree left.tree)) := by
  rw [Store.rows, Store.rows, ← sameRoot]
  cases found : left.root with
  | none => exact alike_refl _
  | some root =>
      have holds := ((wellFormed.root root).mp found).holds
      have holds' := ((wellFormed'.root root).mp (sameRoot ▸ found)).holds
      rw [Option.elim_some, Option.elim_some, wellFormed.map_fst_rowsFrom holds,
        wellFormed'.map_fst_rowsFrom holds',
        ← preorder_eq_of_exhausts (wellFormed.shows.exhausts holds (Nat.le_refl _))
          (Nat.le_max_left _ right.tree.span),
        ← preorder_eq_of_exhausts (wellFormed'.shows.exhausts holds' (Nat.le_refl _))
          (Nat.le_max_right left.tree.span _)]
      exact alike_preorder stores left right _ root

end Rooted

/-- It does not matter which of two trees comes first. -/
theorem result_sameTree_comm (wellFormed : left.WellFormed) (wellFormed' : right.WellFormed) :
    ((ofStores stores).sameTree left.tree right.tree).result = .ok answer ↔
      ((ofStores stores).sameTree right.tree left.tree).result = .ok answer := by
  by_cases sameRoot : left.root = right.root
  · rw [result_sameTree_iff_forM wellFormed sameRoot, result_sameTree_iff_forM wellFormed' sameRoot.symm]
    exact exists_congr fun verdict =>
      and_congr_left' (alike_rows wellFormed sameRoot wellFormed' verdict)
  · rw [result_sameTree_of_root_ne sameRoot, result_sameTree_of_root_ne (Ne.symm sameRoot)]

end Walk

end Donors

/-! ## Sameness of trees -/

/-- Two stores have the same root and the same keys, each key has the same parent in both, and what it
holds is equal or stands for the same content. -/
structure SameUpToResolution (stores : List (Store C)) (left right : Store C) : Prop where
  root : left.root = right.root
  holds : ∀ key, left.layout.Holds key ↔ right.layout.Holds key
  standing : ∀ key ours theirs, left.layout key = some ours → right.layout key = some theirs →
    ours.parent = theirs.parent ∧ Donors.SameContent stores ours.payload theirs.payload

namespace SameUpToResolution

variable {stores : List (Store C)} {left middle right : Store C} {key parent : Key}

theorem refl (stores : List (Store C)) (store : Store C) : SameUpToResolution stores store store where
  root := rfl
  holds _ := Iff.rfl
  standing key ours theirs found found' := by
    obtain rfl := Option.some.inj (found.symm.trans found')
    exact ⟨rfl, (Donors.sameContent_equivalence stores).refl _⟩

theorem symm (same : SameUpToResolution stores left right) : SameUpToResolution stores right left where
  root := same.root.symm
  holds key := (same.holds key).symm
  standing key ours theirs found found' := by
    obtain ⟨parent, content⟩ := same.standing key theirs ours found' found
    exact ⟨parent.symm, (Donors.sameContent_equivalence stores).symm content⟩

theorem trans (first : SameUpToResolution stores left middle)
    (second : SameUpToResolution stores middle right) : SameUpToResolution stores left right where
  root := first.root.trans second.root
  holds key := (first.holds key).trans (second.holds key)
  standing key ours theirs found found' := by
    obtain ⟨between, there⟩ := (first.holds key).mp ⟨ours, found⟩
    obtain ⟨parent, content⟩ := first.standing key ours between found there
    obtain ⟨parent', content'⟩ := second.standing key between theirs there found'
    exact ⟨parent.trans parent', (Donors.sameContent_equivalence stores).trans content content'⟩

/-- In trees that are the same up to resolution a key has the same children. -/
theorem isChild_iff (same : SameUpToResolution stores left right) :
    left.layout.IsChild key parent ↔ right.layout.IsChild key parent := by
  have lifts : ∀ {one other : Store C}, SameUpToResolution stores one other →
      one.layout.IsChild key parent → other.layout.IsChild key parent := by
    rintro one other same ⟨payload, found⟩
    obtain ⟨⟨above, payload'⟩, found'⟩ := (same.holds key).mp ⟨_, found⟩
    obtain ⟨rfl, -⟩ := same.standing key _ _ found found'
    exact ⟨payload', found'⟩
  exact ⟨lifts same, lifts same.symm⟩

variable [DecidableEq C] (wellFormed : left.WellFormed) (wellFormed' : right.WellFormed)
include wellFormed wellFormed'

/-- Trees with one root are the same up to resolution if every key of the first passes. -/
theorem of_passes (sameRoot : left.root = right.root) (passes : ∀ key, left.layout.Holds key →
      Donors.Passes ((Donors.ofStores stores).requireSameNode left.tree right.tree key)) :
    SameUpToResolution stores left right := by
  have lifts : ∀ key parent, left.layout.IsChild key parent → right.layout.IsChild key parent := by
    intro key parent isChild
    obtain ⟨-, -, -, -, -, children⟩ :=
      Donors.passes_requireSameNode_iff.mp (passes parent (wellFormed.isTree.parent_holds isChild))
    exact (wellFormed'.listed.mem_iff parent key).mp
      (children ▸ (wellFormed.listed.mem_iff parent key).mpr isChild)
  refine ⟨sameRoot, fun key => ⟨fun holds => ?_, fun holds => ?_⟩, ?_⟩
  · obtain ⟨_, _, -, there, -⟩ := Donors.passes_requireSameNode_iff.mp (passes key holds)
    exact Store.holds_of_payload? there
  · -- a key that only the second tree has hangs below one that passes
    refine wellFormed'.isTree.induction key holds ?_ ?_
    · intro key isRoot
      rw [← wellFormed'.root, ← sameRoot, wellFormed.root] at isRoot
      exact isRoot.holds
    · intro key parent isChild _ above
      obtain ⟨-, -, -, -, -, children⟩ := Donors.passes_requireSameNode_iff.mp (passes parent above)
      have listed := (wellFormed'.listed.mem_iff parent key).mpr isChild
      rw [← children] at listed
      exact ((wellFormed.listed.mem_iff parent key).mp listed).holds
  · rintro key ⟨above, payload⟩ theirs found found'
    constructor
    · cases above with
      | none =>
          have isRoot : left.layout.IsRoot key := ⟨payload, found⟩
          rw [← wellFormed.root, sameRoot, wellFormed'.root] at isRoot
          obtain ⟨payload', there⟩ := isRoot
          rw [found'] at there
          cases there
          rfl
      | some parent =>
          obtain ⟨payload', there⟩ := lifts key parent ⟨payload, found⟩
          rw [found'] at there
          cases there
          rfl
    · obtain ⟨ours, other, there, there', same, -⟩ :=
        Donors.passes_requireSameNode_iff.mp (passes key ⟨_, found⟩)
      rw [Store.payload?_of_layout found] at there
      rw [Store.payload?_of_layout found'] at there'
      obtain rfl := Option.some.inj there
      obtain rfl := Option.some.inj there'
      exact same

/-- Every key of a tree passes where another tree is the same up to resolution. -/
theorem passes (same : SameUpToResolution stores left right) (holds : left.layout.Holds key) :
    Donors.Passes ((Donors.ofStores stores).requireSameNode left.tree right.tree key) := by
  obtain ⟨theirs, found'⟩ := (same.holds key).mp holds
  obtain ⟨ours, found⟩ := holds
  exact Donors.passes_requireSameNode_iff.mpr ⟨ours.payload, theirs.payload,
    Store.payload?_of_layout found, Store.payload?_of_layout found',
    (same.standing key ours theirs found found').2,
    wellFormed.listed.eq_of_isChild_iff wellFormed'.listed fun _ => same.isChild_iff⟩

/-- The walk finds trees the same exactly if they are. -/
theorem result_sameTree_iff :
    ((Donors.ofStores stores).sameTree left.tree right.tree).result = .ok true ↔
      SameUpToResolution stores left right := by
  constructor
  · intro ok
    have sameRoot : left.root = right.root := by
      by_contra different
      cases ok.symm.trans (Donors.result_sameTree_of_root_ne different)
    obtain ⟨verdict, walked, passed⟩ := (Donors.result_sameTree_iff_forM wellFormed sameRoot).mp ok
    obtain ⟨⟨⟩, rfl⟩ := Option.isSome_iff_exists.mp passed.symm
    refine of_passes wellFormed wellFormed' sameRoot fun key holds => ?_
    exact Donors.passes_forM_iff.mp walked key (wellFormed.mem_map_rows_iff.mpr holds)
  · intro same
    refine (Donors.result_sameTree_iff_forM wellFormed same.root).mpr ⟨some (), ?_, rfl⟩
    exact Donors.passes_forM_iff.mpr fun key inside =>
      same.passes wellFormed wellFormed' (wellFormed.mem_map_rows_iff.mp inside)

end SameUpToResolution

/-- Two trees are found the same exactly if they are the same up to resolution, whichever of them comes
first. Every tree is found the same as itself, and what is found the same as a third tree is found the
same. -/
theorem Donors.sameTree_decides_sameness [DecidableEq C] {stores : List (Store C)}
    {left right : Store C} (reachable : left.Reachable) (reachable' : right.Reachable) :
    (((ofStores stores).sameTree left.tree right.tree).result = .ok true ↔
      SameUpToResolution stores left right) ∧
    (∀ answer, ((ofStores stores).sameTree left.tree right.tree).result = .ok answer ↔
      ((ofStores stores).sameTree right.tree left.tree).result = .ok answer) ∧
    ((ofStores stores).sameTree left.tree left.tree).result = .ok true ∧
    ∀ last : Store C, last.Reachable →
      ((ofStores stores).sameTree left.tree right.tree).result = .ok true →
      ((ofStores stores).sameTree right.tree last.tree).result = .ok true →
      ((ofStores stores).sameTree left.tree last.tree).result = .ok true := by
  have wellFormed := reachable.wellFormed
  have wellFormed' := reachable'.wellFormed
  refine ⟨SameUpToResolution.result_sameTree_iff wellFormed wellFormed',
    fun answer => result_sameTree_comm wellFormed wellFormed',
    (SameUpToResolution.result_sameTree_iff wellFormed wellFormed).mpr (.refl stores left), ?_⟩
  intro last reachable'' first second
  have wellFormed'' := reachable''.wellFormed
  rw [SameUpToResolution.result_sameTree_iff wellFormed wellFormed'] at first
  rw [SameUpToResolution.result_sameTree_iff wellFormed' wellFormed''] at second
  exact (SameUpToResolution.result_sameTree_iff wellFormed wellFormed'').mpr (first.trans second)

/-- A tree under the keys of the chain, with a leaf that stands for nothing. -/
def chainLike (id : UInt64) (root middle : Payload String) : Store String :=
  .ofEdits ⟨id⟩ [.insert none (.exactly (.number 1)) root,
    .insert (some (.number 1)) (.exactly (.number 2)) middle,
    .insert (some (.number 2)) (.exactly (.number 3)) (.nodeReference ⟨⟨9⟩, .number 9⟩)]

/-- Trees that spell out different parts of the chain are found the same, one by way of another. A tree
with other content is not. -/
theorem Donors.sameTree_decides_sameness_chain :
    (chainLike 2 (.content "root") (.nodeReference ⟨⟨1⟩, .number 2⟩)).Reachable ∧
      (chainLike 3 (.nodeReference ⟨⟨1⟩, .number 1⟩) (.content "middle")).Reachable ∧
      (chainLike 4 (.content "root") (.treeReference ⟨⟨1⟩, .number 2⟩)).Reachable ∧
      (chainLike 5 (.content "root") (.nodeReference ⟨⟨1⟩, .number 3⟩)).Reachable ∧
      SameUpToResolution [.chain] (chainLike 2 (.content "root") (.nodeReference ⟨⟨1⟩, .number 2⟩))
        (chainLike 3 (.nodeReference ⟨⟨1⟩, .number 1⟩) (.content "middle")) ∧
      ((ofStores [.chain]).sameTree
        (chainLike 2 (.content "root") (.nodeReference ⟨⟨1⟩, .number 2⟩)).tree
        (chainLike 4 (.content "root") (.treeReference ⟨⟨1⟩, .number 2⟩)).tree).result = .ok true ∧
      ((ofStores [.chain]).sameTree
        (chainLike 5 (.content "root") (.nodeReference ⟨⟨1⟩, .number 3⟩)).tree
        (chainLike 2 (.content "root") (.nodeReference ⟨⟨1⟩, .number 2⟩)).tree).result = .ok false := by
  have reachable : ∀ id root middle, (chainLike id root middle).Reachable :=
    fun _ _ _ => Store.reachable_ofEdits _ _
  obtain ⟨decides, -, -, transfers⟩ := @sameTree_decides_sameness _ _ [.chain] _ _
    (reachable 2 (.content "root") (.nodeReference ⟨⟨1⟩, .number 2⟩))
    (reachable 3 (.nodeReference ⟨⟨1⟩, .number 1⟩) (.content "middle"))
  obtain ⟨-, swaps, -, -⟩ := @sameTree_decides_sameness _ _ [.chain] _ _
    (reachable 2 (.content "root") (.nodeReference ⟨⟨1⟩, .number 2⟩))
    (reachable 5 (.content "root") (.nodeReference ⟨⟨1⟩, .number 3⟩))
  refine ⟨reachable _ _ _, reachable _ _ _, reachable _ _ _, reachable _ _ _,
    decides.mp (by decide +kernel), ?_, (swaps false).mp (by decide +kernel)⟩
  exact transfers _ (reachable _ _ _) (by decide +kernel) (by decide +kernel)

end VersionedTrees
