import VersionedTrees.Proofs.Donors.Plans

/-!
# Carrying out a plan

An expansion succeeds exactly if every node that it comes to contributes something and no key comes twice, and
then the planned rows stand in it (`Plan.carriedOut_of_expand`, `Plan.exists_expand`). The levels of the visit
suffice, since from a node of the tree itself a reference leads into one donor and not out of it
(`Plan.exhausts_steps`).
-/

namespace VersionedTrees

variable {C : Type}

namespace Store

variable {store : Store C} {key : Key} {payload : Payload C}

/-- The payload of a node is read as the store has it. -/
theorem result_payload_iff :
    (store.tree.payload key).result = .ok payload ↔ store.payload? key = some payload := by
  have read : (store.tree.node key).result = .ok (store.node? key) := rfl
  rw [Tree.payload, Read.result_bind_of_ok read, node?]
  cases store.payload? key with
  | none => exact iff_of_false (fun ok => by cases ok) (fun same => by cases same)
  | some other => exact ⟨fun ok => congrArg some (Except.ok.inj ok),
      fun same => congrArg Except.ok (Option.some.inj same)⟩

/-- The children of a node are read as the store lists them. -/
theorem result_children (found : store.payload? key = some payload) :
    (store.tree.children key).result = .ok (store.tree.childList key) := by
  rw [children_eq_pure (holds_of_payload? found)]
  rfl

end Store

namespace Expansion

/-- An expansion visits as many levels as a tree and one donor have together. -/
theorem exists_levels_eq (tree : Tree C) (donors : Donors C) : ∃ bound,
    levels tree donors = tree.span + bound + 2 ∧ ∀ donor ∈ donors.trees, donor.span ≤ bound := by
  obtain ⟨trees⟩ := donors
  rw [levels]
  generalize tree.span = total
  induction trees generalizing total with
  | nil => exact ⟨0, rfl, fun _ impossible => absurd impossible List.not_mem_nil⟩
  | cons donor trees inductionHypothesis =>
      obtain ⟨bound, same, spans⟩ := inductionHypothesis (total + donor.span)
      rw [Nat.add_right_comm] at same
      refine ⟨donor.span + bound, by rw [List.foldl_cons, same]; omega, fun other inside => ?_⟩
      rcases List.mem_cons.mp inside with rfl | inside
      · exact Nat.le_add_right _ _
      · exact Nat.le_trans (spans other inside) (Nat.le_add_left _ _)

namespace Plan

variable {plan : Plan C} {store : Store C} {item : Item} {key root : Key} {above : Option Key}
  {payload : Payload C}

/-! ## What a step does -/

/-- A node whose reference is kept is left as it is. -/
theorem result_expandOwn_kept (held : plan.source.payload? key = some payload)
    (keeps : payload.reference?.any (plan.kept.keeps key ·.key) = true) :
    (expandOwn plan.source.tree plan.kept (Donors.ofStores plan.donors) key).result =
      .ok ⟨key, payload, plan.below (.own key), false⟩ := by
  have children := Store.result_children held
  rw [expandOwn, Read.result_bind_of_ok (Store.result_payload_iff.mpr held), below, held]
  cases payload with
  | content value => cases keeps
  | nodeReference reference =>
      have keeps : plan.kept.keeps key reference.key = true := keeps
      dsimp only
      rw [if_pos keeps]
      exact Read.result_bind_of_ok children
  | treeReference reference =>
      have keeps : plan.kept.keeps key reference.key = true := keeps
      dsimp only
      rw [if_pos keeps, if_pos keeps]
      rfl

/-- A node whose payload is not kept is replaced by the content that it stands for. -/
theorem result_expandOwn_taken {value : C} (held : plan.source.payload? key = some payload)
    (goes : ¬ payload.reference?.any (plan.kept.keeps key ·.key) = true)
    (lent : Donors.lent plan.donors payload = some value) : ∃ materialized,
    (expandOwn plan.source.tree plan.kept (Donors.ofStores plan.donors) key).result =
      .ok ⟨key, .content value, plan.below (.own key), materialized⟩ := by
  have children := Store.result_children held
  have resolved := Donors.result_resolve_iff.mpr lent
  rw [expandOwn, Read.result_bind_of_ok (Store.result_payload_iff.mpr held), below, held]
  cases payload with
  | content other =>
      obtain rfl := Option.some.inj lent
      exact ⟨false, Read.result_bind_of_ok children⟩
  | nodeReference reference =>
      have goes : ¬ plan.kept.keeps key reference.key = true := goes
      dsimp only
      rw [if_neg goes]
      exact ⟨true, (Read.result_bind_of_ok resolved).trans (Read.result_bind_of_ok children)⟩
  | treeReference reference =>
      have goes : ¬ plan.kept.keeps key reference.key = true := goes
      obtain ⟨donor, counts, holds⟩ := (Donors.lent_eq_some_iff rfl).mp lent
      have find : ((Donors.ofStores plan.donors).find reference.tree).result = .ok donor.tree := by
        rw [Donors.find_ofStores, counts]
        rfl
      dsimp only
      rw [if_neg goes, if_neg goes, copies_of_storeOf counts]
      exact ⟨true, (Read.result_bind_of_ok find).trans ((Read.result_bind_of_ok resolved).trans
        (Read.result_bind_of_ok (Store.result_children holds)))⟩

/-- A donor node that contributes something is copied, or kept as a reference to itself. -/
theorem result_expandDonor {id : TreeId} (planned : plan.payload? (.donor id key) = some payload) :
    ∃ materialized, (expandDonor plan.kept (Donors.ofStores plan.donors) id key).result =
      .ok ⟨key, payload, plan.below (.donor id key), materialized⟩ := by
  rw [payload?] at planned
  rw [expandDonor, below]
  by_cases keeps : plan.kept.keeps key key = true
  · rw [if_pos keeps] at planned ⊢
    rw [if_pos keeps]
    obtain rfl := Option.some.inj planned
    exact ⟨false, rfl⟩
  · rw [if_neg keeps] at planned ⊢
    rw [if_neg keeps]
    obtain ⟨donor, counts, held⟩ := Option.bind_eq_some_iff.mp planned
    have find : ((Donors.ofStores plan.donors).find id).result = .ok donor.tree := by
      rw [Donors.find_ofStores, counts]
      rfl
    rw [copies_of_storeOf counts]
    exact ⟨true, (Read.result_bind_of_ok find).trans
      ((Read.result_bind_of_ok (Store.result_payload_iff.mpr held)).trans
        (Read.result_bind_of_ok (Store.result_children held)))⟩

/-- A node that contributes something is expanded to it. -/
theorem result_expandNode {origin : Origin} (planned : plan.payload? origin = some payload) :
    ∃ materialized, (expandNode plan.source.tree plan.kept (Donors.ofStores plan.donors) origin).result =
      .ok ⟨origin.key, payload, plan.below origin, materialized⟩ := by
  cases origin with
  | donor id key => exact result_expandDonor planned
  | own key =>
      obtain ⟨own, held, -⟩ := Option.bind_eq_some_iff.mp planned
      rw [payload?_own held] at planned
      by_cases keeps : own.reference?.any (plan.kept.keeps key ·.key) = true
      · rw [if_pos keeps] at planned
        obtain rfl := Option.some.inj planned
        exact ⟨false, result_expandOwn_kept held keeps⟩
      · rw [if_neg keeps] at planned
        obtain ⟨value, lent, rfl⟩ := Option.map_eq_some_iff.mp planned
        exact result_expandOwn_taken held keeps lent

/-- A node that is expanded contributes something. -/
theorem exists_payload_of_expandNode {origin : Origin} {outcome : Outcome C}
    (ok : (expandNode plan.source.tree plan.kept (Donors.ofStores plan.donors) origin).result = .ok outcome) :
    ∃ payload, plan.payload? origin = some payload := by
  cases origin with
  | own key =>
      obtain ⟨own, read, ok⟩ := Read.result_bind_eq_ok ok
      have held := Store.result_payload_iff.mp read
      rw [payload?_own held]
      by_cases keeps : own.reference?.any (plan.kept.keeps key ·.key) = true
      · rw [if_pos keeps]
        exact ⟨own, rfl⟩
      · rw [if_neg keeps]
        cases own with
        | content value => exact ⟨_, rfl⟩
        | nodeReference reference =>
            have goes : ¬ plan.kept.keeps key reference.key = true := keeps
            dsimp only at ok
            rw [if_neg goes] at ok
            obtain ⟨value, resolved, -⟩ := Read.result_bind_eq_ok ok
            rw [Donors.result_resolve_iff.mp resolved]
            exact ⟨_, rfl⟩
        | treeReference reference =>
            have goes : ¬ plan.kept.keeps key reference.key = true := keeps
            dsimp only at ok
            rw [if_neg goes] at ok
            obtain ⟨_, -, ok⟩ := Read.result_bind_eq_ok ok
            obtain ⟨value, resolved, -⟩ := Read.result_bind_eq_ok ok
            rw [Donors.result_resolve_iff.mp resolved]
            exact ⟨_, rfl⟩
  | donor id key =>
      rw [payload?]
      by_cases keeps : plan.kept.keeps key key = true
      · rw [if_pos keeps]
        exact ⟨_, rfl⟩
      · rw [if_neg keeps]
        rw [expandNode, expandDonor, if_neg keeps] at ok
        obtain ⟨donor, found, ok⟩ := Read.result_bind_eq_ok ok
        obtain ⟨payload, read, -⟩ := Read.result_bind_eq_ok ok
        rw [Donors.find_ofStores, Read.result_orFail_eq_ok_iff, Option.map_eq_some_iff] at found
        obtain ⟨store, counts, rfl⟩ := found
        rw [counts, Option.bind_some, Store.result_payload_iff.mp read]
        exact ⟨_, rfl⟩

theorem row_of_payload? {item : Item} (planned : plan.payload? item.1 = some payload) :
    plan.row item = [(item.1.key, ⟨item.2, payload⟩)] := by
  rw [row, planned]
  rfl

/-- A step at a node that contributes something adds its row and goes on below it. -/
theorem plants_step {item : Item} {id : TreeId} {expansion : Expansion C} {layout : Layout C}
    (planned : plan.payload? item.1 = some payload) (builds : Builds id expansion layout)
    (room : layout.Room item.2) :
    Plants (Builds id) True (step plan.source.tree plan.kept (Donors.ofStores plan.donors) item)
      expansion layout (plan.row item) (plan.next item) := by
  obtain ⟨origin, above⟩ := item
  obtain ⟨materialized, expanded⟩ := result_expandNode planned
  have counted : Builds id { expansion with
      materialized := expansion.materialized + materialized.toNat } layout := builds
  have stepped : (step plan.source.tree plan.kept (Donors.ofStores plan.donors) (origin, above)).effect
        expansion = (add origin.key above payload >>= fun _ => pure (plan.next (origin, above))).effect
        { expansion with materialized := expansion.materialized + materialized.toNat } :=
    (Edit.effect_liftM_bind expanded).trans (Edit.effect_bind_of_ok (Edit.effect_modify _ _))
  apply Plants.congr _ stepped
  rw [row_of_payload? planned, ← List.append_nil [_]]
  apply (plants_add counted room payload).bind
  intro fresh middle builds
  exact plants_pure builds _

/-- A step that succeeds is at a node that contributes something. -/
theorem planned_of_step {item : Item} {below : List Item} {expansion after : Expansion C}
    (ok : (step plan.source.tree plan.kept (Donors.ofStores plan.donors) item).effect expansion =
      (.ok below, after)) :
    below = plan.next item ∧ ∃ payload, plan.payload? item.1 = some payload := by
  obtain ⟨origin, above⟩ := item
  obtain ⟨outcome, middle, expanded, ok⟩ := Edit.effect_bind_eq_ok ok
  rw [Edit.effect_liftM, Prod.mk.injEq] at expanded
  obtain ⟨payload, planned⟩ := exists_payload_of_expandNode expanded.1
  obtain ⟨materialized, expanded'⟩ := result_expandNode planned
  obtain rfl := Except.ok.inj (expanded.1.symm.trans expanded')
  obtain ⟨⟨⟩, _, -, ok⟩ := Edit.effect_bind_eq_ok ok
  obtain ⟨⟨⟩, _, -, ok⟩ := Edit.effect_bind_eq_ok ok
  exact ⟨(Except.ok.inj (Prod.mk.inj ok).1).symm, payload, planned⟩

/-! ## The visit -/

section Visit

variable (wellFormed : ∀ store ∈ plan.source :: plan.donors, store.WellFormed)

/-- From a donor node the visit goes as deep as the donor. -/
theorem exhausts_donor {id : TreeId} {levels : Nat} {above : Option Key}
    (counts : Donors.storeOf plan.donors id = some store)
    (enough : Exhausts store.tree.childList levels key) :
    Exhausts plan.next levels (.donor id key, above) := by
  induction levels generalizing key above with
  | zero => exact enough.elim
  | succ levels inductionHypothesis =>
      refine List.forall_mem_map.mpr fun origin inside => ?_
      change origin ∈ plan.below (.donor id key) at inside
      rw [below] at inside
      split at inside
      · exact absurd inside List.not_mem_nil
      · rw [copies_of_storeOf counts] at inside
        obtain ⟨child, listed, rfl⟩ := List.mem_map.mp inside
        exact inductionHypothesis (enough child listed)

include wellFormed

/-- From a node of the tree itself the visit goes as deep as the tree and one donor. -/
theorem exhausts_own {levels bound : Nat} {above : Option Key}
    (spans : ∀ store ∈ plan.donors, store.tree.span ≤ bound)
    (enough : Exhausts plan.source.tree.childList levels key) :
    Exhausts plan.next (levels + bound) (.own key, above) := by
  induction levels generalizing key above with
  | zero => exact enough.elim
  | succ levels inductionHypothesis =>
      rw [Nat.add_right_comm]
      refine List.forall_mem_map.mpr fun origin inside => ?_
      rcases mem_below_own inside with ⟨child, listed, rfl⟩ | ⟨id, donor, top, child, counts, listed, rfl⟩
      · exact inductionHypothesis (enough child listed)
      · have among := Donors.mem_of_storeOf counts
        have donorWellFormed := wellFormed donor (List.mem_cons_of_mem _ among)
        have spanned := donorWellFormed.shows.exhausts
          ((donorWellFormed.listed.mem_iff top child).mp listed).holds (Nat.le_refl _)
        exact (exhausts_donor counts spanned).mono
          (Nat.le_trans (spans donor among) (Nat.le_add_left _ _))

/-- The steps are all there are. -/
theorem exhausts_steps (isRoot : plan.source.root = some root) :
    Exhausts plan.next (Expansion.levels plan.source.tree (Donors.ofStores plan.donors))
      (.own root, none) := by
  obtain ⟨bound, levels, spans⟩ := exists_levels_eq plan.source.tree (Donors.ofStores plan.donors)
  have wellFormedSource := wellFormed plan.source List.mem_cons_self
  have holds := ((wellFormedSource.root root).mp isRoot).holds
  have spanned := wellFormedSource.shows.exhausts holds (Nat.le_refl _)
  rw [levels]
  exact (exhausts_own wellFormed (fun store inside => spans store.tree (List.mem_map_of_mem inside))
    spanned).mono (Nat.le_add_right _ 2)

theorem mem_steps_root (isRoot : plan.source.root = some root) : (.own root, none) ∈ plan.steps root :=
  mem_preorder_self (exhausts_steps wellFormed isRoot)

theorem mem_steps_next {item below : Item} (isRoot : plan.source.root = some root)
    (inside : item ∈ plan.steps root) (follows : below ∈ plan.next item) : below ∈ plan.steps root :=
  mem_preorder_next (exhausts_steps wellFormed isRoot) inside follows

/-- If every node contributes something, the visit plants the planned rows. -/
theorem plants_visit (isRoot : plan.source.root = some root) (complete : plan.Complete root) :
    Plants (Builds plan.source.id) True
      (depthFirst (step plan.source.tree plan.kept (Donors.ofStores plan.donors))
        (Expansion.levels plan.source.tree (Donors.ofStores plan.donors)) (.own root, none))
      ⟨Store.empty plan.source.id, 0⟩ (fun _ => none) (plan.rows root) () := by
  have empty : Builds plan.source.id ⟨Store.empty plan.source.id, 0⟩ (fun _ => none : Layout C) :=
    Store.builds_empty plan.source.id {}
  refine plants_descending Prod.snd (· ∈ plan.steps root) ?_ ?_ ?_ _ _
    (mem_steps_root wellFormed isRoot) empty fun _ => rfl
  · intro item inside expansion layout builds room
    obtain ⟨payload, planned⟩ := complete item inside
    exact plants_step planned builds room
  · exact fun item inside below follows => mem_steps_next wellFormed isRoot inside follows
  · intro item inside below follows
    obtain ⟨payload, planned⟩ := complete item inside
    obtain ⟨origin, -, rfl⟩ := List.mem_map.mp follows
    rw [row_of_payload? planned]
    exact ⟨_, List.mem_singleton_self _, rfl⟩

/-- A store is what a plan leads to. -/
structure CarriedOut (plan : Plan C) (root : Key) (store : Store C) : Prop where
  complete : plan.Complete root
  fresh : Layout.Fresh (fun _ => none) (plan.rows root)
  builds : store.Builds plan.source.id (Layout.plant (fun _ => none) (plan.rows root))

/-- An expansion that succeeds has carried out its plan. -/
theorem carriedOut_of_expand (isRoot : plan.source.root = some root)
    (ok : ((Donors.ofStores plan.donors).expand plan.source.tree plan.kept).result = .ok store) :
    plan.CarriedOut root store := by
  have rootKey : plan.source.tree.rootKey.result = .ok (some root) := congrArg Except.ok isRoot
  rw [Donors.expand, Read.result_bind_of_ok rootKey] at ok
  obtain ⟨⟨⟨⟩, expansion⟩, visited, ok⟩ := Read.result_bind_eq_ok ok
  obtain rfl := Except.ok.inj ok
  have visited := Edit.effect_of_result_toRead visited
  have complete : plan.Complete root :=
    Edit.forall_of_depthFirst (fun _ _ _ _ ok => planned_of_step ok) visited
  have planted := plants_visit wellFormed isRoot complete
  by_cases fresh : Layout.Fresh (fun _ => none) (plan.rows root)
  · obtain ⟨after, ok, builds⟩ := planted.places fresh
    cases visited.symm.trans ok
    exact ⟨complete, fresh, builds⟩
  · obtain ⟨fault, after, failed⟩ := planted.rejects trivial fresh
    cases visited.symm.trans failed

/-- If every node contributes something and no key comes twice, the expansion succeeds. -/
theorem exists_expand (isRoot : plan.source.root = some root) (complete : plan.Complete root)
    (fresh : Layout.Fresh (fun _ => none) (plan.rows root)) : ∃ store,
    ((Donors.ofStores plan.donors).expand plan.source.tree plan.kept).result = .ok store := by
  have rootKey : plan.source.tree.rootKey.result = .ok (some root) := congrArg Except.ok isRoot
  obtain ⟨after, ok, -⟩ := (plants_visit wellFormed isRoot complete).places fresh
  rw [Donors.expand, Read.result_bind_of_ok rootKey]
  exact ⟨after.tree, Read.result_bind_of_ok (Edit.result_toRead_of_ok ok)⟩

end Visit

end Plan

end Expansion

end VersionedTrees
