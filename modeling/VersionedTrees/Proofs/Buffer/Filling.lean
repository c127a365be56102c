import VersionedTrees.Buffer.Replace
import VersionedTrees.Proofs.Buffer.Insert
import VersionedTrees.Proofs.Store.Rows

/-!
# Filling an overlay

A delta is taken over node by node into an empty overlay, with nothing deleted. What each node brings is
known beforehand (`Store.taken`): content and node-references stay one row, and so does a tree-reference
to its own key. A tree-reference to another key becomes a copy of its target with the children of the
target as lazy rows. A node that cannot be read, or whose references lead nowhere, is withheld
(`Store.offered`).

The visit of the delta takes what its nodes offer in pre-order. It stops where something is withheld or
a key comes up again, and what it took up to there stays in the overlay (`Replacement.heeds_visit`).
-/

namespace VersionedTrees

variable {C : Type}

namespace Changes

variable {base : Store C} {changes : Changes C} {key : Key} {payload : Payload C}
  {above : Option Key}

/-- Changes with an overlay and nothing deleted. -/
def overlaid (layout : Layout C) : Changes C :=
  ⟨layout, fun _ => False⟩

/-- Overlay nodes that may be given children: none at first, then those that are not lazy. -/
def Receives (changes : Changes C) : Option Key → Prop
  | none => ∀ key, changes.overlay key = none
  | some parent => changes.overlay.Holds parent ∧ ¬ changes.IsLazy parent

/-- A new node keeps changes valid, if it may stand under its key and has its place. -/
theorem Valid.place (valid : changes.Valid base) (new : changes.overlay key = none)
    (receives : changes.Receives above) (admits : base.Admits key payload)
    (isTree : (changes.place key ⟨above, payload⟩).overlay.IsTree) :
    (changes.place key ⟨above, payload⟩).Valid base where
  isTree := isTree
  admits _ _ found := valid.admits_place admits found
  leaf other child isLazy isChild := by
    have below : ∀ parent, above = some parent → ¬ changes.IsLazy parent := by
      rintro parent rfl
      exact receives.2
    by_cases same : key = other
    · -- nothing stands below a key that is new
      subst same
      obtain ⟨payload', found⟩ := isChild
      by_cases sameChild : key = child
      · subst sameChild
        rw [overlay_place, Layout.place_self, Option.some.injEq, Standing.mk.injEq] at found
        obtain ⟨rfl, -⟩ := found
        exact Layout.not_holds_iff.mpr new receives.1
      · rw [overlay_place, Layout.place_of_ne sameChild] at found
        exact Layout.not_holds_iff.mpr new (valid.isTree.parent_holds ⟨payload', found⟩)
    · exact valid.leaf_place below same isLazy isChild

/-- A new node that is no tree-reference may be given children. -/
theorem receives_place_self (notReference : payload.isTreeReference = false) :
    (changes.place key ⟨above, payload⟩).Receives (some key) :=
  ⟨⟨_, Layout.place_self _ _ _⟩, fun isLazy => not_readsBack_place notReference (.inl isLazy)⟩

end Changes

/-! ## What a delta offers -/

namespace Store

variable {base : Store C} {delta : Tree C} {key : Key} {above : Option Key} {payload : Payload C}

/-- A base node as a lazy child. -/
def lazyRow (base : Store C) (parent child : Key) : Layout.Row C :=
  (child, ⟨some parent, .treeReference ⟨base.id, child⟩⟩)

/-- The overlay rows that a row of a delta becomes. -/
def taken (base : Store C) : Layout.Row C → List (Layout.Row C)
  | (key, ⟨above, .treeReference reference⟩) =>
    if reference.key = key then [(key, ⟨above, .treeReference reference⟩)]
    else (key, ⟨above, base.lend (.treeReference reference)⟩) ::
      (base.tree.childList reference.key).map (base.lazyRow key)
  | row => [row]

theorem taken_of_not_isTreeReference (notReference : payload.isTreeReference = false) :
    base.taken (key, ⟨above, payload⟩) = [(key, ⟨above, payload⟩)] := by
  cases payload with
  | content value => rfl
  | nodeReference reference => rfl
  | treeReference reference => cases notReference

/-- Every row of a delta puts something under its own key. -/
theorem exists_taken_eq_cons (base : Store C) (row : Layout.Row C) :
    ∃ payload rest, base.taken row = (row.1, ⟨row.2.parent, payload⟩) :: rest := by
  obtain ⟨key, above, payload⟩ := row
  cases payload with
  | content value => exact ⟨_, [], rfl⟩
  | nodeReference reference => exact ⟨_, [], rfl⟩
  | treeReference reference =>
      rw [taken]
      split
      · exact ⟨_, [], rfl⟩
      · exact ⟨_, _, rfl⟩

instance (base : Store C) (payload : Payload C) : Decidable (base.Resolves payload) :=
  decidable_of_iff
    (∀ reference ∈ payload.reference?,
      reference.tree = base.id ∧ (base.layout reference.key).isSome = true) <| by
    simp only [Resolves, Option.mem_def, Layout.holds_iff_isSome]

/-- What a node of a delta offers to an overlay. A tree-reference is withheld unless it is known to have
no children. The children of any other node are read once it has been taken over, so it is not withheld
for want of them, but nothing comes after it then. -/
def offered (base : Store C) (delta : Tree C) (item : Key × Option Key) :
    List (Option (Layout.Row C)) :=
  match (delta.payload item.1).result with
  | .error _ => [none]
  | .ok payload =>
    let rows := (base.taken (item.1, ⟨item.2, payload⟩)).map some
    if base.Resolves payload then
      match payload.isTreeReference, (delta.children item.1).result with
      | true, .ok [] => rows
      | true, _ => [none]
      | false, .ok _ => rows
      | false, .error _ => rows ++ [none]
    else [none]

theorem offered_of_error {error : TreeError} (failed : (delta.payload key).result = .error error) :
    base.offered delta (key, above) = [none] := by
  rw [offered, failed]

theorem offered_of_dangling (read : (delta.payload key).result = .ok payload)
    (dangling : ¬ base.Resolves payload) : base.offered delta (key, above) = [none] := by
  rw [offered, read]
  exact if_neg dangling

/-- A node that can be read and resolves offers its rows, if its children can be read and a
tree-reference has none. -/
theorem offered_eq_taken {children : List Key} (read : (delta.payload key).result = .ok payload)
    (resolves : base.Resolves payload) (listed : (delta.children key).result = .ok children)
    (childless : payload.isTreeReference = true → children = []) :
    base.offered delta (key, above) = (base.taken (key, ⟨above, payload⟩)).map some := by
  simp only [offered, read, if_pos resolves, listed]
  cases isTreeReference : payload.isTreeReference with
  | false => rfl
  | true =>
      obtain rfl := childless isTreeReference
      rfl

/-- A tree-reference is withheld unless it is known to have no children. -/
theorem offered_of_children {reference : Reference}
    (read : (delta.payload key).result = .ok (.treeReference reference))
    (resolves : base.Resolves (.treeReference reference))
    (notChildless : (delta.children key).result ≠ .ok []) :
    base.offered delta (key, above) = [none] := by
  simp only [offered, read, if_pos resolves, Payload.isTreeReference]

/-- If all that a node offers passes, the node can be read and resolves, its children can be read, and a
tree-reference has none. -/
theorem exists_of_passes_offered {layout : Layout C}
    (passes : layout.Passes (base.offered delta (key, above))) :
    ∃ payload children, (delta.payload key).result = .ok payload ∧ base.Resolves payload ∧
      (delta.children key).result = .ok children ∧
      (payload.isTreeReference = true → children = []) := by
  cases read : (delta.payload key).result with
  | error error =>
      rw [offered_of_error read] at passes
      exact passes.elim
  | ok payload =>
      by_cases resolves : base.Resolves payload
      case neg =>
        rw [offered_of_dangling read resolves] at passes
        exact passes.elim
      case pos =>
        simp only [offered, read, if_pos resolves] at passes
        refine ⟨payload, ?_⟩
        cases isTreeReference : payload.isTreeReference with
        | true =>
            rw [isTreeReference] at passes
            match listed : (delta.children key).result with
            | .ok [] => exact ⟨[], rfl, resolves, rfl, fun _ => rfl⟩
            | .ok (child :: rest) =>
                rw [listed] at passes
                exact passes.elim
            | .error error =>
                rw [listed] at passes
                exact passes.elim
        | false =>
            rw [isTreeReference] at passes
            match listed : (delta.children key).result with
            | .ok children => exact ⟨children, rfl, resolves, rfl, nofun⟩
            | .error error =>
                rw [listed] at passes
                exact (Layout.passes_append_iff.mp passes).2.elim

/-- What a node offers first is withheld or comes under its own key. -/
theorem offered_eq_cons (base : Store C) (delta : Tree C) (item : Key × Option Key) :
    (∃ rest, base.offered delta item = none :: rest) ∨
      ∃ standing rest, base.offered delta item = some (item.1, standing) :: rest := by
  rw [offered]
  split
  · exact .inl ⟨[], rfl⟩
  · rename_i payload _
    obtain ⟨first, rest, taken⟩ := base.exists_taken_eq_cons (item.1, ⟨item.2, payload⟩)
    rw [taken]
    dsimp only
    split
    · split
      · exact .inr ⟨_, _, rfl⟩
      · exact .inl ⟨[], rfl⟩
      · exact .inr ⟨_, _, rfl⟩
      · exact .inr ⟨_, _, rfl⟩
    · exact .inl ⟨[], rfl⟩

end Store

/-- The items of a visit of a whole tree, in pre-order. -/
def Tree.items (tree : Tree C) : List (Key × Option Key) :=
  match tree.rootKey.result with
  | .ok (some root) => preorder tree.itemsBelow (tree.levels + 1) (root, none)
  | _ => []

/-- What can be taken from a delta: what its nodes offer in pre-order, up to the first of them that is
withheld or comes under a key that came before. -/
def Store.takenFrom (base : Store C) (delta : Tree C) : Layout C :=
  Layout.plantOffers (fun _ => none) (delta.items.flatMap (base.offered delta))

/-! ## Taking the offers -/

/-- The overlay of a buffer holds a valid layout, and nothing is deleted. -/
structure Buffer.Fills (base : Store C) (buffer : Buffer C) (layout : Layout C) : Prop where
  records : buffer.Records base (.overlaid layout)
  valid : (Changes.overlaid layout).Valid base

namespace Replacement

variable {base : Store C} {delta : Tree C} {layout : Layout C} {replacement : Replacement C}
  {key parent : Key} {above : Option Key} {payload : Payload C} {reference : Reference}

/-- A buffer that is being filled. -/
abbrev Filling (base : Store C) (replacement : Replacement C) (layout : Layout C) : Prop :=
  Buffer.Fills base replacement.buffer layout

/-- An overlay has room for children of a node, or for a root. -/
def Open (layout : Layout C) (item : Key × Option Key) : Prop :=
  (Changes.overlaid layout).Receives item.2

theorem effect_requireNew_of_absent (filling : Filling base replacement layout)
    (new : layout key = none) : (requireNew key).effect replacement = (.ok (), replacement) := by
  rw [requireNew, Edit.effect_current_bind, Edit.effect_liftM,
    filling.records.contains_overlay_eq_false.mpr new, Bool.not_false,
    Read.result_require_of_true rfl]

/-- A key that the overlay has already is a fault of the delta. -/
theorem effect_requireNew_of_holds (filling : Filling base replacement layout)
    (holds : layout.Holds key) :
    (requireNew key).effect replacement = (.error (.delta (.repeatedKey key)), replacement) := by
  rw [requireNew, Edit.effect_current_bind, Edit.effect_liftM,
    filling.records.contains_overlay.mpr holds, Bool.not_true, Read.result_require_of_false rfl]

/-- The overlay takes a new node below a node that may be given children, or as the root. -/
theorem insertOverlay_of_fills {buffer : Buffer C} (fills : buffer.Fills base layout)
    (new : layout key = none) (opened : Open layout (key, above)) (admits : base.Admits key payload) :
    ∃ after, (Buffer.insertOverlay above (.exactly key) payload).effect buffer = (.ok key, after) ∧
      after.Fills base (layout.place key ⟨above, payload⟩) := by
  obtain ⟨after, inserted, records⟩ : ∃ after,
      (Buffer.insertOverlay above (.exactly key) payload).effect buffer = (.ok key, after) ∧
        after.Records base ((Changes.overlaid layout).place key ⟨above, payload⟩) := by
    cases above with
    | none => exact fills.records.insertOverlay_root opened (.exactly key) payload
    | some parent => exact fills.records.insertOverlay_new opened.1 new payload
  exact ⟨after, inserted, records, fills.valid.place new opened admits records.isTree_overlay⟩

theorem effect_edit {α : Type} {edit : Edit (Buffer C) α} {result : Except TreeError α}
    {buffer : Buffer C} (edited : edit.effect replacement.buffer = (result, buffer)) :
    (Replacement.edit edit).effect replacement = (result, { replacement with buffer }) := by
  rw [Replacement.edit, Edit.effect_onPart, edited]

/-- Only fresh rows are added, so room for children stays. -/
theorem Open.plant {rows : List (Layout.Row C)} (opened : Open layout (key, some parent))
    (fresh : layout.Fresh rows) : Open (layout.plant rows) (key, some parent) := by
  obtain ⟨⟨standing, found⟩, notLazy⟩ := opened
  have kept := Layout.plant_of_holds fresh found
  refine ⟨⟨standing, kept⟩, ?_⟩
  rintro ⟨above, reference, lazily⟩
  have same : standing = ⟨above, .treeReference reference⟩ :=
    Option.some.inj (kept.symm.trans lazily)
  subst same
  exact notLazy ⟨above, reference, found⟩

/-- Below a new row that is no tree-reference there is room for children. -/
theorem open_place_self (layout : Layout C) (notReference : payload.isTreeReference = false)
    (child : Key) : Open (layout.place key ⟨above, payload⟩) (child, some key) :=
  (Changes.receives_place_self notReference :
    ((Changes.overlaid layout).place key ⟨above, payload⟩).Receives (some key))

/-- What is planted of one row that is offered under a new key. -/
theorem plantOffers_singleton (new : layout key = none) (standing : Standing C) :
    layout.plantOffers [some (key, standing)] = layout.place key standing :=
  Layout.plantOffers_cons_of_absent new []

/-- A new row is added. -/
theorem heeds_add (filling : Filling base replacement layout) (new : layout key = none)
    (opened : Open layout (key, above)) (admits : base.Admits key payload) :
    Heeds (Filling base) (add key above payload) replacement layout
      [some (key, ⟨above, payload⟩)] () := by
  obtain ⟨buffer, inserted, fills⟩ := insertOverlay_of_fills filling new opened admits
  refine .of_ok ⟨new, trivial⟩ ((Edit.effect_bind_of_ok (effect_edit inserted)).trans rfl) ?_
  rwa [plantOffers_singleton new]

/-- A row is added if its key is new, and otherwise found to be repeated. -/
theorem heeds_requireNew {α : Type} {next : Unit → Edit (Replacement C) α} (row : Layout.Row C)
    {offers : List (Option (Layout.Row C))} {value : α} (filling : Filling base replacement layout)
    (rest : layout row.1 = none →
      Heeds (Filling base) (next ()) replacement layout (some row :: offers) value) :
    Heeds (Filling base) (requireNew row.1 >>= next) replacement layout (some row :: offers)
      value := by
  by_cases holds : layout.Holds row.1
  · exact .repeated value filling holds
      (Edit.effect_bind_of_error (effect_requireNew_of_holds filling holds))
  · have new := Layout.not_holds_iff.mp holds
    exact (rest new).congr (Edit.effect_bind_of_ok (effect_requireNew_of_absent filling new))

theorem heeds_addLazyChild {child : Key} (filling : Filling base replacement layout)
    (opened : Open layout (child, some parent)) (holds : base.layout.Holds child) :
    Heeds (Filling base) (addLazyChild parent child) replacement layout
      [some (base.lazyRow parent child)] () := by
  apply heeds_requireNew (base.lazyRow parent child) filling
  intro (new : layout child = none)
  have id : replacement.buffer.backingTree.id = base.id :=
    congrArg Tree.id filling.records.backingTree
  obtain ⟨buffer, inserted, fills⟩ := insertOverlay_of_fills filling new opened
    (show base.Admits child (.treeReference ⟨base.id, child⟩) from ⟨rfl, holds⟩)
  have lazily : (Buffer.addLazy (some parent) child).effect replacement.buffer = (.ok (), buffer) := by
    rw [Buffer.addLazy, Edit.effect_current_bind, Buffer.lazyPayload, id,
      Edit.effect_bind_of_ok inserted]
    rfl
  refine .of_ok ⟨new, trivial⟩ ((Edit.effect_bind_of_ok (effect_edit lazily)).trans rfl) ?_
  exact (plantOffers_singleton new _).symm ▸ fills

/-- Lazy children are added one after the other. -/
theorem heeds_addLazyChildren {children : List Key} (filling : Filling base replacement layout)
    (opened : ∀ child ∈ children, Open layout (child, some parent))
    (holds : ∀ child ∈ children, base.layout.Holds child) :
    Heeds (Filling base) (children.forM (addLazyChild parent)) replacement layout
      ((children.map (base.lazyRow parent)).map some) ⟨⟩ := by
  rw [List.map_map, List.map_eq_flatMap]
  apply chains_heeds.forM (fun layout child => Open layout (child, some parent)) _ _ filling opened
  · intro child inside state layout filling opened
    exact heeds_addLazyChild filling opened (holds child inside)
  · intro child _ layout rows fresh opened
    exact opened.plant fresh

section Visit

variable (wellFormed : base.WellFormed) (allContent : base.AllContent)
include wellFormed allContent

/-- A copy is added, and then the children of its target as lazy nodes. -/
theorem heeds_addCopy (filling : Filling base replacement layout) (new : layout key = none)
    (opened : Open layout (key, above)) (holds : base.layout.Holds reference.key) :
    Heeds (Filling base) (addCopy key above reference) replacement layout
      (some (key, ⟨above, base.lend (.treeReference reference)⟩) ::
        ((base.tree.childList reference.key).map (base.lazyRow key)).map some) () := by
  obtain ⟨standing, there⟩ := holds
  obtain ⟨value, content⟩ := allContent.exists_content there
  have lent : base.lend (.treeReference reference) = .content value :=
    (Store.lend_treeReference there).trans content
  have payload : (replacement.buffer.backingTree.payload reference.key).result =
      .ok (.content value) := by
    rw [filling.records.backingTree, ← content]
    exact Buffer.result_payload_of_found (Buffer.result_node_base there)
  have children : (replacement.buffer.backingTree.children reference.key).result =
      .ok (base.tree.childList reference.key) := by
    rw [filling.records.backingTree]
    exact wellFormed.shows.result_children ⟨_, there⟩
  have stepped : (addCopy key above reference).effect replacement =
      (add key above (.content value) >>= fun _ => countCopied >>= fun _ =>
        liftM (replacement.buffer.backingTree.children reference.key) >>= fun children =>
          children.forM (addLazyChild key)).effect replacement :=
    Edit.effect_liftM_bind payload
  rw [lent]
  apply Heeds.congr _ stepped
  apply (heeds_add filling new opened (show base.Admits key (.content value) from trivial)).bind
  intro _ middle filling'
  have onward : (countCopied >>= fun _ =>
      liftM (replacement.buffer.backingTree.children reference.key) >>= fun children =>
        children.forM (addLazyChild key)).effect middle =
      ((base.tree.childList reference.key).forM (addLazyChild key)).effect
        { middle with copied := middle.copied + 1 } :=
    Edit.effect_liftM_bind children
  have counted : Filling base { middle with copied := middle.copied + 1 } _ := filling'
  apply Heeds.congr _ onward
  apply heeds_addLazyChildren counted
  · intro child _
    rw [plantOffers_singleton new]
    exact open_place_self layout rfl child
  · exact fun child inside => ((wellFormed.listed.mem_iff _ child).mp inside).holds

omit wellFormed allContent in
/-- A tree-reference fails at once unless it is known to have no children. -/
theorem effect_addTreeReference_of_children (notChildless : (delta.children key).result ≠ .ok []) :
    ∃ error, (addTreeReference delta key above reference).effect replacement =
      (.error error, replacement) := by
  rw [addTreeReference]
  match listed : (delta.children key).result with
  | .ok [] => exact absurd listed notChildless
  | .ok (child :: rest) =>
      exact ⟨_, (Edit.effect_liftM_bind listed).trans (Edit.effect_liftM_bind_of_error rfl)⟩
  | .error error => exact ⟨error, Edit.effect_liftM_bind_of_error listed⟩

/-- A tree-reference that resolves is added, as a lazy node or as a copy, if it has no children. -/
theorem heeds_addTreeReference (childless : (delta.children key).result = .ok [])
    (filling : Filling base replacement layout) (new : layout key = none)
    (opened : Open layout (key, above)) (resolves : base.Resolves (C := C) (.treeReference reference)) :
    Heeds (Filling base) (addTreeReference delta key above reference) replacement layout
      ((base.taken (key, ⟨above, .treeReference reference⟩)).map some) () := by
  obtain ⟨sameTree, holds⟩ := resolves reference rfl
  have passed : (addTreeReference delta key above reference).effect replacement =
      (if reference.key = key then addLazy key above reference
        else addCopy key above reference).effect replacement := by
    rw [addTreeReference]
    exact (Edit.effect_liftM_bind childless).trans (Edit.effect_liftM_bind rfl)
  apply Heeds.congr _ passed
  rw [Store.taken]
  by_cases same : reference.key = key
  · rw [if_pos same, if_pos same]
    have admits : base.Admits key (.treeReference reference) := resolves.admits fun _ stored => by
      cases stored
      exact same
    have counted : Heeds (Filling base)
        (add key above (.treeReference reference) >>= fun _ => countLazy) replacement layout
        [some (key, ⟨above, .treeReference reference⟩)] () := by
      rw [← List.append_nil [some _]]
      apply (heeds_add filling new opened admits).bind
      intro _ middle filling'
      exact .of_ok trivial rfl filling'
    exact counted.congr (Edit.effect_bind_of_ok rfl)
  · rw [if_neg same, if_neg same]
    exact heeds_addCopy wellFormed allContent filling new opened holds

omit wellFormed allContent in
/-- Content and node-references that resolve are added as they are, and then their children are read. -/
theorem heeds_addPlain (read : (delta.payload key).result = .ok payload)
    (resolves : base.Resolves payload) (notReference : payload.isTreeReference = false)
    (filling : Filling base replacement layout) (new : layout key = none)
    (opened : Open layout (key, above)) :
    Heeds (Filling base)
      (add key above payload >>= fun _ => liftM (delta.children key) >>= fun children =>
        pure (children.map (·, some key)))
      replacement layout (base.offered delta (key, above)) (delta.itemsBelow (key, above)) := by
  have admits : base.Admits key payload := resolves.admits fun reference same => by
    rw [same] at notReference
    cases notReference
  have added := heeds_add filling new opened admits
  cases listed : (delta.children key).result with
  | ok children =>
      rw [Store.offered_eq_taken read resolves listed (by simp [notReference]),
        Store.taken_of_not_isTreeReference notReference]
      rw [List.map_singleton, ← List.append_nil [some _]]
      refine added.bind fun _ middle filling' => ?_
      rw [Tree.itemsBelow, Tree.childList, listed]
      exact .of_ok trivial (Edit.effect_liftM_bind listed) filling'
  | error error =>
      have offered : base.offered delta (key, above) =
          [some (key, ⟨above, payload⟩)] ++ [none] := by
        simp only [Store.offered, read, if_pos resolves, notReference, listed,
          Store.taken_of_not_isTreeReference notReference]
        rfl
      rw [offered]
      refine added.bind fun _ middle filling' => ?_
      exact .withheld _ filling' (Edit.effect_liftM_bind_of_error listed)

/-- What a step does with a payload once the key is known to be new. -/
def addChecked (delta : Tree C) (buffer : Buffer C) (key : Key) (above : Option Key)
    (payload : Payload C) : Edit (Replacement C) (List (Key × Option Key)) := do
  buffer.checkPayload payload
  match payload with
  | .treeReference reference =>
    addTreeReference delta key above reference
    return []
  | .content _ | .nodeReference _ =>
    Edit.when (!payload.isReference) countCopied
    add key above payload
    return (← delta.children key).map (·, some key)

theorem heeds_addChecked (read : (delta.payload key).result = .ok payload)
    (filling : Filling base replacement layout) (new : layout key = none)
    (opened : Open layout (key, above)) :
    Heeds (Filling base) (addChecked delta replacement.buffer key above payload) replacement layout
      (base.offered delta (key, above)) (delta.itemsBelow (key, above)) := by
  by_cases resolves : base.Resolves payload
  case neg =>
    rw [Store.offered_of_dangling read resolves]
    cases checked : (replacement.buffer.checkPayload payload).result with
    | ok => exact absurd (Buffer.resolves_of_checkPayload filling.records checked) resolves
    | error error => exact .withheld _ filling (Edit.effect_liftM_bind_of_error checked)
  case pos =>
    apply Heeds.congr _ (Edit.effect_liftM_bind (Buffer.result_checkPayload filling.records resolves))
    cases payload with
    | content value =>
        have counted : Filling base
            { replacement with copied := replacement.copied + 1 } layout := filling
        exact (heeds_addPlain read resolves rfl counted new opened).congr rfl
    | nodeReference reference =>
        exact (heeds_addPlain read resolves rfl filling new opened).congr rfl
    | treeReference reference =>
        by_cases childless : (delta.children key).result = .ok []
        case pos =>
          have added := heeds_addTreeReference wellFormed allContent childless filling new opened
            resolves
          rw [Store.offered_eq_taken read resolves childless fun _ => rfl,
            ← List.append_nil (List.map some _), Tree.itemsBelow, Tree.childList, childless]
          exact added.bind fun _ middle filling' => heeds_pure filling' _
        case neg =>
          obtain ⟨error, failed⟩ := effect_addTreeReference_of_children childless
          rw [Store.offered_of_children read resolves childless]
          exact .withheld _ filling (Edit.effect_bind_of_error failed)

/-- A step heeds what its node offers. -/
theorem heeds_step (filling : Filling base replacement layout) (opened : Open layout (key, above)) :
    Heeds (Filling base) (step delta (key, above)) replacement layout
      (base.offered delta (key, above)) (delta.itemsBelow (key, above)) := by
  rw [step]
  cases read : (delta.payload key).result with
  | error error =>
      rw [Store.offered_of_error read]
      exact .withheld _ filling (Edit.effect_liftM_bind_of_error read)
  | ok payload =>
      apply Heeds.congr _ (Edit.effect_liftM_bind read)
      by_cases holds : layout.Holds key
      case pos =>
        -- whatever is offered, the key is what is looked at first
        have failed := effect_requireNew_of_holds filling holds
        rcases base.offered_eq_cons delta (key, above) with ⟨rest, offered⟩ | ⟨standing, rest, offered⟩
        · rw [offered]
          exact .withheld _ filling (Edit.effect_bind_of_error failed)
        · rw [offered]
          exact .repeated _ filling holds (Edit.effect_bind_of_error failed)
      case neg =>
        have new := Layout.not_holds_iff.mp holds
        apply Heeds.congr _ ((Edit.effect_bind_of_ok (effect_requireNew_of_absent filling new)).trans
          (Edit.effect_current_bind _ _))
        exact heeds_addChecked wellFormed allContent read filling new opened

/-- The visit of a delta heeds what the nodes offer in pre-order. -/
theorem heeds_visit {buffer : Buffer C} (fills : buffer.Fills base fun _ => none) (delta : Tree C)
    (root : Key) (levels : Nat) :
    Heeds (Filling base) (depthFirst (step delta) levels (root, none)) { buffer := buffer }
      (fun _ => none)
      ((preorder delta.itemsBelow levels (root, none)).flatMap (base.offered delta)) () := by
  have opened : Open (C := C) (fun _ => none) (root, none) := fun _ => rfl
  refine chains_heeds.depthFirst (fun _ => True) Open ?_ ?_ ?_ ?_ _ _ trivial fills opened
  · rintro ⟨key, above⟩ - state layout filling opened
    exact heeds_step wellFormed allContent filling opened
  · exact fun _ _ _ _ => trivial
  · -- only a node that is no tree-reference has children, and its row is its own
    rintro ⟨key, above⟩ - below inside layout passes
    obtain ⟨child, among, rfl⟩ := List.mem_map.mp inside
    obtain ⟨payload, children, read, resolves, listed, childless⟩ :=
      Store.exists_of_passes_offered passes
    have notReference : payload.isTreeReference = false := by
      rw [← Bool.not_eq_true]
      intro isTreeReference
      obtain rfl := childless isTreeReference
      rw [Tree.childList, listed] at among
      cases among
    rw [Store.offered_eq_taken read resolves listed childless,
      Store.taken_of_not_isTreeReference notReference] at passes ⊢
    rw [List.map_singleton, plantOffers_singleton passes.1]
    exact open_place_self layout notReference child
  · rintro item - below inside layout rows fresh opened
    obtain ⟨child, among, rfl⟩ := List.mem_map.mp inside
    exact opened.plant fresh

end Visit

end Replacement

end VersionedTrees
