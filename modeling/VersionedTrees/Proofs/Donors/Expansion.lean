import VersionedTrees.Donors.Expansion
import VersionedTrees.Proofs.Buffer.SpelledOut
import VersionedTrees.Proofs.Buffer.Takeover
import VersionedTrees.Proofs.Store.Building

/-!
# Expanding references into a base

A tree whose references point into a base, and whose tree-references have no children, is expanded
node by node. The rows that the expansion builds are known beforehand: each node with the content that
it lends, and below a tree-reference copies of the base nodes below its target. The expansion succeeds
exactly when no key comes up twice among them (`Expansion.plants_visit`).
-/

namespace VersionedTrees

variable {C : Type}

/-! ## Resolving -/

namespace Donors

variable {base : Store C} {payload : Payload C} {reference : Reference}

/-- A single donor is found under its identifier. -/
theorem result_find_single (base : Store C) :
    ((Donors.mk [base.tree]).find base.id).result = .ok base.tree := by
  have first : [base.tree].find? (·.id == base.id) = some base.tree :=
    List.find?_cons_of_pos (beq_self_eq_true base.id)
  rw [find, first]
  rfl

/-- A reference into a single donor is resolved to the content that it lends. -/
theorem result_resolve_single (allContent : base.AllContent) (resolves : base.Resolves payload)
    (points : payload.reference? = some reference) :
    ∃ value, base.lend payload = .content value ∧
      ((Donors.mk [base.tree]).resolve payload).result = .ok value := by
  obtain ⟨sameTree, standing, found⟩ := resolves reference points
  obtain ⟨value, content⟩ := allContent.exists_content found
  refine ⟨value, (Store.lend_of_reference points found).trans content, ?_⟩
  have target : ((Donors.mk [base.tree]).target reference).result =
      .ok ⟨reference.key, .content value⟩ := by
    rw [Donors.target, sameTree, Read.result_bind_of_ok (result_find_single base),
      Read.result_bind_of_ok (Buffer.result_node_base found), content]
    rfl
  cases payload with
  | content value => cases points
  | nodeReference other =>
      cases points
      exact Read.result_bind_of_ok target
  | treeReference other =>
      cases points
      exact Read.result_bind_of_ok target

end Donors

/-- The key of a node of an expansion. -/
def Origin.key : Origin → Key
  | .own key | .donor _ key => key

namespace Expansion

variable {source base : Store C} {layout : Layout C} {expansion : Expansion C} {id : TreeId}
  {key parent : Key} {above : Option Key} {payload : Payload C} {reference : Reference} {standing : Standing C}

/-! ## What comes next, and what is built -/

/-- Where the nodes below a node of an expansion come from. -/
def originsBelow (source base : Store C) : Origin → List Origin
  | .own key =>
    match source.payload? key with
    | some (.treeReference reference) =>
      (base.tree.childList reference.key).map (.donor reference.tree)
    | _ => (source.tree.childList key).map .own
  | .donor id key => (base.tree.childList key).map (.donor id)

/-- The items of the visit below an item. -/
def itemsBelow (source base : Store C) (item : Origin × Option Key) :
    List (Origin × Option Key) :=
  (originsBelow source base item.1).map (·, some item.1.key)

/-- The row that is built for an item. -/
def built (source base : Store C) : Origin × Option Key → List (Layout.Row C)
  | (.own key, above) =>
    (source.layout key).elim [] fun standing => [(key, ⟨above, base.lend standing.payload⟩)]
  | (.donor _ key, above) =>
    (base.layout key).elim [] fun standing => [(key, ⟨above, standing.payload⟩)]

/-- An item that the visit comes to. -/
def Reached (source base : Store C) : Origin × Option Key → Prop
  | (.own key, above) => source.Placed (key, above)
  | (.donor id key, _) => id = base.id ∧ base.layout.Holds key

/-! ## A step -/

/-- An expansion has built a layout. -/
def Builds (id : TreeId) (expansion : Expansion C) (layout : Layout C) : Prop :=
  expansion.tree.Builds id layout

/-- A node is added if its key is new, and otherwise it has been produced twice. -/
theorem plants_add (builds : Builds id expansion layout) (room : layout.Room above)
    (payload : Payload C) :
    Plants (Builds id) True (add key above payload) expansion layout [(key, ⟨above, payload⟩)]
      () := by
  have contains_iff : expansion.tree.contains key = true ↔ layout.Holds key := by
    rw [Store.contains_iff_holds, builds.layout_eq]
  apply Plants.congr _ (Edit.effect_current_bind _ _)
  apply Plants.of_required
  · intro new
    have absent : expansion.tree.contains key = false := by
      rw [← Bool.not_eq_true, contains_iff, Layout.not_holds_iff]
      exact new
    rw [Edit.effect_liftM, absent]
    rfl
  · intro holds
    refine ⟨.producedTwice key, ?_⟩
    rw [Edit.effect_liftM, contains_iff.mpr holds]
    rfl
  · intro new
    obtain ⟨next, inserted, built⟩ := builds.insert new room payload
    refine Plants.of_ok (Layout.fresh_singleton new) ?_
      (show Builds id { expansion with tree := next } _ from built)
    have placed : (Edit.ofFunction fun expansion : Expansion C =>
        ((expansion.tree.insert above (.exactly key) payload).1,
          { expansion with tree := (expansion.tree.insert above (.exactly key) payload).2 })).effect
        expansion = (.ok key, { expansion with tree := next }) := by
      rw [Edit.effect_ofFunction, inserted]
    exact Edit.effect_bind_of_ok placed

section Visit

variable (refers : source.RefersInto base) (wellFormed : base.WellFormed)
  (allContent : base.AllContent)

include refers wellFormed allContent

/-- A node of the tree itself is expanded to the content that it lends. -/
theorem result_expandOwn (found : source.layout key = some standing) :
    ∃ materialized, (expandOwn source.tree {} (Donors.mk [base.tree]) key).result =
      .ok ⟨key, base.lend standing.payload, originsBelow source base (.own key), materialized⟩ := by
  have read := Buffer.result_payload_of_found (Buffer.result_node_base found)
  have children := refers.wellFormed.shows.result_children ⟨_, found⟩
  have resolves := refers.resolves key standing found
  rw [originsBelow, Store.payload?_of_layout found, expandOwn, Read.result_bind_of_ok read]
  cases payload : standing.payload with
  | content value =>
      rw [base.lend_of_not_isReference rfl]
      exact ⟨false, Read.result_bind_of_ok children⟩
  | nodeReference reference =>
      rw [payload] at resolves
      obtain ⟨value, lent, resolved⟩ := Donors.result_resolve_single allContent resolves rfl
      rw [lent]
      refine ⟨true, (Read.result_bind_of_ok resolved).trans ?_⟩
      exact Read.result_bind_of_ok children
  | treeReference reference =>
      rw [payload] at resolves
      obtain ⟨sameTree, holds⟩ := resolves reference rfl
      obtain ⟨value, lent, resolved⟩ := Donors.result_resolve_single allContent resolves rfl
      have find : ((Donors.mk [base.tree]).find reference.tree).result = .ok base.tree := by
        rw [sameTree]
        exact Donors.result_find_single base
      rw [lent]
      refine ⟨true, (Read.result_bind_of_ok find).trans ((Read.result_bind_of_ok resolved).trans ?_)⟩
      exact Read.result_bind_of_ok (wellFormed.shows.result_children holds)

omit refers allContent in
/-- A base node is copied. -/
theorem result_expandDonor (found : base.layout key = some standing) :
    (expandDonor {} (Donors.mk [base.tree]) base.id key).result =
      .ok ⟨key, standing.payload, originsBelow source base (.donor base.id key), true⟩ := by
  have read := Buffer.result_payload_of_found (Buffer.result_node_base found)
  have children := wellFormed.shows.result_children ⟨_, found⟩
  exact (Read.result_bind_of_ok (Donors.result_find_single base)).trans
    ((Read.result_bind_of_ok read).trans (Read.result_bind_of_ok children))

/-- Every node that the visit comes to is expanded to its row. -/
theorem result_expandNode {origin : Origin} (reached : Reached source base (origin, above)) :
    ∃ payload materialized, (expandNode source.tree {} (Donors.mk [base.tree]) origin).result =
        .ok ⟨origin.key, payload, originsBelow source base origin, materialized⟩ ∧
      built source base (origin, above) = [(origin.key, ⟨above, payload⟩)] := by
  cases origin with
  | own key =>
      obtain ⟨payload, found⟩ := reached
      obtain ⟨materialized, expanded⟩ := result_expandOwn refers wellFormed allContent found
      refine ⟨_, materialized, expanded, ?_⟩
      rw [built, show source.layout key = _ from found]
      rfl
  | donor id key =>
      obtain ⟨rfl, standing, found⟩ := reached
      refine ⟨_, true, result_expandDonor wellFormed found, ?_⟩
      rw [built, found]
      rfl

/-- A step builds the row of its item. -/
theorem plants_step {item : Origin × Option Key} (reached : Reached source base item)
    (builds : Builds id expansion layout) (room : layout.Room item.2) :
    Plants (Builds id) True (step source.tree {} (Donors.mk [base.tree]) item) expansion layout
      (built source base item) (itemsBelow source base item) := by
  obtain ⟨origin, above⟩ := item
  obtain ⟨payload, materialized, expanded, row⟩ :=
    result_expandNode refers wellFormed allContent reached
  have stepped : (step source.tree {} (Donors.mk [base.tree]) (origin, above)).effect expansion =
      (add origin.key above payload >>= fun _ =>
        pure (itemsBelow source base (origin, above))).effect
        { expansion with materialized := expansion.materialized + materialized.toNat } :=
    (Edit.effect_liftM_bind expanded).trans (Edit.effect_bind_of_ok (Edit.effect_modify _ _))
  have counted : Builds id { expansion with
      materialized := expansion.materialized + materialized.toNat } layout := builds
  apply Plants.congr _ stepped
  rw [row, ← List.append_nil [_]]
  apply (plants_add counted room payload).bind
  intro fresh middle builds
  exact plants_pure builds _

end Visit

/-! ## The rows of a visit -/

/-- From a base node the visit builds its row with those below it. -/
theorem flatMap_built_donor (wellFormed : base.WellFormed) (id : TreeId)
    (found : base.layout key = some standing) {levels : Nat} (enough : base.tree.span ≤ levels) :
    (preorder (itemsBelow source base) (levels + 1) (.donor id key, above)).flatMap
        (built source base) =
      (key, ⟨above, standing.payload⟩) :: base.rowsBelow key := by
  let rename : Key × Option Key → Origin × Option Key := fun item => (.donor id item.1, item.2)
  have renamed : ∀ item, itemsBelow source base (rename item) =
      (base.tree.itemsBelow item).map rename := by
    rintro ⟨key, above⟩
    simp only [itemsBelow, originsBelow, Tree.itemsBelow, List.map_map, rename]
    rfl
  have first : built source base (rename (key, above)) = [(key, ⟨above, standing.payload⟩)] := by
    change (base.layout key).elim [] _ = _
    rw [found]
    rfl
  -- below the first node every node keeps the parent that it has in the base
  have lower : ∀ below ∈ base.tree.itemsBelow (key, above),
      ((preorder base.tree.itemsBelow levels below).flatMap
          fun item => built source base (rename item)) =
        base.rowsOf (preorder base.tree.childList levels below.1) := by
    intro below inside
    have each := base.flatMap_preorder_items (fun row => [row]) levels below
    rw [List.flatMap_singleton'] at each
    rw [← each]
    apply List.flatMap_congr
    rintro ⟨other, parent⟩ among
    obtain ⟨payload, found⟩ :=
      wellFormed.placed_of_mem_preorder (wellFormed.placed_below inside) among
    simp only [built, rename, show base.layout other = _ from found, Option.elim_some]
  change (preorder (itemsBelow source base) (levels + 1) (rename (key, above))).flatMap _ = _
  rw [← map_preorder rename renamed, List.flatMap_map, preorder, List.flatMap_cons, first,
    List.flatMap_assoc, List.flatMap_congr lower, Tree.itemsBelow, List.flatMap_map,
    wellFormed.rowsBelow_eq enough]
  rfl

section Rows

variable (refers : source.RefersInto base) (wellFormed : base.WellFormed)
  (allContent : base.AllContent)

include wellFormed allContent in
/-- A tree-reference stands for its target, with copies of what the base has below it. -/
theorem flatMap_taken_treeReference (holds : base.layout.Holds reference.key) :
    (base.taken (key, ⟨above, .treeReference reference⟩)).flatMap base.spelledOut =
      (key, ⟨above, base.lend (.treeReference reference)⟩) ::
        base.copiesBelow reference.key key := by
  by_cases same : reference.key = key
  · rw [Store.taken, if_pos same, List.flatMap_singleton, Store.spelledOut_treeReference, same,
      wellFormed.copiesBelow_self]
  · obtain ⟨standing, there⟩ := holds
    obtain ⟨value, content⟩ := allContent.exists_content there
    have lent : base.lend (.treeReference reference) = .content value :=
      (Store.lend_treeReference there).trans content
    rw [Store.taken, if_neg same, lent, List.flatMap_cons, List.flatMap_map, Store.copiesBelow]
    apply congrArg (List.cons _)
    apply List.flatMap_congr
    intro child inside
    obtain ⟨payload, found⟩ := (wellFormed.listed.mem_iff reference.key child).mp inside
    rw [found, Option.elim_some, Store.lazyRow, Store.spelledOut_treeReference,
      Store.lend_treeReference found]

omit wellFormed in
theorem flatMap_taken_of_not_isTreeReference (notReference : payload.isTreeReference = false) :
    (base.taken (key, ⟨above, payload⟩)).flatMap base.spelledOut =
      [(key, ⟨above, base.lend payload⟩)] := by
  rw [Store.taken_of_not_isTreeReference notReference, List.flatMap_singleton,
    Store.spelledOut_of_not_isTreeReference notReference]

include refers wellFormed allContent in
/-- The visit of an expansion builds the rows of the delta spelled out. -/
theorem flatMap_built_own {levels : Nat} (found : source.layout key = some ⟨above, payload⟩)
    (enough : Exhausts source.tree.childList levels key) :
    (preorder (itemsBelow source base) (levels + base.tree.span + 1) (.own key, above)).flatMap
        (built source base) =
      (source.rowsOf (preorder source.tree.childList levels key)).flatMap fun row =>
        (base.taken row).flatMap base.spelledOut := by
  induction levels generalizing key above payload with
  | zero => exact enough.elim
  | succ levels inductionHypothesis =>
      have first : built source base (.own key, above) = [(key, ⟨above, base.lend payload⟩)] := by
        rw [built, found]
        rfl
      rw [Store.rowsOf_preorder_of_layout found, preorder, List.flatMap_cons, List.flatMap_cons, first,
        List.flatMap_assoc, List.flatMap_assoc, itemsBelow, originsBelow,
        Store.payload?_of_layout found]
      -- below a node that is no tree-reference the visit goes on in the tree itself
      have plain : payload.isTreeReference = false →
          [(key, ⟨above, base.lend payload⟩)] ++
            (((source.tree.childList key).map Origin.own).map (·, some key)).flatMap (fun item =>
              (preorder (itemsBelow source base) (levels + 1 + base.tree.span) item).flatMap
                (built source base)) =
          (base.taken (key, ⟨above, payload⟩)).flatMap base.spelledOut ++
            (source.tree.childList key).flatMap fun child =>
              (source.rowsOf (preorder source.tree.childList levels child)).flatMap fun row =>
                (base.taken row).flatMap base.spelledOut := by
        intro notReference
        rw [flatMap_taken_of_not_isTreeReference notReference, List.flatMap_map, List.flatMap_map]
        apply congrArg
        apply List.flatMap_congr
        intro child inside
        obtain ⟨payload', found'⟩ := (refers.wellFormed.listed.mem_iff key child).mp inside
        rw [← inductionHypothesis found' (enough child inside), Nat.add_right_comm]
      cases payload with
      | content value => exact plain rfl
      | nodeReference reference => exact plain rfl
      | treeReference reference =>
          obtain ⟨-, holds⟩ := refers.resolves key _ found reference rfl
          rw [flatMap_taken_treeReference wellFormed allContent holds,
            refers.childList_eq_nil found, List.flatMap_nil, List.append_nil, List.flatMap_map,
            List.flatMap_map]
          apply congrArg (List.cons _)
          apply List.flatMap_congr
          intro child inside
          obtain ⟨payload', found'⟩ := (wellFormed.listed.mem_iff reference.key child).mp inside
          rw [found', Option.elim_some, Nat.add_right_comm]
          exact flatMap_built_donor wellFormed reference.tree found' (Nat.le_add_left _ _)

include refers wellFormed in
theorem reached_below {item below : Origin × Option Key} (reached : Reached source base item)
    (inside : below ∈ itemsBelow source base item) : Reached source base below := by
  obtain ⟨origin, among, rfl⟩ := List.mem_map.mp inside
  obtain ⟨_ | ⟨id, key⟩, above⟩ := item
  case own key =>
    obtain ⟨payload, found⟩ := reached
    rw [originsBelow, Store.payload?_of_layout found] at among
    have plain : origin ∈ (source.tree.childList key).map Origin.own →
        Reached source base (origin, some key) := by
      intro among
      obtain ⟨child, listed, rfl⟩ := List.mem_map.mp among
      exact (refers.wellFormed.listed.mem_iff key child).mp listed
    cases payload with
    | content value => exact plain among
    | nodeReference reference => exact plain among
    | treeReference reference =>
        obtain ⟨sameTree, -⟩ := refers.resolves key _ found reference rfl
        obtain ⟨child, listed, rfl⟩ := List.mem_map.mp among
        exact ⟨sameTree, ((wellFormed.listed.mem_iff reference.key child).mp listed).holds⟩
  case donor =>
    obtain ⟨child, listed, rfl⟩ := List.mem_map.mp among
    exact ⟨reached.1, ((wellFormed.listed.mem_iff key child).mp listed).holds⟩

include refers wellFormed allContent in
/-- The visit of an expansion builds the rows of the delta spelled out. -/
theorem plants_visit {root : Key} (isRoot : source.layout.IsRoot root)
    (builds : Builds id expansion fun _ => none) :
    Plants (Builds id) True (depthFirst (step source.tree {} (Donors.mk [base.tree]))
        (levels source.tree (Donors.mk [base.tree])) (.own root, none)) expansion (fun _ => none)
      (((source.rowsFrom root).flatMap base.taken).flatMap base.spelledOut) () := by
  have enough := refers.wellFormed.shows.exhausts isRoot.holds (Nat.le_refl _)
  obtain ⟨payload, found⟩ := isRoot
  have more : Exhausts source.tree.childList (source.tree.span + 1) root :=
    enough.mono (Nat.le_succ _)
  have levels_eq : levels source.tree (Donors.mk [base.tree]) =
      source.tree.span + 1 + base.tree.span + 1 :=
    Nat.add_right_comm _ 1 _
  have link : ∀ item, Reached source base item → ∀ below ∈ itemsBelow source base item,
      ∃ row ∈ built source base item, below.2 = some row.1 := by
    intro item reached below inside
    obtain ⟨next, -, rfl⟩ := List.mem_map.mp inside
    obtain ⟨payload, materialized, -, row⟩ :=
      result_expandNode refers wellFormed allContent reached
    exact ⟨_, by rw [row]; exact List.mem_singleton_self _, rfl⟩
  rw [List.flatMap_assoc, Store.rowsFrom, ← preorder_eq_of_exhausts enough (Nat.le_succ _),
    ← flatMap_built_own refers wellFormed allContent found more, levels_eq]
  exact plants_descending Prod.snd (Reached source base)
    (fun _ reached _ _ builds room => plants_step refers wellFormed allContent reached builds room)
    (fun _ reached _ inside => reached_below refers wellFormed reached inside) link _ _
    ⟨payload, found⟩ builds fun _ => rfl

end Rows

end Expansion

/-! ## The expansion -/

/-- The rows that a delta stands for over a base. -/
def Store.standsFor (base source : Store C) : List (Layout.Row C) :=
  (source.rows.flatMap base.taken).flatMap base.spelledOut

/-- An expansion succeeds exactly when no key comes twice among the rows that the delta stands for,
and builds them. -/
theorem Donors.result_expand_single {source base : Store C} (refers : source.RefersInto base)
    (wellFormed : base.WellFormed) (allContent : base.AllContent) :
    Layout.Fresh (fun _ => none) (base.standsFor source) ∧
        (∃ expanded, ((Donors.mk [base.tree]).expand source.tree).result = .ok expanded ∧
          expanded.Builds source.id (Layout.plant (fun _ => none) (base.standsFor source))) ∨
      ¬ Layout.Fresh (fun _ => none) (base.standsFor source) ∧
        ∃ fault, ((Donors.mk [base.tree]).expand source.tree).result = .error (.delta fault) := by
  have rootKey : source.tree.rootKey.result = .ok source.root := rfl
  have empty : (Store.empty source.id : Store C).Builds source.id fun _ => none :=
    Store.builds_empty source.id {}
  rw [Donors.expand, Read.result_bind_of_ok rootKey, Store.standsFor, Store.rows]
  cases found : source.root with
  | none => exact .inl ⟨Layout.fresh_nil _, _, rfl, empty⟩
  | some root =>
      have isRoot := (refers.wellFormed.root root).mp found
      have builds : Expansion.Builds source.id ⟨Store.empty source.id, 0⟩
          (fun _ => none : Layout C) := empty
      have planted := Expansion.plants_visit refers wellFormed allContent isRoot builds
      by_cases fresh : Layout.Fresh (fun _ => none)
        (((source.rowsFrom root).flatMap base.taken).flatMap base.spelledOut)
      · obtain ⟨after, ok, built⟩ := planted.places fresh
        refine .inl ⟨fresh, after.tree, ?_, built⟩
        exact Read.result_bind_of_ok (Edit.result_toRead_of_ok ok)
      · obtain ⟨fault, after, failed⟩ := planted.rejects trivial fresh
        refine .inr ⟨fresh, fault, ?_⟩
        exact Read.result_bind_of_error (Edit.result_toRead_of_error failed)

end VersionedTrees
