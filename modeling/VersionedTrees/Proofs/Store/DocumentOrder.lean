import Mathlib.Data.List.Pairwise
import VersionedTrees.Proofs.Key.Levels
import VersionedTrees.Proofs.Store.Frames
import VersionedTrees.Proofs.Store.Places
import VersionedTrees.Tree.KeyWalk

/-!
# Document order

A walk over a store tells each key once, parents before what is below them and siblings in order with all
that is below them (`Store.ComesBefore`). It ends, whether it is taken as a whole or key by key. Where the
keys are positions that agree with the parents (`Store.Positioned`), which they do as long as the store
chooses them, that order is the order of the keys (`Store.walks_in_document_order`).
-/

namespace VersionedTrees

/-! ## Walks that are taken key by key -/

namespace KeyWalk

variable {C : Type} {tree : Tree C} {next : Key → List Key} {reached : Key → Prop} {levels : Nat}
  {key : Key} {stack : List (List Key)} {rest : List (Except TreeError Key)}

/-- What a walk tells is what its next call leads to. -/
theorem Tells.of_next_eq {walk other : KeyWalk} (tells : other.Tells tree rest)
    (same : walk.next tree = other.next tree) : walk.Tells tree rest := by
  cases tells with
  | ended told => exact .ended (same ▸ told)
  | item told rest => exact .item (same ▸ told) rest

/-- A list of which nothing is left is not seen. -/
theorem Tells.nil_cons (tells : (descending stack).Tells tree rest) :
    (descending ([] :: stack)).Tells tree rest :=
  tells.of_next_eq rfl

/-- Behind the start and behind the last child of a list there is nothing. -/
theorem tells_descending_nil : (descending []).Tells tree [] :=
  .ended rfl

/-- The key that comes next is told, and its children come after it. -/
theorem result_next {walk after : KeyWalk} {children : List Key} (going : walk.done = false)
    (came : (walk.upcoming tree).result = .ok (some (key, after)))
    (read : (tree.children key).result = .ok children) :
    (walk.next tree).result = .ok (some (.ok key), { after with stack := children :: after.stack }) := by
  have came' : (walk.upcoming tree).outcome.result = .ok (.ok (some (key, after))) := by
    rw [Read.result_outcome, came]
  have read' : (tree.children key).outcome.result = .ok (.ok children) := by
    rw [Read.result_outcome, read]
  simp only [KeyWalk.next, going, Bool.false_eq_true, if_false]
  rw [Read.result_bind_of_ok came']
  exact Read.result_bind_of_ok read'

/-- A walk over a tree starts at the root. -/
theorem next_start_none (found : tree.rootKey = pure (some key)) :
    (start none).next tree = (start (some key)).next tree := by
  rw [KeyWalk.next, KeyWalk.next, upcoming, found]
  rfl

section Reading

variable (read : ∀ key, reached key → (tree.children key).result = .ok (next key))
  (closed : ∀ key, reached key → ∀ child ∈ next key, reached child)

include read closed

/-- A walk tells all that follows from the children that are still to come before it goes on with what comes
after them. -/
theorem tells_descending {items : List Key} (among : ∀ item ∈ items, reached item)
    (enough : ∀ item ∈ items, Exhausts next levels item) (tells : (descending stack).Tells tree rest) :
    (descending (items :: stack)).Tells tree ((items.flatMap (preorder next levels)).map .ok ++ rest) := by
  induction levels generalizing items stack rest with
  | zero =>
      cases items with
      | nil => exact tells.nil_cons
      | cons item items => exact (enough item List.mem_cons_self).elim
  | succ levels inductionHypothesis =>
      induction items with
      | nil => exact tells.nil_cons
      | cons item items inductionHypothesis' =>
          have here := among item List.mem_cons_self
          have later := inductionHypothesis'
            (fun other inside => among other (List.mem_cons_of_mem _ inside))
            (fun other inside => enough other (List.mem_cons_of_mem _ inside))
          have below := inductionHypothesis (closed item here) (enough item List.mem_cons_self) later
          rw [List.flatMap_cons, preorder, List.cons_append, List.map_cons, List.map_append,
            List.cons_append, List.append_assoc]
          exact .item (result_next rfl rfl (read item here)) below

/-- A walk from a key on tells what follows from it, and then it ends. -/
theorem tells_start (here : reached key) (enough : Exhausts next levels key) :
    (start (some key)).Tells tree ((preorder next levels key).map .ok) := by
  cases levels with
  | zero => exact enough.elim
  | succ levels =>
      have nothing : (descending []).Tells tree [] := tells_descending_nil
      have below := tells_descending read closed (closed key here) enough nothing
      rw [List.append_nil] at below
      exact .item (result_next rfl rfl (read key here)) below

end Reading

end KeyWalk

/-! ## Blocks -/

/-- What follows from an item of a pre-order is a block of it. -/
theorem preorder_isInfix {α : Type} {next : α → List α} {levels more : Nat} {item middle : α}
    (enough : Exhausts next levels item) (inside : middle ∈ preorder next levels item)
    (enough' : Exhausts next more middle) : preorder next more middle <:+: preorder next levels item := by
  induction levels generalizing item with
  | zero => exact enough.elim
  | succ levels inductionHypothesis =>
      rcases List.mem_cons.mp inside with rfl | lower
      · exact (preorder_eq_preorder enough enough').symm ▸ List.infix_rfl
      · obtain ⟨below, among, inside⟩ := List.mem_flatMap.mp lower
        have block := inductionHypothesis (enough below among) inside
        have within : preorder next levels below <:+: (next item).flatMap (preorder next levels) := by
          rw [List.flatMap_def]
          exact List.infix_of_mem_flatten (List.mem_map_of_mem among)
        exact block.trans (within.trans (List.suffix_cons item _).isInfix)

namespace Store

variable {C : Type} {store next : Store C} {key parent first second : Key} {keys : List Key}
  {payload : Payload C} {position : PathKey}

/-! ## The order of a walk -/

/-- One key comes before another in a walk: it stands above it, or they stand at or below two siblings, the
first of them at or below the one with the lower key. -/
inductive ComesBefore (store : Store C) (first second : Key) : Prop where
  | above (atOrBelow : store.AtOrBelow first second) (different : first ≠ second)
  | beside {parent left right : Key} (leftChild : store.NamesParent left parent)
      (rightChild : store.NamesParent right parent) (ordered : compare left right = .lt)
      (firstBelow : store.AtOrBelow left first) (secondBelow : store.AtOrBelow right second)

/-- In pre-order below a key stand the keys at and below it. -/
theorem WellFormed.mem_preorder_iff (wellFormed : store.WellFormed) (holds : store.layout.Holds key)
    {levels : Nat} (enough : Exhausts store.tree.childList levels key) (other : Key) :
    other ∈ preorder store.tree.childList levels key ↔ store.AtOrBelow key other := by
  rw [wellFormed.atOrBelow_iff holds, wellFormed.listed.mem_preorder_iff wellFormed.isTree holds enough]

/-- The keys of a pre-order come one before the other. -/
theorem WellFormed.pairwise_preorder (wellFormed : store.WellFormed) (holds : store.layout.Holds key)
    {levels : Nat} (enough : Exhausts store.tree.childList levels key) :
    (preorder store.tree.childList levels key).Pairwise store.ComesBefore := by
  have isTree := wellFormed.isTree
  induction levels generalizing key with
  | zero => exact enough.elim
  | succ levels inductionHypothesis =>
      have isChild : ∀ child ∈ store.tree.childList key, store.layout.IsChild child key :=
        fun child => (wellFormed.listed.mem_iff key child).mp
      have within : ∀ child ∈ store.tree.childList key, ∀ other,
          other ∈ preorder store.tree.childList levels child → store.AtOrBelow child other :=
        fun child among other =>
          (wellFormed.mem_preorder_iff (isChild child among).holds (enough child among) other).mp
      refine List.pairwise_cons.mpr ⟨fun other inside => ?_, List.pairwise_flatMap.mpr ⟨?_, ?_⟩⟩
      · obtain ⟨child, among, inside⟩ := List.mem_flatMap.mp inside
        have lower := within child among other inside
        refine .above (lower.tail (namesParent_iff.mpr (isChild child among))) ?_
        rintro rfl
        -- nothing stands below its own child
        exact (isChild child among).not_within isTree
          ((wellFormed.atOrBelow_iff (isChild child among).holds).mp lower)
      · exact fun child among => inductionHypothesis (isChild child among).holds (enough child among)
      · refine (wellFormed.listed.ordered key).imp_of_mem ?_
        intro left right amongLeft amongRight ordered first insideFirst second insideSecond
        exact .beside (namesParent_iff.mpr (isChild left amongLeft))
          (namesParent_iff.mpr (isChild right amongRight)) ordered
          (within left amongLeft first insideFirst) (within right amongRight second insideSecond)

/-- What a walk from a key tells, taken as a whole and taken key by key. -/
structure WalkedFrom (store : Store C) (key : Key) (keys : List Key) : Prop where
  told : (store.tree.keysFrom key).result = .ok keys
  walked : (KeyWalk.start (some key)).Tells store.tree (keys.map .ok)
  mem_iff : ∀ other, other ∈ keys ↔ store.AtOrBelow key other
  nodup : keys.Nodup
  ordered : keys.Pairwise store.ComesBefore
  /-- What stands at and below one of the keys is told without anything else in between. -/
  contiguous : ∀ other ∈ keys, ∃ block, (store.tree.keysFrom other).result = .ok block ∧ block <:+: keys

/-- A walk from a key that is there tells the key and all that is below it. -/
theorem WellFormed.walkedFrom (wellFormed : store.WellFormed) (holds : store.layout.Holds key) :
    store.WalkedFrom key (preorder store.tree.childList store.tree.span key) := by
  have shows := wellFormed.shows
  have enough : ∀ {key}, store.layout.Holds key → Exhausts store.tree.childList store.tree.span key :=
    fun holds => shows.exhausts holds (Nat.le_refl _)
  have closed : ∀ key, store.layout.Holds key → ∀ child ∈ store.tree.childList key,
      store.layout.Holds child :=
    fun key _ child among => ((wellFormed.listed.mem_iff key child).mp among).holds
  refine ⟨shows.result_keysFrom holds,
    KeyWalk.tells_start (fun key => shows.result_children) closed holds (enough holds),
    wellFormed.mem_preorder_iff holds (enough holds),
    wellFormed.listed.nodup_preorder wellFormed.isTree holds,
    wellFormed.pairwise_preorder holds (enough holds), fun other among => ?_⟩
  have within := (wellFormed.listed.mem_preorder_iff wellFormed.isTree holds (enough holds)).mp among
  have holds' := within.holds
  exact ⟨_, shows.result_keysFrom holds', preorder_isInfix (enough holds) among (enough holds')⟩

/-- What a walk over a store tells. -/
structure Walked (store : Store C) (keys : List Key) : Prop where
  told : store.tree.keys.result = .ok keys
  walked : (KeyWalk.start none).Tells store.tree (keys.map .ok)
  mem_iff : ∀ key, key ∈ keys ↔ store.contains key = true
  ordered : keys.Pairwise store.ComesBefore
  /-- The walk starts at the root, if there is one. -/
  from_root : ∀ root, store.root = some root → store.WalkedFrom root keys

/-- A walk tells all keys of a store. -/
theorem WellFormed.exists_walked (wellFormed : store.WellFormed) : ∃ keys, store.Walked keys := by
  cases found : store.root with
  | none =>
      have empty := wellFormed.layout_of_no_root found
      refine ⟨[], ?_, .ended ?_, fun key => ?_, .nil, fun root same => nomatch found.symm.trans same⟩
      · rw [Tree.keys, show store.tree.rootKey = pure store.root from rfl, found]
        rfl
      · rw [KeyWalk.next, KeyWalk.upcoming, show store.tree.rootKey = pure store.root from rfl, found]
        rfl
      · rw [contains_iff_holds]
        exact iff_of_false List.not_mem_nil (Layout.not_holds_iff.mpr (empty key))
  | some root =>
      have isRoot := (wellFormed.root root).mp found
      have walked := wellFormed.walkedFrom isRoot.holds
      refine ⟨_, wellFormed.shows.result_keys_of_isRoot isRoot,
        walked.walked.of_next_eq (KeyWalk.next_start_none (congrArg pure found)), fun key => ?_,
        walked.ordered, ?_⟩
      · rw [walked.mem_iff, contains_iff_holds, wellFormed.atOrBelow_iff isRoot.holds]
        refine ⟨Layout.Within.holds, fun holds => ?_⟩
        obtain ⟨top, isTop, within⟩ := wellFormed.isTree.exists_root holds
        rwa [wellFormed.isTree.single root top isRoot isTop]
      · intro other same
        rw [found, Option.some.injEq] at same
        exact same ▸ walked

/-! ## Keys that tell the place -/

/-- The keys tell where the nodes stand: the root is the root position, and every other node has a position
whose parent is its parent in the tree. -/
structure Positioned (store : Store C) : Prop where
  root : ∀ root, store.root = some root → root = .root
  parent : ∀ key parent, store.NamesParent key parent → ∃ position above,
    key = .path position ∧ position.Complete ∧ position.parent = some above ∧ parent = .path above

theorem Positioned.exists_position (positioned : store.Positioned) (wellFormed : store.WellFormed)
    (holds : store.layout.Holds key) : ∃ position, key = .path position ∧ position.Complete := by
  rcases holds.isRoot_or_isChild with isRoot | ⟨parent, isChild⟩
  · exact ⟨.root, positioned.root key ((wellFormed.root key).mpr isRoot), nofun⟩
  · obtain ⟨position, above, same, complete, -, -⟩ :=
      positioned.parent key parent (namesParent_iff.mpr isChild)
    exact ⟨position, same, complete⟩

theorem Positioned.completeKeys (positioned : store.Positioned) (wellFormed : store.WellFormed) :
    store.CompleteKeys := by
  intro key holds
  obtain ⟨position, rfl, complete⟩ := positioned.exists_position wellFormed holds
  exact complete

/-- What stands below a key has a position that goes on behind it. -/
theorem Positioned.atOrBelow (positioned : store.Positioned) {top : PathKey} (complete : top.Complete)
    (below : store.AtOrBelow (.path top) (.path position)) :
    position = top ∨ top.isAncestorOf position = true := by
  generalize same : Key.path position = key at below
  induction below using Relation.ReflTransGen.head_induction_on generalizing position with
  | refl => exact .inl (Key.path.inj same)
  | head named _ inductionHypothesis =>
      obtain ⟨position', above, rfl, complete', step, rfl⟩ := positioned.parent _ _ named
      obtain rfl := Key.path.inj same
      obtain ⟨-, isLabel, spelled⟩ := complete'.eq_extend_label step
      refine .inr ?_
      rw [spelled, complete.isAncestorOf_extend_iff isLabel]
      exact (inductionHypothesis rfl).imp_left Eq.symm

/-- What comes first in a walk has the lower key. -/
theorem Positioned.compare_of_comesBefore (positioned : store.Positioned) (wellFormed : store.WellFormed)
    (holds : store.layout.Holds first) (holds' : store.layout.Holds second)
    (before : store.ComesBefore first second) : compare first second = .lt := by
  obtain ⟨position, rfl, complete⟩ := positioned.exists_position wellFormed holds
  obtain ⟨position', rfl, complete'⟩ := positioned.exists_position wellFormed holds'
  cases before with
  | above atOrBelow different =>
      rcases positioned.atOrBelow complete atOrBelow with rfl | above
      · exact absurd rfl different
      · exact PathKey.compare_of_isAncestorOf above
  | beside leftChild rightChild ordered firstBelow secondBelow =>
      obtain ⟨left, above, rfl, completeLeft, below, rfl⟩ := positioned.parent _ _ leftChild
      obtain ⟨right, above', rfl, completeRight, below', same⟩ := positioned.parent _ _ rightChild
      obtain rfl := Key.path.inj same
      exact PathKey.compare_of_atOrBelow ordered
        (completeLeft.not_isAncestorOf_of_parent_eq completeRight below below')
        (positioned.atOrBelow completeLeft firstBelow) (positioned.atOrBelow completeRight secondBelow)

/-- Where the keys tell the place, the order of a walk is the order of the keys. -/
theorem Positioned.compare_eq_lt_iff (positioned : store.Positioned) (wellFormed : store.WellFormed)
    (there : store.contains first = true) (there' : store.contains second = true) :
    compare first second = .lt ↔ store.ComesBefore first second := by
  have holds := contains_iff_holds.mp there
  have holds' := contains_iff_holds.mp there'
  refine ⟨fun lower => ?_, positioned.compare_of_comesBefore wellFormed holds holds'⟩
  obtain ⟨keys, walked⟩ := wellFormed.exists_walked
  -- the walk over the whole store comes to both keys, to one of them first
  let related one other := store.ComesBefore one other ∨ store.ComesBefore other one
  have total : keys.Pairwise related := walked.ordered.imp .inl
  have : Std.Symm related := ⟨fun _ _ => Or.symm⟩
  have different : first ≠ second := by
    rintro rfl
    rw [Std.compare_self] at lower
    cases lower
  refine (total.forall ((walked.mem_iff first).mpr there) ((walked.mem_iff second).mpr there')
    different).resolve_right fun later => ?_
  have higher := positioned.compare_of_comesBefore wellFormed holds' holds later
  rw [Std.OrientedOrd.eq_swap, lower] at higher
  cases higher

end Store

/-! ## Stores that choose the keys -/

/-- The edits that leave the key of a new node to the store. -/
def StoreEdit.Automatic {C : Type} : StoreEdit C → Prop
  | .insert _ (.exactly _) _ => False
  | .insert _ (.automatic _) _ | .update _ _ | .delete _ | .clear => True

namespace Store

variable {C : Type} {store next : Store C} {key parent : Key} {payload : Payload C} {place : Place}

namespace Positioned

/-- Keys go on telling the place as long as no node gets another parent and none is added. -/
theorem of_fewer (positioned : store.Positioned) (wellFormed : store.WellFormed)
    (wellFormed' : next.WellFormed) (root : ∀ key, next.layout.IsRoot key → store.layout.IsRoot key)
    (child : ∀ key parent, next.layout.IsChild key parent → store.layout.IsChild key parent) :
    next.Positioned where
  root key found :=
    positioned.root key ((wellFormed.root key).mpr (root key ((wellFormed'.root key).mp found)))
  parent key parent named :=
    positioned.parent key parent (namesParent_iff.mpr (child key parent (namesParent_iff.mp named)))

/-- Keys go on telling the place with a node whose key does so. -/
theorem of_place {above : Option Key} (positioned : store.Positioned) (wellFormed : store.WellFormed)
    (wellFormed' : next.WellFormed) (layout_eq : next.layout = store.layout.place key ⟨above, payload⟩)
    (root : above = none → key = .root)
    (child : ∀ parent, above = some parent → ∃ position grand,
      key = .path position ∧ position.Complete ∧ position.parent = some grand ∧ parent = .path grand) :
    next.Positioned := by
  refine ⟨fun other found => ?_, fun other parent named => ?_⟩
  · obtain ⟨payload', found⟩ := (wellFormed'.root other).mp found
    rw [layout_eq] at found
    by_cases same : key = other
    · subst same
      rw [Layout.place_self, Option.some.injEq, Standing.mk.injEq] at found
      exact root found.1
    · rw [Layout.place_of_ne same] at found
      exact positioned.root other ((wellFormed.root other).mpr ⟨payload', found⟩)
  · obtain ⟨payload', found⟩ := namesParent_iff.mp named
    rw [layout_eq] at found
    by_cases same : key = other
    · subst same
      rw [Layout.place_self, Option.some.injEq, Standing.mk.injEq] at found
      exact child parent found.1
    · rw [Layout.place_of_ne same] at found
      exact positioned.parent other parent (namesParent_iff.mpr ⟨payload', found⟩)

/-- A root that is placed gets the root position. -/
theorem of_insert_root (positioned : store.Positioned) (wellFormed : store.WellFormed)
    (ok : store.insert none (.automatic place) payload = (.ok key, next)) : next.Positioned := by
  obtain ⟨wellFormed', layout_eq⟩ := wellFormed.insert_eq_ok ok
  exact positioned.of_place wellFormed wellFormed' layout_eq
    (fun _ => (put_of_insert_root ok).1.symm) nofun

/-- A node that is placed below a parent gets a position below that of the parent. -/
theorem of_insert_below (positioned : store.Positioned) (wellFormed : store.WellFormed)
    (ok : store.insert (some parent) (.automatic place) payload = (.ok key, next)) : next.Positioned := by
  obtain ⟨wellFormed', layout_eq⟩ := wellFormed.insert_eq_ok ok
  obtain ⟨above, rfl, -⟩ := positioned.exists_position wellFormed (chosen_of_insert ok).1
  have settles := wellFormed.settles_insertAt (positioned.completeKeys wellFormed) ⟨above, place, payload⟩
  rw [insertAt, ok] at settles
  cases settles with
  | @placed front back new _ _ _ fits =>
      have inside : new ∈ front ++ new :: back := List.mem_append_right _ List.mem_cons_self
      refine positioned.of_place wellFormed wellFormed' layout_eq (fun same => ?_) fun parent same => ?_
      · cases same
      · exact ⟨new, above, rfl, fits.complete new inside, fits.below new inside,
          (Option.some.inj same).symm⟩

/-- Spent keys have no part in where nodes stand. -/
theorem withSupply (positioned : store.Positioned) (supply : KeySupply) :
    ({ store with supply } : Store C).Positioned :=
  ⟨positioned.root, positioned.parent⟩

theorem keeps_insert (positioned : store.Positioned) (wellFormed : store.WellFormed) (above : Option Key)
    (place : Place) (payload : Payload C) :
    (store.insert above (.automatic place) payload).2.Positioned := by
  have ends := store.ends_insert above (.automatic place) payload
  rcases ended : store.insert above (.automatic place) payload with ⟨error | key, next⟩
  · rw [ended] at ends
    cases ends with
    | error supply => exact positioned.withSupply supply
  · cases above with
    | none => exact positioned.of_insert_root wellFormed ended
    | some parent => exact positioned.of_insert_below wellFormed ended

theorem keeps_update (positioned : store.Positioned) (wellFormed : store.WellFormed)
    (ok : store.update key payload = .ok next) : next.Positioned := by
  obtain ⟨standing, found, becomes⟩ := wellFormed.becomes_of_update ok
  have same : store.layout.SameParents next.layout := by
    rw [becomes.layout_eq]
    exact Layout.sameParents_place found
  exact positioned.of_fewer wellFormed becomes.wellFormed (fun key => same.isRoot_iff.mpr)
    fun key parent => same.isChild_iff.mpr

theorem keeps_delete (positioned : store.Positioned) (wellFormed : store.WellFormed)
    (ok : store.delete key = .ok next) : next.Positioned := by
  have becomes := wellFormed.becomes_of_delete ok
  refine positioned.of_fewer wellFormed becomes.wellFormed (fun key isRoot => ?_)
    fun key parent isChild => ?_
  · rw [becomes.layout_eq] at isRoot
    exact (Layout.isRoot_prune_iff.mp isRoot).1
  · rw [becomes.layout_eq] at isChild
    exact (Layout.isChild_prune_iff.mp isChild).1

/-- Keys go on telling the place after every edit that leaves them to the store, however it ends. -/
theorem keeps_edit (positioned : store.Positioned) (wellFormed : store.WellFormed) {edit : StoreEdit C}
    (automatic : edit.Automatic) : (edit.edit.effect store).2.Positioned := by
  cases edit with
  | insert above placement payload =>
      cases placement with
      | exactly key => exact automatic.elim
      | automatic place =>
          rw [StoreEdit.edit, Edit.effect_map]
          exact positioned.keeps_insert wellFormed above place payload
  | update key payload =>
      rw [StoreEdit.edit, Edit.effect_map]
      change (Edit.effect (Edit.attempt (·.update key payload)) store).2.Positioned
      rw [Edit.effect_attempt]
      cases ok : store.update key payload with
      | error _ => exact positioned
      | ok next => exact positioned.keeps_update wellFormed ok
  | delete key =>
      rw [StoreEdit.edit, Edit.effect_map]
      change (Edit.effect (Edit.attempt (·.delete key)) store).2.Positioned
      rw [Edit.effect_attempt]
      cases ok : store.delete key with
      | error _ => exact positioned
      | ok next => exact positioned.keeps_delete wellFormed ok
  | clear =>
      refine positioned.of_fewer wellFormed (becomes_clear store).wellFormed (fun key isRoot => ?_)
        fun key parent isChild => ?_
      · have same := (becomes_clear store).layout_eq
        obtain ⟨payload, found⟩ := isRoot
        cases (congrFun same key).symm.trans found
      · have same := (becomes_clear store).layout_eq
        obtain ⟨payload, found⟩ := isChild
        cases (congrFun same key).symm.trans found

/-- Keys go on telling the place after any run of such calls. -/
theorem afterCalls (positioned : store.Positioned) (reachable : store.Reachable)
    (calls : List (StoreCall C)) (automatic : ∀ call ∈ calls, call.toEdit.Automatic) :
    (store.afterCalls calls).Positioned := by
  induction calls generalizing store with
  | nil => exact positioned
  | cons call calls inductionHypothesis =>
      have kept := positioned.keeps_edit reachable.wellFormed (automatic call List.mem_cons_self)
      have step := reachable.step call.toEdit
      rw [← call.edited_eq] at kept step
      exact inductionHypothesis kept step fun other inside => automatic other (List.mem_cons_of_mem _ inside)

end Positioned

/-- An empty store has no keys that could tell anything else. -/
theorem positioned_empty (id : TreeId) (supply : KeySupply) : (empty id supply : Store C).Positioned :=
  ⟨nofun, fun key _ ⟨_, found, _⟩ => nomatch (slot?_empty id supply key).symm.trans found⟩

/-! ## Walks and the order of keys -/

/-- A walk from any key of a store tells the key and all that is below it, each once, parents first and
siblings in order with all that is below them, and a walk from the root tells every key. Where the keys tell
the place this is the order of the keys. They do so in an empty store, and go on doing so as long as the
store chooses the keys. -/
theorem walks_in_document_order (reachable : store.Reachable) :
    (∀ key, store.contains key = true → ∃ keys, store.WalkedFrom key keys) ∧
    (∃ keys, store.Walked keys ∧
      (store.Positioned → keys.Pairwise fun left right => compare left right = .lt)) ∧
    (store.Positioned → ∀ first second, store.contains first = true → store.contains second = true →
      (compare first second = .lt ↔ store.ComesBefore first second)) ∧
    ∀ calls, store.Positioned → (∀ call ∈ calls, call.toEdit.Automatic) →
      (store.afterCalls calls).Positioned := by
  have wellFormed := reachable.wellFormed
  obtain ⟨keys, walked⟩ := wellFormed.exists_walked
  refine ⟨fun key there => ⟨_, wellFormed.walkedFrom (contains_iff_holds.mp there)⟩,
    ⟨keys, walked, fun positioned => ?_⟩,
    fun positioned first second => positioned.compare_eq_lt_iff wellFormed,
    fun calls positioned => positioned.afterCalls reachable calls⟩
  have holds : ∀ key ∈ keys, store.layout.Holds key :=
    fun key inside => contains_iff_holds.mp ((walked.mem_iff key).mp inside)
  exact walked.ordered.imp_of_mem fun inside inside' =>
    positioned.compare_of_comesBefore wellFormed (holds _ inside) (holds _ inside')

/-- A root with two children of which the first has two, all added with keys of the store, and then one
between the children. -/
theorem walks_in_document_order_placed :
    let start : Store String := .empty ⟨1⟩ {}
    let calls : List (StoreCall String) := [.setRoot "root", .append .root "a", .append (.path ⟨[1]⟩) "a1",
      .append (.path ⟨[1]⟩) "a2", .append .root "b",
      .plain (.insert (some .root) (.automatic (.after (.path ⟨[1]⟩))) (.content "between"))]
    let store := start.afterCalls calls
    let keys : List Key := [.root, .path ⟨[1]⟩, .path ⟨[1, 1]⟩, .path ⟨[1, 3]⟩, .path ⟨[2, 1]⟩, .path ⟨[3]⟩]
    store.Reachable ∧ store.Positioned ∧ store.Walked keys ∧
      (keys.Pairwise fun left right => compare left right = .lt) ∧
      store.WalkedFrom (.path ⟨[1]⟩) [.path ⟨[1]⟩, .path ⟨[1, 1]⟩, .path ⟨[1, 3]⟩] := by
  intro start calls store keys
  have empty : start.Reachable := .empty ⟨1⟩ {}
  have reachable : store.Reachable := empty.afterCalls calls
  have automatic : ∀ call ∈ calls, call.toEdit.Automatic := by
    simp [calls, StoreCall.toEdit, StoreEdit.Automatic]
  obtain ⟨-, -, -, goOn⟩ := walks_in_document_order empty
  have positioned : store.Positioned := goOn calls (positioned_empty ⟨1⟩ {}) automatic
  obtain ⟨walksFrom, ⟨told, walked, ordered⟩, -, -⟩ := walks_in_document_order reachable
  have told_eq : told = keys := Except.ok.inj (walked.told.symm.trans (by decide +kernel))
  obtain ⟨below, walkedFrom⟩ := walksFrom (.path ⟨[1]⟩) (by decide +kernel)
  have below_eq : below = [.path ⟨[1]⟩, .path ⟨[1, 1]⟩, .path ⟨[1, 3]⟩] :=
    Except.ok.inj (walkedFrom.told.symm.trans (by decide +kernel))
  rw [told_eq] at walked ordered
  rw [below_eq] at walkedFrom
  exact ⟨reachable, positioned, walked, ordered positioned, walkedFrom⟩

end Store

end VersionedTrees
