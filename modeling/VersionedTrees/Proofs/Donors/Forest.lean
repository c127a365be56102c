import VersionedTrees.Donors.Basic
import VersionedTrees.Proofs.Buffer.Reads
import VersionedTrees.Proofs.Store.Rows

/-!
# Resolved subtrees

A node of a store may refer to nodes of donors, and those below it may again. With all references
followed it stands for a `Subtree`: its content, and the `Forest` of what is below it. The key of the
node itself is no part of that. `Describes` says of a node and a subtree that the node stands for it.
A node stands for one subtree at most (`Describes.unique`), and subtrees can be compared without any
digest.
-/

namespace VersionedTrees

variable {C : Type}

/-- Trees side by side, in order, with content everywhere. -/
inductive Forest (C : Type) where
  | nil
  | cons (key : Key) (content : C) (below rest : Forest C)
deriving DecidableEq

/-- The content of a node and what is below it. -/
@[ext] structure Subtree (C : Type) where
  content : C
  below : Forest C
deriving DecidableEq

/-- The rows of a forest below a parent, in pre-order. -/
def Forest.rows : Forest C → Key → List (Layout.Row C)
  | .nil, _ => []
  | .cons key content below rest, parent =>
    (key, ⟨some parent, .content content⟩) :: (below.rows key ++ rest.rows parent)

/-- The rows of a subtree under a key, in pre-order. -/
def Subtree.rows (subtree : Subtree C) (key : Key) (above : Option Key) : List (Layout.Row C) :=
  (key, ⟨above, .content subtree.content⟩) :: subtree.below.rows key

/-! ## Stores as donors -/

namespace Donors

/-- Stores as donors. -/
def ofStores (stores : List (Store C)) : Donors C :=
  ⟨stores.map Store.tree⟩

/-- The store that counts among those with an identifier, which is the first. -/
def storeOf (stores : List (Store C)) (id : TreeId) : Option (Store C) :=
  stores.find? (·.id == id)

/-- The stores that count, in order. -/
def counted (stores : List (Store C)) : List (Store C) :=
  (stores.map (·.id)).eraseDups.filterMap (storeOf stores)

/-- The content that a payload stands for. A reference to a reference stands for nothing. -/
def lent (stores : List (Store C)) : Payload C → Option C
  | .content value => some value
  | .nodeReference reference | .treeReference reference =>
    (storeOf stores reference.tree).bind fun store =>
      (store.payload? reference.key).bind Payload.content?

variable {stores : List (Store C)} {store : Store C} {id : TreeId} {payload : Payload C} {value : C}

theorem id_of_storeOf (found : storeOf stores id = some store) : store.id = id := by
  rw [storeOf] at found
  have same := List.find?_some found
  exact eq_of_beq same

theorem mem_of_storeOf (found : storeOf stores id = some store) : store ∈ stores :=
  List.mem_of_find?_eq_some found

theorem mem_counted_iff : store ∈ counted stores ↔ storeOf stores store.id = some store := by
  rw [counted, List.mem_filterMap]
  constructor
  · rintro ⟨id, -, found⟩
    rwa [id_of_storeOf found]
  · intro found
    refine ⟨store.id, List.mem_eraseDups.mpr ?_, found⟩
    exact List.mem_map.mpr ⟨store, mem_of_storeOf found, rfl⟩

/-- A reference stands for the content that its target holds. -/
theorem lent_eq_some_iff {reference : Reference} (points : payload.reference? = some reference) :
    lent stores payload = some value ↔ ∃ target, storeOf stores reference.tree = some target ∧
      target.payload? reference.key = some (.content value) := by
  have followed : ((storeOf stores reference.tree).bind fun store =>
      (store.payload? reference.key).bind Payload.content?) = some value ↔ ∃ target,
        storeOf stores reference.tree = some target ∧
          target.payload? reference.key = some (.content value) := by
    simp only [Option.bind_eq_some_iff, Payload.content?_eq_some_iff, exists_eq_right]
  cases payload with
  | content other => cases points
  | nodeReference other =>
      cases points
      exact followed
  | treeReference other =>
      cases points
      exact followed

/-- A donor is found as its store is. -/
theorem find_ofStores (stores : List (Store C)) (id : TreeId) :
    (ofStores stores).find id =
      Read.orFail (.treeUnavailable id) ((storeOf stores id).map Store.tree) := by
  rw [find, ofStores, List.find?_map]
  rfl

/-- A reference that is followed ends at a node of the store that counts. -/
theorem result_target_iff {reference : Reference} {node : Node C} :
    ((ofStores stores).target reference).result = .ok node ↔
      ∃ store, storeOf stores reference.tree = some store ∧ store.node? reference.key = some node := by
  rw [target, find_ofStores]
  cases storeOf stores reference.tree with
  | none => exact iff_of_false (fun ok => nomatch ok) nofun
  | some store =>
      have read : (store.tree.node reference.key).result = .ok (store.node? reference.key) := rfl
      rw [Option.map_some, Read.result_bind_of_ok (Read.result_orFail_some _ _),
        Read.result_bind_of_ok read, Read.result_orFail_eq_ok_iff]
      simp

/-- A payload is resolved if there is content that it stands for, and to this content. -/
theorem result_resolve_iff :
    ((ofStores stores).resolve payload).result = .ok value ↔ lent stores payload = some value := by
  have followed : ∀ reference : Reference,
      ((do let node ← (ofStores stores).target reference
           Read.orFail (.unresolved reference) node.payload.content?) : Read C).result = .ok value ↔
        ((storeOf stores reference.tree).bind fun store =>
          (store.payload? reference.key).bind Payload.content?) = some value := by
    intro reference
    rw [Option.bind_eq_some_iff]
    constructor
    · intro ok
      obtain ⟨node, reached, ok⟩ := Read.result_bind_eq_ok ok
      obtain ⟨store, found, there⟩ := result_target_iff.mp reached
      obtain ⟨payload, held, rfl⟩ := Option.map_eq_some_iff.mp there
      exact ⟨store, found, by rw [held]; exact Read.result_orFail_eq_ok_iff.mp ok⟩
    · rintro ⟨store, found, there⟩
      obtain ⟨payload, held, content⟩ := Option.bind_eq_some_iff.mp there
      have reached : ((ofStores stores).target reference).result = .ok ⟨reference.key, payload⟩ :=
        result_target_iff.mpr ⟨store, found, by rw [Store.node?, held]; rfl⟩
      exact (Read.result_bind_of_ok reached).trans (Read.result_orFail_eq_ok_iff.mpr content)
  cases payload with
  | content other => exact ⟨fun ok => congrArg some (Except.ok.inj ok),
      fun same => congrArg Except.ok (Option.some.inj same)⟩
  | nodeReference reference => exact followed reference
  | treeReference reference => exact followed reference

/-- Payloads that stand for content are the same up to resolution exactly if it is the same content. -/
theorem result_sameContent [DecidableEq C] {left right : Payload C} {other : C}
    (ours : lent stores left = some value) (theirs : lent stores right = some other) :
    ((ofStores stores).sameContent left right).result = .ok (decide (value = other)) := by
  rw [sameContent]
  split
  · rename_i equal
    subst equal
    rw [decide_eq_true (Option.some.inj (ours.symm.trans theirs))]
    rfl
  · rw [Read.result_bind_of_ok (result_resolve_iff.mpr ours),
      Read.result_bind_of_ok (result_resolve_iff.mpr theirs), Read.result_pure]

/-- Payloads that stand for the same content are the same up to resolution. -/
theorem result_sameContent_of_lent [DecidableEq C] {left right : Payload C}
    (ours : lent stores left = some value) (theirs : lent stores right = some value) :
    ((ofStores stores).sameContent left right).result = .ok true :=
  (result_sameContent ours theirs).trans (congrArg Except.ok (decide_eq_true rfl))

end Donors

/-! ## What a node stands for -/

/-- A node of a store. -/
structure Site (C : Type) where
  store : Store C
  key : Key

namespace Site

/-- What the node holds. -/
def payload? (site : Site C) : Option (Payload C) :=
  site.store.payload? site.key

/-- The keys of the children of the node. -/
def children (site : Site C) : List Key :=
  site.store.tree.childList site.key

/-- A reference to the node. -/
def reference (site : Site C) : Reference :=
  ⟨site.store.id, site.key⟩

/-- The content that the node stands for. -/
def content? (stores : List (Store C)) (site : Site C) : Option C :=
  site.payload?.bind (Donors.lent stores)

/-- The node whose children stand below the node: the target of a tree-reference, and otherwise the node
itself. -/
def source? (stores : List (Store C)) (site : Site C) : Option (Site C) :=
  match site.payload? with
  | some (.treeReference reference) =>
    (Donors.storeOf stores reference.tree).map (⟨·, reference.key⟩)
  | some (.content _) | some (.nodeReference _) => some site
  | none => none

end Site

/-- With all references followed, the nodes under a list of keys stand for a forest. -/
def Unfolds (stores : List (Store C)) : Store C → List Key → Forest C → Prop
  | _, [], .nil => True
  | store, key :: keys, .cons other content below rest =>
    key = other ∧ Site.content? stores ⟨store, key⟩ = some content ∧
      (∃ source ∈ Site.source? stores ⟨store, key⟩,
        Unfolds stores source.store source.children below) ∧
      Unfolds stores store keys rest
  | _, [], .cons _ _ _ _ | _, _ :: _, .nil => False

/-- With all references followed, a node stands for a subtree. -/
def Describes (stores : List (Store C)) (site : Site C) (subtree : Subtree C) : Prop :=
  site.content? stores = some subtree.content ∧
    ∃ source ∈ site.source? stores, Unfolds stores source.store source.children subtree.below

instance decidableUnfolds [DecidableEq C] (stores : List (Store C)) :
    (store : Store C) → (keys : List Key) → (forest : Forest C) →
      Decidable (Unfolds stores store keys forest)
  | _, [], .nil => .isTrue trivial
  | store, key :: keys, .cons other content below rest =>
    have : ∀ source : Site C, Decidable (Unfolds stores source.store source.children below) :=
      fun source => decidableUnfolds stores source.store source.children below
    have := decidableUnfolds stores store keys rest
    inferInstanceAs (Decidable (key = other ∧ Site.content? stores ⟨store, key⟩ = some content ∧
      (∃ source ∈ Site.source? stores ⟨store, key⟩,
        Unfolds stores source.store source.children below) ∧ Unfolds stores store keys rest))
  | _, [], .cons _ _ _ _ | _, _ :: _, .nil => .isFalse id

instance [DecidableEq C] (stores : List (Store C)) (site : Site C) (subtree : Subtree C) :
    Decidable (Describes stores site subtree) :=
  inferInstanceAs (Decidable (_ ∧ ∃ source ∈ site.source? stores, _))

section Unfolding

variable {stores : List (Store C)} {store target : Store C} {site : Site C} {key : Key}
  {keys : List Key} {subtree other : Subtree C} {forest below rest : Forest C} {value : C}
  {reference : Reference}

theorem unfolds_nil_iff : Unfolds stores store keys .nil ↔ keys = [] := by
  cases keys with
  | nil => exact iff_of_true trivial rfl
  | cons key keys => exact iff_of_false id nofun

/-- A forest starts with what the first of the nodes stands for. -/
theorem unfolds_cons_iff : Unfolds stores store keys (.cons key value below rest) ↔
    ∃ others, keys = key :: others ∧ Describes stores ⟨store, key⟩ ⟨value, below⟩ ∧
      Unfolds stores store others rest := by
  cases keys with
  | nil => exact iff_of_false id nofun
  | cons first others =>
      constructor
      · rintro ⟨rfl, content, lower, later⟩
        exact ⟨others, rfl, ⟨content, lower⟩, later⟩
      · rintro ⟨_, same, ⟨content, lower⟩, later⟩
        cases same
        exact ⟨rfl, content, lower, later⟩

/-- The nodes under a list of keys stand for one forest at most. -/
theorem Unfolds.unique (first : Unfolds stores store keys forest)
    (second : Unfolds stores store keys below) : forest = below := by
  induction forest generalizing store keys below with
  | nil =>
      obtain rfl := unfolds_nil_iff.mp first
      cases below with
      | nil => rfl
      | cons => exact second.elim
  | cons key value lower rest lowerHypothesis restHypothesis =>
      obtain ⟨others, rfl, ⟨content, source, found, unfolds⟩, later⟩ := unfolds_cons_iff.mp first
      cases below with
      | nil => exact second.elim
      | cons key' value' lower' rest' =>
          obtain ⟨_, same, ⟨content', source', found', unfolds'⟩, later'⟩ :=
            unfolds_cons_iff.mp second
          cases same
          obtain rfl := Option.some.inj (content.symm.trans content')
          obtain rfl := Option.some.inj (found.symm.trans found')
          rw [lowerHypothesis unfolds unfolds', restHypothesis later later']

/-- A node stands for one subtree at most. -/
theorem Describes.unique (first : Describes stores site subtree)
    (second : Describes stores site other) : subtree = other := by
  obtain ⟨content, source, found, unfolds⟩ := first
  obtain ⟨content', source', found', unfolds'⟩ := second
  obtain rfl := Option.some.inj (found.symm.trans found')
  exact Subtree.ext (Option.some.inj (content.symm.trans content')) (unfolds.unique unfolds')

/-- Only a node that is there stands for anything. -/
theorem Describes.holds (describes : Describes stores site subtree) :
    site.store.layout.Holds site.key := by
  obtain ⟨content, -⟩ := describes
  obtain ⟨payload, there, -⟩ := Option.bind_eq_some_iff.mp content
  exact Store.holds_of_payload? there

/-- What a node holds stands for its content. -/
theorem Describes.lent (describes : Describes stores site subtree) {payload : Payload C}
    (there : site.payload? = some payload) : Donors.lent stores payload = some subtree.content := by
  rw [← describes.1, Site.content?, there, Option.bind_some]

/-- A node that is no tree-reference stands for its content and what its children stand for. -/
theorem describes_of_not_isTreeReference {payload : Payload C}
    (there : site.payload? = some payload) (notReference : payload.isTreeReference = false) :
    Describes stores site subtree ↔ Donors.lent stores payload = some subtree.content ∧
      Unfolds stores site.store site.children subtree.below := by
  have content : site.content? stores = Donors.lent stores payload := by
    rw [Site.content?, there, Option.bind_some]
  have source : site.source? stores = some site := by
    rw [Site.source?, there]
    cases payload with
    | content value => rfl
    | nodeReference reference => rfl
    | treeReference reference => cases notReference
  rw [Describes, content, source]
  simp

/-- A tree-reference stands for what its target stands for, if that holds content. -/
theorem describes_of_treeReference (there : site.payload? = some (.treeReference reference)) :
    Describes stores site subtree ↔ ∃ target,
      Donors.storeOf stores reference.tree = some target ∧
      target.payload? reference.key = some (.content subtree.content) ∧
      Describes stores ⟨target, reference.key⟩ subtree := by
  have content : site.content? stores = some subtree.content ↔
      ∃ target, Donors.storeOf stores reference.tree = some target ∧
        target.payload? reference.key = some (.content subtree.content) := by
    rw [Site.content?, there, Option.bind_some]
    exact Donors.lent_eq_some_iff rfl
  have source : site.source? stores =
      (Donors.storeOf stores reference.tree).map (⟨·, reference.key⟩) := by
    rw [Site.source?, there]
  -- a target with content has its children below itself
  have own : ∀ {target : Store C},
      target.payload? reference.key = some (.content subtree.content) →
      (Describes stores ⟨target, reference.key⟩ subtree ↔
        Unfolds stores target (Site.children ⟨target, reference.key⟩) subtree.below) := by
    intro target held
    have site : Describes stores ⟨target, reference.key⟩ subtree ↔ _ :=
      describes_of_not_isTreeReference held rfl
    exact site.trans (and_iff_right rfl)
  rw [Describes, content, source]
  constructor
  · rintro ⟨⟨target, found, held⟩, source, reached, unfolds⟩
    rw [found] at reached
    cases reached
    exact ⟨target, found, held, (own held).mpr unfolds⟩
  · rintro ⟨target, found, held, describes⟩
    refine ⟨⟨target, found, held⟩, ⟨target, reference.key⟩, ?_, (own held).mp describes⟩
    rw [found]
    rfl

end Unfolding

/-! ## Subtrees with content of their own -/

/-- Subtrees under keys side by side, if there is one under each key. -/
def Forest.gather (subtree? : Key → Option (Subtree C)) : List Key → Option (Forest C)
  | [] => some .nil
  | key :: keys => do
    let subtree ← subtree? key
    let rest ← gather subtree? keys
    return .cons key subtree.content subtree.below rest

namespace Forest

variable {subtree? other? : Key → Option (Subtree C)} {keys : List Key} {forest : Forest C}

theorem gather_congr (same : ∀ key ∈ keys, subtree? key = other? key) :
    gather subtree? keys = gather other? keys := by
  induction keys with
  | nil => rfl
  | cons key keys inductionHypothesis =>
      rw [gather, gather, same key List.mem_cons_self,
        inductionHypothesis fun other inside => same other (List.mem_cons_of_mem _ inside)]

/-- A gathered forest starts with the subtree under the first key. -/
theorem gather_cons_eq_some_iff {key : Key} : gather subtree? (key :: keys) = some forest ↔
    ∃ subtree rest, subtree? key = some subtree ∧ gather subtree? keys = some rest ∧
      forest = .cons key subtree.content subtree.below rest := by
  simp only [gather, Option.bind_eq_bind, Option.bind_eq_some_iff, Option.pure_def,
    Option.some.injEq]
  constructor
  · rintro ⟨subtree, found, rest, gathered, rfl⟩
    exact ⟨subtree, rest, found, gathered, rfl⟩
  · rintro ⟨subtree, rest, found, gathered, rfl⟩
    exact ⟨subtree, found, rest, gathered, rfl⟩

/-- Subtrees are gathered if there is one under each key. -/
theorem isSome_gather_iff :
    (gather subtree? keys).isSome = true ↔ ∀ key ∈ keys, (subtree? key).isSome = true := by
  induction keys with
  | nil => exact iff_of_true rfl fun _ impossible => absurd impossible List.not_mem_nil
  | cons key keys inductionHypothesis =>
      rw [List.forall_mem_cons, ← inductionHypothesis]
      cases found : subtree? key with
      | none => simp [gather, found]
      | some subtree =>
          cases gathered : gather subtree? keys with
          | none => simp [gather, found, gathered]
          | some rest => simp [gather, found, gathered]

end Forest

namespace Store

/-- The subtree at a node, to a number of levels, if all nodes there hold content of their own. -/
def plainWithin (store : Store C) : Nat → Key → Option (Subtree C)
  | 0, _ => none
  | levels + 1, key => do
    let value ← (store.payload? key).bind Payload.content?
    let below ← Forest.gather (store.plainWithin levels) (store.tree.childList key)
    return ⟨value, below⟩

/-- The subtree at a node, if the node and all nodes below it hold content of their own. -/
def plain? (store : Store C) (key : Key) : Option (Subtree C) :=
  store.plainWithin store.tree.span key

variable {store : Store C} {key : Key} {levels more : Nat} {subtree : Subtree C}

/-- More levels than suffice change nothing. -/
theorem plainWithin_eq (enough : Exhausts store.tree.childList levels key) (le : levels ≤ more) :
    store.plainWithin more key = store.plainWithin levels key := by
  induction levels generalizing more key with
  | zero => exact enough.elim
  | succ levels inductionHypothesis =>
      obtain ⟨more, rfl⟩ : ∃ rest, more = rest + 1 := ⟨more - 1, by omega⟩
      rw [plainWithin, plainWithin, Forest.gather_congr fun child inside =>
        inductionHypothesis (enough child inside) (Nat.le_of_succ_le_succ le)]

/-- The subtree at a node is its content with the subtrees at its children. -/
theorem WellFormed.plain?_eq_some_iff (wellFormed : store.WellFormed)
    (holds : store.layout.Holds key) : store.plain? key = some subtree ↔
      store.payload? key = some (.content subtree.content) ∧
        Forest.gather store.plain? (store.tree.childList key) = some subtree.below := by
  have enough := wellFormed.shows.exhausts holds (Nat.le_refl _)
  rw [plain?, ← plainWithin_eq enough (Nat.le_succ _), plainWithin]
  simp only [Option.bind_eq_bind, Option.bind_eq_some_iff, Option.pure_def, Option.some.injEq]
  constructor
  · rintro ⟨value, ⟨payload, there, content⟩, below, gathered, rfl⟩
    obtain rfl := Payload.content?_eq_some_iff.mp content
    exact ⟨there, gathered⟩
  · rintro ⟨there, gathered⟩
    exact ⟨subtree.content, ⟨_, there, rfl⟩, subtree.below, gathered, rfl⟩

/-- There is a subtree at a node if the node holds content and there are subtrees at its children. -/
theorem WellFormed.isSome_plain? (wellFormed : store.WellFormed) {standing : Standing C}
    (found : store.layout key = some standing) : (store.plain? key).isSome =
      (!standing.payload.isReference &&
        (Forest.gather store.plain? (store.tree.childList key)).isSome) := by
  obtain ⟨above, payload⟩ := standing
  have there := payload?_of_layout found
  rw [Bool.eq_iff_iff, Option.isSome_iff_exists, Bool.and_eq_true, Option.isSome_iff_exists]
  constructor
  · rintro ⟨subtree, plain⟩
    obtain ⟨held, gathered⟩ := (wellFormed.plain?_eq_some_iff ⟨_, found⟩).mp plain
    rw [there] at held
    cases held
    exact ⟨rfl, _, gathered⟩
  · rintro ⟨content, below, gathered⟩
    cases payload with
    | content value =>
        exact ⟨⟨value, below⟩, (wellFormed.plain?_eq_some_iff ⟨_, found⟩).mpr ⟨there, gathered⟩⟩
    | nodeReference reference => cases content
    | treeReference reference => cases content

/-- What a forest was gathered from stands for it, if each of the subtrees does so. -/
theorem unfolds_of_gather (stores : List (Store C)) {subtree? : Key → Option (Subtree C)}
    {keys : List Key} {forest : Forest C}
    (describes : ∀ key ∈ keys, ∀ subtree, subtree? key = some subtree →
      Describes stores ⟨store, key⟩ subtree)
    (gathered : Forest.gather subtree? keys = some forest) : Unfolds stores store keys forest := by
  induction keys generalizing forest with
  | nil =>
      cases gathered
      trivial
  | cons key keys inductionHypothesis =>
      obtain ⟨subtree, rest, found, later, rfl⟩ := Forest.gather_cons_eq_some_iff.mp gathered
      refine unfolds_cons_iff.mpr ⟨keys, rfl, describes key List.mem_cons_self subtree found, ?_⟩
      exact inductionHypothesis
        (fun other inside => describes other (List.mem_cons_of_mem _ inside)) later

theorem describes_of_plainWithin (stores : List (Store C))
    (found : store.plainWithin levels key = some subtree) :
    Describes stores ⟨store, key⟩ subtree := by
  induction levels generalizing key subtree with
  | zero => cases found
  | succ levels inductionHypothesis =>
      simp only [plainWithin, Option.bind_eq_bind, Option.bind_eq_some_iff, Option.pure_def,
        Option.some.injEq] at found
      obtain ⟨value, ⟨payload, there, content⟩, below, gathered, rfl⟩ := found
      obtain rfl := Payload.content?_eq_some_iff.mp content
      have site : Describes stores ⟨store, key⟩ ⟨value, below⟩ ↔ _ :=
        describes_of_not_isTreeReference there rfl
      exact site.mpr ⟨content, unfolds_of_gather stores
        (fun child _ subtree found => inductionHypothesis found) gathered⟩

/-- A node without references at and below it stands for what is there. -/
theorem describes_of_plain (stores : List (Store C)) (found : store.plain? key = some subtree) :
    Describes stores ⟨store, key⟩ subtree :=
  describes_of_plainWithin stores found

/-- There is a subtree at a node that holds content, as all nodes below it do, and only there. -/
theorem WellFormed.isSome_plain?_iff (wellFormed : store.WellFormed) (holds : store.layout.Holds key) :
    (store.plain? key).isSome = true ↔ ∀ lower, store.layout.Within key lower →
      ∃ value, store.payload? lower = some (.content value) := by
  have isTree := wellFormed.isTree
  have enough := wellFormed.shows.exhausts holds (Nat.le_refl _)
  generalize store.tree.span = levels at enough
  induction levels generalizing key with
  | zero => exact enough.elim
  | succ levels inductionHypothesis =>
      obtain ⟨standing, found⟩ := holds
      have self := isTree.within_self ⟨_, found⟩
      have held := payload?_of_layout found
      have below : ∀ child ∈ store.tree.childList key, store.layout.IsChild child key ∧
          ((store.plain? child).isSome = true ↔ ∀ lower, store.layout.Within child lower →
            ∃ value, store.payload? lower = some (.content value)) := by
        intro child listed
        have isChild := (wellFormed.listed.mem_iff key child).mp listed
        exact ⟨isChild, inductionHypothesis isChild.holds (enough child listed)⟩
      rw [wellFormed.isSome_plain? found, Bool.and_eq_true, Forest.isSome_gather_iff]
      constructor
      · rintro ⟨content, plain⟩ lower within
        by_cases same : key = lower
        · subst same
          obtain ⟨value, payload⟩ := Payload.exists_content (Bool.not_eq_eq_eq_not.mp content)
          exact ⟨value, held.trans (congrArg some payload)⟩
        · obtain ⟨child, isChild, lowerWithin⟩ := within.exists_child isTree same
          have listed := (wellFormed.listed.mem_iff key child).mpr isChild
          exact (below child listed).2.mp (plain child listed) lower lowerWithin
      · intro contents
        constructor
        · obtain ⟨value, there⟩ := contents key self
          rw [Option.some.inj (held.symm.trans there)]
          rfl
        · intro child listed
          obtain ⟨isChild, plain_iff⟩ := below child listed
          exact plain_iff.mpr fun lower within => contents lower ((isChild.within self).trans within)

/-- In a store without references every node stands for something. -/
theorem AllContent.exists_describes (allContent : store.AllContent) (wellFormed : store.WellFormed)
    (stores : List (Store C)) (holds : store.layout.Holds key) :
    ∃ subtree, Describes stores ⟨store, key⟩ subtree := by
  have plain : (store.plain? key).isSome = true := by
    refine (wellFormed.isSome_plain?_iff holds).mpr fun lower within => ?_
    obtain ⟨standing, found⟩ := within.holds
    obtain ⟨value, content⟩ := allContent.exists_content found
    exact ⟨value, (payload?_of_layout found).trans (congrArg some content)⟩
  obtain ⟨subtree, found⟩ := Option.isSome_iff_exists.mp plain
  exact ⟨subtree, describes_of_plain stores found⟩

end Store

end VersionedTrees
