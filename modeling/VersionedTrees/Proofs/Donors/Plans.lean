import VersionedTrees.Proofs.Donors.Expansion
import VersionedTrees.Proofs.Donors.Forest

/-!
# Plans of expansions

What an expansion does is known before it is carried out, whichever references it keeps: `Expansion.Plan` says
of every node what is to stand under its key and where the nodes below it come from, or that there is nothing
that it stands for. What a node contributes is one of three things (`Plan.contributes`). From a node that
stands for a subtree, the steps of the expansion are among the nodes of that subtree, in their order
(`Plan.among_of_describes`).
-/

namespace VersionedTrees

variable {C : Type}

section Standing

variable {stores : List (Store C)} {store : Store C} {id : TreeId} {key : Key} {subtree : Subtree C}

/-- Where there is no node, nothing stands for a subtree. -/
theorem not_describes_of_absent (absent : store.payload? key = none) :
    ¬ Describes stores ⟨store, key⟩ subtree := by
  intro describes
  obtain ⟨standing, found⟩ := describes.holds
  cases absent.symm.trans (Store.payload?_of_layout found)

/-- A donor node stands for what a tree-reference to it stands for. -/
theorem describes_iff_referred (allContent : store.AllContent)
    (counts : Donors.storeOf stores id = some store) : Describes stores ⟨store, key⟩ subtree ↔
      ∃ target, Donors.storeOf stores id = some target ∧
        target.payload? key = some (.content subtree.content) ∧
        Describes stores ⟨target, key⟩ subtree := by
  constructor
  · intro describes
    obtain ⟨standing, found⟩ := describes.holds
    obtain ⟨value, content⟩ := allContent.exists_content found
    have there : store.payload? key = some (.content value) := by
      rw [← content]
      exact Store.payload?_of_layout found
    obtain rfl : value = subtree.content := Option.some.inj (describes.lent there)
    exact ⟨store, counts, there, describes⟩
  · rintro ⟨other, counts', -, describes⟩
    obtain rfl := Option.some.inj (counts.symm.trans counts')
    exact describes

end Standing

namespace Expansion

/-! ## Where nodes come from -/

section Origins

variable {donors : List (Store C)} {source store : Store C} {origin : Key → Origin}

/-- What comes from a store: the nodes of the tree itself, or those of the donor with an identifier. -/
def ComesFrom (stores : List (Store C)) (source store : Store C) (origin : Key → Origin) : Prop :=
  (origin = .own ∧ store = source) ∨
    ∃ id, origin = .donor id ∧ Donors.storeOf stores id = some store

theorem ComesFrom.key_eq (comesFrom : ComesFrom donors source store origin) (key : Key) :
    (origin key).key = key := by
  rcases comesFrom with ⟨rfl, -⟩ | ⟨id, rfl, -⟩ <;> rfl

theorem ComesFrom.mem (comesFrom : ComesFrom donors source store origin) : store ∈ source :: donors := by
  rcases comesFrom with ⟨-, rfl⟩ | ⟨id, -, counts⟩
  · exact List.mem_cons_self
  · exact List.mem_cons_of_mem _ (Donors.mem_of_storeOf counts)

end Origins

/-! ## Plans -/

/-- A step of an expansion: a node, wherever it comes from, and the parent that it gets. -/
abbrev Item := Origin × Option Key

/-- An expansion of a store, with the stores that its references lead into and with those that are kept. -/
structure Plan (C : Type) where
  source : Store C
  donors : List (Store C)
  kept : Kept := {}

namespace Plan

/-- What is to stand under the key of a node: what it holds, if that is kept, and otherwise the content that it
stands for. A donor node that is kept is a tree-reference to itself. -/
def payload? (plan : Plan C) : Origin → Option (Payload C)
  | .own key => do
    let payload ← plan.source.payload? key
    if payload.reference?.any (plan.kept.keeps key ·.key) then
      return payload
    else
      return .content (← Donors.lent plan.donors payload)
  | .donor id key =>
    if plan.kept.keeps key key then
      some (.treeReference ⟨id, key⟩)
    else
      (Donors.storeOf plan.donors id).bind (·.payload? key)

/-- The nodes below a donor node. -/
def copies (plan : Plan C) (id : TreeId) (key : Key) : List Origin :=
  (Donors.storeOf plan.donors id).elim [] fun donor => (donor.tree.childList key).map (.donor id)

/-- The nodes below a node. There are none below a tree-reference that is kept. -/
def below (plan : Plan C) : Origin → List Origin
  | .own key =>
    match plan.source.payload? key with
    | some (.treeReference reference) =>
      if plan.kept.keeps key reference.key then [] else plan.copies reference.tree reference.key
    | some (.content _) | some (.nodeReference _) | none => (plan.source.tree.childList key).map .own
  | .donor id key => if plan.kept.keeps key key then [] else plan.copies id key

/-- The steps after a step. -/
def next (plan : Plan C) (item : Item) : List Item :=
  (plan.below item.1).map (·, some item.1.key)

/-- The row that a step adds, if it adds any. -/
def row (plan : Plan C) (item : Item) : List (Layout.Row C) :=
  (plan.payload? item.1).elim [] fun payload => [(item.1.key, ⟨item.2, payload⟩)]

/-- The steps of the expansion, in order. -/
def steps (plan : Plan C) (root : Key) : List Item :=
  preorder plan.next (Expansion.levels plan.source.tree (Donors.ofStores plan.donors)) (.own root, none)

/-- The rows of the expansion, in order. -/
def rows (plan : Plan C) (root : Key) : List (Layout.Row C) :=
  (plan.steps root).flatMap plan.row

/-- Every node that the expansion comes to contributes to it. -/
def Complete (plan : Plan C) (root : Key) : Prop :=
  ∀ item ∈ plan.steps root, ∃ payload, plan.payload? item.1 = some payload

/-! ## What a node contributes -/

/-- What a node contributes to an expansion. There may be nothing that it stands for, or what it stands for may
be left to a tree-reference. Otherwise its content stands there, and below it are the nodes that it has below
itself. -/
inductive Contributes (plan : Plan C) (site : Site C) : Option (Payload C) → List Origin → Prop
  | nothing {below : List Origin} (refused : ∀ subtree, ¬ Describes plan.donors site subtree) :
      Contributes plan site none below
  | whole {reference : Reference} (same : ∀ subtree, Describes plan.donors site subtree ↔
        ∃ target, Donors.storeOf plan.donors reference.tree = some target ∧
          target.payload? reference.key = some (.content subtree.content) ∧
          Describes plan.donors ⟨target, reference.key⟩ subtree) :
      Contributes plan site (some (.treeReference reference)) []
  | node {payload : Payload C} (lower : Site C) (origin : Key → Origin)
      (notReference : payload.isTreeReference = false)
      (comesFrom : ComesFrom plan.donors plan.source lower.store origin)
      (same : ∀ subtree, Describes plan.donors site subtree ↔
        Donors.lent plan.donors payload = some subtree.content ∧
          Unfolds plan.donors lower.store lower.children subtree.below) :
      Contributes plan site (some payload) (lower.children.map origin)

variable {plan : Plan C} {store : Store C} {item : Item} {origin : Key → Origin} {key root : Key}
  {above : Option Key} {keys : List Key} {payload : Payload C} {subtree : Subtree C} {forest : Forest C}

theorem payload?_own (held : plan.source.payload? key = some payload) : plan.payload? (.own key) =
    if payload.reference?.any (plan.kept.keeps key ·.key) then some payload
    else (Donors.lent plan.donors payload).map .content := by
  rw [payload?, held]
  split
  · rename_i keeps
    exact if_pos keeps
  · rename_i goes
    refine (if_neg goes).trans ?_
    cases Donors.lent plan.donors payload <;> rfl

theorem below_own (held : plan.source.payload? key = some payload)
    (notReference : payload.isTreeReference = false) :
    plan.below (.own key) = (plan.source.tree.childList key).map .own := by
  rw [below, held]
  cases payload with
  | content value => rfl
  | nodeReference reference => rfl
  | treeReference reference => cases notReference

theorem copies_of_storeOf {id : TreeId} (counts : Donors.storeOf plan.donors id = some store) :
    plan.copies id key = (store.tree.childList key).map (.donor id) := by
  rw [copies, counts]
  rfl

/-- The nodes below a node of the tree itself are its children or copies of donor nodes. -/
theorem mem_below_own {origin : Origin} (inside : origin ∈ plan.below (.own key)) :
    (∃ child ∈ plan.source.tree.childList key, origin = .own child) ∨
      ∃ id donor top child, Donors.storeOf plan.donors id = some donor ∧
        child ∈ donor.tree.childList top ∧ origin = .donor id child := by
  have own : origin ∈ (plan.source.tree.childList key).map .own →
      ∃ child ∈ plan.source.tree.childList key, origin = .own child := by
    intro inside
    obtain ⟨child, listed, rfl⟩ := List.mem_map.mp inside
    exact ⟨child, listed, rfl⟩
  rw [below] at inside
  split at inside
  case h_1 reference _ =>
    split at inside
    case isTrue => exact absurd inside List.not_mem_nil
    case isFalse =>
      rw [copies] at inside
      cases counts : Donors.storeOf plan.donors reference.tree with
      | none =>
          rw [counts] at inside
          exact absurd inside List.not_mem_nil
      | some donor =>
          rw [counts] at inside
          obtain ⟨child, listed, rfl⟩ := List.mem_map.mp inside
          exact .inr ⟨reference.tree, donor, reference.key, child, counts, listed, rfl⟩
  case h_2 => exact .inl (own inside)
  case h_3 => exact .inl (own inside)
  case h_4 => exact .inl (own inside)

/-- A reference that is kept is left in the expansion. -/
theorem contributes_kept (held : plan.source.payload? key = some payload)
    (keeps : payload.reference?.any (plan.kept.keeps key ·.key) = true) :
    plan.Contributes ⟨plan.source, key⟩ (some payload) (plan.below (.own key)) := by
  have there : Site.payload? ⟨plan.source, key⟩ = some payload := held
  cases payload with
  | content value => cases keeps
  | nodeReference reference =>
      rw [below_own held rfl]
      exact .node ⟨plan.source, key⟩ .own rfl (.inl ⟨rfl, rfl⟩) fun subtree =>
        describes_of_not_isTreeReference there rfl
  | treeReference reference =>
      have ends : plan.below (.own key) = [] := by
        rw [below, held]
        exact if_pos keeps
      rw [ends]
      exact .whole fun subtree => describes_of_treeReference there

/-- A payload that is not kept is replaced by the content that it stands for. -/
theorem contributes_taken {value : C} (held : plan.source.payload? key = some payload)
    (goes : ¬ payload.reference?.any (plan.kept.keeps key ·.key) = true)
    (lent : Donors.lent plan.donors payload = some value) :
    plan.Contributes ⟨plan.source, key⟩ (some (.content value)) (plan.below (.own key)) := by
  have there : Site.payload? ⟨plan.source, key⟩ = some payload := held
  by_cases isTree : payload.isTreeReference = true
  case neg =>
    have notReference := eq_false_of_ne_true isTree
    rw [below_own held notReference]
    refine .node ⟨plan.source, key⟩ .own rfl (.inl ⟨rfl, rfl⟩) fun subtree => ?_
    rw [describes_of_not_isTreeReference there notReference, lent]
    rfl
  case pos =>
    cases payload with
    | content value => cases isTree
    | nodeReference reference => cases isTree
    | treeReference reference =>
        obtain ⟨donor, counts, holds⟩ := (Donors.lent_eq_some_iff rfl).mp lent
        have copied : plan.below (.own key) =
            (donor.tree.childList reference.key).map (.donor reference.tree) := by
          rw [below, held, ← copies_of_storeOf counts]
          exact if_neg goes
        rw [copied]
        refine .node ⟨donor, reference.key⟩ _ rfl (.inr ⟨_, rfl, counts⟩) fun subtree => ?_
        -- the target holds content, and has below itself what the node stands for
        have target : Describes plan.donors ⟨donor, reference.key⟩ subtree ↔ _ :=
          describes_of_not_isTreeReference holds rfl
        rw [describes_of_treeReference there, ← target]
        constructor
        · rintro ⟨other, counts', -, describes⟩
          obtain rfl := Option.some.inj (counts.symm.trans counts')
          exact describes
        · intro describes
          have same : some value = some subtree.content := (target.mp describes).1
          exact ⟨donor, counts, Option.some.inj same ▸ holds, describes⟩

/-- What a node of the tree itself contributes. -/
theorem contributes_own (plan : Plan C) (key : Key) :
    plan.Contributes ⟨plan.source, key⟩ (plan.payload? (.own key)) (plan.below (.own key)) := by
  cases held : plan.source.payload? key with
  | none =>
      have none : plan.payload? (.own key) = none := by
        rw [payload?, held]
        rfl
      rw [none]
      exact .nothing fun subtree => not_describes_of_absent held
  | some payload =>
      rw [payload?_own held]
      by_cases keeps : payload.reference?.any (plan.kept.keeps key ·.key) = true
      · rw [if_pos keeps]
        exact contributes_kept held keeps
      · rw [if_neg keeps]
        cases lent : Donors.lent plan.donors payload with
        | some value => exact contributes_taken held keeps lent
        | none =>
            refine .nothing fun subtree describes => ?_
            cases lent.symm.trans (describes.lent held)

/-- What a donor node contributes. -/
theorem contributes_donor {id : TreeId} (allContent : store.AllContent)
    (counts : Donors.storeOf plan.donors id = some store) (key : Key) :
    plan.Contributes ⟨store, key⟩ (plan.payload? (.donor id key)) (plan.below (.donor id key)) := by
  rw [payload?, below]
  by_cases keeps : plan.kept.keeps key key = true
  · rw [if_pos keeps, if_pos keeps]
    exact .whole fun subtree => describes_iff_referred allContent counts
  · rw [if_neg keeps, if_neg keeps, counts, Option.bind_some, copies_of_storeOf counts]
    cases held : store.payload? key with
    | none => exact .nothing fun subtree => not_describes_of_absent held
    | some payload =>
        have notReference := Payload.isTreeReference_eq_false (allContent key payload held)
        exact .node ⟨store, key⟩ _ notReference (.inr ⟨id, rfl, counts⟩) fun subtree =>
          describes_of_not_isTreeReference held notReference

/-- What a node contributes, wherever it comes from. -/
theorem contributes (allContent : ∀ store ∈ plan.donors, store.AllContent)
    (comesFrom : ComesFrom plan.donors plan.source store origin) (key : Key) :
    plan.Contributes ⟨store, key⟩ (plan.payload? (origin key)) (plan.below (origin key)) := by
  rcases comesFrom with ⟨rfl, rfl⟩ | ⟨id, rfl, counts⟩
  · exact contributes_own plan key
  · exact contributes_donor (allContent store (Donors.mem_of_storeOf counts)) counts key

/-! ## Steps among the nodes of a subtree -/

/-- Steps at nodes that contribute something, at some of a list of keys and in their order. -/
structure Among (plan : Plan C) (steps : List Item) (keys : List Key) : Prop where
  contribute : ∀ item ∈ steps, ∃ payload, plan.payload? item.1 = some payload
  sublist : (steps.map (·.1.key)).Sublist keys

theorem among_nil (plan : Plan C) (keys : List Key) : plan.Among [] keys :=
  ⟨fun _ impossible => absurd impossible List.not_mem_nil, List.nil_sublist keys⟩

theorem Among.append {first second : List Item} {keys' : List Key} (left : plan.Among first keys)
    (right : plan.Among second keys') : plan.Among (first ++ second) (keys ++ keys') where
  contribute := List.forall_mem_append.mpr ⟨left.contribute, right.contribute⟩
  sublist := by
    rw [List.map_append]
    exact left.sublist.append right.sublist

theorem Among.cons (item : Item) {steps : List Item} (planned : plan.payload? item.1 = some payload)
    (lower : plan.Among steps keys) : plan.Among (item :: steps) (item.1.key :: keys) where
  contribute := List.forall_mem_cons.mpr ⟨⟨payload, planned⟩, lower.contribute⟩
  sublist := lower.sublist.cons_cons _

/-- The steps from a node that stands for a subtree are among its nodes. -/
theorem among_of_describes (allContent : ∀ store ∈ plan.donors, store.AllContent) {levels : Nat}
    (comesFrom : ComesFrom plan.donors plan.source store origin)
    (below : ∀ (lower : Store C) (origin : Key → Origin) (keys : List Key),
      ComesFrom plan.donors plan.source lower origin → Unfolds plan.donors lower keys subtree.below →
      plan.Among ((keys.map fun child => (origin child, some key)).flatMap (preorder plan.next levels))
        ((subtree.below.rows key).map Prod.fst))
    (describes : Describes plan.donors ⟨store, key⟩ subtree) :
    plan.Among (preorder plan.next (levels + 1) (origin key, above))
      (key :: (subtree.below.rows key).map Prod.fst) := by
  have key_eq := comesFrom.key_eq key
  have contributes := plan.contributes allContent comesFrom key
  have next : plan.next (origin key, above) = (plan.below (origin key)).map (·, some key) := by
    rw [Plan.next, key_eq]
  rw [preorder, next]
  generalize planned : plan.payload? (origin key) = contribution at contributes
  generalize plan.below (origin key) = origins at contributes
  have here : ∀ {payload : Payload C} {steps : List Item} {keys : List Key}, contribution = some payload →
      plan.Among steps keys → plan.Among ((origin key, above) :: steps) (key :: keys) := by
    intro payload steps keys same lower
    have among := Among.cons (origin key, above) (planned.trans same) lower
    rwa [key_eq] at among
  cases contributes with
  | nothing refused => exact absurd describes (refused subtree)
  | whole same => exact here rfl (among_nil plan _)
  | node lower origin' notReference comesFrom' same =>
      have lowerAmong := below lower.store origin' _ comesFrom' ((same subtree).mp describes).2
      rw [List.map_map]
      exact here rfl lowerAmong

/-- The steps from nodes that stand for a forest are among its nodes. -/
theorem among_of_unfolds (allContent : ∀ store ∈ plan.donors, store.AllContent) {parent : Key}
    (comesFrom : ComesFrom plan.donors plan.source store origin)
    (unfolds : Unfolds plan.donors store keys forest) (levels : Nat) (above : Option Key) :
    plan.Among ((keys.map fun key => (origin key, above)).flatMap (preorder plan.next levels))
      ((forest.rows parent).map Prod.fst) := by
  induction forest generalizing store origin keys levels above parent with
  | nil =>
      obtain rfl := unfolds_nil_iff.mp unfolds
      exact among_nil plan _
  | cons key value below rest belowHypothesis restHypothesis =>
      obtain ⟨others, rfl, describes, later⟩ := unfolds_cons_iff.mp unfolds
      rw [List.map_cons, List.flatMap_cons, Forest.rows, List.map_cons, List.map_append,
        ← List.cons_append]
      refine Among.append ?_ (restHypothesis comesFrom later levels above)
      cases levels with
      | zero => exact among_nil plan _
      | succ levels =>
          exact among_of_describes allContent comesFrom
            (fun lower origin keys comesFrom' unfolds' => belowHypothesis comesFrom' unfolds' levels _)
            describes

/-- If the root stands for a subtree, the steps of the expansion are among its nodes. -/
theorem among_of_describes_root (allContent : ∀ store ∈ plan.donors, store.AllContent)
    (describes : Describes plan.donors ⟨plan.source, root⟩ subtree) :
    plan.Among (plan.steps root) ((subtree.rows root none).map Prod.fst) := by
  rw [steps]
  cases Expansion.levels plan.source.tree (Donors.ofStores plan.donors) with
  | zero => exact among_nil plan _
  | succ levels =>
      exact among_of_describes allContent (.inl ⟨rfl, rfl⟩)
        (fun lower origin keys comesFrom unfolds =>
          among_of_unfolds allContent comesFrom unfolds levels _) describes

end Plan

end Expansion

end VersionedTrees
