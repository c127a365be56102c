import VersionedTrees.Proofs.Donors.Forest
import VersionedTrees.Proofs.Donors.Restating

/-!
# What restating sustains

A tree is restated by putting references in the place of contents and of subtrees. What is told of the subtree
of a node, be it the whole subtree or its digest, is told of the restated node as well, if the same is told of
what the new references lead to, and if otherwise it depends on the content of the node and on what is told of
the nodes below (`Normalized.Sustains`). This goes from the nodes below to the nodes above, by induction over
the forest that the nodes stand for (`Normalized.Sustains.exists_describes`).
-/

namespace VersionedTrees

variable {C α : Type}

/-- The keys of the trees of a forest with what is told of their subtrees. -/
def Forest.told (tell : Subtree C → α) : Forest C → List (Key × α)
  | .nil => []
  | .cons key content below rest => (key, tell ⟨content, below⟩) :: rest.told tell

/-- If the subtrees themselves are told, the whole forest is. -/
theorem Forest.told_id_injective : Function.Injective (Forest.told (id : Subtree C → Subtree C)) := by
  intro forest other same
  induction forest generalizing other with
  | nil =>
      cases other with
      | nil => rfl
      | cons => cases same
  | cons key value below rest _ inductionHypothesis =>
      cases other with
      | nil => cases same
      | cons key' value' below' rest' =>
          simp only [told, id_eq, List.cons.injEq, Prod.mk.injEq, Subtree.mk.injEq] at same
          obtain ⟨⟨rfl, rfl, rfl⟩, later⟩ := same
          rw [inductionHypothesis later]

namespace Normalized

/-- What a node may become for the same to be told of its subtree: a reference to a subtree of which the same
is told, or a payload with the same content, if the nodes below it are kept. -/
inductive SustainedBy (stores : List (Store C)) (tell : Subtree C → α) (payload : Payload C)
    (subtree : Subtree C) : Payload C × Bool → Prop
  | reference {reference : Reference}
      (leads : ∀ site : Site C, site.payload? = some (.treeReference reference) →
        ∃ restated, Describes stores site restated ∧ tell restated = tell subtree) :
      SustainedBy stores tell payload subtree (.treeReference reference, false)
  | content {restated : Payload C} (was : payload.isTreeReference = false)
      (becomes : restated.isTreeReference = false)
      (lent : Donors.lent stores restated = some subtree.content) :
      SustainedBy stores tell payload subtree (restated, true)

/-- A decision sustains what is told of subtrees: each node becomes what it may become, and what is told of a
subtree depends on its content and on what is told of the subtrees below. -/
structure Sustains (stores : List (Store C)) (target : Store C) (decision : Decision C)
    (tell : Subtree C → α) : Prop where
  congr : ∀ value forest forest', Forest.told tell forest = Forest.told tell forest' →
    tell ⟨value, forest⟩ = tell ⟨value, forest'⟩
  step : ∀ key held subtree, target.layout key = some held → Describes stores ⟨target, key⟩ subtree →
    SustainedBy stores tell held.payload subtree (decision key held.payload)

namespace Sustains

variable {stores : List (Store C)} {target store : Store C} {decision : Decision C}
  {tell : Subtree C → α} {id : TreeId} {key : Key} {keys : List Key} {held : Standing C}
  {subtree : Subtree C} {forest : Forest C} (sustains : Sustains stores target decision tell)
  (wellFormed : target.WellFormed)
  (builds : store.Builds id (Layout.plant (fun _ => none) (rowsBy decision target)))

include sustains wellFormed builds

/-- The same is told of a node that was restated, if it is told of what is kept below it. If something may be
kept there, the node has the content that it had. -/
theorem exists_describes_of_below (found : target.layout key = some held)
    (inside : (key, ⟨held.parent, (decision key held.payload).1⟩) ∈ rowsBy decision target)
    (below : (decision key held.payload).2 = true →
      Unfolds stores target (target.tree.childList key) subtree.below →
      ∃ forest, Unfolds stores store (target.tree.childList key) forest ∧
        forest.told tell = subtree.below.told tell)
    (describes : Describes stores ⟨target, key⟩ subtree) :
    ∃ restated, Describes stores ⟨store, key⟩ restated ∧ tell restated = tell subtree ∧
      ((decision key held.payload).2 = true → restated.content = subtree.content) := by
  have before : Site.payload? ⟨target, key⟩ = some held.payload := Store.payload?_of_layout found
  have after : Site.payload? ⟨store, key⟩ = some (decision key held.payload).1 :=
    Store.payload?_of_layout ((layout_iff_of_builds wellFormed builds).mpr inside)
  have children := childList_of_builds wellFormed builds inside found
  have step := sustains.step key held subtree found describes
  generalize decision key held.payload = outcome at after children below step ⊢
  cases step with
  | reference leads =>
      obtain ⟨restated, describes', same⟩ := leads _ after
      exact ⟨restated, describes', same, fun impossible => absurd impossible Bool.false_ne_true⟩
  | content was becomes lent =>
      obtain ⟨-, lower⟩ := (describes_of_not_isTreeReference before was).mp describes
      obtain ⟨forest, unfolds, same⟩ := below rfl lower
      refine ⟨⟨subtree.content, forest⟩, ?_, sustains.congr _ _ _ same, fun _ => rfl⟩
      refine (describes_of_not_isTreeReference after becomes).mpr ⟨lent, ?_⟩
      rw [Site.children, children]
      exact unfolds

/-- The same is told of the nodes of a list that are kept. -/
theorem exists_unfolds (kept : ∀ key ∈ keys, ∃ held, target.layout key = some held ∧
      (key, ⟨held.parent, (decision key held.payload).1⟩) ∈ rowsBy decision target)
    (unfolds : Unfolds stores target keys forest) :
    ∃ restated, Unfolds stores store keys restated ∧ restated.told tell = forest.told tell := by
  induction forest generalizing keys with
  | nil => exact ⟨.nil, unfolds_nil_iff.mpr (unfolds_nil_iff.mp unfolds), rfl⟩
  | cons key value below rest belowHypothesis restHypothesis =>
      obtain ⟨others, rfl, describes, later⟩ := unfolds_cons_iff.mp unfolds
      obtain ⟨⟨held, found, inside⟩, kept⟩ := List.forall_mem_cons.mp kept
      obtain ⟨first, describes', same, -⟩ := sustains.exists_describes_of_below wellFormed builds found
        inside (fun descends lower =>
          belowHypothesis (exists_row_of_listed wellFormed inside found descends) lower) describes
      obtain ⟨remaining, unfolds', same'⟩ := restHypothesis kept later
      refine ⟨.cons key first.content first.below remaining,
        unfolds_cons_iff.mpr ⟨others, rfl, describes', unfolds'⟩, ?_⟩
      rw [Forest.told, Forest.told, same', same]

/-- The same is told of a node that is kept. -/
theorem exists_describes (found : target.layout key = some held)
    (inside : (key, ⟨held.parent, (decision key held.payload).1⟩) ∈ rowsBy decision target)
    (describes : Describes stores ⟨target, key⟩ subtree) :
    ∃ restated, Describes stores ⟨store, key⟩ restated ∧ tell restated = tell subtree ∧
      ((decision key held.payload).2 = true → restated.content = subtree.content) :=
  sustains.exists_describes_of_below wellFormed builds found inside (fun descends lower =>
    sustains.exists_unfolds wellFormed builds (exists_row_of_listed wellFormed inside found descends)
      lower) describes

end Sustains

end Normalized

end VersionedTrees
