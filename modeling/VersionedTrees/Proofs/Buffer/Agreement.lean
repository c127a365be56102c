import VersionedTrees.Proofs.Buffer.Coherence
import VersionedTrees.Proofs.Delta.Verified
import VersionedTrees.Proofs.Donors.Expansion
import VersionedTrees.Proofs.Store.Reachable

/-!
# Lazy replacement and eager expansion agree

A buffer takes a delta over without expanding it and looks for repeated keys among the nodes of the
overlay and the base nodes above them. An expansion copies everything and looks for repeated keys
among the copies. Both find a fault in the same deltas, and otherwise the buffer reads like the
expansion, whatever it held before (`Buffer.replace_agrees_with_expand`).
-/

namespace VersionedTrees

variable {C : Type}

namespace Store

variable {source base : Store C}

/-- Lazy rows that a delta becomes stand under keys of the base. -/
theorem RefersInto.lazyHold_taken (refers : source.RefersInto base) (wellFormed : base.WellFormed)
    (allContent : base.AllContent) : base.LazyHold (source.rows.flatMap base.taken) := by
  intro row inside isLazy
  obtain ⟨⟨key, above, payload⟩, among, inside⟩ := List.mem_flatMap.mp inside
  have found := refers.wellFormed.mem_rows_iff.mp among
  cases notReference : payload.isTreeReference with
  | false =>
      rw [taken_of_not_isTreeReference notReference] at inside
      obtain rfl := List.mem_singleton.mp inside
      rw [notReference] at isLazy
      cases isLazy
  | true =>
      obtain ⟨reference, rfl⟩ := Payload.exists_of_isTreeReference notReference
      obtain ⟨-, holds⟩ := refers.resolves key _ found reference rfl
      rw [taken] at inside
      split at inside
      · rename_i same
        obtain rfl := List.mem_singleton.mp inside
        rwa [← same]
      · rcases List.mem_cons.mp inside with rfl | inside
        · -- the copy holds the content of the target
          obtain ⟨standing, there⟩ := holds
          obtain ⟨value, content⟩ := allContent.exists_content there
          rw [lend_treeReference there, content] at isLazy
          cases isLazy
        · obtain ⟨child, listed, rfl⟩ := List.mem_map.mp inside
          exact ((wellFormed.listed.mem_iff reference.key child).mp listed).holds

/-- The rows that a delta stands for are fresh if the overlay rows are, and if these are separate. -/
theorem RefersInto.fresh_standsFor_iff (refers : source.RefersInto base)
    (wellFormed : base.WellFormed) (allContent : base.AllContent) :
    Layout.Fresh (fun _ => none) (base.standsFor source) ↔
      Layout.Fresh (fun _ => none) (source.rows.flatMap base.taken) ∧
        base.Separate (source.rows.flatMap base.taken) := by
  rw [Layout.fresh_empty_iff, Layout.fresh_empty_iff]
  exact wellFormed.nodup_spelledOut_iff (refers.lazyHold_taken wellFormed allContent)

end Store

namespace Buffer

variable {source base : Store C} {buffer : Buffer C}

/-- A replacement succeeds exactly when no key comes twice among the rows that the delta stands for,
and then the buffer shows them. -/
theorem effect_replace_of_refersInto (backing : buffer.backing = .store base)
    (refers : source.RefersInto base) (wellFormed : base.WellFormed)
    (allContent : base.AllContent) :
    Layout.Fresh (fun _ => none) (base.standsFor source) ∧
        (∃ after, (replace source.tree).effect buffer = (.ok (), after) ∧
          after.tree.Shows (Layout.plant (fun _ => none) (base.standsFor source))) ∨
      ¬ Layout.Fresh (fun _ => none) (base.standsFor source) ∧
        ∃ fault after, (replace source.tree).effect buffer = (.error (.delta fault), after) := by
  have holds := refers.lazyHold_taken wellFormed allContent
  rw [refers.fresh_standsFor_iff wellFormed allContent]
  -- a replacement that ends with the rest concealed shows the rows
  have shows : ∀ {after : Buffer C}, Layout.Fresh (fun _ => none) (source.rows.flatMap base.taken) →
      base.Separate (source.rows.flatMap base.taken) →
      (Changes.ofRows (source.rows.flatMap base.taken)).Valid base →
      after.Records base ((Changes.ofRows (source.rows.flatMap base.taken)).conceal base) →
      after.tree.Shows (Layout.plant (fun _ => none) (base.standsFor source)) := by
    intro after fresh separate valid records
    rw [Store.standsFor, ← Changes.shown_conceal_ofRows fresh wellFormed holds separate]
    exact records.shows allContent wellFormed
      (valid.sound_conceal wellFormed.isTree ((Changes.unmixed_ofRows_iff fresh).mpr separate))
  cases found : source.root with
  | none =>
      have nothing : source.rows = [] := by rw [Store.rows, found, Option.elim_none]
      have rootKey : source.tree.rootKey.result = .ok none := congrArg Except.ok found
      obtain ⟨after, replaced, records⟩ := exists_replace_of_empty backing wellFormed rootKey
      rw [nothing, List.flatMap_nil] at shows ⊢
      have separate : base.Separate [] := fun row inside => absurd inside List.not_mem_nil
      exact .inl ⟨⟨Layout.fresh_nil _, separate⟩, after, replaced,
        shows (Layout.fresh_nil _) separate Changes.sound_untouched.toValid records⟩
  | some root =>
      have isRoot := (refers.wellFormed.root root).mp found
      have rows : source.rows = source.rowsFrom root := by rw [Store.rows, found, Option.elim_some]
      have rootKey : source.tree.rootKey.result = .ok (some root) := congrArg Except.ok found
      have planted := Replacement.plants_visit refers wellFormed allContent isRoot
        (fills_reset backing)
      rw [effect_replace_of_root backing rootKey]
      rw [← rows] at planted
      by_cases fresh : Layout.Fresh (fun _ => none) (source.rows.flatMap base.taken)
      · obtain ⟨replacement, visited, fills⟩ := planted.places fresh
        rcases effect_finishReplacement fills wellFormed base.id
          (replacement.lazyCount, replacement.copied) with
          ⟨unmixed, after, finished, records⟩ | ⟨mixed, fault, failed⟩
        · have separate := (Changes.unmixed_ofRows_iff fresh).mp unmixed
          refine .inl ⟨⟨fresh, separate⟩, after, ?_, shows fresh separate fills.valid records⟩
          rw [Edit.effect_bind_of_ok (effect_takeOver visited), finished]
        · refine .inr ⟨fun both => mixed ((Changes.unmixed_ofRows_iff fresh).mpr both.2), fault,
            replacement.buffer, ?_⟩
          rw [Edit.effect_bind_of_ok (effect_takeOver visited), failed]
      · obtain ⟨fault, replacement, failed⟩ := planted.rejects trivial fresh
        refine .inr ⟨fun both => fresh both.1, fault, replacement.buffer, ?_⟩
        exact Edit.effect_bind_of_error (effect_takeOver failed)

/-- A replacement of the state ends like an expansion: both succeed and are read alike, or both find
the delta malformed. -/
inductive EndsLike : Except TreeError Unit × Buffer C → Except TreeError (Store C) → Prop where
  | ok {after : Buffer C} {expanded : Store C} (sameReads : after.tree.SameReads expanded.tree) :
    EndsLike (.ok (), after) (.ok expanded)
  | malformed {left right : TreeError} {after : Buffer C} (first : left.kind = .malformedDelta)
    (second : right.kind = .malformedDelta) : EndsLike (.error left, after) (.error right)

/-- A delta whose references point into the base, and whose tree-references have no children, replaces
the state of a buffer exactly when it can be expanded. If it cannot, both find a fault of the delta.
If it can, the buffer answers everything like the expansion, whatever its state was. -/
theorem replace_agrees_with_expand (reachable : base.Reachable) (allContent : base.AllContent)
    (backing : buffer.backing = .store base) (fromEdits : source.Reachable)
    (verified : (Delta.verify ⟨base.id, source⟩ base.tree).result = .ok ())
    (childless : source.LeafReferences) :
    EndsLike ((replace source.tree).effect buffer)
      (Delta.expand ⟨base.id, source⟩ base.tree).result := by
  have wellFormed := reachable.wellFormed
  have refers := Delta.refersInto_of_verify fromEdits.wellFormed verified childless
  have expand : (Delta.expand ⟨base.id, source⟩ base.tree).result =
      ((Donors.mk [base.tree]).expand source.tree).result :=
    Read.result_bind_of_ok (Read.result_require_of_true (decide_eq_true rfl))
  rw [expand]
  rcases effect_replace_of_refersInto backing refers wellFormed allContent with
    ⟨fresh, after, replaced, shows⟩ | ⟨stale, fault, after, failed⟩ <;>
    rcases Donors.result_expand_single refers wellFormed allContent with
      ⟨fresh', expanded, ok, builds⟩ | ⟨stale', fault', failed'⟩
  · rw [replaced, ok]
    rw [← builds.layout_eq] at shows
    exact .ok (shows.sameReads builds.wellFormed.shows)
  · exact absurd fresh stale'
  · exact absurd fresh' stale
  · rw [failed, failed']
    exact .malformed rfl rfl

/-- A root that is lent its content, above the middle of a chain under a new key. -/
def renamedEdits : List (StoreEdit String) :=
  [.insert none (.exactly (.number 1)) (.nodeReference ⟨⟨1⟩, .number 1⟩),
    .insert (some (.number 1)) (.exactly (.number 4)) (.treeReference ⟨⟨1⟩, .number 2⟩)]

/-- A buffer that hides the leaf of a chain takes over a delta that renames the node above the leaf. -/
theorem replace_agrees_with_expand_renamed :
    let source := Store.ofEdits ⟨2⟩ renamedEdits
    let buffer := ((hide (.number 3)).effect (unchanged (.store Store.chain))).2
    Store.chain.Reachable ∧ Store.chain.AllContent ∧ buffer.backing = .store Store.chain ∧
      source.Reachable ∧ (Delta.verify ⟨Store.chain.id, source⟩ Store.chain.tree).result = .ok () ∧
      source.LeafReferences ∧ ∃ after expanded,
        (replace source.tree).effect buffer = (.ok (), after) ∧
        (Delta.expand ⟨Store.chain.id, source⟩ Store.chain.tree).result = .ok expanded ∧
        expanded.tree.keys.result = .ok [.number 1, .number 4, .number 3] ∧
        after.tree.SameReads expanded.tree := by
  intro source buffer
  have reachable : Store.chain.Reachable := Store.reachable_ofEdits ⟨1⟩ Store.chainEdits
  have fromEdits : source.Reachable := Store.reachable_ofEdits ⟨2⟩ renamedEdits
  have backing : buffer.backing = .store Store.chain := rfl
  have verified : (Delta.verify ⟨Store.chain.id, source⟩ Store.chain.tree).result = .ok () := by
    decide +kernel
  have childless : source.LeafReferences := Store.leafReferences_of_entries (by decide +kernel)
  have agrees := replace_agrees_with_expand reachable Store.allContent_chain backing fromEdits
    verified childless
  have told : (do
      let expanded ← Delta.expand ⟨Store.chain.id, source⟩ Store.chain.tree
      expanded.tree.keys).result = .ok [.number 1, .number 4, .number 3] := by decide +kernel
  have succeeds : ((replace source.tree).effect buffer).1 = .ok () := by decide +kernel
  obtain ⟨expanded, ok, keys⟩ := Read.result_bind_eq_ok told
  obtain ⟨after, replaced⟩ : ∃ after, (replace source.tree).effect buffer = (.ok (), after) :=
    ⟨_, Edit.effect_eq_of_result succeeds⟩
  rw [replaced, ok] at agrees
  cases agrees with
  | ok sameReads =>
      exact ⟨reachable, Store.allContent_chain, backing, fromEdits, verified, childless, after,
        expanded, replaced, ok, keys, sameReads⟩

end Buffer

end VersionedTrees
