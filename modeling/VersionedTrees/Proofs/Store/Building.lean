import VersionedTrees.Proofs.Planting
import VersionedTrees.Proofs.Store.Edits

/-!
# Building stores

A store that is built from an empty one keeps its identifier and takes one new node after the other.
-/

namespace VersionedTrees

namespace Store

variable {C : Type} {store : Store C} {layout : Layout C} {id : TreeId} {key : Key}
  {above : Option Key}

/-- A well-formed store with an identifier and a layout. -/
structure Builds (id : TreeId) (store : Store C) (layout : Layout C) : Prop where
  wellFormed : store.WellFormed
  layout_eq : store.layout = layout
  id_eq : store.id = id

theorem builds_empty (id : TreeId) (supply : KeySupply) :
    Builds id (empty id supply : Store C) fun _ => none :=
  ⟨wellFormed_empty id supply, funext (layout_empty id supply), rfl⟩

/-- Where there is room, a new node is inserted. -/
theorem Builds.insert (builds : Builds id store layout) (new : layout key = none)
    (room : layout.Room above) (payload : Payload C) :
    ∃ next, store.insert above (.exactly key) payload = (.ok key, next) ∧
      Builds id next (layout.place key ⟨above, payload⟩) := by
  obtain ⟨wellFormed, rfl, rfl⟩ := builds
  have accepts : store.layout.Accepts key above := by
    cases above with
    | none => exact .inl room
    | some parent =>
        exact ⟨room, fun within => Layout.holds_iff_ne_none.mp within.top_holds new⟩
  obtain ⟨next, inserted, becomes⟩ := wellFormed.insert_accepted accepts payload
  exact ⟨next, inserted, becomes.wellFormed, becomes.layout_eq, becomes.id_eq⟩

/-- Where a new node has been inserted, there was room for it. -/
theorem Builds.room_of_insert {payload : Payload C} {told : Key} (builds : Builds id store layout)
    (new : layout key = none)
    (ok : (store.insert above (.exactly key) payload).1 = .ok told) : layout.Room above := by
  obtain ⟨wellFormed, rfl, rfl⟩ := builds
  cases above with
  | none =>
      cases found : store.root with
      | none => exact wellFormed.layout_of_no_root found
      | some root =>
          have isRoot := (wellFormed.root root).mp found
          have different : root ≠ key := by
            rintro rfl
            exact Layout.holds_iff_ne_none.mp isRoot.holds new
          rw [insert_root, show Placement.rootKey (.exactly key) = key from rfl,
            wellFormed.putRoot_of_other isRoot different] at ok
          cases ok
  | some parent =>
      by_contra absent
      rw [insert_of_absent (Layout.not_holds_iff.mp absent)] at ok
      cases ok

end Store

end VersionedTrees
