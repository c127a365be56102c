import VersionedTrees.Proofs.Buffer.Refinement
import VersionedTrees.Proofs.Buffer.Whole

/-!
# Storing under given keys

A buffer takes a node under a key of the caller's choice wherever the layout that it shows accepts one
there (`Buffer.exists_insert_exactly`). What the insertion needs comes into the overlay first, and what
is in the overlay then stands there as it is shown.
-/

namespace VersionedTrees

variable {C : Type}

namespace Buffer

variable {base : Store C} {changes : Changes C} {buffer : Buffer C} {key : Key} {parent : Option Key}
  {payload : Payload C}

/-- The overlay takes a node wherever its layout accepts one. -/
theorem Records.insertOverlay_accepted (records : buffer.Records base changes)
    (accepts : changes.overlay.Accepts key parent) (payload : Payload C) : ∃ after,
      (insertOverlay parent (.exactly key) payload).effect buffer = (.ok key, after) ∧
      after.Records base (changes.place key ⟨parent, payload⟩) := by
  rw [← records.overlay] at accepts
  obtain ⟨next, ok, -⟩ := records.wellFormed.insert_accepted accepts payload
  have inserted : (insertOverlay parent (.exactly key) payload).effect buffer =
      (.ok key, { buffer with overlay := next }) := by
    rw [effect_insertOverlay, ok]
  exact ⟨_, inserted, records.placed inserted⟩

/-- With the parent in the overlay, the overlay accepts a node where the layout that is shown does. -/
theorem accepts_overlay (sound : changes.Sound base) (isTree : base.layout.IsTree)
    (below : ∀ above, parent = some above → changes.overlay.Holds above)
    (nonempty : (∀ key, changes.overlay key = none) → ∀ key, changes.shown base key = none)
    (accepts : (changes.shown base).Accepts key parent) : changes.overlay.Accepts key parent := by
  cases parent with
  | none =>
      exact accepts.imp (fun empty other => (Changes.shown_eq_none_iff.mp (empty other)).1)
        (isRoot_overlay_of_shown sound isTree nonempty)
  | some above =>
      have inside := below above rfl
      exact ⟨inside, fun within => accepts.2 ((sound.within_shown_iff inside).mpr within)⟩

/-- To store a node under a key opens base nodes above it and its parent, the parent, and the node
itself if it does not become a tree-reference. -/
def OpenedFor (base : Store C) (key : Key) (parent : Option Key) (payload : Payload C) (other : Key) :
    Prop :=
  (∃ above, parent = some above ∧ (other = above ∨ base.layout.Within other above)) ∨
    (other = key ∧ payload.isTreeReference = false) ∨ other ≠ key ∧ base.layout.Within other key

/-- A node is stored under a key where the layout that is shown accepts one. A tree-reference restores
what it covers after that. -/
theorem exists_insert_exactly (records : buffer.Records base changes) (sound : changes.Sound base)
    (wellFormed : base.WellFormed) (allContent : base.AllContent) (admits : base.Admits key payload)
    (accepts : (changes.shown base).Accepts key parent) : ∃ prepared last stored,
      (insert parent (.exactly key) payload).effect buffer = (do
        Edit.when payload.isTreeReference (restore key)
        return key : Edit (Buffer C) Key).effect stored ∧
      Unfolded base changes prepared last ∧ last.Enters base key ⟨parent, payload⟩ ∧
      (payload.isTreeReference = false → last.Fits base key ⟨parent, payload⟩) ∧
      stored.Records base (last.place key ⟨parent, payload⟩) ∧
      Opens changes last (OpenedFor base key parent payload) := by
  have checked := result_checkPayload records admits.resolves
  have chosen : explicitKey parent (.exactly key) = some key := by cases parent <;> rfl
  have kept : (checkInsertedReference (explicitKey parent (.exactly key)) payload).result = .ok () := by
    rw [chosen]
    cases payload with
    | content value => rfl
    | nodeReference reference => rfl
    | treeReference reference =>
        obtain ⟨rfl, -⟩ := admits
        exact Read.result_require_of_true (decide_eq_true rfl)
  have present : ¬ ∃ above, parent = some above ∧ changes.shown base above = none := by
    rintro ⟨above, rfl, absent⟩
    exact Layout.holds_iff_ne_none.mp accepts.1 absent
  obtain ⟨first, middle, prepared, unfolded, below, nonempty, opens⟩ :=
    (prepareParent_cases records sound wellFormed allContent parent).resolve_left present
  obtain ⟨existed, second, third, last, moved, expanded, unfolded, ready, opens'⟩ :=
    exists_prepared_node unfolded.records unfolded.sound wellFormed allContent unfolded below
      nonempty (.exactly key) payload
  rw [← unfolded.shown_eq] at accepts
  obtain ⟨fourth, inserted, records'⟩ := unfolded.records.insertOverlay_accepted
    (accepts_overlay unfolded.sound wellFormed.isTree (fun above same => (ready.below above same).1)
      ready.nonempty accepts) payload
  have there := ready.found key chosen
  have passed : (Edit.when (!existed) (rejectTakenKey key payload.isTreeReference)).effect fourth =
      (.ok (), fourth) := by
    rcases there with ⟨rfl, -, -⟩ | ⟨rfl, absent⟩
    · rfl
    · exact effect_rejectTakenKey_of_absent records' (Changes.shown_eq_none_iff.mp absent).2 _
  have opens : Opens changes last (OpenedFor base key parent payload) := by
    refine (opens.mono fun other opened => .inl opened).trans (opens'.mono ?_)
    rintro other ⟨_, same, opened⟩
    obtain rfl := Option.some.inj (chosen.symm.trans same)
    exact .inr opened
  refine ⟨third, last, fourth, ?_, unfolded, ?_, fun notReference => ?_, records', opens⟩
  · rw [effect_insert checked kept prepared moved expanded, placeNode, Edit.effect_bind_of_ok inserted,
      Edit.effect_bind_of_ok passed]
  · exact ⟨admits, fun above same => (ready.below above same).2,
      there.imp (fun found => found.2.1) And.right, ready.nonempty⟩
  · exact ⟨admits, notReference, fun above same => (ready.below above same).2,
      there.imp (fun found => ⟨found.2.1, found.2.2 notReference⟩) And.right, ready.nonempty⟩

end Buffer

end VersionedTrees
