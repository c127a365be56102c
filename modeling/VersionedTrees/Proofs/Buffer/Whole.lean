import VersionedTrees.Proofs.Buffer.CoherentRuns

/-!
# Whole changes

As long as no tree-reference is stored by hand, what has been taken out of a base subtree stays out,
and a lazy node stands for a base subtree that is still in one piece. `Changes.Whole` says so: the
changes are sound, the base children of what is read from the base are in place, and no lazy node is
listed as deleted. The last of these is what makes a number that is drawn for a new node harmless:
one that is deleted is not that of a lazy node, so the new node takes no children from the base.

Bringing nodes into the overlay, storing content or a node-reference, deleting and replacing the state
by a delta all keep changes whole.
-/

namespace VersionedTrees

variable {C : Type}

namespace Changes

variable {base : Store C} {changes : Changes C} {key : Key} {standing : Standing C}

/-- Sound changes in which what is read from the base is in one piece, and not deleted. -/
structure Whole (base : Store C) (changes : Changes C) : Prop extends Sound base changes where
  intact : changes.Intact base
  kept : ∀ key, changes.IsLazy key → ¬ changes.deleted key

theorem whole_untouched : (untouched : Changes C).Whole base where
  toSound := sound_untouched
  intact := intact_untouched
  kept _ _ := not_false

/-- A node that fits keeps changes whole. -/
theorem Whole.place (whole : changes.Whole base) (wellFormed : base.WellFormed)
    (fits : changes.Fits base key standing)
    (isTree : (changes.place key standing).overlay.IsTree) :
    (changes.place key standing).Whole base where
  toSound := whole.toSound.place wellFormed fits isTree
  intact := whole.intact.place fits
  kept other isLazy := by
    obtain ⟨different, -⟩ := readsBack_place_cases fits.notReference (.inl isLazy)
    exact whole.kept other ((isLazy_place_of_ne different).mp isLazy)

/-- A removal keeps changes whole. -/
theorem Whole.remove (whole : changes.Whole base) (isTree : base.layout.IsTree) (top : Key) :
    (changes.remove base top).Whole base where
  toSound := whole.toSound.remove isTree top
  intact := whole.intact.remove isTree top
  kept key isLazy := by
    obtain ⟨isLazy, outside⟩ := isLazy_remove_iff.mp isLazy
    refine not_deleted_remove_iff.mpr ⟨whole.kept key isLazy, fun node within standsFor => ?_⟩
    rcases standsFor with ⟨isLazy', below⟩ | ⟨rfl, -⟩
    · -- below another lazy node there is nothing in the overlay
      by_cases same : node = key
      · subst same
        exact outside within
      · exact Layout.not_holds_iff.mpr (whole.intact.below isTree isLazy' below same).1 isLazy.holds
    · exact outside within

/-- Valid changes that are unmixed are whole once what they do not have is concealed. -/
theorem Valid.whole_conceal (valid : changes.Valid base) (isTree : base.layout.IsTree)
    (unmixed : changes.Unmixed base) : (changes.conceal base).Whole base where
  toSound := valid.sound_conceal isTree unmixed
  intact key parent back isChild := by
    have there := isTree.parent_holds isChild
    obtain ⟨top, isLazy, within⟩ : changes.Covers base parent := by
      rcases back with isLazy | ⟨absent, kept⟩
      · exact ⟨parent, isLazy, isTree.within_self there⟩
      · obtain ⟨top, isLazy, within, -⟩ := exists_lazy_of_kept absent kept there
        exact ⟨top, isLazy, within⟩
    have below := isChild.within within
    refine ⟨?_, fun deleted => deleted.2.2 ⟨top, isLazy, below⟩⟩
    rw [overlay_conceal, ← Layout.not_holds_iff]
    intro holds
    obtain rfl := unmixed key top holds isLazy below
    exact isChild.not_within isTree within
  kept _ isLazy deleted := Layout.not_holds_iff.mpr deleted.2.1 isLazy.holds

end Changes

namespace Buffer

variable {base : Store C} {changes next : Changes C} {buffer after : Buffer C} {key : Key}
  {parent : Option Key} {placement : Placement} {payload : Payload C}

/-- A buffer holds whole changes. -/
def IsWhole (base : Store C) (buffer : Buffer C) : Prop :=
  ∃ changes, buffer.Records base changes ∧ changes.Whole base

/-- To unfold a buffer keeps its changes whole. -/
theorem Unfolded.whole (unfolded : Unfolded base changes after next) (whole : changes.Whole base) :
    next.Whole base where
  toSound := unfolded.sound
  intact := unfolded.intact whole.intact
  kept key isLazy := by
    rw [unfolded.deleted_eq]
    rcases unfolded.readsBack key (.inl isLazy) with isLazy | ⟨-, kept⟩
    · exact whole.kept key isLazy
    · exact kept

section Edits

variable (records : buffer.Records base changes) (whole : changes.Whole base)
  (wellFormed : base.WellFormed) (allContent : base.AllContent)

include records whole wellFormed allContent

/-- A node that is no tree-reference fits wherever an insertion puts it. -/
theorem fits_of_insert (notReference : payload.isTreeReference = false)
    (ok : (insert parent placement payload).effect buffer = (.ok key, after)) :
    ∃ prepared last, Unfolded base changes prepared last ∧
      last.Fits base key ⟨parent, payload⟩ ∧
      after.Records base (last.place key ⟨parent, payload⟩) := by
  obtain ⟨existed, prepared, last, placed, unfolded, ready, resolves, stored⟩ :=
    exists_placeNode records whole.toSound wellFormed allContent ok
  rw [placeNode, notReference] at placed
  obtain ⟨told, fourth, inserted, placed⟩ := Edit.effect_bind_eq_ok placed
  obtain ⟨⟨⟩, fifth, rejected, placed⟩ := Edit.effect_bind_eq_ok placed
  cases placed
  have records' := unfolded.records.placed inserted
  have passed : fifth = fourth ∧
      (existed = false → last.deleted key ∨ base.layout key = none) := by
    cases existed with
    | true =>
        cases rejected
        exact ⟨rfl, fun impossible => absurd impossible.symm Bool.false_ne_true⟩
    | false =>
        obtain ⟨same, gone⟩ := gone_of_rejectTakenKey records' rejected
        exact ⟨same, fun _ => gone rfl⟩
  obtain ⟨rfl, gone⟩ := passed
  refine ⟨prepared, last, unfolded, ?_, records'⟩
  have at_key : last.overlay.Holds key ∧ ¬ last.IsLazy key ∨ last.shown base key = none := by
    cases explicit : explicitKey parent placement with
    | some chosen =>
        obtain rfl := key_of_insertOverlay explicit inserted
        exact (ready.found key explicit).imp (fun there => ⟨there.2.1, there.2.2 notReference⟩)
          And.right
    | none =>
        have gone := gone (ready.drawn explicit)
        by_cases holds : last.overlay.Holds key
        · refine .inl ⟨holds, fun isLazy => ?_⟩
          rcases gone with deleted | absent
          · exact (unfolded.whole whole).kept key isLazy deleted
          · obtain ⟨above, reference, found⟩ := isLazy
            exact Layout.not_holds_iff.mpr absent (unfolded.sound.admits key _ found).2
        · exact .inr (Changes.shown_eq_none_iff.mpr ⟨Layout.not_holds_iff.mp holds, gone⟩)
  have enters := ready.enters resolves stored inserted fun _ => at_key.imp_left And.left
  exact ⟨enters.admits, notReference, enters.below, at_key, enters.nonempty⟩

theorem isWhole_of_insert (notReference : payload.isTreeReference = false)
    (ok : (insert parent placement payload).effect buffer = (.ok key, after)) :
    IsWhole base after := by
  obtain ⟨prepared, last, unfolded, fits, records'⟩ :=
    fits_of_insert records whole wellFormed allContent notReference ok
  exact ⟨_, records', (unfolded.whole whole).place wellFormed fits records'.isTree_overlay⟩

theorem isWhole_of_update (notReference : payload.isTreeReference = false)
    (ok : (update key payload).effect buffer = (.ok (), after)) : IsWhole base after := by
  obtain ⟨checked, stored, holds⟩ := checks_of_update records ok
  obtain ⟨prepared, middle, last, above, old, same, records', unfolded, enters, found, notLazy⟩ :=
    exists_update records whole.toSound wellFormed allContent checked stored holds
  rw [same, notReference] at ok
  cases ok
  have fits : last.Fits base key ⟨above, payload⟩ := ⟨enters.admits, notReference, enters.below,
    .inl ⟨⟨_, found⟩, notLazy notReference⟩, enters.nonempty⟩
  exact ⟨_, records', (unfolded.whole whole).place wellFormed fits records'.isTree_overlay⟩

theorem isWhole_of_delete (ok : (delete key).effect buffer = (.ok (), after)) :
    IsWhole base after := by
  obtain ⟨⟨⟩, middle, reached, deleted⟩ := Edit.effect_bind_eq_ok ok
  have holds := holds_of_reach records reached
  obtain ⟨middle', last, reached', unfolded, inside⟩ :=
    unfolds_reach records whole.toSound wellFormed allContent holds
  obtain rfl := Edit.after_unique reached' reached
  obtain ⟨after', removed, records'⟩ :=
    unfolded.records.removeOverlaySubtree wellFormed unfolded.sound.admits inside
  obtain rfl := Edit.after_unique removed deleted
  exact ⟨_, records', (unfolded.whole whole).remove wellFormed.isTree key⟩

end Edits

/-- Whatever the delta is, a replacement that succeeds leaves whole changes. -/
theorem isWhole_of_replace {delta : Tree C} (backing : buffer.backing = .store base)
    (wellFormed : base.WellFormed) (allContent : base.AllContent)
    (ok : (replace delta).effect buffer = (.ok (), after)) : IsWhole base after := by
  obtain ⟨changes, records, valid, unmixed⟩ :=
    concealed_of_replace backing wellFormed allContent ok
  exact ⟨_, records, valid.whole_conceal wellFormed.isTree unmixed⟩

end Buffer

end VersionedTrees
