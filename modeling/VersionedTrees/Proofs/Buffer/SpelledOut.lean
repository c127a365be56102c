import Mathlib.Data.List.Pairwise
import VersionedTrees.Proofs.Buffer.Replace
import VersionedTrees.Proofs.Store.Rows

/-!
# Overlay rows spelled out

What an overlay stands for can be listed: `Store.spelledOut` turns an overlay row into its node with
the content that it lends, followed by the base rows below it if it is lazy.

Two conditions on an overlay come to one about that list. No key comes twice in the list exactly when
no key comes twice among the overlay rows and they are unmixed with the base
(`Store.WellFormed.nodup_spelledOut_iff`). Then the list is what the changes show once all else is
concealed (`Changes.shown_conceal_ofRows`).
-/

namespace VersionedTrees

variable {C : Type} {base : Store C} {rows : List (Layout.Row C)} {row other : Layout.Row C} {key : Key}

namespace Store

/-- The rows that an overlay row stands for. -/
def spelledOut (base : Store C) (row : Layout.Row C) : List (Layout.Row C) :=
  (row.1, ⟨row.2.parent, base.lend row.2.payload⟩) ::
    if row.2.payload.isTreeReference then base.rowsBelow row.1 else []

theorem spelledOut_treeReference (base : Store C) (key : Key) (above : Option Key)
    (reference : Reference) : base.spelledOut (key, ⟨above, .treeReference reference⟩) =
      (key, ⟨above, base.lend (.treeReference reference)⟩) :: base.rowsBelow key := rfl

theorem spelledOut_of_not_isTreeReference {above : Option Key} {payload : Payload C}
    (notReference : payload.isTreeReference = false) :
    base.spelledOut (key, ⟨above, payload⟩) = [(key, ⟨above, base.lend payload⟩)] := by
  rw [spelledOut, notReference]
  rfl

/-- Lazy rows stand under keys of the base. -/
def LazyHold (base : Store C) (rows : List (Layout.Row C)) : Prop :=
  ∀ row ∈ rows, row.2.payload.isTreeReference = true → base.layout.Holds row.1

theorem WellFormed.map_fst_spelledOut (wellFormed : base.WellFormed)
    (isLazy : row.2.payload.isTreeReference = true) (holds : base.layout.Holds row.1) :
    (base.spelledOut row).map Prod.fst = (base.rowsFrom row.1).map Prod.fst := by
  obtain ⟨standing, found⟩ := holds
  rw [spelledOut, if_pos isLazy, wellFormed.rowsFrom_eq found]
  rfl

theorem map_fst_spelledOut_of_not_lazy (notLazy : row.2.payload.isTreeReference = false) :
    (base.spelledOut row).map Prod.fst = [row.1] := by
  rw [spelledOut, notLazy]
  rfl

/-- No row has its key strictly below that of a lazy row. -/
def Separate (base : Store C) (rows : List (Layout.Row C)) : Prop :=
  ∀ row ∈ rows, ∀ top ∈ rows, top.2.payload.isTreeReference = true →
    base.layout.Within top.1 row.1 → top.1 = row.1

section WellFormed

variable (wellFormed : base.WellFormed) (holds : base.LazyHold rows)
include wellFormed holds

/-- A row stands for its own key and, if it is lazy, for the base subtree of that key. -/
theorem WellFormed.mem_keys_spelledOut_iff (inside : row ∈ rows) :
    key ∈ (base.spelledOut row).map Prod.fst ↔
      row.1 = key ∨ row.2.payload.isTreeReference = true ∧ base.layout.Within row.1 key := by
  cases isLazy : row.2.payload.isTreeReference with
  | false =>
      rw [map_fst_spelledOut_of_not_lazy isLazy]
      simp [eq_comm]
  | true =>
      have there := holds row inside isLazy
      rw [wellFormed.map_fst_spelledOut isLazy there, wellFormed.mem_map_rowsFrom_iff there]
      simp only [true_and, iff_or_self]
      rintro rfl
      exact wellFormed.isTree.within_self there

theorem WellFormed.nodup_keys_spelledOut (inside : row ∈ rows) :
    ((base.spelledOut row).map Prod.fst).Nodup := by
  cases isLazy : row.2.payload.isTreeReference with
  | false =>
      rw [map_fst_spelledOut_of_not_lazy isLazy]
      exact List.nodup_singleton _
  | true =>
      have there := holds row inside isLazy
      rw [wellFormed.map_fst_spelledOut isLazy there]
      exact wellFormed.nodup_rowsFrom there

/-- Besides itself a lazy row stands for what the base has strictly below it. -/
theorem WellFormed.mem_spelledOut_iff {standing : Standing C} (inside : row ∈ rows) :
    (key, standing) ∈ base.spelledOut row ↔
      row.1 = key ∧ standing = ⟨row.2.parent, base.lend row.2.payload⟩ ∨
        row.2.payload.isTreeReference = true ∧ row.1 ≠ key ∧ base.layout.Within row.1 key ∧
          base.layout key = some standing := by
  rw [spelledOut, List.mem_cons, Prod.mk.injEq, eq_comm (a := key)]
  apply or_congr_right
  cases isLazy : row.2.payload.isTreeReference with
  | false => simp
  | true => simp [wellFormed.mem_rowsBelow_iff (holds row inside isLazy)]

/-- Rows that stand for a common key are one row, if their keys differ and they are separate. -/
theorem WellFormed.disjoint_spelledOut (separate : base.Separate rows) (first : row ∈ rows)
    (second : other ∈ rows) (different : row.1 ≠ other.1) :
    ((base.spelledOut row).map Prod.fst).Disjoint ((base.spelledOut other).map Prod.fst) := by
  intro key inside inside'
  rcases (wellFormed.mem_keys_spelledOut_iff holds first).mp inside with rfl | ⟨isLazy, within⟩ <;>
    rcases (wellFormed.mem_keys_spelledOut_iff holds second).mp inside' with same | ⟨isLazy', within'⟩
  · exact different same.symm
  · exact different (separate row first other second isLazy' within').symm
  · rw [← same] at within
    exact different (separate other second row first isLazy within)
  · rcases within.total within' with upper | lower
    · exact different (separate other second row first isLazy upper)
    · exact different (separate row first other second isLazy' lower).symm

/-- No key comes twice among spelled out rows if none does among the rows and they are separate. -/
theorem WellFormed.nodup_spelledOut_iff :
    ((rows.flatMap base.spelledOut).map Prod.fst).Nodup ↔
      (rows.map Prod.fst).Nodup ∧ base.Separate rows := by
  rw [List.map_flatMap, List.nodup_flatMap, List.nodup_iff_pairwise_ne, List.pairwise_map]
  have head : ∀ row : Layout.Row C, row.1 ∈ (base.spelledOut row).map Prod.fst :=
    fun row => List.mem_cons_self
  constructor
  · rintro ⟨-, disjoint⟩
    constructor
    · apply disjoint.imp
      intro row other apart same
      exact apart (head row) (same ▸ head other)
    · intro row inside top among isLazy within
      by_contra different
      have : Std.Symm (Function.onFun List.Disjoint fun row : Layout.Row C =>
          (base.spelledOut row).map Prod.fst) := ⟨fun _ _ apart => List.disjoint_symm apart⟩
      have apart := disjoint.forall among inside fun same => different (congrArg Prod.fst same)
      exact apart ((wellFormed.mem_keys_spelledOut_iff holds among).mpr (.inr ⟨isLazy, within⟩))
        (head row)
  · rintro ⟨differ, separate⟩
    refine ⟨fun row inside => wellFormed.nodup_keys_spelledOut holds inside, ?_⟩
    exact differ.imp_of_mem fun first second different =>
      wellFormed.disjoint_spelledOut holds separate first second different

end WellFormed

end Store

namespace Changes

/-- Below a lazy node the base is shown, and elsewhere it is concealed. -/
theorem shown_conceal_of_covers {changes : Changes C} (absent : changes.overlay key = none)
    (covers : changes.Covers base key) : (changes.conceal base).shown base key = base.layout key := by
  have kept : ¬ (changes.conceal base).deleted key := fun deleted => deleted.2.2 covers
  exact shown_of_kept absent kept

theorem shown_conceal_of_uncovered {changes : Changes C} (absent : changes.overlay key = none)
    (uncovered : ¬ changes.Covers base key) : (changes.conceal base).shown base key = none := by
  apply shown_eq_none_iff.mpr
  refine ⟨absent, ?_⟩
  by_cases there : base.layout.Holds key
  · exact .inl ⟨there, absent, uncovered⟩
  · exact .inr (Layout.not_holds_iff.mp there)

/-- The changes of a buffer that has been filled with rows. -/
def ofRows (rows : List (Layout.Row C)) : Changes C :=
  ⟨Layout.plant (fun _ => none) rows, fun _ => False⟩

variable (fresh : Layout.Fresh (fun _ => none) rows)
include fresh

theorem isLazy_ofRows_iff : (ofRows rows).IsLazy key ↔
    ∃ standing, (key, standing) ∈ rows ∧ standing.payload.isTreeReference = true := by
  simp only [IsLazy, ofRows, Layout.plant_empty_eq_some_iff fresh]
  constructor
  · rintro ⟨above, reference, inside⟩
    exact ⟨_, inside, rfl⟩
  · rintro ⟨⟨above, payload⟩, inside, isLazy⟩
    cases payload with
    | treeReference reference => exact ⟨above, reference, inside⟩
    | content value => cases isLazy
    | nodeReference reference => cases isLazy

/-- Rows are separate if the changes that they make are unmixed. -/
theorem unmixed_ofRows_iff : (ofRows rows).Unmixed base ↔ base.Separate rows := by
  constructor
  · rintro unmixed ⟨key, standing⟩ inside ⟨top, standing'⟩ among isLazy within
    apply unmixed key top
    · exact (Layout.holds_plant_empty_iff fresh).mpr (List.mem_map.mpr ⟨_, inside, rfl⟩)
    · exact (isLazy_ofRows_iff fresh).mpr ⟨standing', among, isLazy⟩
    · exact within
  · intro separate key top holds isLazy within
    obtain ⟨row, inside, rfl⟩ := List.mem_map.mp ((Layout.holds_plant_empty_iff fresh).mp holds)
    obtain ⟨standing, among, isLazy⟩ := (isLazy_ofRows_iff fresh).mp isLazy
    exact separate row inside (top, standing) among isLazy within

/-- What the changes show once all else is concealed is the rows spelled out. -/
theorem shown_conceal_ofRows (wellFormed : base.WellFormed) (holds : base.LazyHold rows)
    (separate : base.Separate rows) :
    ((ofRows rows).conceal base).shown base =
      Layout.plant (fun _ => none) (rows.flatMap base.spelledOut) := by
  have fresh' : Layout.Fresh (fun _ => none) (rows.flatMap base.spelledOut) :=
    Layout.fresh_empty_iff.mpr ((wellFormed.nodup_spelledOut_iff holds).mpr
      ⟨Layout.fresh_empty_iff.mp fresh, separate⟩)
  funext key
  ext standing
  rw [Layout.plant_empty_eq_some_iff fresh', List.mem_flatMap]
  have lazily : ∀ row ∈ rows, row.2.payload.isTreeReference = true →
      (ofRows rows).IsLazy row.1 := fun row inside isLazy =>
    (isLazy_ofRows_iff fresh).mpr ⟨row.2, inside, isLazy⟩
  cases found : (ofRows rows).overlay key with
  | some placed =>
      -- a row with the key is the only one that stands for it
      have among := (Layout.plant_empty_eq_some_iff fresh).mp found
      have concealed : ((ofRows rows).conceal base).overlay key = some placed := found
      rw [shown_of_overlay concealed, Option.some.injEq]
      constructor
      · rintro rfl
        exact ⟨_, among, List.mem_cons_self⟩
      · rintro ⟨row, inside, spelled⟩
        rcases (wellFormed.mem_spelledOut_iff holds inside).mp spelled with
          ⟨same, rfl⟩ | ⟨isLazy, different, within, -⟩
        · have found' := (Layout.plant_empty_eq_some_iff fresh).mpr inside
          rw [same] at found'
          rw [Option.some.inj (found'.symm.trans found)]
        · exact absurd (separate _ among row inside isLazy within) different
  | none =>
      have absent : ∀ row ∈ rows, row.1 ≠ key := by
        rintro row inside rfl
        exact Layout.not_holds_iff.mpr found
          ((Layout.holds_plant_empty_iff fresh).mpr (List.mem_map.mpr ⟨row, inside, rfl⟩))
      by_cases covers : (ofRows rows).Covers base key
      · obtain ⟨top, isLazy, within⟩ := covers
        rw [shown_conceal_of_covers found ⟨top, isLazy, within⟩]
        obtain ⟨standing', among, isLazy⟩ := (isLazy_ofRows_iff fresh).mp isLazy
        constructor
        · intro there
          exact ⟨_, among, (wellFormed.mem_spelledOut_iff holds among).mpr
            (.inr ⟨isLazy, absent _ among, within, there⟩)⟩
        · rintro ⟨row, inside, spelled⟩
          rcases (wellFormed.mem_spelledOut_iff holds inside).mp spelled with
            ⟨same, -⟩ | ⟨-, -, -, there⟩
          · exact absurd same (absent row inside)
          · exact there
      · rw [shown_conceal_of_uncovered found covers]
        refine ⟨fun same => (nomatch same), ?_⟩
        rintro ⟨row, inside, spelled⟩
        rcases (wellFormed.mem_spelledOut_iff holds inside).mp spelled with
          ⟨same, -⟩ | ⟨isLazy, -, within, -⟩
        · exact absurd same (absent row inside)
        · exact absurd ⟨row.1, lazily row inside isLazy, within⟩ covers

end Changes

end VersionedTrees
