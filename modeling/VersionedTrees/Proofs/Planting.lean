import VersionedTrees.Proofs.Layout.Changes
import VersionedTrees.Proofs.Walk

/-!
# Planting rows

A tree is built by putting one node after the other under a key that must be new. Whether that
succeeds, and what it leaves, depends on the list of nodes alone: `Layout.plant` places rows in
order, and `Layout.Fresh` says that no key comes up twice.

`Plants` is the contract of an edit that builds a part of a tree: it succeeds with fresh rows and
leaves them placed, and an edit that is guarded finds a fault of the delta in a repeated key. `Heeds` is
the contract of an edit that takes what it is offered until something is refused, and leaves what it
took: `Layout.plantOffers` tells what that is. Both are put together along the structure of the edit
(`Chains`), up to whole visits (`Chains.depthFirst`).
-/

namespace VersionedTrees

variable {C : Type}

/-- A key with what is to stand under it. -/
abbrev Layout.Row (C : Type) := Key × Standing C

namespace Layout

variable {layout : Layout C} {rows first second : List (Row C)} {key : Key}
  {standing : Standing C}

/-- Places rows in order. -/
def plant (layout : Layout C) (rows : List (Row C)) : Layout C :=
  rows.foldl (fun layout row => layout.place row.1 row.2) layout

/-- The keys of rows differ, and nothing stands under them. -/
def Fresh (layout : Layout C) (rows : List (Row C)) : Prop :=
  (rows.map Prod.fst).Nodup ∧ ∀ row ∈ rows, layout row.1 = none

@[simp] theorem plant_nil (layout : Layout C) : layout.plant [] = layout := rfl

@[simp] theorem plant_cons (layout : Layout C) (row : Row C) (rows : List (Row C)) :
    layout.plant (row :: rows) = (layout.place row.1 row.2).plant rows := rfl

theorem plant_append (layout : Layout C) (first second : List (Row C)) :
    layout.plant (first ++ second) = (layout.plant first).plant second := by
  simp [plant]

/-- Rows leave what stands under other keys. -/
theorem plant_of_not_mem (other : key ∉ rows.map Prod.fst) : layout.plant rows key = layout key := by
  induction rows generalizing layout with
  | nil => rfl
  | cons row rows inductionHypothesis =>
      obtain ⟨different, later⟩ := not_or.mp (mt List.mem_cons.mpr other)
      rw [plant_cons, inductionHypothesis later, place_of_ne (Ne.symm different)]

/-- Rows stand where they were placed, if no key comes twice. -/
theorem plant_of_mem (nodup : (rows.map Prod.fst).Nodup) (inside : (key, standing) ∈ rows) :
    layout.plant rows key = some standing := by
  induction rows generalizing layout with
  | nil => exact absurd inside List.not_mem_nil
  | cons row rows inductionHypothesis =>
      obtain ⟨apart, nodup⟩ := List.nodup_cons.mp nodup
      rcases List.mem_cons.mp inside with rfl | later
      · rw [plant_cons, plant_of_not_mem apart, place_self]
      · exact inductionHypothesis nodup later

@[simp] theorem fresh_nil (layout : Layout C) : layout.Fresh [] :=
  ⟨List.nodup_nil, fun _ inside => absurd inside List.not_mem_nil⟩

/-- The first row of fresh rows is new, and the others still are once it has been placed. -/
theorem fresh_cons_iff {row : Row C} :
    layout.Fresh (row :: rows) ↔ layout row.1 = none ∧ (layout.place row.1 row.2).Fresh rows := by
  have placed : ∀ other ∈ rows,
      (layout.place row.1 row.2 other.1 = none ↔ row.1 ≠ other.1 ∧ layout other.1 = none) := by
    intro other _
    by_cases same : row.1 = other.1
    · rw [same]
      simp
    · simp [place_of_ne same, same]
  constructor
  · rintro ⟨nodup, absent⟩
    obtain ⟨different, nodup⟩ := List.nodup_cons.mp nodup
    refine ⟨absent row List.mem_cons_self, nodup, fun other inside => ?_⟩
    apply (placed other inside).mpr
    exact ⟨fun same => different (List.mem_map.mpr ⟨other, inside, same.symm⟩),
      absent other (List.mem_cons_of_mem _ inside)⟩
  · rintro ⟨new, nodup, absent⟩
    constructor
    · apply List.nodup_cons.mpr
      refine ⟨fun again => ?_, nodup⟩
      obtain ⟨other, inside, same⟩ := List.mem_map.mp again
      exact ((placed other inside).mp (absent other inside)).1 same.symm
    · intro other inside
      rcases List.mem_cons.mp inside with rfl | inside
      · exact new
      · exact ((placed other inside).mp (absent other inside)).2

theorem fresh_append_iff :
    layout.Fresh (first ++ second) ↔ layout.Fresh first ∧ (layout.plant first).Fresh second := by
  induction first generalizing layout with
  | nil => simp
  | cons row rows inductionHypothesis =>
      rw [List.cons_append, fresh_cons_iff, fresh_cons_iff, inductionHypothesis, plant_cons,
        and_assoc]

theorem fresh_singleton (new : layout key = none) : layout.Fresh [(key, standing)] :=
  fresh_cons_iff.mpr ⟨new, fresh_nil _⟩

/-- Over an empty layout rows are fresh if no key comes twice. -/
theorem fresh_empty_iff : Fresh (fun _ => none) rows ↔ (rows.map Prod.fst).Nodup :=
  and_iff_left fun _ _ => rfl

/-- Fresh rows leave what stands under other keys. -/
theorem plant_of_holds (fresh : layout.Fresh rows) (found : layout key = some standing) :
    layout.plant rows key = some standing := by
  induction rows generalizing layout with
  | nil => exact found
  | cons row rows inductionHypothesis =>
      obtain ⟨new, fresh⟩ := fresh_cons_iff.mp fresh
      have different : row.1 ≠ key := by
        intro same
        rw [same, found] at new
        cases new
      apply inductionHypothesis fresh
      rw [place_of_ne different, found]

/-- After fresh rows have been placed, they stand with what stood before. -/
theorem plant_eq_some_iff (fresh : layout.Fresh rows) :
    layout.plant rows key = some standing ↔
      layout key = some standing ∨ (key, standing) ∈ rows := by
  induction rows generalizing layout with
  | nil => simp
  | cons row rows inductionHypothesis =>
      obtain ⟨new, fresh⟩ := fresh_cons_iff.mp fresh
      obtain ⟨other, placed⟩ := row
      rw [plant_cons, inductionHypothesis fresh, List.mem_cons, ← or_assoc]
      apply or_congr_left
      by_cases same : other = key
      · subst same
        simp [show layout other = none from new, eq_comm]
      · simp [place_of_ne same, Ne.symm same]

/-- Rows that are placed in an empty layout are what stands there. -/
theorem plant_empty_eq_some_iff (fresh : Fresh (fun _ => none) rows) :
    plant (fun _ => none) rows key = some standing ↔ (key, standing) ∈ rows := by
  rw [plant_eq_some_iff fresh]
  simp

theorem holds_plant_empty_iff (fresh : Fresh (fun _ => none) rows) :
    (plant (fun _ => none) rows).Holds key ↔ key ∈ rows.map Prod.fst := by
  simp only [Holds, plant_empty_eq_some_iff fresh, List.mem_map, Prod.exists, exists_and_right,
    exists_eq_right]

/-- The order of fresh rows does not matter. -/
theorem Fresh.perm (fresh : Fresh (fun _ => none) first) (perm : first.Perm second) :
    Fresh (fun _ => none) second ∧
      plant (fun _ => none) first = plant (fun _ => none) second := by
  have fresh' : Fresh (fun _ => none) second :=
    fresh_empty_iff.mpr ((perm.map Prod.fst).nodup_iff.mp (fresh_empty_iff.mp fresh))
  refine ⟨fresh', ?_⟩
  funext key
  ext standing
  rw [plant_empty_eq_some_iff fresh, plant_empty_eq_some_iff fresh', perm.mem_iff]

/-- There is room for a node below a parent that is there, and for a root where nothing is. -/
def Room (layout : Layout C) : Option Key → Prop
  | none => ∀ key, layout key = none
  | some parent => layout.Holds parent

/-- Fresh rows leave the room below a parent. -/
theorem Room.plant {parent : Key} (room : layout.Room (some parent)) (fresh : layout.Fresh rows) :
    (layout.plant rows).Room (some parent) := by
  obtain ⟨standing, found⟩ := room
  exact ⟨standing, plant_of_holds fresh found⟩

/-- There is room below the rows that have been placed. -/
theorem room_plant {row : Row C} (fresh : layout.Fresh rows) (inside : row ∈ rows) :
    (layout.plant rows).Room (some row.1) :=
  ⟨row.2, (plant_eq_some_iff fresh).mpr (.inr inside)⟩

/-- Rows come in an order in which there is room for each of them when its turn comes. -/
def Grows : Layout C → List (Row C) → Prop
  | _, [] => True
  | layout, row :: rows => layout.Room row.2.parent ∧ Grows (layout.place row.1 row.2) rows

theorem grows_append_iff :
    layout.Grows (first ++ second) ↔ layout.Grows first ∧ (layout.plant first).Grows second := by
  induction first generalizing layout with
  | nil => simp [Grows]
  | cons row rows inductionHypothesis =>
      rw [List.cons_append, Grows, Grows, inductionHypothesis, plant_cons, and_assoc]

/-- Below one parent, lists of rows may follow one another. -/
theorem grows_flatMap {α : Type} {items : List α} {rows : α → List (Row C)} {parent : Key}
    (each : ∀ item ∈ items, ∀ layout : Layout C, layout.Room (some parent) →
      layout.Fresh (rows item) → layout.Grows (rows item))
    (room : layout.Room (some parent)) (fresh : layout.Fresh (items.flatMap rows)) :
    layout.Grows (items.flatMap rows) := by
  induction items generalizing layout with
  | nil => trivial
  | cons item items inductionHypothesis =>
      rw [List.flatMap_cons] at fresh ⊢
      obtain ⟨fresh, fresh'⟩ := fresh_append_iff.mp fresh
      apply grows_append_iff.mpr
      constructor
      · exact each item List.mem_cons_self layout room fresh
      · exact inductionHypothesis (fun other inside => each other (List.mem_cons_of_mem _ inside))
          (room.plant fresh) fresh'

/-! ### Offers -/

/-- Places the rows that are offered, in order, up to the first that is withheld or comes under a key
that is there already. -/
def plantOffers : Layout C → List (Option (Row C)) → Layout C
  | layout, some row :: offers =>
    if (layout row.1).isNone then (layout.place row.1 row.2).plantOffers offers else layout
  | layout, _ => layout

/-- No offer is withheld, and no key comes twice. -/
def Passes : Layout C → List (Option (Row C)) → Prop
  | _, [] => True
  | _, none :: _ => False
  | layout, some row :: offers => layout row.1 = none ∧ (layout.place row.1 row.2).Passes offers

variable {offers later : List (Option (Row C))}

theorem plantOffers_cons_of_absent {row : Row C} (new : layout row.1 = none)
    (offers : List (Option (Row C))) :
    layout.plantOffers (some row :: offers) = (layout.place row.1 row.2).plantOffers offers := by
  rw [plantOffers, if_pos (Option.isNone_iff_eq_none.mpr new)]

theorem plantOffers_cons_of_holds {row : Row C} (holds : layout.Holds row.1)
    (offers : List (Option (Row C))) : layout.plantOffers (some row :: offers) = layout := by
  rw [plantOffers, if_neg (mt Option.isNone_iff_eq_none.mp (holds_iff_ne_none.mp holds))]

/-- An offer whose key is taken does not pass. -/
theorem not_passes_of_holds {row : Row C} (holds : layout.Holds row.1) :
    ¬ layout.Passes (some row :: offers) :=
  fun passes => not_holds_iff.mpr passes.1 holds

/-- The offers that come first decide whether the later ones are looked at. -/
theorem passes_append_iff :
    layout.Passes (offers ++ later) ↔
      layout.Passes offers ∧ (layout.plantOffers offers).Passes later := by
  induction offers generalizing layout with
  | nil => exact (and_iff_right trivial).symm
  | cons offer offers inductionHypothesis =>
      cases offer with
      | none => exact (and_iff_left_of_imp False.elim).symm
      | some row =>
          rw [List.cons_append, Passes, Passes, inductionHypothesis, and_assoc]
          refine and_congr_right fun new => ?_
          rw [plantOffers_cons_of_absent new]

theorem plantOffers_append (passes : layout.Passes offers) :
    layout.plantOffers (offers ++ later) = (layout.plantOffers offers).plantOffers later := by
  induction offers generalizing layout with
  | nil => rfl
  | cons offer offers inductionHypothesis =>
      cases offer with
      | none => exact passes.elim
      | some row =>
          rw [List.cons_append, plantOffers_cons_of_absent passes.1,
            plantOffers_cons_of_absent passes.1, inductionHypothesis passes.2]

theorem plantOffers_append_of_not_passes (stops : ¬ layout.Passes offers) :
    layout.plantOffers (offers ++ later) = layout.plantOffers offers := by
  induction offers generalizing layout with
  | nil => exact absurd trivial stops
  | cons offer offers inductionHypothesis =>
      cases offer with
      | none => rfl
      | some row =>
          cases found : layout row.1 with
          | some standing =>
              have holds : layout.Holds row.1 := ⟨standing, found⟩
              rw [List.cons_append, plantOffers_cons_of_holds holds, plantOffers_cons_of_holds holds]
          | none =>
              rw [List.cons_append, plantOffers_cons_of_absent found,
                plantOffers_cons_of_absent found,
                inductionHypothesis fun passes => stops ⟨found, passes⟩]

/-- Rows that are all offered pass if they are fresh. -/
theorem passes_map_some_iff : layout.Passes (rows.map some) ↔ layout.Fresh rows := by
  induction rows generalizing layout with
  | nil => exact iff_of_true trivial (fresh_nil _)
  | cons row rows inductionHypothesis =>
      rw [List.map_cons, Passes, inductionHypothesis, fresh_cons_iff]

theorem plantOffers_map_some (fresh : layout.Fresh rows) :
    layout.plantOffers (rows.map some) = layout.plant rows := by
  induction rows generalizing layout with
  | nil => rfl
  | cons row rows inductionHypothesis =>
      obtain ⟨new, fresh⟩ := fresh_cons_iff.mp fresh
      rw [List.map_cons, plantOffers_cons_of_absent new, inductionHypothesis fresh, plant_cons]

/-- What is placed of some offers are fresh rows. -/
theorem exists_fresh_of_plantOffers (layout : Layout C) (offers : List (Option (Row C))) :
    ∃ rows, layout.Fresh rows ∧ layout.plantOffers offers = layout.plant rows := by
  induction offers generalizing layout with
  | nil => exact ⟨[], fresh_nil _, rfl⟩
  | cons offer offers inductionHypothesis =>
      cases offer with
      | none => exact ⟨[], fresh_nil _, rfl⟩
      | some row =>
          cases found : layout row.1 with
          | some standing =>
              exact ⟨[], fresh_nil _, plantOffers_cons_of_holds ⟨standing, found⟩ offers⟩
          | none =>
              obtain ⟨rows, fresh, planted⟩ := inductionHypothesis (layout.place row.1 row.2)
              refine ⟨row :: rows, fresh_cons_iff.mpr ⟨found, fresh⟩, ?_⟩
              rw [plantOffers_cons_of_absent found, planted, plant_cons]

end Layout

/-! ## Contracts along sequences -/

section Chains

variable {σ ρ : Type}

/-- A kind of contract for edits that put something into a layout, which goes along with sequences: an edit
that does nothing puts nothing there, and one edit after the other puts there what both of them do. If all
that is to be put there passes, then what has been added are fresh rows. -/
structure Chains (contract : ∀ α : Type, Edit σ α → σ → Layout C → List ρ → α → Prop)
    (represents : σ → Layout C → Prop) (passes : Layout C → List ρ → Prop)
    (placed : Layout C → List ρ → Layout C) : Prop where
  nothing : ∀ {α : Type} {state : σ} {layout : Layout C}, represents state layout →
    ∀ value : α, contract α (pure value) state layout [] value
  sequence : ∀ {α β : Type} {state : σ} {layout : Layout C} {rows more : List ρ} {first : Edit σ α}
    {next : α → Edit σ β} {value : α} {result : β}, contract α first state layout rows value →
    (passes layout rows → ∀ middle, represents middle (placed layout rows) →
      contract β (next value) middle (placed layout rows) more result) →
    contract β (first >>= next) state layout (rows ++ more) result
  added : ∀ layout rows, passes layout rows →
    ∃ fresh, layout.Fresh fresh ∧ placed layout rows = layout.plant fresh

namespace Chains

variable {contract : ∀ α : Type, Edit σ α → σ → Layout C → List ρ → α → Prop}
  {represents : σ → Layout C → Prop} {passes : Layout C → List ρ → Prop}
  {placed : Layout C → List ρ → Layout C} {α : Type} {state : σ} {layout : Layout C}

/-- Edits of a list of items put there what belongs to any of them, if each item can be handled as long as
nothing but fresh rows are planted before it. -/
theorem forM (chains : Chains contract represents passes placed) {items : List α}
    {edit : α → Edit σ PUnit} {rows : α → List ρ} (ready : Layout C → α → Prop)
    (step : ∀ item ∈ items, ∀ state layout, represents state layout → ready layout item →
      contract PUnit (edit item) state layout (rows item) ⟨⟩)
    (stable : ∀ item ∈ items, ∀ (layout : Layout C) rows, layout.Fresh rows → ready layout item →
      ready (layout.plant rows) item)
    (represented : represents state layout) (readied : ∀ item ∈ items, ready layout item) :
    contract PUnit (items.forM edit) state layout (items.flatMap rows) ⟨⟩ := by
  induction items generalizing state layout with
  | nil => exact chains.nothing represented _
  | cons item items inductionHypothesis =>
      rw [List.flatMap_cons]
      apply chains.sequence (step item List.mem_cons_self state layout represented
        (readied item List.mem_cons_self))
      intro passed middle represented'
      apply inductionHypothesis (fun other inside => step other (List.mem_cons_of_mem _ inside))
        (fun other inside => stable other (List.mem_cons_of_mem _ inside)) represented'
      intro other inside
      obtain ⟨added, fresh, placed_eq⟩ := chains.added layout (rows item) passed
      rw [placed_eq]
      exact stable other (List.mem_cons_of_mem _ inside) layout added fresh
        (readied other (List.mem_cons_of_mem _ inside))

/-- A depth-first visit puts there what belongs to the items, in pre-order, if that makes what comes after
an item ready. -/
theorem depthFirst (chains : Chains contract represents passes placed) {handle : α → Edit σ (List α)}
    {next : α → List α} {rows : α → List ρ} (reached : α → Prop) (ready : Layout C → α → Prop)
    (step : ∀ item, reached item → ∀ state layout, represents state layout → ready layout item →
      contract (List α) (handle item) state layout (rows item) (next item))
    (closed : ∀ item, reached item → ∀ below ∈ next item, reached below)
    (link : ∀ item, reached item → ∀ below ∈ next item, ∀ layout : Layout C,
      passes layout (rows item) → ready (placed layout (rows item)) below)
    (stable : ∀ item, reached item → ∀ below ∈ next item, ∀ (layout : Layout C) rows,
      layout.Fresh rows → ready layout below → ready (layout.plant rows) below)
    (levels : Nat) (item : α) (start : reached item) (represented : represents state layout)
    (readied : ready layout item) :
    contract PUnit (VersionedTrees.depthFirst handle levels item) state layout
      ((preorder next levels item).flatMap rows) ⟨⟩ := by
  induction levels generalizing item state layout with
  | zero => exact chains.nothing represented _
  | succ levels inductionHypothesis =>
      rw [preorder, List.flatMap_cons, List.flatMap_assoc]
      apply chains.sequence (step item start state layout represented readied)
      intro passed middle represented'
      apply chains.forM ready _ (stable item start) represented'
        fun below inside => link item start below inside layout passed
      intro below inside state layout represented readied
      exact inductionHypothesis below (closed item start below inside) represented readied

end Chains

end Chains

/-! ## Edits that plant rows -/

section Plants

variable {σ α β : Type} {represents : σ → Layout C → Prop} {guarded : Prop} {state : σ}
  {layout : Layout C} {rows more : List (Layout.Row C)}

/-- An edit that is given fresh rows succeeds with a value and leaves the rows placed. If it is
guarded, it finds a fault of the delta in rows that are not fresh. -/
structure Plants (represents : σ → Layout C → Prop) (guarded : Prop) (edit : Edit σ α) (state : σ)
    (layout : Layout C) (rows : List (Layout.Row C)) (value : α) : Prop where
  places : layout.Fresh rows →
    ∃ after, edit.effect state = (.ok value, after) ∧ represents after (layout.plant rows)
  rejects : guarded → ¬ layout.Fresh rows →
    ∃ fault after, edit.effect state = (.error (.delta fault), after)

/-- The contract depends on the effect alone. -/
theorem Plants.congr {edit other : Edit σ α} {state' : σ} {value : α}
    (planted : Plants represents guarded other state' layout rows value)
    (same : edit.effect state = other.effect state') :
    Plants represents guarded edit state layout rows value := by
  constructor
  · rw [same]
    exact planted.places
  · rw [same]
    exact planted.rejects

/-- An edit that succeeds with rows that are fresh. -/
theorem Plants.of_ok {edit : Edit σ α} {after : σ} {value : α} (fresh : layout.Fresh rows)
    (ok : edit.effect state = (.ok value, after))
    (represented : represents after (layout.plant rows)) :
    Plants represents guarded edit state layout rows value :=
  ⟨fun _ => ⟨after, ok, represented⟩, fun _ stale => absurd fresh stale⟩

theorem plants_pure (represented : represents state layout) (value : α) :
    Plants represents guarded (pure value) state layout [] value :=
  .of_ok (Layout.fresh_nil _) rfl represented

/-- One after the other, two edits plant the rows of both. -/
theorem Plants.bind {first : Edit σ α} {next : α → Edit σ β} {value : α} {result : β}
    (planted : Plants represents guarded first state layout rows value)
    (rest : layout.Fresh rows → ∀ middle, represents middle (layout.plant rows) →
      Plants represents guarded (next value) middle (layout.plant rows) more result) :
    Plants represents guarded (first >>= next) state layout (rows ++ more) result := by
  constructor
  · intro fresh
    obtain ⟨fresh, fresh'⟩ := Layout.fresh_append_iff.mp fresh
    obtain ⟨middle, ok, represented⟩ := planted.places fresh
    obtain ⟨after, ok', represented'⟩ := (rest fresh middle represented).places fresh'
    refine ⟨after, (Edit.effect_bind_of_ok ok).trans ok', ?_⟩
    rwa [Layout.plant_append]
  · intro guards stale
    by_cases fresh : layout.Fresh rows
    · obtain ⟨middle, ok, represented⟩ := planted.places fresh
      obtain ⟨fault, after, failed⟩ := (rest fresh middle represented).rejects guards
        fun fresh' => stale (Layout.fresh_append_iff.mpr ⟨fresh, fresh'⟩)
      exact ⟨fault, after, (Edit.effect_bind_of_ok ok).trans failed⟩
    · obtain ⟨fault, after, failed⟩ := planted.rejects guards fresh
      exact ⟨fault, after, Edit.effect_bind_of_error failed⟩

/-- The first of the rows is required to be new. -/
theorem Plants.of_required {required : Edit σ Unit} {next : Unit → Edit σ β} {row : Layout.Row C}
    {result : β}
    (passes : layout row.1 = none → required.effect state = (.ok (), state))
    (fails : layout.Holds row.1 →
      ∃ fault, required.effect state = (.error (.delta fault), state))
    (rest : layout row.1 = none →
      Plants represents guarded (next ()) state layout (row :: rows) result) :
    Plants represents guarded (required >>= next) state layout (row :: rows) result := by
  by_cases holds : layout.Holds row.1
  · have stale : ¬ layout.Fresh (row :: rows) := fun fresh =>
      Layout.not_holds_iff.mpr (Layout.fresh_cons_iff.mp fresh).1 holds
    obtain ⟨fault, failed⟩ := fails holds
    exact ⟨fun fresh => absurd fresh stale,
      fun _ _ => ⟨fault, state, Edit.effect_bind_of_error failed⟩⟩
  · have new := Layout.not_holds_iff.mp holds
    exact (rest new).congr (Edit.effect_bind_of_ok (passes new))

/-- Contracts of edits that plant rows go along with sequences. -/
theorem chains_plants : Chains (fun _ => Plants represents guarded) represents Layout.Fresh
    (Layout.plant (C := C)) :=
  ⟨plants_pure, Plants.bind, fun _ rows fresh => ⟨rows, fresh, rfl⟩⟩

/-- A depth-first visit in which the nodes of an item stand below a row of the item it follows. -/
theorem plants_descending {handle : α → Edit σ (List α)} {next : α → List α}
    {rows : α → List (Layout.Row C)} (above : α → Option Key) (reached : α → Prop)
    (step : ∀ item, reached item → ∀ state layout, represents state layout →
      layout.Room (above item) →
        Plants represents guarded (handle item) state layout (rows item) (next item))
    (closed : ∀ item, reached item → ∀ below ∈ next item, reached below)
    (link : ∀ item, reached item → ∀ below ∈ next item,
      ∃ row ∈ rows item, above below = some row.1)
    (levels : Nat) (item : α) (start : reached item) (represented : represents state layout)
    (room : layout.Room (above item)) :
    Plants represents guarded (depthFirst handle levels item) state layout
      ((preorder next levels item).flatMap rows) ⟨⟩ := by
  refine chains_plants.depthFirst reached (fun layout item => layout.Room (above item)) step closed
    ?_ ?_ levels item start represented room
  · intro item reached below inside layout fresh
    obtain ⟨row, among, same⟩ := link item reached below inside
    rw [same]
    exact Layout.room_plant fresh among
  · intro item reached below inside layout rows fresh room
    obtain ⟨row, among, same⟩ := link item reached below inside
    rw [same] at room ⊢
    exact room.plant fresh

end Plants

/-! ## Edits that plant offers -/

section Heeds

variable {σ α β : Type} {represents : σ → Layout C → Prop} {state : σ} {layout : Layout C}
  {offers more : List (Option (Layout.Row C))} {rows : List (Layout.Row C)}

/-- An edit that is given offers succeeds with a value if all of them pass, and otherwise stops at the
first that does not. Either way the offers up to there are placed. If none is withheld, then what makes
it stop is a fault of the delta. -/
structure Heeds (represents : σ → Layout C → Prop) (edit : Edit σ α) (state : σ) (layout : Layout C)
    (offers : List (Option (Layout.Row C))) (value : α) : Prop where
  passes : layout.Passes offers →
    ∃ after, edit.effect state = (.ok value, after) ∧ represents after (layout.plantOffers offers)
  stops : ¬ layout.Passes offers → ∃ error after, edit.effect state = (.error error, after) ∧
    represents after (layout.plantOffers offers) ∧ (none ∉ offers → ∃ fault, error = .delta fault)

/-- The contract depends on the effect alone. -/
theorem Heeds.congr {edit other : Edit σ α} {state' : σ} {value : α}
    (heeded : Heeds represents other state' layout offers value)
    (same : edit.effect state = other.effect state') :
    Heeds represents edit state layout offers value := by
  constructor
  · rw [same]
    exact heeded.passes
  · rw [same]
    exact heeded.stops

/-- An edit that heeds rows that are all offered plants them, guarded. -/
theorem Heeds.plants {edit : Edit σ α} {value : α} {guarded : Prop}
    (heeded : Heeds represents edit state layout (rows.map some) value) :
    Plants represents guarded edit state layout rows value := by
  constructor
  · intro fresh
    rw [← Layout.plantOffers_map_some fresh]
    exact heeded.passes (Layout.passes_map_some_iff.mpr fresh)
  · intro _ stale
    obtain ⟨error, after, failed, -, faulty⟩ :=
      heeded.stops (mt Layout.passes_map_some_iff.mp stale)
    obtain ⟨fault, rfl⟩ := faulty (by simp)
    exact ⟨fault, after, failed⟩

/-- An edit that succeeds with offers that pass. -/
theorem Heeds.of_ok {edit : Edit σ α} {after : σ} {value : α} (passes : layout.Passes offers)
    (ok : edit.effect state = (.ok value, after))
    (represented : represents after (layout.plantOffers offers)) :
    Heeds represents edit state layout offers value :=
  ⟨fun _ => ⟨after, ok, represented⟩, fun stops => absurd passes stops⟩

theorem heeds_pure (represented : represents state layout) (value : α) :
    Heeds represents (pure value) state layout [] value :=
  .of_ok trivial rfl represented

/-- An edit that fails at once withholds everything. -/
theorem Heeds.withheld {edit : Edit σ α} {error : TreeError} (value : α)
    (represented : represents state layout) (failed : edit.effect state = (.error error, state)) :
    Heeds represents edit state layout (none :: offers) value :=
  ⟨False.elim, fun _ => ⟨error, state, failed, represented,
    fun offered => absurd List.mem_cons_self offered⟩⟩

/-- An edit that fails at once since a key is taken finds a fault of the delta. -/
theorem Heeds.repeated {edit : Edit σ α} {row : Layout.Row C} {fault : DeltaFault} (value : α)
    (represented : represents state layout) (holds : layout.Holds row.1)
    (failed : edit.effect state = (.error (.delta fault), state)) :
    Heeds represents edit state layout (some row :: offers) value := by
  refine ⟨fun passes => absurd passes (Layout.not_passes_of_holds holds), fun _ => ?_⟩
  rw [Layout.plantOffers_cons_of_holds holds]
  exact ⟨.delta fault, state, failed, represented, fun _ => ⟨fault, rfl⟩⟩

/-- One after the other, two edits heed the offers of both. -/
theorem Heeds.bind {first : Edit σ α} {next : α → Edit σ β} {value : α} {result : β}
    (heeded : Heeds represents first state layout offers value)
    (rest : layout.Passes offers → ∀ middle, represents middle (layout.plantOffers offers) →
      Heeds represents (next value) middle (layout.plantOffers offers) more result) :
    Heeds represents (first >>= next) state layout (offers ++ more) result := by
  constructor
  · intro passes
    obtain ⟨passes, passes'⟩ := Layout.passes_append_iff.mp passes
    obtain ⟨middle, ok, represented⟩ := heeded.passes passes
    obtain ⟨after, ok', represented'⟩ := (rest passes middle represented).passes passes'
    refine ⟨after, (Edit.effect_bind_of_ok ok).trans ok', ?_⟩
    rwa [Layout.plantOffers_append passes]
  · intro stops
    by_cases passes : layout.Passes offers
    · obtain ⟨middle, ok, represented⟩ := heeded.passes passes
      obtain ⟨error, after, failed, represented', faulty⟩ := (rest passes middle represented).stops
        fun passes' => stops (Layout.passes_append_iff.mpr ⟨passes, passes'⟩)
      refine ⟨error, after, (Edit.effect_bind_of_ok ok).trans failed, ?_, fun offered => ?_⟩
      · rwa [Layout.plantOffers_append passes]
      · exact faulty fun inside => offered (List.mem_append_right _ inside)
    · obtain ⟨error, after, failed, represented, faulty⟩ := heeded.stops passes
      refine ⟨error, after, Edit.effect_bind_of_error failed, ?_, fun offered => ?_⟩
      · rwa [Layout.plantOffers_append_of_not_passes passes]
      · exact faulty fun inside => offered (List.mem_append_left _ inside)

/-- Contracts of edits that plant offers go along with sequences. -/
theorem chains_heeds : Chains (fun _ => Heeds represents) represents Layout.Passes
    (Layout.plantOffers (C := C)) :=
  ⟨heeds_pure, Heeds.bind, fun layout offers _ => layout.exists_fresh_of_plantOffers offers⟩

end Heeds

end VersionedTrees
