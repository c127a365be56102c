import VersionedTrees.Proofs.Store.Reachable
import VersionedTrees.Proofs.View.Failures

/-!
# What a trap changes

A trap is for failed resolutions alone. Where a view without a trap fails for an unresolved reference,
the same view with a trap tells the trap of it, once, and reads the value as absent; everything else
it reads as before (`Merged.Absorbed`). The children of a front node are those that can be located,
and the trap is told of each of the others. No question is then answered by an unresolved reference
(`Merged.NeverUnresolved`), and all of this is `Merged.trap_changes_failures_only`.
-/

namespace VersionedTrees

variable {C α β : Type}

/-- The target of a front tree-reference, if it leads to no node of the back. -/
def Store.dangling? (front back : Store C) (key : Key) : Option Reference :=
  match front.payload? key with
  | some (.treeReference reference) =>
    if reference.tree = back.id ∧ back.contains reference.key then none else some reference
  | _ => none

namespace Merged

/-! ## One read -/

/-- A read without a trap, and the same read with one. -/
inductive Absorbed (trap : Trap) : Read (Option α) → Read (Option α) → Prop where
  /-- The trap is told of nothing. -/
  | quiet {read : Read (Option α)} (silent : read.Silent)
      (resolved : read.Avoids .unresolvedReference) : Absorbed trap read read
  /-- The trap takes the failure. -/
  | caught (reference : Reference) : Absorbed trap (Read.fail (.unresolved reference))
      ⟨[trap.caught (.unresolved reference)], .ok none⟩

namespace Absorbed

variable {trap : Trap} {plain trapped : Read (Option α)}

/-- What is made of the value does not matter to the trap. -/
theorem map (absorbed : Absorbed trap plain trapped) (change : α → β) :
    Absorbed trap (do return (← plain).map change) (do return (← trapped).map change) := by
  cases absorbed with
  | quiet silent resolved =>
      exact .quiet (silent.bind fun _ _ => Read.silent_pure _)
        (resolved.bind fun _ _ => Read.avoids_pure _)
  | caught reference => exact .caught reference

/-- A condition that is checked before does not concern the trap. -/
theorem require (absorbed : Absorbed trap plain trapped) (condition : Bool) {error : TreeError}
    (other : error.kind ≠ .unresolvedReference) :
    Absorbed trap (Read.require condition error >>= fun _ => plain)
      (Read.require condition error >>= fun _ => trapped) := by
  cases condition with
  | true => exact absorbed
  | false => exact .quiet rfl (Read.avoids_of_error rfl other)

end Absorbed

variable {view : Merged C} {trap : Trap}

/-- A trap takes over a failed resolution and nothing else. -/
theorem absorbed_trapped (some : view.trap = some trap) {read : Read (Option α)}
    (silent : read.Silent) : Absorbed trap read (view.trapped read) := by
  obtain ⟨events, result⟩ := read
  obtain rfl : events = [] := silent
  rw [trapped, some]
  cases result with
  | ok value => exact .quiet rfl (Read.avoids_of_ok rfl)
  | error error =>
      cases error with
      | unresolved reference => exact .caught reference
      | nodeNotFound | staleHandle | treeUnavailable | delta | shape | noPosition |
          suppliesExhausted =>
          exact .quiet rfl (Read.avoids_of_error rfl fun same => by cases same)
      | path fault =>
          exact .quiet rfl (Read.avoids_of_error rfl fun same => by cases fault <;> cases same)

section Silent

variable (front : view.front.Silent) (back : view.back.Silent)
include front back

/-- To get a node with a trap is to get it without one, but for the failures that the trap takes. -/
theorem absorbed_get (some : view.trap = some trap) (key : Key) :
    Absorbed trap ({ view with trap := none }.get key) (view.get key) := by
  have silent : (view.locate key).Silent :=
    Read.composes_silent.locate (fun _ _ => Read.silent_fail _ _) back.contains (front.node key)
  have absorbed := absorbed_trapped some silent
  have same : { view with trap := none }.locate key = view.locate key := rfl
  rw [get, get, trapped_of_none rfl, same]
  exact absorbed.map _

/-- To read content with a trap is to read it without one, but for the failures that the trap takes. -/
theorem absorbed_content (some : view.trap = some trap) (handle : Handle) :
    Absorbed trap ({ view with trap := none }.content handle) (view.content handle) := by
  rw [content, content, trapped_of_none rfl]
  refine Absorbed.require ?_ _ nofun
  refine absorbed_trapped some ?_
  cases handle.side with
  | front =>
      exact Read.composes_silent.frontContent (fun _ _ => Read.silent_fail _ _) back.contains
        (front.payload handle.key) back.node
  | back key =>
      exact Read.composes_silent.backContent (fun _ _ => Read.silent_fail _ _) (back.payload key)

end Silent

/-! ## Views over stores -/

/-- The handle that a view gives for a key, if it gives one. -/
def shown? (view : Merged C) (key : Key) : Option Handle :=
  match (view.get key).result with
  | .ok handle => handle
  | .error _ => none

section Stores

variable (front back : Store C) (keys : KeyMap) (hidden : KeySet) (settings : ViewSettings)

/-- A reference into a store leads to a node of it or fails, and nothing is reported. -/
theorem backingTarget_eq (tree : Tree C) (trap : Option Trap) (reference : Reference) :
    (Merged.mk tree back.tree keys hidden settings trap).backingTarget reference =
      if reference.tree = back.id ∧ back.contains reference.key then pure reference.key
      else Read.fail (.unresolved reference) := by
  change (Read.require (decide (reference.tree = back.id)) _ >>= fun _ =>
    Read.require (back.contains reference.key) _ >>= fun _ => pure reference.key) = _
  by_cases same : reference.tree = back.id
  · cases there : back.contains reference.key <;> simp only [same, decide_true] <;> rfl
  · rw [decide_eq_false same, if_neg fun leads => same leads.1]
    rfl

/-- A key cannot be located exactly if there is a dangling tree-reference under it. -/
theorem locate_cases (trap : Option Trap) (key : Key) :
    (∃ reference, front.dangling? back key = some reference ∧
      (Merged.mk front.tree back.tree keys hidden settings trap).locate key =
        Read.fail (.unresolved reference)) ∨
    (front.dangling? back key = none ∧ ∃ side,
      (Merged.mk front.tree back.tree keys hidden settings trap).locate key = pure side) := by
  have node : front.tree.node key = pure ((front.payload? key).map (⟨key, ·⟩)) := rfl
  rw [Store.dangling?, locate, node, pure_bind]
  cases front.payload? key with
  | none =>
      refine .inr ⟨rfl, ?_⟩
      simp only [Option.map_none]
      cases keys.back? key with
      | none => exact ⟨none, rfl⟩
      | some other =>
          have contains : back.tree.contains other = pure (back.contains other) := rfl
          simp only [contains, pure_bind]
          split
          · exact ⟨none, rfl⟩
          · cases back.contains other with
            | true => exact ⟨_, rfl⟩
            | false => exact ⟨_, rfl⟩
  | some payload =>
      cases payload with
      | content value | nodeReference reference => exact .inr ⟨rfl, _, rfl⟩
      | treeReference reference =>
          simp only [Option.map_some, backingTarget_eq]
          by_cases leads : reference.tree = back.id ∧ back.contains reference.key
          · rw [if_pos leads, if_pos leads]
            exact .inr ⟨rfl, _, rfl⟩
          · rw [if_neg leads, if_neg leads]
            exact .inl ⟨reference, rfl, rfl⟩

/-- What a trap is told of some front keys. -/
def springs (front back : Store C) (trap : Trap) (keys : List Key) : List Event :=
  (keys.filterMap (front.dangling? back)).map fun reference => trap.caught (.unresolved reference)

/-- With a trap every key is located or absent, and the trap is told of a dangling tree-reference. -/
theorem exists_trapped_locate (trap : Trap) (key : Key) :
    let view := Merged.mk front.tree back.tree keys hidden settings (some trap)
    ∃ side, view.trapped (view.locate key) = ⟨springs front back trap [key], .ok side⟩ ∧
      view.get key = ⟨springs front back trap [key], .ok (side.map (view.handle key))⟩ := by
  intro view
  rw [get]
  rcases locate_cases front back keys hidden settings (some trap) key with
    ⟨reference, dangling, same⟩ | ⟨settled, side, same⟩
  · refine ⟨none, ?_⟩
    rw [same, springs, List.filterMap_cons_some dangling]
    exact ⟨rfl, rfl⟩
  · refine ⟨side, ?_⟩
    rw [same, springs, List.filterMap_cons_none settled]
    exact ⟨rfl, rfl⟩

/-- Of some front keys those are shown that can be got, in order; the trap is told of the others that
are tree-references. -/
theorem frontChildren_eq (trap : Trap) (children : List Key) :
    let view := Merged.mk front.tree back.tree keys hidden settings (some trap)
    view.frontChildren children =
      ⟨springs front back trap children, .ok (children.filterMap view.shown?)⟩ := by
  intro view
  induction children with
  | nil => rfl
  | cons key children inductionHypothesis =>
      obtain ⟨side, located, got⟩ := exists_trapped_locate front back keys hidden settings trap key
      have shown : view.shown? key = side.map (view.handle key) := by rw [shown?, got]
      have told : springs front back trap (key :: children) =
          springs front back trap [key] ++ springs front back trap children := by
        rw [springs, springs, springs, ← List.map_append, ← List.filterMap_append]
        rfl
      rw [frontChildren, located, inductionHypothesis, told]
      cases side with
      | none =>
          rw [List.filterMap_cons_none shown]
          change (⟨_ ++ (_ ++ []), _⟩ : Read (List Handle)) = _
          rw [List.append_nil]
          rfl
      | some side =>
          rw [List.filterMap_cons_some shown]
          change (⟨_ ++ (_ ++ []), _⟩ : Read (List Handle)) = _
          rw [List.append_nil]
          rfl

/-- The children of a front node that is not stale. -/
theorem childrenOf_front_eq (trap : Trap) {handle : Handle} {children : List Key}
    (side : handle.side = .front) (listed : (front.tree.children handle.key).result = .ok children) :
    let view := Merged.mk front.tree back.tree keys hidden settings (some trap)
    (settings.checkStaleness = true → handle.generation = view.generation) →
    view.childrenOf handle =
      ⟨springs front back trap children, .ok (children.filterMap view.shown?)⟩ := by
  intro view current
  have checked : view.check handle = pure () := by
    have passes : (!settings.checkStaleness || decide (handle.generation = view.generation)) = true := by
      rw [Bool.or_eq_true, Bool.not_eq_true', decide_eq_true_iff]
      cases checks : settings.checkStaleness with
      | false => exact .inl rfl
      | true => exact .inr (current checks)
    change Read.require (!settings.checkStaleness || _) _ = _
    rw [passes]
    rfl
  have told : front.tree.children handle.key = pure children := Read.ext rfl listed
  rw [childrenOf, checked, pure_bind, side]
  simp only
  rw [told, pure_bind]
  exact frontChildren_eq front back keys hidden settings trap children

end Stores

/-! ## Failures that do not come through -/

/-- No question about a view or one of its handles is answered by an unresolved reference. -/
structure NeverUnresolved (view : Merged C) : Prop where
  get : ∀ key, (view.get key).Avoids .unresolvedReference
  getRoot : view.getRoot.Avoids .unresolvedReference
  keyOf : ∀ handle, (view.keyOf handle).Avoids .unresolvedReference
  content : ∀ handle, (view.content handle).Avoids .unresolvedReference
  parentOf : ∀ handle, (view.parentOf handle).Avoids .unresolvedReference
  childrenOf : ∀ handle, (view.childrenOf handle).Avoids .unresolvedReference
  tree : view.tree.Avoids .unresolvedReference

section Trap

variable (held : view.trap = some trap)

/-- A trap takes every failed resolution. -/
theorem resolved_trapped (held : view.trap = some trap) (read : Read (Option α)) :
    (view.trapped read).Avoids .unresolvedReference := by
  intro error failed
  rw [Merged.trapped, held] at failed
  split at failed
  · cases failed
  · rename_i other
    intro unresolved
    cases error with
    | unresolved reference => exact other reference _ failed rfl
    | nodeNotFound | staleHandle | treeUnavailable | delta | shape | noPosition |
        suppliesExhausted => cases unresolved
    | path fault => cases fault <;> cases unresolved

theorem resolved_check (handle : Handle) : (view.check handle).Avoids .unresolvedReference :=
  (Read.composes_avoids _).require (Read.avoids_of_error rfl (by nofun))

include held

theorem resolved_get (key : Key) : (view.get key).Avoids .unresolvedReference :=
  (Read.composes_avoids _).get (resolved_trapped held _)

theorem resolved_content (handle : Handle) : (view.content handle).Avoids .unresolvedReference :=
  (resolved_check handle).bind fun _ _ => resolved_trapped held _

theorem resolved_materialize (handle : Handle) :
    (view.materialize handle).Avoids .unresolvedReference :=
  (resolved_content held handle).bind fun _ _ => Read.avoids_pure _

theorem resolved_require (key : Key) : (view.require key).Avoids .unresolvedReference :=
  (resolved_get held key).bind fun found _ =>
    (Read.composes_avoids _).orFail (Read.avoids_of_error rfl (by nofun)) found

variable (front : view.front.Avoids .unresolvedReference)
  (back : view.back.Avoids .unresolvedReference)
include front back

theorem resolved_getRoot : view.getRoot.Avoids .unresolvedReference :=
  (Read.composes_avoids _).getRoot front.rootKey back.rootKey (resolved_get held)

theorem resolved_parentOf (handle : Handle) : (view.parentOf handle).Avoids .unresolvedReference := by
  refine (resolved_check handle).bind fun _ _ => ?_
  have above := (Read.composes_avoids _).parentKey handle front.node front.parent back.parent
  refine above.bind fun parent _ => ?_
  cases parent with
  | none => exact Read.avoids_pure _
  | some key => exact resolved_get held key

theorem resolved_childrenOf (handle : Handle) :
    (view.childrenOf handle).Avoids .unresolvedReference := by
  refine (resolved_check handle).bind fun _ _ => ?_
  cases handle.side with
  | front =>
      exact (front.children _).bind fun keys _ =>
        (Read.composes_avoids _).frontChildren (fun _ => resolved_trapped held _) keys
  | back key => exact (back.children key).bind fun _ _ => Read.avoids_pure _

/-- Over trees that do not fail for an unresolved reference, a view with a trap does not either. -/
theorem neverUnresolved : view.NeverUnresolved := by
  have root : view.rootNode.Avoids .unresolvedReference := by
    refine (resolved_getRoot held front back).bind fun found _ => ?_
    cases found with
    | none => exact Read.avoids_pure _
    | some handle => exact resolved_materialize held handle
  have node : ∀ key, (view.tree.node key).Avoids .unresolvedReference := by
    refine fun key => (resolved_get held key).bind fun found _ => ?_
    cases found with
    | none => exact Read.avoids_pure _
    | some handle => exact resolved_materialize held handle
  exact {
    get := resolved_get held
    getRoot := resolved_getRoot held front back
    keyOf := fun handle => (resolved_check handle).bind fun _ _ => Read.avoids_pure _
    content := resolved_content held
    parentOf := resolved_parentOf held front back
    childrenOf := resolved_childrenOf held front back
    tree := {
      root
      rootKey := root.bind fun _ _ => Read.avoids_pure _
      node
      contains := fun key => (resolved_get held key).bind fun _ _ => Read.avoids_pure _
      parent := fun key => (resolved_require held key).bind fun handle _ =>
        (resolved_parentOf held front back handle).bind fun _ _ => Read.avoids_pure _
      children := fun key => (resolved_require held key).bind fun handle _ =>
        (resolved_childrenOf held front back handle).bind fun _ _ => Read.avoids_pure _ } }

end Trap

/-- A view over two stores reads the same with a trap as without one, but for the failed resolutions,
of which the trap is told once each. The children of a front node are those of its front children that
can be got, in order, and the trap is told of the dangling ones among them, in order. No answer is an
unresolved reference any more. -/
theorem trap_changes_failures_only (front back : Store C) (keys : KeyMap) (hidden : KeySet)
    (settings : ViewSettings) (trap : Trap) :
    let plain := Merged.mk front.tree back.tree keys hidden settings none
    let view := Merged.mk front.tree back.tree keys hidden settings (some trap)
    (∀ key, Absorbed trap (plain.get key) (view.get key)) ∧
    (∀ handle, Absorbed trap (plain.content handle) (view.content handle)) ∧
    (∀ handle, handle.side = .front → front.contains handle.key = true →
      (settings.checkStaleness = true → handle.generation = view.generation) →
      ∃ children, (front.tree.children handle.key).result = .ok children ∧
      ∃ shown : Key → Option Handle, (∀ child, (view.get child).result = .ok (shown child)) ∧
        (view.childrenOf handle).result = .ok (children.filterMap shown) ∧
        (view.childrenOf handle).events = (children.filterMap (front.dangling? back)).map
          fun reference => trap.caught (.unresolved reference)) ∧
    view.NeverUnresolved := by
  intro plain view
  have avoids : ∀ store : Store C, store.tree.Avoids .unresolvedReference :=
    fun store => store.avoids nofun
  have held : view.trap = some trap := rfl
  refine ⟨absorbed_get front.silent back.silent held, absorbed_content front.silent back.silent held,
    fun handle side holds current => ?_, neverUnresolved held (avoids front) (avoids back)⟩
  rw [Store.contains_eq_isSome_slot?, Option.isSome_iff_exists] at holds
  obtain ⟨slot, found⟩ := holds
  have listed := Store.result_children_of_slot? found
  have told := childrenOf_front_eq front back keys hidden settings trap side listed current
  refine ⟨_, listed, view.shown?, fun child => ?_, congrArg Read.result told,
    congrArg Read.events told⟩
  obtain ⟨side, -, got⟩ := exists_trapped_locate front back keys hidden settings trap child
  rw [shown?, got]

/-- Insertions of a root with three children: a tree-reference that leads nowhere, one to the middle of
a chain, and a node-reference that leads nowhere. -/
def danglingEdits : List (StoreEdit String) :=
  [.insert none (.exactly (.number 1)) (.content "top"),
    .insert (some (.number 1)) (.exactly (.number 2)) (.treeReference ⟨⟨1⟩, .number 9⟩),
    .insert (some (.number 1)) (.exactly (.number 3)) (.treeReference ⟨⟨1⟩, .number 2⟩),
    .insert (some (.number 1)) (.exactly (.number 4)) (.nodeReference ⟨⟨1⟩, .number 9⟩)]

/-- Of the three children the first is missing, and the trap is told of it. The last one is there: that
its content is not, is found when the content is read. -/
theorem trap_changes_failures_only_dangling :
    let front := Store.ofEdits ⟨5⟩ danglingEdits
    let plain := Merged.mk front.tree Store.chain.tree .identity ∅ {} none
    let view := Merged.mk front.tree Store.chain.tree .identity ∅ {} (some .collect)
    let failed := fun key => Event.trapped (.unresolved ⟨⟨1⟩, .number key⟩)
    front.contains (.number 1) = true ∧
    Absorbed .collect (plain.get (.number 2)) (view.get (.number 2)) ∧
    Absorbed .collect (plain.content (plain.handle (.number 4) .front))
      (view.content (plain.handle (.number 4) .front)) ∧
    (view.childrenOf (view.handle (.number 1) .front)).result =
      .ok [view.handle (.number 3) (.back (.number 2)), view.handle (.number 4) .front] ∧
    (view.childrenOf (view.handle (.number 1) .front)).events = [failed 9] ∧
    view.NeverUnresolved := by
  intro front plain view failed
  have holds : front.contains (.number 1) = true := by decide +kernel
  obtain ⟨get, content, childrenOf, resolved⟩ :=
    trap_changes_failures_only front Store.chain .identity ∅ {} .collect
  obtain ⟨children, listed, shown, got, told, events⟩ :=
    childrenOf (view.handle (.number 1) .front) rfl holds fun _ => rfl
  have three : (front.tree.children (.number 1)).result = .ok [.number 2, .number 3, .number 4] := by
    decide +kernel
  obtain rfl := Except.ok.inj (listed.symm.trans three)
  refine ⟨holds, get _, content _, by decide +kernel, events.trans ?_, resolved⟩
  decide +kernel

end Merged

end VersionedTrees
