import VersionedTrees.Proofs.Donors.Expanded
import VersionedTrees.Proofs.Donors.Structural
import VersionedTrees.Proofs.Donors.Sustained

/-!
# Normalizing keeps what a tree stands for

Every node of a normalized tree stands for the subtree that the same node of the original tree stands for
(`Normalized.sustains_structural`): a subtree that was found is the subtree of a donor, a tree-reference is
kept, and otherwise the content is the same and the children are. To expand a tree is to build what its root
stands for, so the normalized tree and the original expand to the same tree.
-/

namespace VersionedTrees

variable {C : Type} [Content C]

namespace Normalized

section Standing

variable {stores : List (Store C)} {target store : Store C} {id : TreeId} {site : Site C}
  {subtree : Subtree C} {reference : Reference}

/-- A reference to a subtree that was found stands for this subtree. -/
theorem describes_of_firstSubtree? (wellFormed : ∀ store ∈ stores, store.WellFormed)
    {other : Site C} (describes : Describes stores other subtree)
    (found : firstSubtree? stores other = some reference)
    (there : site.payload? = some (.treeReference reference)) : Describes stores site subtree := by
  obtain ⟨donor, first, rfl⟩ := Option.map_eq_some_iff.mp found
  have accepted := List.find?_some first
  obtain ⟨plain, same, describes'⟩ := (Option.any_eq_true _ _).mp accepted
  obtain rfl := describes.unique (of_decide_eq_true describes')
  exact Donors.describes_of_plain? wellFormed (List.mem_of_find?_eq_some first) same there

/-- A node becomes a reference to a subtree that was found, stays a tree-reference, or lends its content and
keeps what is below it. -/
theorem sustains_structural (wellFormed : ∀ store ∈ stores, store.WellFormed) (target : Store C) :
    Sustains stores target (structural stores target) (fun subtree => subtree) where
  congr value forest forest' same := congrArg (Subtree.mk value) (Forest.told_id_injective same)
  step key held subtree found describes := by
    obtain ⟨above, payload⟩ := held
    have before : Site.payload? ⟨target, key⟩ = some payload := Store.payload?_of_layout found
    unfold structural
    rw [describes.1]
    cases matched : firstSubtree? stores ⟨target, key⟩ with
    | some reference =>
        exact .reference fun site there =>
          ⟨subtree, describes_of_firstSubtree? wellFormed describes matched there, rfl⟩
    | none =>
        cases payload with
        | treeReference reference =>
            exact .reference fun site there => ⟨subtree, (describes_of_treeReference there).mpr
              ((describes_of_treeReference before).mp describes), rfl⟩
        | content _ | nodeReference _ =>
            cases first : firstContent? stores ⟨target, key⟩ with
            | none => exact .content rfl rfl rfl
            | some reference =>
                exact .content rfl rfl ((lent_of_firstContent? wellFormed first).trans describes.1)

/-- The root of a restated store stands for what it stood for. -/
theorem describes_root_of_builds (wellFormed : ∀ store ∈ target :: stores, store.WellFormed)
    (builds : store.Builds id
      (Layout.plant (fun _ => none) (rowsBy (structural stores target) target)))
    {root : Key} (isRoot : target.root = some root)
    (describes : Describes stores ⟨target, root⟩ subtree) : Describes stores ⟨store, root⟩ subtree := by
  obtain ⟨wellFormedTarget, wellFormed⟩ := List.forall_mem_cons.mp wellFormed
  obtain ⟨payload, found⟩ := (wellFormedTarget.root root).mp isRoot
  have inside := mem_rowsBy_of_root wellFormedTarget (structural stores target) isRoot found
  obtain ⟨restated, describes', rfl, -⟩ := (sustains_structural wellFormed target).exists_describes
    wellFormedTarget builds found inside describes
  exact describes'

end Standing

section Expanding

variable {stores : List (Store C)} {target : Store C} {normalized : Normalized C}

/-- A normalized tree and the tree that was normalized expand to the same rows, and without references these
are the rows of the tree. -/
theorem exists_expandsTo_of_normalize (comparable : Comparable stores target)
    (allContent : ∀ store ∈ stores, store.AllContent)
    (ok : ((Donors.ofStores stores).normalize [target.tree]).result = .ok [normalized]) :
    ∃ rows, Donors.ExpandsTo stores target rows ∧ Donors.ExpandsTo stores normalized.tree rows ∧
      (target.AllContent → rows = target.rows) := by
  have wellFormed := comparable.wellFormed
  obtain ⟨wellFormedTarget, wellFormedDonors⟩ := List.forall_mem_cons.mp wellFormed
  obtain ⟨builds, -⟩ := restates_of_normalize comparable ok
  have root_eq := root_of_builds wellFormedTarget builds
  cases isRoot : target.root with
  | none =>
      rw [isRoot] at root_eq
      refine ⟨[], Donors.expandsTo_of_no_root isRoot, Donors.expandsTo_of_no_root root_eq, fun _ => ?_⟩
      rw [Store.rows, isRoot, Option.elim_none]
  | some root =>
      rw [isRoot] at root_eq
      have holds := ((wellFormedTarget.root root).mp isRoot).holds
      obtain ⟨subtree, describes⟩ := exists_describes_of_normalize wellFormed ok holds
      have describes' := describes_root_of_builds wellFormed builds isRoot describes
      have wellFormed' : ∀ store ∈ normalized.tree :: stores, store.WellFormed :=
        List.forall_mem_cons.mpr ⟨builds.wellFormed, wellFormedDonors⟩
      refine ⟨subtree.rows root none,
        Donors.expandsTo_of_describes wellFormed allContent isRoot describes,
        Donors.expandsTo_of_describes wellFormed' allContent root_eq describes', fun plain => ?_⟩
      exact Donors.rows_of_describes_root wellFormedTarget plain isRoot describes

/-- A normalized tree expands to what the tree that was normalized expands to. A tree without references is
given back. -/
theorem expand_normalize (reachable : ∀ store ∈ target :: stores, store.Reachable)
    (keysFit : ∀ store ∈ target :: stores, store.KeysFit) (faithful : Content.Faithful C)
    (apart : ∀ left right, Hashed stores target left → Hashed stores target right →
      Digest.of left = Digest.of right → left = right)
    (allContent : ∀ store ∈ stores, store.AllContent)
    (ok : ((Donors.ofStores stores).normalize [target.tree]).result = .ok [normalized]) :
    (∀ expanded, ((Donors.ofStores stores).expand target.tree).result = .ok expanded →
      ∃ again, ((Donors.ofStores stores).expand normalized.tree.tree).result = .ok again ∧
        again.id = expanded.id ∧ again.tree.SameReads expanded.tree) ∧
    (target.AllContent →
      ∃ again, ((Donors.ofStores stores).expand normalized.tree.tree).result = .ok again ∧
        again.id = target.id ∧ again.tree.SameReads target.tree) := by
  have comparable : Comparable stores target :=
    ⟨faithful, fun store inside => (reachable store inside).wellFormed, keysFit, apart⟩
  obtain ⟨rows, expands, expands', same⟩ := exists_expandsTo_of_normalize comparable allContent ok
  have sameId : normalized.tree.id = target.id := (restates_of_normalize comparable ok).builds.id_eq
  constructor
  · intro expanded told
    obtain ⟨fresh, builds⟩ := expands.builds told
    obtain ⟨again, ok', builds'⟩ := expands'.of_fresh fresh
    refine ⟨again, ok', (builds'.id_eq.trans sameId).trans builds.id_eq.symm, ?_⟩
    have shows := builds'.wellFormed.shows
    rw [builds'.layout_eq, ← builds.layout_eq] at shows
    exact shows.sameReads builds.wellFormed.shows
  · intro plain
    have wellFormed := comparable.wellFormed target List.mem_cons_self
    obtain rfl := same plain
    obtain ⟨again, ok', builds'⟩ :=
      expands'.of_fresh (Layout.fresh_empty_iff.mpr wellFormed.nodup_rows)
    refine ⟨again, ok', builds'.id_eq.trans sameId, ?_⟩
    have shows := builds'.wellFormed.shows
    rw [builds'.layout_eq, wellFormed.plant_rows] at shows
    exact shows.sameReads wellFormed.shows

end Expanding

/-- A tree with references to nodes of a chain, and with content that the chain has. -/
def chainBorrower : Store String :=
  .ofEdits ⟨2⟩ [.insert none (.exactly (.number 10)) (.content "own"),
    .insert (some (.number 10)) (.exactly (.number 11)) (.treeReference ⟨⟨1⟩, .number 2⟩),
    .insert (some (.number 10)) (.exactly (.number 12)) (.nodeReference ⟨⟨1⟩, .number 3⟩),
    .insert (some (.number 10)) (.exactly (.number 13)) (.content "root")]

/-- What the nodes of the chain and of the tree stand for. -/
def chainBorrowed : List (Subtree String) :=
  let leaf : Forest String := .cons (.number 3) "leaf" .nil .nil
  [⟨"leaf", .nil⟩, ⟨"middle", leaf⟩, ⟨"root", .cons (.number 2) "middle" leaf .nil⟩, ⟨"root", .nil⟩,
    ⟨"own", .cons (.number 11) "middle" leaf (.cons (.number 12) "leaf" .nil
      (.cons (.number 13) "root" .nil .nil))⟩]

/-- The tree becomes a content of its own with three references, and expands to what it expanded to. The chain
becomes one reference and is given back. -/
theorem expand_normalize_chainBorrower :
    (∀ store ∈ [chainBorrower, .chain], store.Reachable) ∧
      (∀ store ∈ [chainBorrower, .chain], store.KeysFit) ∧ Content.Faithful String ∧
      (∀ target ∈ [chainBorrower, .chain], ∀ left right, Hashed [.chain] target left →
        Hashed [.chain] target right → Digest.of left = Digest.of right → left = right) ∧
      (∀ store ∈ [Store.chain], store.AllContent) ∧
      (∃ normalized expanded again,
        ((Donors.ofStores [.chain]).normalize [chainBorrower.tree]).result = .ok [normalized] ∧
        normalized.references.toList = [.number 11, .number 12, .number 13] ∧
        ((Donors.ofStores [.chain]).expand chainBorrower.tree).result = .ok expanded ∧
        expanded.tree.keys.result =
          .ok [.number 10, .number 11, .number 3, .number 12, .number 13] ∧
        ((Donors.ofStores [.chain]).expand normalized.tree.tree).result = .ok again ∧
        again.id = expanded.id ∧ again.tree.SameReads expanded.tree) ∧
      ∃ normalized again,
        ((Donors.ofStores [.chain]).normalize [Store.chain.tree]).result = .ok [normalized] ∧
        normalized.references.toList = [.number 1] ∧
        ((Donors.ofStores [.chain]).expand normalized.tree.tree).result = .ok again ∧
        again.id = Store.chain.id ∧ again.tree.SameReads Store.chain.tree := by
  have reachable : ∀ store ∈ [chainBorrower, .chain], store.Reachable := by
    intro store inside
    simp only [List.mem_cons, List.not_mem_nil, or_false] at inside
    rcases inside with rfl | rfl <;> exact Store.reachable_ofEdits _ _
  have fits : ∀ store ∈ [chainBorrower, .chain], ∀ key ∈ store.keys, key.Fits := by decide +kernel
  have keysFit : ∀ store ∈ [chainBorrower, .chain], store.KeysFit :=
    fun store inside key holds => fits store inside key (Store.mem_keys_iff.mpr holds)
  have allContent : ∀ store ∈ [Store.chain], store.AllContent := by
    intro store inside
    obtain rfl := List.mem_singleton.mp inside
    exact Store.allContent_chain
  -- either of the two is a target, with the chain as the donor
  have among : ∀ target ∈ [chainBorrower, .chain], ∀ store ∈ [target, .chain],
      store ∈ [chainBorrower, .chain] := by
    intro target inside store
    rw [List.mem_cons, List.mem_singleton]
    rintro (rfl | rfl)
    · exact inside
    · exact List.mem_cons_of_mem _ List.mem_cons_self
  have described : ∀ target ∈ [chainBorrower, .chain],
      ∀ site ∈ target.sites ++ Donors.sites [Store.chain],
        ∃ subtree ∈ chainBorrowed, Describes [.chain] site subtree := by decide +kernel
  have apart : ∀ target ∈ [chainBorrower, .chain], ∀ left right, Hashed [.chain] target left →
      Hashed [.chain] target right → Digest.of left = Digest.of right → left = right := by
    intro target inside
    exact apart_of_described (fun store inside' =>
      (reachable store (among target inside store inside')).wellFormed) (described target inside)
      (by decide +kernel)
  refine ⟨reachable, keysFit, Content.faithful_string, apart, allContent, ?_, ?_⟩
  · have succeeds : (do
        let restated ← (Donors.ofStores [.chain]).normalize [chainBorrower.tree]
        return restated.map (·.references.toList) : Read (List (List Key))).result =
          .ok [[.number 11, .number 12, .number 13]] := by decide +kernel
    obtain ⟨restated, ok, references⟩ := Read.result_bind_eq_ok succeeds
    obtain ⟨normalized, rfl, noted⟩ := List.map_eq_singleton_iff.mp (Except.ok.inj references)
    have whole : (do
        let expanded ← (Donors.ofStores [.chain]).expand chainBorrower.tree
        expanded.tree.keys : Read (List Key)).result =
          .ok [.number 10, .number 11, .number 3, .number 12, .number 13] := by decide +kernel
    obtain ⟨expanded, expands, keys⟩ := Read.result_bind_eq_ok whole
    obtain ⟨again, expands', sameId, sameReads⟩ := (expand_normalize reachable keysFit
      Content.faithful_string (apart _ List.mem_cons_self) allContent ok).1 expanded expands
    exact ⟨normalized, expanded, again, ok, noted, expands, keys, expands', sameId, sameReads⟩
  · have succeeds : (do
        let restated ← (Donors.ofStores [.chain]).normalize [Store.chain.tree]
        return restated.map (·.references.toList) : Read (List (List Key))).result =
          .ok [[.number 1]] := by decide +kernel
    obtain ⟨restated, ok, references⟩ := Read.result_bind_eq_ok succeeds
    obtain ⟨normalized, rfl, noted⟩ := List.map_eq_singleton_iff.mp (Except.ok.inj references)
    have inside : Store.chain ∈ [chainBorrower, .chain] :=
      List.mem_cons_of_mem _ List.mem_cons_self
    obtain ⟨again, expands, sameId, sameReads⟩ := (expand_normalize
      (fun store inside' => reachable store (among _ inside store inside'))
      (fun store inside' => keysFit store (among _ inside store inside'))
      Content.faithful_string (apart _ inside) allContent ok).2 Store.allContent_chain
    exact ⟨normalized, again, ok, noted, expands, sameId, sameReads⟩

end Normalized

end VersionedTrees
