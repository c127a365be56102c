import VersionedTrees.Proofs.Digest.Bytes
import VersionedTrees.Proofs.Store.Rows

/-!
# Digests of stores with content

In a store without references every node has a digest of its content and one of its subtree, and
both are functions of the store (`Store.nodeDigest`). The table of digests is computed in reverse
pre-order, so that the digests of children are there when they are needed, and holds these digests
(`Store.WellFormed.yields_ofTree`), in whatever way reads and edits are sequenced.
-/

namespace VersionedTrees

/-- A way to say that a computation yields a value. -/
structure Yields (m : Type → Type) [Monad m] [MonadLiftT Read m] where
  yields : ∀ {α : Type}, m α → α → Prop
  pure : ∀ {α : Type} (value : α), yields (pure value) value
  bind : ∀ {α β : Type} {first : m α} {next : α → m β} {value : α} {result : β},
    yields first value → yields (next value) result → yields (first >>= next) result
  lift : ∀ {α : Type} {read : Read α} {value : α}, read.result = .ok value →
    yields (liftM read) value

/-- A read yields its result. -/
def Read.yields : Yields Read where
  yields read value := read.result = .ok value
  pure _ := rfl
  bind first next := (Read.result_bind_of_ok first).trans next
  lift ok := ok

/-- An edit yields a value if it leaves every state as it is. -/
def Edit.yields (σ : Type) : Yields (Edit σ) where
  yields edit value := ∀ state, edit.effect state = (.ok value, state)
  pure _ _ := rfl
  bind first next state := (Edit.effect_bind_of_ok (first state)).trans (next state)
  lift ok state := by rw [Edit.effect_liftM, ok]

namespace Store

variable {C : Type} [Content C] {store : Store C} {key : Key} {levels more : Nat}

/-- The bytes of the content under a key. -/
def contentBytes (store : Store C) (key : Key) : List UInt8 :=
  match store.payload? key with
  | some (.content value) => Content.bytes value
  | _ => []

/-- The digest of the content under a key. -/
def contentDigest (store : Store C) (key : Key) : Digest :=
  Digest.of (store.contentBytes key)

/-- The digest of a subtree, to a number of levels. -/
def subtreeDigestWithin (store : Store C) : Nat → Key → Digest
  | 0, key => store.contentDigest key
  | levels + 1, key =>
    Digest.of (subtreeBytes (store.contentDigest key)
      ((store.tree.childList key).map fun child => (child, store.subtreeDigestWithin levels child)))

/-- The digest of a subtree. -/
def subtreeDigest (store : Store C) (key : Key) : Digest :=
  store.subtreeDigestWithin store.tree.span key

/-- The bytes that the digest of a subtree is made of. -/
def subtreePreimage (store : Store C) (key : Key) : List UInt8 :=
  subtreeBytes (store.contentDigest key)
    ((store.tree.childList key).map fun child => (child, store.subtreeDigest child))

/-- The digests of a node with content. -/
def nodeDigest (store : Store C) (key : Key) : NodeDigest :=
  ⟨store.contentDigest key, store.subtreeDigest key, true, true⟩

theorem contentBytes_of_layout {above : Option Key} {value : C}
    (found : store.layout key = some ⟨above, .content value⟩) :
    store.contentBytes key = Content.bytes value := by
  rw [contentBytes, payload?_of_layout found]

/-- More levels than suffice change nothing. -/
theorem subtreeDigestWithin_eq (enough : Exhausts store.tree.childList levels key)
    (le : levels ≤ more) : store.subtreeDigestWithin more key = store.subtreeDigestWithin levels key := by
  induction levels generalizing more key with
  | zero => exact enough.elim
  | succ levels inductionHypothesis =>
      obtain ⟨more, rfl⟩ : ∃ rest, more = rest + 1 := ⟨more - 1, by omega⟩
      rw [subtreeDigestWithin, subtreeDigestWithin]
      congr 2
      apply List.map_congr_left
      intro child inside
      rw [inductionHypothesis (enough child inside) (Nat.le_of_succ_le_succ le)]

/-- The digest of a subtree is that of the digests of its parts. -/
theorem WellFormed.subtreeDigest_eq (wellFormed : store.WellFormed)
    (holds : store.layout.Holds key) :
    store.subtreeDigest key = Digest.of (store.subtreePreimage key) := by
  have enough := wellFormed.shows.exhausts holds (Nat.le_refl _)
  rw [subtreeDigest, ← subtreeDigestWithin_eq enough (Nat.le_succ _)]
  rfl

/-! ## The table -/

/-- The digests of keys are added one after the other. -/
def addDigests (store : Store C) (keys : List Key) (nodes : Std.TreeMap Key NodeDigest) :
    Std.TreeMap Key NodeDigest :=
  keys.foldl (fun nodes key => nodes.insert key (store.nodeDigest key)) nodes

theorem getElem?_addDigests (store : Store C) {keys : List Key}
    {nodes : Std.TreeMap Key NodeDigest} :
    (store.addDigests keys nodes)[key]? =
      if key ∈ keys then some (store.nodeDigest key) else nodes[key]? := by
  induction keys generalizing nodes with
  | nil => rfl
  | cons first keys inductionHypothesis =>
      change (store.addDigests keys (nodes.insert first (store.nodeDigest first)))[key]? = _
      rw [inductionHypothesis, Std.TreeMap.getElem?_insert]
      by_cases same : first = key
      · subst same
        simp
      · simp [same, Ne.symm same]

/-- The digests of all nodes of a store with content. -/
def digestTable (store : Store C) : DigestTable :=
  ⟨store.rows.map Prod.fst, store.addDigests (store.rows.map Prod.fst).reverse ∅⟩

theorem WellFormed.getElem?_digestTable (wellFormed : store.WellFormed)
    (holds : store.layout.Holds key) :
    store.digestTable.nodes[key]? = some (store.nodeDigest key) := by
  have inside : key ∈ (store.rows.map Prod.fst).reverse :=
    List.mem_reverse.mpr (wellFormed.mem_map_rows_iff.mpr holds)
  rw [digestTable, getElem?_addDigests, if_pos inside]

section Table

variable {m : Type → Type} [Monad m] [MonadLiftT Read m] (way : Yields m) {donors : Donors C}
  {references : Reference → m Digest} (wellFormed : store.WellFormed)
  (allContent : store.AllContent)

include wellFormed allContent

/-- The digests of a node are yielded once those of its children are there. -/
theorem yields_ofNode (holds : store.layout.Holds key) {nodes : Std.TreeMap Key NodeDigest}
    (below : ∀ child ∈ store.tree.childList key, nodes[child]? = some (store.nodeDigest child)) :
    way.yields (DigestTable.ofNode store.tree donors references nodes key)
      (store.nodeDigest key) := by
  obtain ⟨standing, found⟩ := holds
  obtain ⟨value, content⟩ := allContent.exists_content found
  have payload : (store.tree.payload key).result = .ok (.content value) := by
    rw [← content]
    exact Read.result_bind_of_ok
      ((wellFormed.shows.node key).trans (by rw [found]))
  have childDigests : (DigestTable.childDigests nodes (store.tree.childList key)).result =
      .ok ((store.tree.childList key).map fun child => (child, store.nodeDigest child)) := by
    apply Read.result_mapM
    intro child inside
    rw [below child inside]
    rfl
  have digest : store.contentDigest key = Content.digest value := by
    rw [contentDigest, contentBytes, payload?_of_layout found, content]
    rfl
  have all : ((store.tree.childList key).map fun child => (child, store.nodeDigest child)).all
      (·.2.isExplicit) = true := by
    simp [nodeDigest]
  have told : store.nodeDigest key = ⟨Content.digest value, Digest.of (subtreeBytes
      (Content.digest value) (((store.tree.childList key).map fun child =>
        (child, store.nodeDigest child)).map fun child => (child.1, child.2.subtree))), true,
      true && ((store.tree.childList key).map fun child => (child, store.nodeDigest child)).all
        (·.2.isExplicit)⟩ := by
    rw [nodeDigest, wellFormed.subtreeDigest_eq ⟨_, found⟩, subtreePreimage, digest, all,
      List.map_map]
    rfl
  rw [DigestTable.ofNode, told]
  apply way.bind (way.lift payload)
  apply way.bind (way.lift (show (donors.resolve (.content value)).result = .ok value from rfl))
  apply way.bind (way.lift (wellFormed.shows.result_children ⟨_, found⟩))
  apply way.bind (way.lift childDigests)
  exact way.pure _

/-- The digests of keys are yielded if every key comes after its children. -/
theorem yields_addAll {before : Key → Prop} {keys : List Key}
    (below : BelowFirst store.tree.childList before keys)
    (holds : ∀ key ∈ keys, store.layout.Holds key) {nodes : Std.TreeMap Key NodeDigest}
    (there : ∀ key, before key → nodes[key]? = some (store.nodeDigest key)) :
    way.yields (DigestTable.addAll store.tree donors references keys nodes)
      (store.addDigests keys nodes) := by
  induction keys generalizing before nodes with
  | nil => exact way.pure _
  | cons key keys inductionHypothesis =>
      apply way.bind (yields_ofNode way wellFormed allContent (holds key List.mem_cons_self)
        fun child inside => there child (below.1 child inside))
      apply inductionHypothesis below.2 fun other inside =>
        holds other (List.mem_cons_of_mem _ inside)
      intro other earlier
      rw [Std.TreeMap.getElem?_insert]
      by_cases same : key = other
      · subst same
        simp
      · simp [same, there other (earlier.resolve_left (Ne.symm same))]

/-- The digests of a store without references are yielded, whatever references would have. -/
theorem WellFormed.yields_ofTree :
    way.yields (DigestTable.ofTree store.tree donors references) store.digestTable := by
  apply way.bind (way.lift wellFormed.result_keys)
  exact way.bind (yields_addAll way wellFormed allContent wellFormed.belowFirst_rows
    (fun key inside => wellFormed.mem_map_rows_iff.mp (List.mem_reverse.mp inside))
    fun _ impossible => impossible.elim) (way.pure _)

end Table

end Store

end VersionedTrees
