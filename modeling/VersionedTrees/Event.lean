import VersionedTrees.Error

/-!
# Events

Reads and edits report what they do as they go: a trap that caught a reference without a target, a
node that was copied, a delta that was applied. Events have no influence on any result. Each has one
wording, `Event.entry?`, for a log; what a collecting trap caught goes to its collector instead.
-/

namespace VersionedTrees

/-- Something worth telling that happened during a read or an edit. -/
inductive Event where
  /-- A collecting trap caught a failed resolution. -/
  | trapped (error : TreeError)
  /-- A logging trap caught a failed resolution. -/
  | dereferencingFailed (error : TreeError)
  /-- A change buffer took a node over as a reference to its backing subtree. -/
  | lazyNode (key : Key)
  /-- A change buffer copied the target of a tree-reference. -/
  | copiedNode (key : Key) (target : Reference)
  /-- A change buffer replaced its state by a delta. -/
  | bufferReplaced (backing : TreeId) (lazyCount materialized deleted : Nat)
  /-- A change buffer turned a lazy node into one with content and lazy children. -/
  | expandedLazyNode (key : Key)
  /-- A node of the destination is written. -/
  | writingNode (key : Key)
  /-- A destination was made equal to a source. -/
  | appliedTree (tree : TreeId) (written deleted covered : Nat)
  /-- A subtree was found in a donor. -/
  | subtreeMatched (key : Key) (target : Reference)
  /-- A node's content was found in a donor. -/
  | contentMatched (key : Key) (target : Reference)
  /-- A tree was restated as references into donors. -/
  | normalizedTree (tree : TreeId) (nodes references : Nat)
  /-- The digests of all donors were tabulated. -/
  | indexedDonors (donors subtrees contents : Nat)
  /-- A node was added to an expansion. -/
  | expandedNode (key : Key) (isReference : Bool)
  /-- The references of a tree were replaced by what they stand for. -/
  | expandedReferences (tree : TreeId) (nodes materialized : Nat)
  /-- A delta was checked against its base. -/
  | verifiedDelta (base : TreeId) (references : Nat)
  /-- A delta between two trees was computed. -/
  | computedDelta (base target : TreeId) (nodes references : Nat)
  /-- A delta was written as bytes. -/
  | encodedDelta (base : TreeId) (nodes bytes : Nat)
  /-- A delta was read from bytes. -/
  | decodedDelta (base : TreeId) (nodes bytes : Nat)
deriving DecidableEq

/-- How much attention a log entry asks for. -/
inductive LogLevel where
  | trace
  | debug
  | warn
deriving DecidableEq

/-- The value of a field of a log entry. -/
inductive LogValue where
  | text (value : String)
  | count (value : Nat)
  | flag (value : Bool)
deriving DecidableEq

/-- An event in words: a level, a message and named values. -/
structure LogEntry where
  level : LogLevel
  message : String
  fields : List (String × LogValue)
deriving DecidableEq

/-- The log entry of an event; what a collecting trap caught is not logged. -/
def Event.entry? : Event → Option LogEntry
  | .trapped _ => none
  | .dereferencingFailed error =>
    some ⟨.warn, "Dereferencing failed", [("error", .text error.message)]⟩
  | .lazyNode key => some ⟨.trace, "Lazy node", [("key", .text key.display)]⟩
  | .copiedNode key target =>
    some ⟨.trace, "Copied node", [("key", .text key.display), ("target", .text target.display)]⟩
  | .bufferReplaced backing lazyCount materialized deleted =>
    some ⟨.debug, "Applied delta to change buffer",
      [("backing", .text backing.display), ("lazy", .count lazyCount),
        ("materialized", .count materialized), ("deleted", .count deleted)]⟩
  | .expandedLazyNode key => some ⟨.trace, "Expanded lazy node", [("key", .text key.display)]⟩
  | .writingNode key => some ⟨.trace, "Writing node", [("key", .text key.display)]⟩
  | .appliedTree tree written deleted covered =>
    some ⟨.debug, "Applied tree",
      [("tree", .text tree.display), ("written", .count written), ("deleted", .count deleted),
        ("covered", .count covered)]⟩
  | .subtreeMatched key target =>
    some ⟨.trace, "Subtree matched",
      [("key", .text key.display), ("target", .text target.display)]⟩
  | .contentMatched key target =>
    some ⟨.trace, "Content matched",
      [("key", .text key.display), ("target", .text target.display)]⟩
  | .normalizedTree tree nodes references =>
    some ⟨.debug, "Normalized tree",
      [("tree", .text tree.display), ("nodes", .count nodes), ("references", .count references)]⟩
  | .indexedDonors donors subtrees contents =>
    some ⟨.trace, "Indexed donor trees",
      [("donors", .count donors), ("subtrees", .count subtrees), ("contents", .count contents)]⟩
  | .expandedNode key isReference =>
    some ⟨.trace, "Expanded node", [("key", .text key.display), ("reference", .flag isReference)]⟩
  | .expandedReferences tree nodes materialized =>
    some ⟨.debug, "Expanded references",
      [("tree", .text tree.display), ("nodes", .count nodes),
        ("materialized", .count materialized)]⟩
  | .verifiedDelta base references =>
    some ⟨.trace, "Verified delta",
      [("base", .text base.display), ("references", .count references)]⟩
  | .computedDelta base target nodes references =>
    some ⟨.debug, "Computed delta",
      [("base", .text base.display), ("target", .text target.display), ("nodes", .count nodes),
        ("references", .count references)]⟩
  | .encodedDelta base nodes bytes =>
    some ⟨.debug, "Encoded delta",
      [("base", .text base.display), ("nodes", .count nodes), ("bytes", .count bytes)]⟩
  | .decodedDelta base nodes bytes =>
    some ⟨.debug, "Decoded delta",
      [("base", .text base.display), ("nodes", .count nodes), ("bytes", .count bytes)]⟩

end VersionedTrees
