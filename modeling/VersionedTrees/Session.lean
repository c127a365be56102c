import Std.Data.TreeMap
import VersionedTrees.Delta.Wire
import VersionedTrees.Synchronize
import VersionedTrees.Workspace

/-!
# Sessions

A session keeps trees, change buffers, key tables, deltas and handles under names, and collects the
events of what is done with them. A command looks its objects up by name, reads or edits them, and
keeps what becomes of them, also when it fails. Views are described by expressions over the names of
trees and buffers; where a name is both, it means the tree.
-/

namespace VersionedTrees

/-- The kinds of named objects. -/
inductive ObjectKind where
  | tree
  | buffer
  | keyMap
  | delta
  | handle
deriving DecidableEq

/-- Why a command fails. -/
inductive SessionFault where
  /-- Nothing of the kind has the name. -/
  | missing (kind : ObjectKind)
  /-- A node of a new tree cannot be inserted. -/
  | row (index : Nat) (error : TreeError)
  /-- A read or an edit fails. -/
  | tree (error : TreeError)
  /-- A delta does not make it over the wire. -/
  | wire (fault : WireFault)
deriving DecidableEq

/-- What is said of a merged view, apart from its two trees and its keys. -/
structure ViewOptions where
  hidden : KeySet := ∅
  /-- Settings and trap are those of the workspace, unless said otherwise. -/
  shared : Bool := false
  checkStaleness : Option Bool := none
  trap : Option Trap := none

/-- A description of a view. -/
inductive ViewExpression where
  /-- A tree or a buffer. -/
  | named (name : String)
  /-- A view under the front keys of a table, or under its own. -/
  | renamed (inner : ViewExpression) (keys : Option String)
  /-- A front over a back. -/
  | merged (front back : ViewExpression) (keys : Option String) (options : ViewOptions)

/-- Named objects, and the events so far. -/
structure Session (C : Type) where
  workspace : Workspace := {}
  trees : Std.TreeMap String (Store C) := ∅
  buffers : Std.TreeMap String (Buffer C) := ∅
  keyMaps : Std.TreeMap String Pairing := ∅
  deltas : Std.TreeMap String (Delta C) := ∅
  handles : Std.TreeMap String Handle := ∅
  events : List Event := []

/-- Something done in a session. What it did before it failed stays done. -/
abbrev Command (C α : Type) : Type := ExceptT SessionFault (StateM (Session C)) α

namespace Session

variable {C α : Type}

/-- An object that was looked up, or a failure for want of it. -/
def orMissing (kind : ObjectKind) : Option α → Command C α
  | none => throw (.missing kind)
  | some object => return object

/-- The tree with a name. -/
def tree (name : String) : Command C (Store C) := do
  orMissing .tree (← get).trees[name]?

/-- The buffer with a name. -/
def buffer (name : String) : Command C (Buffer C) := do
  orMissing .buffer (← get).buffers[name]?

/-- The key table with a name. -/
def pairing (name : String) : Command C Pairing := do
  orMissing .keyMap (← get).keyMaps[name]?

/-- The delta with a name. -/
def delta (name : String) : Command C (Delta C) := do
  orMissing .delta (← get).deltas[name]?

/-- The handle with a name. -/
def handle (name : String) : Command C Handle := do
  orMissing .handle (← get).handles[name]?

/-- Keeps a tree under a name. -/
def keepTree (name : String) (store : Store C) : Command C Unit :=
  modify fun session => { session with trees := session.trees.insert name store }

/-- Keeps a buffer under a name. -/
def keepBuffer (name : String) (buffer : Buffer C) : Command C Unit :=
  modify fun session => { session with buffers := session.buffers.insert name buffer }

/-- Keeps a key table under a name. -/
def keepPairing (name : String) (pairing : Pairing) : Command C Unit :=
  modify fun session => { session with keyMaps := session.keyMaps.insert name pairing }

/-- Keeps a delta under a name. -/
def keepDelta (name : String) (delta : Delta C) : Command C Unit :=
  modify fun session => { session with deltas := session.deltas.insert name delta }

/-- Keeps a handle under a name. -/
def keepHandle (name : String) (handle : Handle) : Command C Unit :=
  modify fun session => { session with handles := session.handles.insert name handle }

/-- Adds events to those so far. -/
def record (events : List Event) : Command C Unit :=
  modify fun session => { session with events := session.events ++ events }

/-- A result, or a failure for its reason. -/
def ofResult (result : Except TreeError α) : Command C α :=
  match result with
  | .ok value => return value
  | .error error => throw (.tree error)

/-- Carries out a read. -/
def ofRead (read : Read α) : Command C α := do
  record read.events
  ofResult read.result

/-- Carries out a read whose failure is part of what it tells. -/
def outcome (read : Read α) : Command C (Except TreeError α) :=
  ofRead read.outcome

/-- Carries out a read that may fail on the wire. -/
def ofWire (read : ExceptT WireFault Read α) : Command C α := do
  match ← ofRead read.run with
  | .ok value => return value
  | .error fault => throw (.wire fault)

/-- Carries out an edit of an object and keeps the object. -/
def ofEdit {τ : Type} (edit : Edit τ α) (object : τ) (keep : τ → Command C Unit) :
    Command C α := do
  let after := edit.run object
  record after.events
  keep after.state
  ofResult after.result

/-- Edits the tree with a name. -/
def editTree (name : String) (edit : Edit (Store C) α) : Command C α := do
  ofEdit edit (← tree name) (keepTree name)

/-- Edits the buffer with a name. -/
def editBuffer (name : String) (edit : Edit (Buffer C) α) : Command C α := do
  ofEdit edit (← buffer name) (keepBuffer name)

/-- Whether a name means a buffer. -/
def meansBuffer (session : Session C) (name : String) : Bool :=
  !session.trees.contains name && session.buffers.contains name

/-- Edits the tree or the buffer with a name. -/
def edit (name : String) (onTree : Edit (Store C) α) (onBuffer : Edit (Buffer C) α) :
    Command C α := do
  if (← get).meansBuffer name then
    editBuffer name onBuffer
  else
    editTree name onTree

/-- Fails unless a name means a tree or a buffer. -/
def requireEditable (name : String) : Command C Unit := do
  if (← get).meansBuffer name then
    return ()
  else
    let _ ← tree name

/-- The key map of a table with a name, or the identity. -/
def keyMap : Option String → Command C KeyMap
  | none => return .identity
  | some name => return .paired (← pairing name)

/-- What a merged view does with stale handles. -/
def viewSettings (workspace : Workspace) (options : ViewOptions) : ViewSettings :=
  match options.checkStaleness with
  | some checkStaleness => { checkStaleness }
  | none => if options.shared then workspace.settings.views else {}

/-- What a merged view does with failed resolutions. -/
def viewTrap (workspace : Workspace) (options : ViewOptions) : Option Trap :=
  options.trap.or (if options.shared then workspace.trap else none)

/-- The view that an expression describes. -/
def view : ViewExpression → Command C (View C)
  | .named name => do
    if (← get).meansBuffer name then
      return (← buffer name).view
    else
      return .store (← tree name)
  | .renamed inner keys => do
    let inner ← view inner
    return .renamed inner (← keyMap keys)
  | .merged front back keys options => do
    let front ← view front
    let back ← view back
    let keys ← keyMap keys
    let workspace := (← get).workspace
    return .merged front back keys options.hidden (viewSettings workspace options)
      (viewTrap workspace options)

/-- The tree that an expression describes. -/
def viewTree (expression : ViewExpression) : Command C (Tree C) := do
  return (← view expression).tree

/-- The donors that expressions describe. -/
def donors (expressions : List ViewExpression) : Command C (Donors C) := do
  return ⟨← expressions.mapM viewTree⟩

/-- The merged view that gives out handles: a described one, or that of a buffer. -/
def merged : ViewExpression → Command C (Merged C)
  | .merged front back keys options => do
    let front ← viewTree front
    let back ← viewTree back
    let keys ← keyMap keys
    let workspace := (← get).workspace
    return ⟨front, back, keys, options.hidden, viewSettings workspace options,
      viewTrap workspace options⟩
  | .named name => return (← buffer name).merged
  | .renamed _ _ => throw (.missing .buffer)

/-- The names of the buffers in an expression. -/
def buffersIn (session : Session C) : ViewExpression → List String
  | .named name => if session.meansBuffer name then [name] else []
  | .renamed inner _ => session.buffersIn inner
  | .merged front back _ _ => session.buffersIn front ++ session.buffersIn back

/-- A session without the buffer of a name. -/
def withoutBuffer (name : String) (session : Session C) : Session C :=
  { session with buffers := session.buffers.erase name }

/-- A session without the tree or buffer that a name means. -/
def without (name : String) (session : Session C) : Session C :=
  if session.meansBuffer name then
    session.withoutBuffer name
  else
    { session with trees := session.trees.erase name }

/-- The tree that an expression describes in a changed session. -/
def viewTreeIn (change : Session C → Session C) (expression : ViewExpression) :
    Command C (Tree C) := do
  match ((viewTree expression).run (change (← get))).1 with
  | .ok tree => return tree
  | .error fault => throw fault

/-- Makes the tree or the buffer with a name equal to a source, which cannot use that object. -/
def synchronize [DecidableEq C] (name : String) (source : ViewExpression) : Command C Unit := do
  requireEditable name
  let source ← viewTreeIn (without name) source
  edit name (VersionedTrees.synchronize source) (VersionedTrees.synchronize source)

/-- Replaces the state of the buffer with a name by a source, which cannot use that buffer. -/
def replace (name : String) (source : ViewExpression) : Command C Unit := do
  let target ← buffer name
  let source ← viewTreeIn (withoutBuffer name) source
  ofEdit (Buffer.replace source) target (keepBuffer name)

/-- Makes a buffer over a view and keeps it under a name. The buffers in the view become part of the
new one and lose their names. A seeded buffer starts with a lazy root. -/
def openBuffer (name : String) (backing : ViewExpression) (seeded : Bool)
    (options : ViewOptions) : Command C Unit := do
  let moved := (← get).buffersIn backing
  let workspace := (← get).workspace
  let backing ← view backing
  modify fun session => { session with buffers := moved.foldl (·.erase ·) session.buffers }
  let options := { options with shared := options.shared && !seeded }
  let settings := viewSettings workspace options
  let fresh := Buffer.unchanged backing settings (viewTrap workspace options)
  if seeded then
    let (_, seeded) ← ofRead (Buffer.seed.toRead fresh)
    keepBuffer name seeded
  else
    keepBuffer name fresh

end Session

end VersionedTrees
