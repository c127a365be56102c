import VersionedTrees.Event

/-!
# Settings

What can be chosen about the trees and views that belong together, and what a view does with a
reference that cannot be resolved.
-/

namespace VersionedTrees

/-- Choices about merged views. -/
structure ViewSettings where
  /-- Whether reading a handle fails once a tree behind the view has changed. -/
  checkStaleness : Bool := true
deriving DecidableEq

/-- Choices about new trees. -/
structure TreeSettings where
  /-- The first number handed out as a key for children of nodes with opaque keys. -/
  firstFreshKey : UInt64 := 0
deriving DecidableEq

/-- Choices shared by trees, views and buffers. -/
structure Settings where
  views : ViewSettings := {}
  trees : TreeSettings := {}
deriving DecidableEq

/-- A receiver of failed resolutions. A view that has one reports the failure to it and reads the
node as absent. -/
inductive Trap where
  /-- Failures are collected. -/
  | collect
  /-- Failures are logged as warnings. -/
  | log
deriving DecidableEq

/-- What a trap reports when it catches a failure. -/
def Trap.caught : Trap → TreeError → Event
  | .collect, error => .trapped error
  | .log, error => .dereferencingFailed error

end VersionedTrees
