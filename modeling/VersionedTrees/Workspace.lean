import VersionedTrees.Buffer.Edit
import VersionedTrees.Buffer.Replace

/-!
# Workspaces

A workspace makes trees, views and buffers that share one configuration and one trap.
-/

namespace VersionedTrees

/-- What new trees, views and buffers share. -/
structure Workspace where
  settings : Settings := {}
  trap : Option Trap := none

namespace Workspace

variable {C : Type}

/-- An empty tree whose fresh keys start where the settings say. -/
def store (workspace : Workspace) (id : TreeId) : Store C :=
  Store.empty id ⟨workspace.settings.trees.firstFreshKey⟩

/-- A merged view with nothing hidden. -/
def view (workspace : Workspace) (front back : View C) (keys : KeyMap) : View C :=
  .merged front back keys ∅ workspace.settings.views workspace.trap

/-- An empty buffer. -/
def buffer (workspace : Workspace) (backing : View C) : Buffer C :=
  Buffer.unchanged backing workspace.settings.views workspace.trap

end Workspace

end VersionedTrees
