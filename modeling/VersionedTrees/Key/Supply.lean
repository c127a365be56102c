import VersionedTrees.Key.Basic

/-!
# Key supplies

A supply hands out fresh numbers as opaque keys, one after the other. The number after the one it
hands out has to exist, so the last 64-bit number is never handed out.
-/

namespace VersionedTrees

/-- The numbers from `next` on that have not been handed out. -/
structure KeySupply where
  next : UInt64 := 0
deriving DecidableEq

namespace KeySupply

/-- The next key and the supply that is left, or nothing once the numbers run out. -/
def take? (supply : KeySupply) : Option (Key × KeySupply) :=
  if supply.next.toNat + 1 < UInt64.size then
    some (.number supply.next, ⟨supply.next + 1⟩)
  else
    none

end KeySupply

end VersionedTrees
