import Std.Data.TreeSet
import VersionedTrees.Key.Path

/-!
# Keys and tree identifiers

A node is known within one tree by its key. A key is either a position, which says where the node
stands, or opaque: a number or a text that says nothing about the node. Keys are ordered: positions
first, in document order, then numbers, then texts by code point.
-/

namespace VersionedTrees

/-- What identifies a node within one tree. -/
inductive Key where
  /-- A key that encodes a position. -/
  | path (position : PathKey)
  /-- An opaque number. -/
  | number (value : UInt64)
  /-- An opaque text. -/
  | text (value : String)
deriving DecidableEq

namespace Key

/-- The key of a root that was not given one. -/
def root : Key := .path .root

/-- The position that a key encodes, if it encodes one. -/
def position? : Key → Option PathKey
  | .path position => some position
  | .number _ | .text _ => none

/-- Positions come before numbers, and numbers before texts. -/
def order : Key → Key → Ordering
  | .path left, .path right => compare left right
  | .path _, _ => .lt
  | .number _, .path _ => .gt
  | .number left, .number right => compare left right
  | .number _, .text _ => .lt
  | .text left, .text right => compare left right
  | .text _, _ => .gt

instance : Ord Key := ⟨order⟩

/-- A key as text: a position by its labels, a number behind a hash, a text in single quotes. -/
def display : Key → String
  | .path position => position.text
  | .number value => "#" ++ toString value.toNat
  | .text value => "'" ++ value ++ "'"

end Key

namespace Key

theorem order_swap : ∀ left right : Key, order left right = (order right left).swap
  | .path l, .path r => Std.OrientedOrd.eq_swap (a := l) (b := r)
  | .number l, .number r => Std.OrientedOrd.eq_swap (a := l) (b := r)
  | .text l, .text r => Std.OrientedOrd.eq_swap (a := l) (b := r)
  | .path _, .number _ | .path _, .text _ | .number _, .path _ => rfl
  | .number _, .text _ | .text _, .path _ | .text _, .number _ => rfl

theorem order_trans : ∀ left middle right : Key,
    (order left middle).isLE → (order middle right).isLE → (order left right).isLE
  | .path l, .path m, .path r => Std.TransOrd.isLE_trans (a := l) (b := m) (c := r)
  | .number l, .number m, .number r => Std.TransOrd.isLE_trans (a := l) (b := m) (c := r)
  | .text l, .text m, .text r => Std.TransOrd.isLE_trans (a := l) (b := m) (c := r)
  | .path _, _, .number _ | .path _, _, .text _ | .number _, _, .text _ => fun _ _ => rfl
  | .number _, .path _, _ | .text _, .path _, _ => fun impossible => by cases impossible
  | .text _, .number _, _ => fun impossible => by cases impossible
  | _, .number _, .path _ | _, .text _, .path _ => fun _ impossible => by cases impossible
  | _, .text _, .number _ => fun _ impossible => by cases impossible

theorem order_eq_iff : ∀ left right : Key, order left right = .eq ↔ left = right
  | .path l, .path r => by
    rw [Key.path.injEq]
    exact Std.LawfulEqOrd.compare_eq_iff_eq (a := l) (b := r)
  | .number l, .number r => by
    rw [Key.number.injEq]
    exact Std.LawfulEqOrd.compare_eq_iff_eq (a := l) (b := r)
  | .text l, .text r => by
    rw [Key.text.injEq]
    exact Std.LawfulEqOrd.compare_eq_iff_eq (a := l) (b := r)
  | .path _, .number _ | .path _, .text _ | .number _, .path _ => by simp [order]
  | .number _, .text _ | .text _, .path _ | .text _, .number _ => by simp [order]

end Key

instance : Std.TransOrd Key where
  eq_swap := Key.order_swap _ _
  isLE_trans := Key.order_trans _ _ _

instance : Std.LawfulEqOrd Key where
  compare_self := (Key.order_eq_iff _ _).mpr rfl
  eq_of_compare := (Key.order_eq_iff _ _).mp

/-- A finite set of keys, listed in key order. -/
abbrev KeySet := Std.TreeSet Key

/-- What identifies a tree; the identifier of a base tree also names the version it holds. -/
structure TreeId where
  value : UInt64
deriving DecidableEq

/-- A tree identifier as text. -/
def TreeId.display (id : TreeId) : String :=
  "tree:" ++ toString id.value.toNat

end VersionedTrees
