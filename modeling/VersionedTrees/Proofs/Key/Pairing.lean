import Mathlib.Data.List.Nodup
import Mathlib.Data.List.ProdSigma
import Mathlib.Data.Prod.Basic
import VersionedTrees.Key.Pairing

/-!
# Pairings that agree in both directions

A pairing keeps each pair twice, once for each direction, and its operations change the two tables one
after the other. `KeyMap.Mutual` says that both directions are of the same pairs. The identity is mutual,
and so is every pairing that insertions and removals lead to (`Pairing.Reachable.mutual`).

A mutual pairing is a finite set of pairs, and each operation is one on that set. An insertion drops the
pairs of both keys before it adds its own (`Pairing.Gains`), and a removal from either side drops one pair
and tells the other half of it (`Pairing.Loses`). Main statement: `Pairing.Reachable.stays_one_to_one`.
-/

namespace VersionedTrees

/-- Both directions of a key map are of the same pairs. -/
def KeyMap.Mutual (keys : KeyMap) : Prop :=
  ∀ front back, keys.back? front = some back ↔ keys.front? back = some front

namespace KeyMap

variable {keys : KeyMap} {front front' back back' : Key}

/-- No two front keys show the same back key. -/
theorem Mutual.front_unique (agree : keys.Mutual) (first : keys.back? front = some back)
    (second : keys.back? front' = some back) : front = front' :=
  Option.some.inj (((agree front back).mp first).symm.trans ((agree front' back).mp second))

/-- Two pairs have the same front key exactly when they have the same back key. -/
theorem Mutual.front_eq_iff (agree : keys.Mutual) (first : keys.back? front = some back)
    (second : keys.back? front' = some back') : front' = front ↔ back' = back := by
  constructor
  · rintro rfl
    exact Option.some.inj (second.symm.trans first)
  · rintro rfl
    exact agree.front_unique second first

end KeyMap

namespace Pairing

variable {pairing : Pairing} {front front' back back' : Key}

/-- The pairings that insertions and removals lead to. -/
inductive Reachable : Pairing → Prop where
  | empty : Reachable empty
  | insert {pairing : Pairing} (reachable : Reachable pairing) (front back : Key) :
      Reachable (pairing.insert front back)
  | eraseFront {pairing : Pairing} (reachable : Reachable pairing) (front : Key) :
      Reachable (pairing.eraseFront front)
  | eraseBack {pairing : Pairing} (reachable : Reachable pairing) (back : Key) :
      Reachable (pairing.eraseBack back)

theorem Reachable.ofPairs (pairs : List (Key × Key)) : (ofPairs pairs).Reachable := by
  have folded : ∀ (pairs : List (Key × Key)) (pairing : Pairing), pairing.Reachable →
      (pairs.foldl (fun pairing pair => pairing.insert pair.1 pair.2) pairing).Reachable := by
    intro pairs
    induction pairs with
    | nil => exact fun _ reachable => reachable
    | cons pair pairs inductionHypothesis =>
        exact fun pairing reachable => inductionHypothesis _ (.insert reachable pair.1 pair.2)
  exact folded pairs Pairing.empty .empty

theorem Reachable.removeFront (reachable : pairing.Reachable) (front : Key) :
    (pairing.removeFront front).2.Reachable :=
  reachable.eraseFront front

theorem Reachable.removeBack (reachable : pairing.Reachable) (back : Key) :
    (pairing.removeBack back).2.Reachable :=
  reachable.eraseBack back

/-! ## The other side -/

/-- The same table with the sides exchanged. -/
def flip (pairing : Pairing) : Pairing :=
  ⟨pairing.frontOf, pairing.backOf⟩

theorem mutual_flip (agree : (KeyMap.paired pairing).Mutual) : (KeyMap.paired pairing.flip).Mutual :=
  fun back front => (agree front back).symm

/-- A removal by the back key is one by the front key, seen from the other side. -/
theorem eraseBack_eq_flip (pairing : Pairing) (back : Key) :
    pairing.eraseBack back = (pairing.flip.eraseFront back).flip := by
  have exchanged : pairing.flip.back? back = pairing.front? back := rfl
  rw [eraseBack, eraseFront, exchanged]
  cases pairing.front? back <;> rfl

/-! ## One pair more or less -/

/-- Drops one pair from both tables. -/
def erasePair (pairing : Pairing) (front back : Key) : Pairing :=
  ⟨pairing.backOf.erase front, pairing.frontOf.erase back⟩

/-- Adds one pair to both tables. -/
def addPair (pairing : Pairing) (front back : Key) : Pairing :=
  ⟨pairing.backOf.insert front back, pairing.frontOf.insert back front⟩

theorem back?_erasePair_iff (pairing : Pairing) (front back : Key) :
    (pairing.erasePair front back).back? front' = some back' ↔
      front' ≠ front ∧ pairing.back? front' = some back' := by
  simp only [erasePair, back?, Std.TreeMap.getElem?_erase, Std.compare_eq_iff_eq]
  by_cases same : front = front'
  · rw [if_pos same]
    exact iff_of_false (Option.some_ne_none back').symm fun kept => kept.1 same.symm
  · rw [if_neg same]
    exact (and_iff_right (Ne.symm same)).symm

theorem front?_erasePair_iff (pairing : Pairing) (front back : Key) :
    (pairing.erasePair front back).front? back' = some front' ↔
      back' ≠ back ∧ pairing.front? back' = some front' :=
  back?_erasePair_iff pairing.flip back front

theorem back?_addPair_iff (pairing : Pairing) (front back : Key) :
    (pairing.addPair front back).back? front' = some back' ↔
      front' = front ∧ back' = back ∨ front' ≠ front ∧ pairing.back? front' = some back' := by
  simp only [addPair, back?, Std.TreeMap.getElem?_insert, Std.compare_eq_iff_eq]
  by_cases same : front = front'
  · simp [same, eq_comm]
  · simp [same, Ne.symm same]

theorem front?_addPair_iff (pairing : Pairing) (front back : Key) :
    (pairing.addPair front back).front? back' = some front' ↔
      back' = back ∧ front' = front ∨ back' ≠ back ∧ pairing.front? back' = some front' :=
  back?_addPair_iff pairing.flip back front

/-- To drop a pair from both tables leaves both of the same pairs. -/
theorem mutual_erasePair (agree : (KeyMap.paired pairing).Mutual)
    (paired : pairing.back? front = some back) :
    (KeyMap.paired (pairing.erasePair front back)).Mutual := by
  intro front' back'
  calc (pairing.erasePair front back).back? front' = some back'
    _ ↔ front' ≠ front ∧ pairing.back? front' = some back' := back?_erasePair_iff pairing front back
    -- among the pairs there are, the dropped one is told by either of its keys
    _ ↔ back' ≠ back ∧ pairing.back? front' = some back' :=
      and_congr_left fun shown => not_congr (agree.front_eq_iff paired shown)
    _ ↔ back' ≠ back ∧ pairing.front? back' = some front' := and_congr_right' (agree front' back')
    _ ↔ (pairing.erasePair front back).front? back' = some front' :=
      (front?_erasePair_iff pairing front back).symm

/-- To add a pair to both tables, for two keys that have none, leaves both of the same pairs. -/
theorem mutual_addPair (agree : (KeyMap.paired pairing).Mutual) (freeFront : pairing.back? front = none)
    (freeBack : pairing.front? back = none) : (KeyMap.paired (pairing.addPair front back)).Mutual := by
  intro front' back'
  refine (back?_addPair_iff pairing front back).trans
    (Iff.trans ?_ (front?_addPair_iff pairing front back).symm)
  -- an earlier pair has neither key, so that one condition is as good as the other
  refine or_congr and_comm ⟨?_, ?_⟩
  · rintro ⟨-, shown⟩
    refine ⟨?_, (agree front' back').mp shown⟩
    rintro rfl
    cases freeBack.symm.trans ((agree front' back').mp shown)
  · rintro ⟨-, shown⟩
    refine ⟨?_, (agree front' back').mpr shown⟩
    rintro rfl
    cases freeFront.symm.trans ((agree front' back').mpr shown)

/-! ## Removals -/

theorem eraseFront_of_none (pairing : Pairing) (free : pairing.back? front = none) :
    pairing.eraseFront front = pairing := by
  rw [eraseFront, free]

theorem eraseFront_of_some (pairing : Pairing) (paired : pairing.back? front = some back) :
    pairing.eraseFront front = pairing.erasePair front back := by
  rw [eraseFront, paired]
  rfl

theorem eraseBack_of_none (pairing : Pairing) (free : pairing.front? back = none) :
    pairing.eraseBack back = pairing := by
  rw [eraseBack_eq_flip, eraseFront_of_none pairing.flip free]
  rfl

theorem eraseBack_of_some (pairing : Pairing) (paired : pairing.front? back = some front) :
    pairing.eraseBack back = pairing.erasePair front back := by
  rw [eraseBack_eq_flip, eraseFront_of_some pairing.flip paired]
  rfl

theorem mutual_eraseFront (agree : (KeyMap.paired pairing).Mutual) (front : Key) :
    (KeyMap.paired (pairing.eraseFront front)).Mutual := by
  cases paired : pairing.back? front with
  | none =>
      rw [eraseFront_of_none pairing paired]
      exact agree
  | some back =>
      rw [eraseFront_of_some pairing paired]
      exact mutual_erasePair agree paired

theorem mutual_eraseBack (agree : (KeyMap.paired pairing).Mutual) (back : Key) :
    (KeyMap.paired (pairing.eraseBack back)).Mutual := by
  rw [eraseBack_eq_flip]
  exact mutual_flip (mutual_eraseFront (mutual_flip agree) back)

/-- After a removal by the front key the pairs with another front key are left. -/
theorem back?_eraseFront_iff (pairing : Pairing) :
    (pairing.eraseFront front).back? front' = some back' ↔
      front' ≠ front ∧ pairing.back? front' = some back' := by
  cases paired : pairing.back? front with
  | none =>
      rw [eraseFront_of_none pairing paired, iff_and_self]
      rintro shown rfl
      cases paired.symm.trans shown
  | some back =>
      rw [eraseFront_of_some pairing paired]
      exact back?_erasePair_iff pairing front back

/-- After a removal by the back key the pairs with another back key are left. -/
theorem front?_eraseBack_iff (pairing : Pairing) :
    (pairing.eraseBack back).front? back' = some front' ↔
      back' ≠ back ∧ pairing.front? back' = some front' := by
  rw [eraseBack_eq_flip]
  exact back?_eraseFront_iff pairing.flip

/-- In a mutual table the front sees the same pairs left after a removal by the back key. -/
theorem back?_eraseBack_iff (agree : (KeyMap.paired pairing).Mutual) :
    (pairing.eraseBack back).back? front' = some back' ↔
      back' ≠ back ∧ pairing.back? front' = some back' :=
  calc (pairing.eraseBack back).back? front' = some back'
    _ ↔ (pairing.eraseBack back).front? back' = some front' := mutual_eraseBack agree back front' back'
    _ ↔ back' ≠ back ∧ pairing.front? back' = some front' := front?_eraseBack_iff pairing
    _ ↔ back' ≠ back ∧ pairing.back? front' = some back' := and_congr_right' (agree front' back').symm

/-! ## Insertions -/

/-- An insertion makes both keys free and then adds their pair. -/
theorem insert_eq (pairing : Pairing) (front back : Key) : pairing.insert front back =
    ((pairing.eraseFront front).eraseBack back).addPair front back := rfl

theorem mutual_insert (agree : (KeyMap.paired pairing).Mutual) (front back : Key) :
    (KeyMap.paired (pairing.insert front back)).Mutual := by
  have freed := mutual_eraseFront agree front
  rw [insert_eq]
  -- the second removal gives no key a pair, so that the front key is still free
  refine mutual_addPair (mutual_eraseBack freed back) ?_ ?_
  · refine Option.eq_none_iff_forall_ne_some.mpr fun back' shown => ?_
    exact ((back?_eraseFront_iff pairing).mp ((back?_eraseBack_iff freed).mp shown).2).1 rfl
  · refine Option.eq_none_iff_forall_ne_some.mpr fun front' shown => ?_
    exact ((front?_eraseBack_iff _).mp shown).1 rfl

/-- After an insertion there are the new pair and those earlier ones that have neither of its keys. -/
theorem back?_insert_iff (agree : (KeyMap.paired pairing).Mutual) :
    (pairing.insert front back).back? front' = some back' ↔
      front' = front ∧ back' = back ∨
        front' ≠ front ∧ back' ≠ back ∧ pairing.back? front' = some back' := by
  rw [insert_eq, back?_addPair_iff, back?_eraseBack_iff (mutual_eraseFront agree front),
    back?_eraseFront_iff]
  refine or_congr_right (and_congr_right fun other => and_congr_right' ?_)
  exact and_iff_right other

/-! ## Histories -/

/-- Whatever insertions and removals lead to is of the same pairs in both directions. -/
theorem Reachable.mutual (reachable : pairing.Reachable) : (KeyMap.paired pairing).Mutual := by
  induction reachable with
  | empty =>
      intro front back
      change Pairing.empty.back? front = _ ↔ Pairing.empty.front? back = _
      rw [back?_empty, front?_empty]
      exact iff_of_false nofun nofun
  | insert _ front back inductionHypothesis => exact mutual_insert inductionHypothesis front back
  | eraseFront _ front inductionHypothesis => exact mutual_eraseFront inductionHypothesis front
  | eraseBack _ back inductionHypothesis => exact mutual_eraseBack inductionHypothesis back

/-! ## The pairs of a table -/

/-- The pairs of a table, in the order of their front keys. -/
def toList (pairing : Pairing) : List (Key × Key) :=
  pairing.backOf.toList

theorem mem_toList_iff : (front, back) ∈ pairing.toList ↔ pairing.back? front = some back :=
  Std.TreeMap.mem_toList_iff_getElem?_eq_some

theorem length_toList : pairing.toList.length = pairing.size :=
  Std.TreeMap.length_toList

theorem nodup_toList (pairing : Pairing) : pairing.toList.Nodup := by
  refine pairing.backOf.distinct_keys_toList.imp fun different same => different ?_
  rw [same]
  exact Std.compare_self

/-- Seen from the other side a mutual table lists the same pairs. -/
theorem toList_flip_perm (agree : (KeyMap.paired pairing).Mutual) :
    (pairing.flip.toList.map Prod.swap).Perm pairing.toList := by
  have distinct : (pairing.flip.toList.map Prod.swap).Nodup :=
    pairing.flip.nodup_toList.map Prod.swap_injective
  refine (List.perm_ext_iff_of_nodup distinct pairing.nodup_toList).mpr ?_
  rintro ⟨front, back⟩
  rw [List.mem_map_swap, mem_toList_iff, mem_toList_iff]
  exact (agree front back).symm

theorem size_flip (agree : (KeyMap.paired pairing).Mutual) : pairing.flip.size = pairing.size :=
  calc pairing.flip.size
    _ = (pairing.flip.toList.map Prod.swap).length := by rw [List.length_map, length_toList]
    _ = pairing.toList.length := (toList_flip_perm agree).length_eq
    _ = pairing.size := length_toList

/-- A table is the same one from both sides: both directions are of the same pairs, and the size, from
whichever side it is taken, is the number of these pairs. -/
structure OneToOne (pairing : Pairing) : Prop where
  agree : (KeyMap.paired pairing).Mutual
  size_flip : pairing.flip.size = pairing.size
  counted : ∃ pairs : List (Key × Key), pairs.Nodup ∧ pairs.length = pairing.size ∧
    ∀ front back, ((front, back) ∈ pairs ↔ pairing.back? front = some back) ∧
      ((front, back) ∈ pairs ↔ pairing.front? back = some front)

theorem oneToOne_of_mutual (agree : (KeyMap.paired pairing).Mutual) : pairing.OneToOne where
  agree := agree
  size_flip := size_flip agree
  counted := ⟨pairing.toList, pairing.nodup_toList, length_toList,
    fun front back => ⟨mem_toList_iff, mem_toList_iff.trans (agree front back)⟩⟩

/-- A table after an insertion: its pairs are the new one and those of the earlier ones that have neither
of the two keys. -/
structure Gains (pairing : Pairing) (front back : Key) (next : Pairing) : Prop where
  oneToOne : next.OneToOne
  pairs_iff : ∀ front' back', next.back? front' = some back' ↔
    front' = front ∧ back' = back ∨
      front' ≠ front ∧ back' ≠ back ∧ pairing.back? front' = some back'

/-- A table after a removal: one pair is gone and all others are left. -/
structure Loses (pairing : Pairing) (front back : Key) (next : Pairing) : Prop where
  oneToOne : next.OneToOne
  lost : pairing.back? front = some back
  pairs_iff : ∀ front' back', next.back? front' = some back' ↔
    pairing.back? front' = some back' ∧ (front', back') ≠ (front, back)

theorem gains_insert (agree : (KeyMap.paired pairing).Mutual) (front back : Key) :
    pairing.Gains front back (pairing.insert front back) where
  oneToOne := oneToOne_of_mutual (mutual_insert agree front back)
  pairs_iff _ _ := back?_insert_iff agree

/-- To drop a pair from both tables takes no other pair away. -/
theorem loses_erasePair (agree : (KeyMap.paired pairing).Mutual)
    (paired : pairing.back? front = some back) :
    pairing.Loses front back (pairing.erasePair front back) where
  oneToOne := oneToOne_of_mutual (mutual_erasePair agree paired)
  lost := paired
  pairs_iff front' back' := by
    rw [back?_erasePair_iff, and_comm]
    refine and_congr_right fun shown => not_congr ?_
    rw [Prod.mk.injEq, ← agree.front_eq_iff paired shown, and_self]

theorem removeFront_of_none (free : pairing.back? front = none) :
    pairing.removeFront front = (none, pairing) :=
  Prod.ext free (eraseFront_of_none pairing free)

theorem removeBack_of_none (free : pairing.front? back = none) :
    pairing.removeBack back = (none, pairing) :=
  Prod.ext free (eraseBack_of_none pairing free)

theorem removeFront_of_some (paired : pairing.back? front = some back) :
    pairing.removeFront front = (some back, pairing.erasePair front back) :=
  Prod.ext paired (eraseFront_of_some pairing paired)

theorem removeBack_of_some (paired : pairing.front? back = some front) :
    pairing.removeBack back = (some front, pairing.erasePair front back) :=
  Prod.ext paired (eraseBack_of_some pairing paired)

/-- Whatever insertions and removals lead to is a one-to-one table. From there an insertion adds its pair
and drops those that share a key with it. A removal from either side drops the pair of its key and tells
the other half, or there is no such pair and nothing happens. -/
theorem Reachable.stays_one_to_one (reachable : pairing.Reachable) :
    pairing.OneToOne ∧
      (∀ front back, pairing.Gains front back (pairing.insert front back)) ∧
      (∀ front back, pairing.back? front = some back → ∃ next,
        pairing.removeFront front = (some back, next) ∧ pairing.Loses front back next) ∧
      (∀ front, pairing.back? front = none → pairing.removeFront front = (none, pairing)) ∧
      (∀ front back, pairing.front? back = some front → ∃ next,
        pairing.removeBack back = (some front, next) ∧ pairing.Loses front back next) ∧
      (∀ back, pairing.front? back = none → pairing.removeBack back = (none, pairing)) := by
  have agree := reachable.mutual
  refine ⟨oneToOne_of_mutual agree, gains_insert agree, fun front back paired => ?_,
    fun front free => removeFront_of_none free, fun front back paired => ?_,
    fun back free => removeBack_of_none free⟩
  · exact ⟨_, removeFront_of_some paired, loses_erasePair agree paired⟩
  · exact ⟨_, removeBack_of_some paired, loses_erasePair agree ((agree front back).mpr paired)⟩

/-- A pair may drop two others that have one of its keys each, and the table is asked from either side. -/
theorem stays_one_to_one_crossed :
    let start := ofPairs [(.text "a", .number 1), (.text "b", .number 1), (.text "c", .number 3)]
    let pairing := ((start.removeFront (.text "c")).2.removeBack (.number 4)).2.insert (.text "a") (.number 2)
    let crossed := pairing.insert (.text "b") (.number 2)
    pairing.Reachable ∧ pairing.OneToOne ∧ pairing.size = 2 ∧
      pairing.back? (.text "b") = some (.number 1) ∧ pairing.front? (.number 2) = some (.text "a") ∧
      pairing.Gains (.text "b") (.number 2) crossed ∧ crossed.size = 1 ∧
      (∃ next, pairing.removeFront (.text "b") = (some (.number 1), next) ∧
        pairing.Loses (.text "b") (.number 1) next) ∧
      pairing.removeFront (.text "c") = (none, pairing) ∧
      (∃ next, pairing.removeBack (.number 2) = (some (.text "a"), next) ∧
        pairing.Loses (.text "a") (.number 2) next) ∧
      pairing.removeBack (.number 4) = (none, pairing) := by
  intro start pairing crossed
  have reachable : pairing.Reachable :=
    (((Reachable.ofPairs _).removeFront (.text "c")).removeBack (.number 4)).insert (.text "a") (.number 2)
  have paired : pairing.back? (.text "b") = some (.number 1) := by decide +kernel
  have shown : pairing.front? (.number 2) = some (.text "a") := by decide +kernel
  obtain ⟨oneToOne, gains, losesFront, freeFront, losesBack, freeBack⟩ := reachable.stays_one_to_one
  exact ⟨reachable, oneToOne, by decide +kernel, paired, shown, gains _ _, by decide +kernel,
    losesFront _ _ paired, freeFront _ (by decide +kernel), losesBack _ _ shown,
    freeBack _ (by decide +kernel)⟩

end Pairing

end VersionedTrees
