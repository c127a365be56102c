import VersionedTrees.Store.Lemmas

/-!
# Taking out pending keys

A deletion takes one slot out after the other, and the children of a slot that is taken out are to be taken out
as well. Whatever links there are, also in a circle or to keys without a slot, the slots that are gone in the
end are those to which the links lead from the keys that were pending at first, and no other slot is changed
(`Store.getElem?_withoutPending`).
-/

namespace VersionedTrees

namespace Store

variable {C : Type} {slots : Std.TreeMap Key (Slot C)} {pending rest : List Key} {key other : Key}
  {slot : Slot C} {room : Nat}

/-- A slot to which links lead from pending keys, through slots that are there. -/
inductive Pends (slots : Std.TreeMap Key (Slot C)) (pending : List Key) : Key → Prop where
  | listed {key : Key} (inside : key ∈ pending) (there : key ∈ slots) : Pends slots pending key
  | child {key child : Key} {slot : Slot C} (above : Pends slots pending key)
      (found : slots[key]? = some slot) (inside : child ∈ slot.children) (there : child ∈ slots) :
      Pends slots pending child

theorem Pends.mem (pends : Pends slots pending key) : key ∈ slots := by
  cases pends with
  | listed _ there => exact there
  | child _ _ _ there => exact there

theorem mem_slots_of_some (found : slots[key]? = some slot) : key ∈ slots := by
  rw [Std.TreeMap.mem_iff_isSome_getElem?, found]
  rfl

theorem not_mem_slots_of_none (absent : slots[key]? = none) : key ∉ slots := by
  rw [Std.TreeMap.mem_iff_isSome_getElem?, absent]
  exact nofun

theorem mem_erase_slots_iff : other ∈ slots.erase key ↔ other ≠ key ∧ other ∈ slots := by
  rw [Std.TreeMap.mem_erase, Ne, Std.compare_eq_iff_eq, eq_comm]

theorem getElem?_erase_of_ne (different : other ≠ key) : (slots.erase key)[other]? = slots[other]? := by
  rw [Std.TreeMap.getElem?_erase, if_neg fun same => different (Std.compare_eq_iff_eq.mp same).symm]

/-- No pending key has a slot. -/
theorem not_mem_of_nextPending (nothing : nextPending slots pending = none) (inside : key ∈ pending) :
    key ∉ slots := by
  fun_induction nextPending slots pending with
  | case1 => exact absurd inside List.not_mem_nil
  | case2 first pending absent inductionHypothesis =>
      rcases List.mem_cons.mp inside with rfl | later
      · exact not_mem_slots_of_none absent
      · exact inductionHypothesis nothing later
  | case3 => cases nothing

/-- The next pending key, its slot, and the keys behind it, in front of which no key has a slot. -/
theorem nextPending_cases (next : nextPending slots pending = some (key, slot, rest)) :
    slots[key]? = some slot ∧ key ∈ pending ∧ rest ⊆ pending ∧
      ∀ other ∈ pending, other ∈ slots → other = key ∨ other ∈ rest := by
  fun_induction nextPending slots pending with
  | case1 => cases next
  | case2 first pending absent inductionHypothesis =>
      obtain ⟨found, inside, behind, all⟩ := inductionHypothesis next
      refine ⟨found, List.mem_cons_of_mem _ inside, fun _ later => List.mem_cons_of_mem _ (behind later),
        fun other inside' there => ?_⟩
      rcases List.mem_cons.mp inside' with rfl | later
      · exact absurd there (not_mem_slots_of_none absent)
      · exact all other later there
  | case3 first pending before found =>
      cases next
      exact ⟨found, List.mem_cons_self, List.subset_cons_self _ _,
        fun other inside _ => List.mem_cons.mp inside⟩

/-- What pends is the next pending key, or it pends when that key is taken out and its children are pending. -/
theorem pends_iff (next : nextPending slots pending = some (key, slot, rest)) :
    Pends slots pending other ↔
      other = key ∨ Pends (slots.erase key) (slot.children.toList.reverse ++ rest) other := by
  obtain ⟨found, inside, behind, all⟩ := nextPending_cases next
  constructor
  · intro pends
    induction pends with
    | @listed other inside there =>
        by_cases same : other = key
        · exact .inl same
        · exact .inr (.listed (List.mem_append_right _ ((all other inside there).resolve_left same))
            (mem_erase_slots_iff.mpr ⟨same, there⟩))
    | @child above other slot' _ found' inside' there inductionHypothesis =>
        by_cases same : other = key
        · exact .inl same
        have there' := mem_erase_slots_iff.mpr ⟨same, there⟩
        by_cases first : above = key
        · subst first
          cases found.symm.trans found'
          exact .inr (.listed (List.mem_append_left _
            (List.mem_reverse.mpr (Std.TreeSet.mem_toList.mpr inside'))) there')
        · exact .inr (.child (inductionHypothesis.resolve_left first)
            ((getElem?_erase_of_ne first).trans found') inside' there')
  · have first : Pends slots pending key := .listed inside (mem_slots_of_some found)
    rintro (rfl | pends)
    · exact first
    · induction pends with
      | listed inside' there =>
          have there' := (mem_erase_slots_iff.mp there).2
          rcases List.mem_append.mp inside' with isChild | later
          · exact .child first found (Std.TreeSet.mem_toList.mp (List.mem_reverse.mp isChild)) there'
          · exact .listed (behind later) there'
      | child above found' inside' there inductionHypothesis =>
          have different := (mem_erase_slots_iff.mp above.mem).1
          exact .child inductionHypothesis ((getElem?_erase_of_ne different).symm.trans found') inside'
            (mem_erase_slots_iff.mp there).2

/-- Without a pending key that has a slot, nothing pends. -/
theorem not_pends_of_nextPending (nothing : nextPending slots pending = none) :
    ¬ Pends slots pending other := by
  intro pends
  induction pends with
  | listed inside there => exact not_mem_of_nextPending nothing inside there
  | child _ _ _ _ inductionHypothesis => exact inductionHypothesis

open Classical in
/-- Taking out pending keys leaves the slots that do not pend as they were. -/
theorem getElem?_withoutPending (enough : slots.size ≤ room) (other : Key) :
    (withoutPending room pending slots)[other]? =
      if Pends slots pending other then none else slots[other]? := by
  induction room generalizing slots pending with
  | zero =>
      have empty : slots.isEmpty = true := by
        rw [Std.TreeMap.isEmpty_eq_size_eq_zero, Nat.le_zero.mp enough]
        rfl
      have absent : slots[other]? = none :=
        Std.TreeMap.getElem?_eq_none (Std.TreeMap.isEmpty_iff_forall_not_mem.mp empty other)
      rw [withoutPending, absent, ite_self]
  | succ room inductionHypothesis =>
      rw [withoutPending]
      cases next : nextPending slots pending with
      | none => exact (if_neg (not_pends_of_nextPending next)).symm
      | some taken =>
          obtain ⟨key, slot, rest⟩ := taken
          have smaller : (slots.erase key).size ≤ room := by
            rw [Std.TreeMap.size_erase,
              if_pos (Std.TreeMap.mem_iff_contains.mp (mem_slots_of_some (nextPending_cases next).1))]
            omega
          dsimp only
          rw [inductionHypothesis smaller]
          simp only [pends_iff next]
          by_cases same : other = key
          · subst same
            rw [Std.TreeMap.getElem?_erase_self, ite_self, if_pos (.inl rfl)]
          · simp only [same, false_or, getElem?_erase_of_ne same]

end Store

end VersionedTrees
