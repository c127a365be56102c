import VersionedTrees.Effect.Edit

/-!
# Reads and edits without their events

Events have no influence on what a read or an edit does. For reads `Read.result` forgets them.
`Edit.effect` forgets them: it tells how an edit ended and which state it left. Sequencing is then
that of a state and an error alone (`effect_bind`), and an edit is carried out step by step with
`effect_bind_of_ok` and `effect_bind_of_error`. An edit that has succeeded is taken apart with
`effect_bind_eq_ok`, and `Edit.Keeps` says that an edit keeps a property of the state however it ends.
-/

namespace VersionedTrees

namespace Read

variable {α β : Type} {read : Read α} {next : α → Read β}

/-- After a read that succeeds, a sequence is what follows. -/
theorem result_bind_of_ok {value : α} (ok : read.result = .ok value) :
    (read >>= next).result = (next value).result := by
  rw [result_bind, ok]
  rfl

/-- After a read that fails, a sequence has failed. -/
theorem result_bind_of_error {error : TreeError} (failed : read.result = .error error) :
    (read >>= next).result = .error error := by
  rw [result_bind, failed]
  rfl

/-- A sequence has succeeded if both of its reads have. -/
theorem result_bind_eq_ok {result : β} (ok : (read >>= next).result = .ok result) :
    ∃ value, read.result = .ok value ∧ (next value).result = .ok result := by
  cases first : read.result with
  | error error =>
      rw [result_bind_of_error first] at ok
      cases ok
  | ok value =>
      rw [result_bind_of_ok first] at ok
      exact ⟨value, rfl, ok⟩

theorem result_orFail_eq_ok_iff {error : TreeError} {option : Option α} {value : α} :
    (orFail error option).result = .ok value ↔ option = some value := by
  cases option with
  | none => exact iff_of_false (fun ok => nomatch ok) nofun
  | some other => exact ⟨fun ok => congrArg some (Except.ok.inj ok),
      fun same => congrArg Except.ok (Option.some.inj same)⟩

/-- A condition that is required holds after success. -/
theorem result_require_eq_ok {condition : Bool} {error : TreeError}
    (ok : (require condition error).result = .ok ()) : condition = true := by
  cases condition with
  | true => rfl
  | false => cases ok

/-- A condition that holds stops nothing. -/
theorem result_require_of_true {condition : Bool} {error : TreeError} (holds : condition = true) :
    (require condition error).result = .ok () := by
  rw [result_require, if_pos holds]

theorem result_require_of_false {condition : Bool} {error : TreeError}
    (fails : condition = false) : (require condition error).result = .error error := by
  rw [result_require, fails]
  rfl

/-- Reads of a list of items succeed if all of them do. -/
theorem result_forM_eq_ok_iff {items : List α} {read : α → Read PUnit} :
    (items.forM read).result = .ok ⟨⟩ ↔ ∀ item ∈ items, (read item).result = .ok ⟨⟩ := by
  induction items with
  | nil => exact ⟨fun _ item inside => absurd inside List.not_mem_nil, fun _ => rfl⟩
  | cons item items inductionHypothesis =>
      rw [List.forall_mem_cons, ← inductionHypothesis]
      constructor
      · intro ok
        obtain ⟨⟨⟩, first, rest⟩ := result_bind_eq_ok ok
        exact ⟨first, rest⟩
      · rintro ⟨first, rest⟩
        exact (result_bind_of_ok first).trans rest

/-- Reads of a list of items, each of which holds or finds a fault, succeed exactly when all of the
items hold. -/
theorem result_forM_checks {holds : α → Prop} {items : List α} {read : α → Read PUnit}
    (checks : ∀ item ∈ items, holds item ∧ (read item).result = .ok ⟨⟩ ∨
      ¬ holds item ∧ ∃ fault, (read item).result = .error (.delta fault)) :
    (∀ item ∈ items, holds item) ∧ (items.forM read).result = .ok ⟨⟩ ∨
      ¬ (∀ item ∈ items, holds item) ∧
        ∃ fault, (items.forM read).result = .error (.delta fault) := by
  induction items with
  | nil => exact .inl ⟨fun item inside => absurd inside List.not_mem_nil, rfl⟩
  | cons item items inductionHypothesis =>
      rcases checks item List.mem_cons_self with ⟨here, ok⟩ | ⟨fails, fault, failed⟩
      · have same : ((item :: items).forM read).result = (items.forM read).result :=
          Read.result_bind_of_ok ok
        rw [same, List.forall_mem_cons, and_iff_right here]
        exact inductionHypothesis fun other inside => checks other (List.mem_cons_of_mem _ inside)
      · refine .inr ⟨fun all => fails (all item List.mem_cons_self), fault, ?_⟩
        exact Read.result_bind_of_error failed

end Read

namespace Edit

variable {σ τ α β : Type}

/-- How an edit ends and the state that it leaves. -/
def effect (edit : Edit σ α) (state : σ) : Except TreeError α × σ :=
  ((edit.run state).result, (edit.run state).state)

/-- An edit leaves one state. -/
theorem after_unique {edit : Edit σ α} {state after other : σ} {result result' : Except TreeError α}
    (first : effect edit state = (result, after)) (second : effect edit state = (result', other)) :
    after = other :=
  congrArg Prod.snd (first.symm.trans second)

theorem effect_eq_of_result {edit : Edit σ α} {state : σ} {result : Except TreeError α}
    (ended : (effect edit state).1 = result) :
    effect edit state = (result, (effect edit state).2) :=
  Prod.ext ended rfl

@[simp] theorem effect_pure (value : α) (state : σ) :
    effect (pure value : Edit σ α) state = (.ok value, state) := rfl

/-- A sequence goes on from the state and the value that the first edit left. -/
theorem effect_bind (first : Edit σ α) (next : α → Edit σ β) (state : σ) :
    effect (first >>= next) state =
      match effect first state with
      | (.error error, after) => (.error error, after)
      | (.ok value, after) => effect (next value) after := by
  simp only [effect, run_bind]
  cases (first.run state).result <;> rfl

/-- After an edit that succeeds, a sequence is what follows. -/
theorem effect_bind_of_ok {first : Edit σ α} {next : α → Edit σ β} {state after : σ} {value : α}
    (ok : effect first state = (.ok value, after)) :
    effect (first >>= next) state = effect (next value) after := by
  rw [effect_bind, ok]

/-- After an edit that fails, a sequence has failed. -/
theorem effect_bind_of_error {first : Edit σ α} {next : α → Edit σ β} {state after : σ}
    {error : TreeError} (failed : effect first state = (.error error, after)) :
    effect (first >>= next) state = (.error error, after) := by
  rw [effect_bind, failed]

/-- A sequence has succeeded if both of its edits have. -/
theorem effect_bind_eq_ok {first : Edit σ α} {next : α → Edit σ β} {state after : σ} {value : β}
    (ok : effect (first >>= next) state = (.ok value, after)) :
    ∃ given middle, effect first state = (.ok given, middle) ∧
      effect (next given) middle = (.ok value, after) := by
  rcases before : effect first state with ⟨error | given, middle⟩
  · rw [effect_bind_of_error before] at ok
    cases ok
  · rw [effect_bind_of_ok before] at ok
    exact ⟨given, middle, rfl, ok⟩

@[simp] theorem effect_map (change : α → β) (edit : Edit σ α) (state : σ) :
    effect (change <$> edit) state =
      ((effect edit state).1.map change, (effect edit state).2) := by
  rw [map_eq_pure_bind, effect_bind]
  rcases effect edit state with ⟨_ | value, after⟩ <;> rfl

/-- An edit whose value is changed has succeeded if the edit has. -/
theorem effect_map_eq_ok {change : α → β} {edit : Edit σ α} {state after : σ} {value : β}
    (ok : effect (change <$> edit) state = (.ok value, after)) :
    ∃ given, effect edit state = (.ok given, after) ∧ change given = value := by
  rw [effect_map] at ok
  rcases done : effect edit state with ⟨error | given, last⟩
  · rw [done] at ok
    cases ok
  · rw [done] at ok
    cases ok
    exact ⟨given, rfl, rfl⟩

theorem effect_map_eq_error {change : α → β} {edit : Edit σ α} {state after : σ} {error : TreeError}
    (failed : effect (change <$> edit) state = (.error error, after)) :
    effect edit state = (.error error, after) := by
  rw [effect_map] at failed
  obtain ⟨told, rfl⟩ := Prod.mk.inj failed
  cases ended : (effect edit state).1 with
  | error refused =>
      rw [ended] at told
      cases told
      exact Prod.ext ended rfl
  | ok value =>
      rw [ended] at told
      cases told

@[simp] theorem effect_liftM (read : Read α) (state : σ) :
    effect (liftM read : Edit σ α) state = (read.result, state) := rfl

/-- To sequence reads and to sequence the edits that only read is the same. -/
instance : LawfulMonadLift Read (Edit σ) where
  monadLift_pure _ := rfl
  monadLift_bind read _ := by
    ext1 state
    rcases read with ⟨events, _ | value⟩ <;> rfl

@[simp] theorem effect_ofRead (read : Read α) (state : σ) :
    effect (ofRead read : Edit σ α) state = (read.result, state) := rfl

@[simp] theorem effect_fail (error : TreeError) (state : σ) :
    effect (fail error : Edit σ α) state = (.error error, state) := rfl

@[simp] theorem effect_report (event : Event) (state : σ) :
    effect (report event) state = (.ok (), state) := rfl

@[simp] theorem effect_current (state : σ) :
    effect (current : Edit σ σ) state = (.ok state, state) := rfl

@[simp] theorem effect_modify (change : σ → σ) (state : σ) :
    effect (modify change) state = (.ok (), change state) := rfl

@[simp] theorem effect_ofFunction (change : σ → Except TreeError α × σ) (state : σ) :
    effect (ofFunction change) state = change state := rfl

theorem effect_attempt (change : σ → Except TreeError σ) (state : σ) :
    effect (attempt change) state =
      match change state with
      | .error error => (.error error, state)
      | .ok next => (.ok (), next) := by
  simp only [effect, attempt, run]
  cases change state <;> rfl

@[simp] theorem effect_when (condition : Bool) (edit : Edit σ Unit) (state : σ) :
    effect (when condition edit) state =
      if condition then effect edit state else (.ok (), state) := by
  cases condition <;> rfl

@[simp] theorem effect_onPart (get : σ → τ) (set : τ → σ → σ) (edit : Edit τ α) (state : σ) :
    effect (onPart get set edit) state =
      ((effect edit (get state)).1, set (effect edit (get state)).2 state) := rfl

/-- An edit that succeeds tells the state that it ends in. -/
theorem result_toRead_of_ok {edit : Edit σ α} {state after : σ} {value : α}
    (ok : effect edit state = (.ok value, after)) :
    (toRead edit state).result = .ok (value, after) := by
  rw [effect, Prod.mk.injEq] at ok
  obtain ⟨result, rfl⟩ := ok
  change Except.map _ (edit.run state).result = _
  rw [result]
  rfl

theorem result_toRead_of_error {edit : Edit σ α} {state after : σ} {error : TreeError}
    (failed : effect edit state = (.error error, after)) :
    (toRead edit state).result = .error error := by
  rw [effect, Prod.mk.injEq] at failed
  change Except.map _ (edit.run state).result = _
  rw [failed.1]
  rfl

/-- The state that an edit tells is the one that it ends in. -/
theorem effect_of_result_toRead {edit : Edit σ α} {state after : σ} {value : α}
    (ok : (toRead edit state).result = .ok (value, after)) :
    effect edit state = (.ok value, after) := by
  change Except.map _ (edit.run state).result = _ at ok
  rw [effect]
  cases ended : (edit.run state).result with
  | error error =>
      rw [ended] at ok
      cases ok
  | ok result =>
      rw [ended] at ok
      cases ok
      rfl

/-- A read that succeeds hands its value on. -/
theorem effect_liftM_bind {read : Read α} {next : α → Edit σ β} {state : σ} {value : α}
    (ok : read.result = .ok value) :
    effect (liftM read >>= next) state = effect (next value) state :=
  effect_bind_of_ok (by rw [effect_liftM, ok])

theorem effect_liftM_bind_of_error {read : Read α} {next : α → Edit σ β} {state : σ}
    {error : TreeError} (failed : read.result = .error error) :
    effect (liftM read >>= next) state = (.error error, state) :=
  effect_bind_of_error (Prod.ext failed rfl)

/-- A sequence that starts with a read has succeeded if the read has. -/
theorem effect_liftM_bind_eq_ok {read : Read α} {next : α → Edit σ β} {state after : σ} {value : β}
    (ok : effect (liftM read >>= next) state = (.ok value, after)) :
    ∃ given, read.result = .ok given ∧ effect (next given) state = (.ok value, after) := by
  obtain ⟨given, middle, first, rest⟩ := effect_bind_eq_ok ok
  rw [effect_liftM, Prod.mk.injEq] at first
  obtain ⟨result, rfl⟩ := first
  exact ⟨given, result, rest⟩

/-- The current state is handed on. -/
@[simp] theorem effect_current_bind (next : σ → Edit σ β) (state : σ) :
    effect (current >>= next) state = effect (next state) state := rfl

@[simp] theorem effect_forM_nil (edit : α → Edit σ PUnit) (state : σ) :
    effect (([] : List α).forM edit) state = (.ok ⟨⟩, state) := rfl

/-- After the edit of a first item that succeeds, the others follow. -/
theorem effect_forM_cons_of_ok {item : α} {items : List α} {edit : α → Edit σ PUnit}
    {state after : σ} (ok : effect (edit item) state = (.ok ⟨⟩, after)) :
    effect ((item :: items).forM edit) state = effect (items.forM edit) after :=
  effect_bind_of_ok ok

/-- After the edits of a first list that succeed, those of a second one follow. -/
theorem effect_forM_append_of_ok {first second : List α} {edit : α → Edit σ PUnit}
    {state after : σ} (ok : effect (first.forM edit) state = (.ok ⟨⟩, after)) :
    effect ((first ++ second).forM edit) state = effect (second.forM edit) after := by
  have split : (first ++ second).forM edit =
      (do first.forM edit; second.forM edit) := List.forM_append
  rw [split, effect_bind_of_ok ok]

/-- Items whose edit is not made may be left out. -/
theorem forM_when (condition : α → Bool) (edit : α → Edit σ Unit) (items : List α) :
    (items.forM fun item => when (condition item) (edit item)) =
      (items.filter condition).forM edit := by
  induction items with
  | nil => rfl
  | cons item items inductionHypothesis =>
      change (when (condition item) (edit item) >>= fun _ => _) = _
      rw [inductionHypothesis, List.filter_cons]
      cases condition item with
      | true => rfl
      | false => exact pure_bind _ _

/-! ## What edits keep -/

/-- An edit keeps a property of the state, whether it succeeds or fails. -/
def Keeps (invariant : σ → Prop) (edit : Edit σ α) : Prop :=
  ∀ state, invariant state → invariant (effect edit state).2

variable {invariant : σ → Prop}

theorem Keeps.of_ok {edit : Edit σ α} {state after : σ} {value : α} (keeps : Keeps invariant edit)
    (holds : invariant state) (ok : effect edit state = (.ok value, after)) : invariant after := by
  have kept := keeps state holds
  rwa [ok] at kept

theorem Keeps.bind {first : Edit σ α} {next : α → Edit σ β} (keeps : Keeps invariant first)
    (rest : ∀ value, Keeps invariant (next value)) : Keeps invariant (first >>= next) := by
  intro state holds
  have middle := keeps state holds
  rcases done : effect first state with ⟨error | value, after⟩
  · rw [effect_bind_of_error done]
    rwa [done] at middle
  · rw [effect_bind_of_ok done]
    rw [done] at middle
    exact rest value after middle

theorem keeps_pure (value : α) : Keeps invariant (pure value : Edit σ α) :=
  fun _ holds => holds

/-- A read changes nothing. -/
theorem keeps_liftM (read : Read α) : Keeps invariant (liftM read : Edit σ α) :=
  fun _ holds => holds

/-- What follows a read needs to keep a property only for the value that was read. -/
theorem keeps_liftM_bind {read : Read α} {next : α → Edit σ β}
    (rest : ∀ value, read.result = .ok value → Keeps invariant (next value)) :
    Keeps invariant (liftM read >>= next) := by
  intro state holds
  cases ended : read.result with
  | error error => rwa [effect_liftM_bind_of_error ended]
  | ok value =>
      rw [effect_liftM_bind ended]
      exact rest value ended state holds

/-- An edit leads from one property of the state to another, whether it succeeds or fails. -/
def Leads (before after : σ → Prop) (edit : Edit σ α) : Prop :=
  ∀ state, before state → after (effect edit state).2

/-- After a first edit that keeps what it starts from, the rest has to lead on. -/
theorem Keeps.bind_leads {reached : σ → Prop} {first : Edit σ α} {next : α → Edit σ β}
    (keeps : Keeps reached first) (implies : ∀ state, reached state → invariant state)
    (rest : ∀ value, Leads reached invariant (next value)) : Leads reached invariant (first >>= next) := by
  intro state holds
  have middle := keeps state holds
  rcases done : effect first state with ⟨error | value, after⟩
  · rw [effect_bind_of_error done]
    rw [done] at middle
    exact implies after middle
  · rw [effect_bind_of_ok done]
    rw [done] at middle
    exact rest value after middle

/-- After a first edit that has led to some property, the rest has to lead from that property back to the
invariant. -/
theorem keeps_bind_of_leads {reached : σ → Prop} {first : Edit σ α} {next : α → Edit σ β}
    (keeps : Keeps invariant first)
    (leads : ∀ {state after value}, invariant state → effect first state = (.ok value, after) →
      reached after)
    (rest : ∀ value, Leads reached invariant (next value)) : Keeps invariant (first >>= next) := by
  intro state holds
  have middle := keeps state holds
  rcases done : effect first state with ⟨error | value, after⟩
  · rw [effect_bind_of_error done]
    rwa [done] at middle
  · rw [effect_bind_of_ok done]
    exact rest value after (leads holds done)

/-- After a first edit that has led to a property which implies the invariant, the rest needs to keep
that property only. -/
theorem keeps_bind_of_ok {reached : σ → Prop} {first : Edit σ α} {next : α → Edit σ β}
    (keeps : Keeps invariant first)
    (leads : ∀ {state after value}, invariant state → effect first state = (.ok value, after) →
      reached after)
    (rest : ∀ value, Keeps reached (next value)) (implies : ∀ state, reached state → invariant state) :
    Keeps invariant (first >>= next) :=
  keeps_bind_of_leads keeps leads fun value state held => implies _ (rest value state held)

theorem keeps_when {condition : Bool} {edit : Edit σ Unit} (keeps : Keeps invariant edit) :
    Keeps invariant (when condition edit) := by
  cases condition with
  | true => exact keeps
  | false => exact keeps_pure ()

/-- An edit whose value is changed keeps what the edit keeps. -/
theorem Keeps.map {change : α → β} {edit : Edit σ α} (keeps : Keeps invariant edit) :
    Keeps invariant (change <$> edit) := by
  intro state holds
  rw [effect_map]
  exact keeps state holds

/-- What follows may depend on the state that it starts from. -/
theorem keeps_bind_current {next : σ → Edit σ β}
    (rest : ∀ state, invariant state → Keeps invariant (next state)) :
    Keeps invariant (current >>= next) :=
  fun state holds => rest state holds state holds

theorem keeps_forM_of_mem {edit : α → Edit σ PUnit} {items : List α}
    (keeps : ∀ item ∈ items, Keeps invariant (edit item)) : Keeps invariant (items.forM edit) := by
  induction items with
  | nil => exact keeps_pure _
  | cons item items inductionHypothesis =>
      rw [List.forall_mem_cons] at keeps
      exact keeps.1.bind fun _ => inductionHypothesis keeps.2

theorem keeps_forM {edit : α → Edit σ PUnit} (keeps : ∀ item, Keeps invariant (edit item))
    (items : List α) : Keeps invariant (items.forM edit) :=
  keeps_forM_of_mem fun item _ => keeps item

end Edit

end VersionedTrees
