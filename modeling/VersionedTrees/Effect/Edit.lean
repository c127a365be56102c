import VersionedTrees.Effect.Read

/-!
# Edits

An edit changes a state. Like a read it reports events and may fail; what it changed before it
failed stays changed, so the state after an edit is there however the edit ended.
-/

namespace VersionedTrees

/-- The events of an edit, the state it left, and how it ended. -/
@[ext] structure Edited (σ α : Type) where
  events : List Event
  state : σ
  result : Except TreeError α

/-- A change of a state of type `σ` that has a value of type `α` when it succeeds. -/
def Edit (σ α : Type) : Type := σ → Edited σ α

namespace Edit

variable {σ τ α β : Type}

/-- Carries an edit out. -/
def run (edit : Edit σ α) (state : σ) : Edited σ α := edit state

instance : Monad (Edit σ) where
  pure value := fun state => ⟨[], state, .ok value⟩
  bind first next := fun state =>
    let before := first.run state
    match before.result with
    | .error error => ⟨before.events, before.state, .error error⟩
    | .ok value =>
      let after := (next value).run before.state
      ⟨before.events ++ after.events, after.state, after.result⟩

@[ext] theorem ext {left right : Edit σ α} (same : ∀ state, left.run state = right.run state) :
    left = right :=
  funext same

/-- An edit that only reads. -/
def ofRead (read : Read α) : Edit σ α := fun state => ⟨read.events, state, read.result⟩

instance : MonadLift Read (Edit σ) := ⟨ofRead⟩

/-- An edit that fails and changes nothing. -/
def fail (error : TreeError) : Edit σ α := ofRead (Read.fail error)

/-- An edit that only reports an event. -/
def report (event : Event) : Edit σ Unit := ofRead (Read.report event)

/-- The current state. -/
def current : Edit σ σ := fun state => ⟨[], state, .ok state⟩

/-- Changes the state by a function. -/
def modify (change : σ → σ) : Edit σ Unit := fun state => ⟨[], change state, .ok ()⟩

/-- Changes the state by a function that may fail; a failure changes nothing. -/
def attempt (change : σ → Except TreeError σ) : Edit σ Unit := fun state =>
  match change state with
  | .error error => ⟨[], state, .error error⟩
  | .ok next => ⟨[], next, .ok ()⟩

/-- Changes the state by a function that leaves a state however it ends. -/
def ofFunction (change : σ → Except TreeError α × σ) : Edit σ α := fun state =>
  ⟨[], (change state).2, (change state).1⟩

/-- Makes an edit only if a condition holds. -/
def when (condition : Bool) (edit : Edit σ Unit) : Edit σ Unit :=
  if condition then edit else pure ()

/-- An edit of a part of a larger state. -/
def onPart (get : σ → τ) (set : τ → σ → σ) (edit : Edit τ α) : Edit σ α := fun state =>
  let after := edit.run (get state)
  ⟨after.events, set after.state state, after.result⟩

/-- An edit of a state of its own, from a given start, as a read of the state that it ends in. -/
def toRead (edit : Edit σ α) (start : σ) : Read (α × σ) :=
  let after := edit.run start
  ⟨after.events, after.result.map fun value => (value, after.state)⟩

@[simp] theorem run_pure (value : α) (state : σ) :
    (pure value : Edit σ α).run state = ⟨[], state, .ok value⟩ := rfl

theorem run_bind (first : Edit σ α) (next : α → Edit σ β) (state : σ) :
    (first >>= next).run state =
      match (first.run state).result with
      | .error error => ⟨(first.run state).events, (first.run state).state, .error error⟩
      | .ok value =>
        let after := (next value).run (first.run state).state
        ⟨(first.run state).events ++ after.events, after.state, after.result⟩ := rfl

@[simp] theorem run_ofRead (read : Read α) (state : σ) :
    (ofRead read : Edit σ α).run state = ⟨read.events, state, read.result⟩ := rfl

@[simp] theorem run_fail (error : TreeError) (state : σ) :
    (fail error : Edit σ α).run state = ⟨[], state, .error error⟩ := rfl

@[simp] theorem run_current (state : σ) :
    (current : Edit σ σ).run state = ⟨[], state, .ok state⟩ := rfl

@[simp] theorem run_when (condition : Bool) (edit : Edit σ Unit) (state : σ) :
    (when condition edit).run state =
      if condition then edit.run state else ⟨[], state, .ok ()⟩ := by
  cases condition <;> rfl

@[simp] theorem run_modify (change : σ → σ) (state : σ) :
    (modify change).run state = ⟨[], change state, .ok ()⟩ := rfl

private theorem edit_id_map {α : Type} (edit : Edit σ α) : id <$> edit = edit := by
  ext1 state
  change (edit >>= pure ∘ id).run state = edit.run state
  rw [run_bind]
  rcases edit.run state with ⟨events, after, _ | value⟩ <;> simp

private theorem edit_bind_assoc {α β γ : Type} (first : Edit σ α) (second : α → Edit σ β)
    (third : β → Edit σ γ) :
    first >>= second >>= third = first >>= fun value => second value >>= third := by
  ext1 state
  simp only [run_bind]
  rcases first.run state with ⟨events, after, _ | value⟩
  · rfl
  · change Edited.mk _ _ _ = Edited.mk _ _ _
    cases ((second value).run after).result <;> simp

instance : LawfulMonad (Edit σ) :=
  LawfulMonad.mk' _ edit_id_map (fun value next => by ext1 state; simp [run_bind]) edit_bind_assoc

end Edit

end VersionedTrees
