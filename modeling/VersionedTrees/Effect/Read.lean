import VersionedTrees.Event

/-!
# Reads

A read changes nothing. It reports events as it goes and ends with a value or with the reason that
there is none; the events before a failure stay reported. `Read` is a lawful monad, and forgetting
the events (`Read.result`) carries its sequencing to that of `Except`.
-/

namespace VersionedTrees

/-- The events of a read, in order, and how it ended. -/
@[ext] structure Read (α : Type) where
  events : List Event
  result : Except TreeError α

namespace Read

variable {α β : Type}

instance : Monad Read where
  pure value := ⟨[], .ok value⟩
  bind first next :=
    match first.result with
    | .error error => ⟨first.events, .error error⟩
    | .ok value => ⟨first.events ++ (next value).events, (next value).result⟩

/-- A read that fails. -/
def fail (error : TreeError) : Read α := ⟨[], .error error⟩

/-- A read that reports an event. -/
def report (event : Event) : Read Unit := ⟨[event], .ok ()⟩

/-- A read that has an outcome and reports nothing. -/
def ofExcept (result : Except TreeError α) : Read α := ⟨[], result⟩

/-- The value of an optional result, or a failure for want of it. -/
def orFail (error : TreeError) : Option α → Read α
  | none => fail error
  | some value => pure value

/-- Goes on if a condition holds and fails otherwise. -/
def require (condition : Bool) (error : TreeError) : Read Unit :=
  if condition then pure () else fail error

/-- A read that tells how another one ended, and does not fail itself. -/
def outcome (read : Read α) : Read (Except TreeError α) := ⟨read.events, .ok read.result⟩

@[simp] theorem result_pure (value : α) : (pure value : Read α).result = .ok value := rfl

@[simp] theorem events_pure (value : α) : (pure value : Read α).events = [] := rfl

@[simp] theorem result_bind (first : Read α) (next : α → Read β) :
    (first >>= next).result = first.result >>= fun value => (next value).result := by
  rcases first with ⟨events, _ | value⟩ <;> rfl

theorem events_bind (first : Read α) (next : α → Read β) :
    (first >>= next).events = first.events ++
      match first.result with
      | .error _ => []
      | .ok value => (next value).events := by
  rcases first with ⟨events, _ | value⟩ <;> simp [bind]

@[simp] theorem result_fail (error : TreeError) : (fail error : Read α).result = .error error := rfl

@[simp] theorem events_fail (error : TreeError) : (fail error : Read α).events = [] := rfl

@[simp] theorem result_report (event : Event) : (report event).result = .ok () := rfl

@[simp] theorem result_ofExcept (result : Except TreeError α) :
    (ofExcept result).result = result := rfl

@[simp] theorem result_orFail_none (error : TreeError) :
    (orFail error none : Read α).result = .error error := rfl

@[simp] theorem result_orFail_some (error : TreeError) (value : α) :
    (orFail error (some value)).result = .ok value := rfl

@[simp] theorem result_outcome (read : Read α) : read.outcome.result = .ok read.result := rfl

@[simp] theorem result_require (condition : Bool) (error : TreeError) :
    (require condition error).result = if condition then .ok () else .error error := by
  cases condition <;> rfl

@[simp] theorem events_require (condition : Bool) (error : TreeError) :
    (require condition error).events = [] := by
  cases condition <;> rfl

private theorem read_id_map {α : Type} (read : Read α) : id <$> read = read := by
  rcases read with ⟨events, _ | value⟩
  · rfl
  · simp [Functor.map]

private theorem read_bind_assoc {α β γ : Type} (first : Read α) (second : α → Read β)
    (third : β → Read γ) :
    first >>= second >>= third = first >>= fun value => second value >>= third := by
  rcases first with ⟨events, _ | value⟩
  · rfl
  · rcases same : second value with ⟨events', _ | value'⟩ <;> simp [bind, same]

instance : LawfulMonad Read :=
  LawfulMonad.mk' _ read_id_map (fun value next => by simp [bind, pure]) read_bind_assoc

end Read

end VersionedTrees
