import Lowering.Fault

/-!
# Passes

A pass computes a result or stops with a fault, and leaves notes on its way.  Notes made before a
fault are kept.  `Pass.result` is a monad morphism to `Except Fault`, so a statement about results
never has to mention notes.
-/

namespace Lowering

/-- The part of the program a note comes from. -/
inductive Topic where
  | program
  | pruning
  | dominators
  | promotion
  | interference
  | spilling
  | allocation
deriving DecidableEq, Repr

/-- The path a topic is shown with. -/
def Topic.path : Topic → String
  | program => "rvlower"
  | pruning => "rvlower::ir"
  | dominators => "rvlower::ssa::dom_tree"
  | promotion => "rvlower::ssa::mem2reg"
  | interference => "rvlower::regalloc::interference"
  | spilling => "rvlower::regalloc::spill"
  | allocation => "rvlower::regalloc::allocation"

/-- One remark on what a pass did. -/
structure Note where
  topic : Topic
  text : String
deriving DecidableEq, Repr

/-- The line of a note; the later lines of a text are indented under the first. -/
def Note.line (note : Note) : String :=
  "[DEBUG " ++ note.topic.path ++ "] " ++ "\n    ".intercalate (note.text.splitOn "\n") ++ "\n"

/-- A result or a fault, with the notes made on the way to it. -/
structure Pass (α : Type) where
  notes : List Note
  result : Except Fault α

namespace Pass

variable {α β : Type}

protected def pure (a : α) : Pass α := ⟨[], .ok a⟩

protected def bind (first : Pass α) (next : α → Pass β) : Pass β :=
  match first.result with
  | .error fault => ⟨first.notes, .error fault⟩
  | .ok a =>
      let rest := next a
      ⟨first.notes ++ rest.notes, rest.result⟩

instance : Monad Pass where
  pure := Pass.pure
  bind := Pass.bind

/-- A computation without notes. -/
def lift (result : Except Fault α) : Pass α := ⟨[], result⟩

instance : MonadLift (Except Fault) Pass where
  monadLift := lift

def note (topic : Topic) (text : String) : Pass Unit := ⟨[⟨topic, text⟩], .ok ()⟩

@[simp]
theorem result_pure (a : α) : (pure a : Pass α).result = .ok a := rfl

@[simp]
theorem result_bind (first : Pass α) (next : α → Pass β) :
    (first >>= next).result = first.result.bind fun a => (next a).result := by
  show (Pass.bind first next).result = _
  unfold Pass.bind
  cases first.result <;> rfl

/-- A sequence of two passes succeeds if both do. -/
theorem result_bind_eq_ok {first : Pass α} {next : α → Pass β} {b : β} :
    (first >>= next).result = .ok b ↔ ∃ a, first.result = .ok a ∧ (next a).result = .ok b := by
  rw [result_bind]
  exact bind_eq_ok

theorem result_bind_of_ok {first : Pass α} {next : α → Pass β} {a : α}
    (done : first.result = .ok a) : (first >>= next).result = (next a).result := by
  rw [result_bind, done]
  rfl

theorem result_bind_of_error {first : Pass α} {next : α → Pass β} {fault : Fault}
    (stopped : first.result = .error fault) : (first >>= next).result = .error fault := by
  rw [result_bind, stopped]
  rfl

theorem exists_result_bind {first : Pass α} {next : α → Pass β} {a : α}
    (done : first.result = .ok a) (rest : ∃ b, (next a).result = .ok b) :
    ∃ b, (first >>= next).result = .ok b :=
  rest.imp fun _ isResult => result_bind_eq_ok.mpr ⟨a, done, isResult⟩

@[simp]
theorem result_lift (result : Except Fault α) : (lift result).result = result := rfl

@[simp]
theorem result_note (topic : Topic) (text : String) : (note topic text).result = .ok () := rfl

end Pass

end Lowering
