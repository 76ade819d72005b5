import Concatenative.Machine.Error

/-! Runs: computations on a stack that may write lines of output and may fail. A failed run still
has an outcome: the stack as it was left, and what was written before the failure. -/

namespace Concatenative

/-- A call of a built-in word, with the size of the stack before it. -/
structure Call where
  word : String
  depth : Nat
  deriving DecidableEq

/-- How a run ended. -/
structure Outcome (α : Type) where
  result : Except RunError α
  /-- The stack that the run left, also when it failed. -/
  stack : Stack
  /-- The lines that the run wrote, oldest first. -/
  lines : List String := []
  /-- The built-in words that the run called, oldest first. -/
  calls : List Call := []

/-- A computation on a stack. -/
def Run (α : Type) : Type := Stack → Outcome α

namespace Run

variable {α β : Type}

def pure (a : α) : Run α := fun s => { result := .ok a, stack := s }

/-- One run after another; a failure ends the whole. -/
def bind (first : Run α) (next : α → Run β) : Run β := fun s =>
  match first s with
  | ⟨.error e, s, lines, calls⟩ => ⟨.error e, s, lines, calls⟩
  | ⟨.ok a, s, lines, calls⟩ =>
    let o := next a s
    ⟨o.result, o.stack, lines ++ o.lines, calls ++ o.calls⟩

instance : Monad Run where
  pure := Run.pure
  bind := Run.bind

@[simp] theorem pure_apply (a : α) (s : Stack) : (Pure.pure a : Run α) s = ⟨.ok a, s, [], []⟩ := rfl

/-- After a success the next run goes on with the stack that was left. -/
theorem bind_of_ok {first : Run α} {next : α → Run β} {s : Stack} {a : α}
    (h : (first s).result = .ok a) :
    (first >>= next) s =
      ⟨(next a (first s).stack).result, (next a (first s).stack).stack,
        (first s).lines ++ (next a (first s).stack).lines,
        (first s).calls ++ (next a (first s).stack).calls⟩ := by
  show Run.bind first next s = _
  unfold Run.bind
  split <;> simp_all

/-- After a failure nothing more is run. -/
theorem bind_of_error {first : Run α} {next : α → Run β} {s : Stack} {e : RunError}
    (h : (first s).result = .error e) :
    (first >>= next) s = ⟨.error e, (first s).stack, (first s).lines, (first s).calls⟩ := by
  show Run.bind first next s = _
  unfold Run.bind
  split <;> simp_all

instance : LawfulMonad Run := LawfulMonad.mk' Run
  (fun x => by
    funext s
    show Run.bind x Run.pure s = x s
    unfold Run.bind Run.pure
    split <;> simp_all)
  (fun a f => by
    funext s
    show Run.bind (Run.pure a) f s = f a s
    simp [Run.bind, Run.pure])
  (fun x f g => by
    funext s
    show Run.bind (Run.bind x f) g s = Run.bind x (fun a => Run.bind (f a) g) s
    unfold Run.bind
    rcases x s with ⟨_ | a, t, lines, calls⟩
    · rfl
    · rcases h : f a t with ⟨_ | b, t', lines', calls'⟩ <;> simp [h, List.append_assoc])

def fail (e : RunError) : Run α := fun s => { result := .error e, stack := s }

def push (v : Value) : Run Unit := fun s => { result := .ok (), stack := v :: s }

/-- Notes the call of a built-in word. -/
def note (word : String) : Run Unit := fun s =>
  { result := .ok (), stack := s, calls := [⟨word, s.length⟩] }

def write (line : String) : Run Unit := fun s =>
  { result := .ok (), stack := s, lines := [line] }

/-- Takes the top value. -/
def pop (op : String) : Run Value := fun s =>
  match s with
  | [] => { result := .error (.stackUnderflow op), stack := [] }
  | v :: s => { result := .ok v, stack := s }

/-- Fails, and leaves the stack alone, if it holds fewer than `n` values. -/
def need (op : String) (n : Nat) : Run Unit := fun s =>
  if s.length < n then { result := .error (.stackUnderflow op), stack := s }
  else { result := .ok (), stack := s }

/-- Takes the two top values, the upper one last. -/
def popTwo (op : String) : Run (Value × Value) := do
  need op 2
  let b ← pop op
  let a ← pop op
  return (a, b)

/-- Takes the top value and keeps it if `read` accepts it. A value that is not accepted is lost. -/
def popAs (op : String) (expected : Expectation) (read : Value → Option α) : Run α := do
  let v ← pop op
  match read v with
  | some a => return a
  | none => fail (.typeMismatch op expected v.tag)

/-- Takes a value whose contents can be looked at: one without quotations. -/
def popPlain (op : String) : Run Value :=
  popAs op .plain fun v => if v.hasQuotation then none else some v

def popInt (op : String) : Run Int64 :=
  popAs op (.tag .int) fun v => match v with
    | .literal (.int n) => some n
    | _ => none

def popBool (op : String) : Run Bool :=
  popAs op (.tag .bool) fun v => match v with
    | .literal (.bool b) => some b
    | _ => none

def popString (op : String) : Run String :=
  popAs op (.tag .string) fun v => match v with
    | .literal (.string s) => some s
    | _ => none

def popList (op : String) : Run (List Value) :=
  popAs op (.tag .list) fun v => match v with
    | .list items => some items
    | _ => none

def popQuotation (op : String) : Run Block :=
  popAs op (.tag .quotation) fun v => match v with
    | .quotation block => some block
    | _ => none

end Run

end Concatenative
