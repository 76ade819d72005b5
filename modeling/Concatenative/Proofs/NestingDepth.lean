import Concatenative.Machine.Stepwise
import Concatenative.Proofs.Following
import Mathlib.Logic.Relation

/-! The counter of nested calls. Whatever is begun comes to its end in finitely many steps, and to
the end that the recursive evaluation gives it. Until then the counter lies between its value at the
beginning and the limit, and at the end it has that value again, whether the end is a success or a
failure. The induction is on the number of levels that are left above the counter, and for
instructions on those that are left to run. -/

namespace Concatenative

namespace Outcome

variable {o : Outcome Unit} {r r' : Run Unit}

theorem andThen_of_error {e : RunError} (h : o.result = .error e) : o.andThen r = o := by
  simp only [andThen, h]

theorem andThen_of_ok (h : o.result = .ok ()) : o.andThen r =
    ⟨(r o.stack).result, (r o.stack).stack, o.lines ++ (r o.stack).lines,
      o.calls ++ (r o.stack).calls⟩ := by
  simp only [andThen, h]

theorem andThen_pure : o.andThen (pure ()) = o := by
  obtain ⟨_ | _, stack, lines, calls⟩ := o <;> simp [andThen]

theorem andThen_bind : o.andThen (r >>= fun _ => r') = (o.andThen r).andThen r' := by
  cases ho : o.result with
  | error e => rw [andThen_of_error ho, andThen_of_error ho, andThen_of_error ho]
  | ok =>
    rw [andThen_of_ok ho]
    cases hr : (r o.stack).result with
    | error e =>
      rw [Run.bind_of_error hr, andThen_of_ok ho, andThen_of_error (e := e) (by exact hr), hr]
    | ok =>
      rw [Run.bind_of_ok hr, andThen_of_ok ho, andThen_of_ok (by exact hr)]
      simp only [List.append_assoc]

end Outcome

namespace Primitive

variable {p : Primitive} {s t : Stack} {b : Block} {saved : Option Value}

theorem exec_of_invoked? (h : p.invoked? s = some (b, saved, t)) (mode : Mode)
    (invoke : Block → Run Unit) :
    p.exec mode invoke s = (do invoke b; saved.toList.forM Run.push : Run Unit) t := by
  unfold invoked? at h
  split at h
  · obtain ⟨rfl, rfl, rfl⟩ : _ ∧ _ ∧ _ := by simpa using h
    show _ = (do invoke _; pure () : Run Unit) _
    rw [bind_pure_unit]
    rfl
  · obtain ⟨rfl, rfl, rfl⟩ : _ ∧ _ ∧ _ := by simpa using h
    show _ = (do invoke _; Run.push _; pure () : Run Unit) _
    rw [bind_pure_unit]
    rfl
  · obtain ⟨rfl, rfl, rfl⟩ : _ ∧ _ ∧ _ := by simpa using h
    show _ = (do invoke _; pure () : Run Unit) _
    rw [bind_pure_unit]
    rfl
  · cases h

theorem exec_of_invoked?_eq_none (h : p.invoked? s = none) (mode : Mode)
    (invoke invoke' : Block → Run Unit) : p.exec mode invoke s = p.exec mode invoke' s := by
  rcases p.exec_cases s with ⟨b, t, hb⟩ | ⟨line, hline⟩ | ⟨o, -, ho⟩
  · cases hb <;> simp [invoked?] at h
  · obtain ⟨t, hexec⟩ := hline.exec
    rw [hexec, hexec]
  · rw [ho, ho]

end Primitive

/-- The outcome of an activity by the recursive evaluation, when that many nested calls are still
allowed. -/
def Activity.run (m : Machine) (mode : Mode) (calls : Nat) : Activity → Run Unit
  | .sequence b => m.runBlock mode calls b
  | .call name => m.evalTerm mode calls (.word name)
  | .block b => m.invoke mode calls b

namespace Execution

variable {m : Machine} {mode : Mode} {calls low : Nat} {rest : List Pending} {x y : Execution}

theorem perform_bind (r r' : Run Unit) :
    x.perform (r >>= fun _ => r') = (x.perform r).perform r' := by
  simp only [perform, Outcome.andThen_bind]

theorem perform_pure : x.perform (pure ()) = x := by
  simp only [perform, Outcome.andThen_pure]

theorem perform_of_error {e : RunError} (h : x.outcome.result = .error e) (r : Run Unit) :
    x.perform r = x := by
  simp only [perform, Outcome.andThen_of_error h]

theorem perform_withStack {r r' : Run Unit} {s : Stack} (h : x.outcome.result = .ok ())
    (hs : r x.outcome.stack = r' s) : x.perform r = (x.withStack s).perform r' := by
  have h' : (x.withStack s).outcome.result = .ok () := h
  simp only [perform, Outcome.andThen_of_ok h, Outcome.andThen_of_ok h', hs]
  rfl

theorem step_start_of_error {e : RunError} (h : x.outcome.result = .error e) (a : Activity) :
    (x.plan [.start a]).step m mode = some x := by
  simp only [step, plan, List.singleton_append, h]

theorem step_start_of_ok (h : x.outcome.result = .ok ()) (a : Activity) :
    (x.plan [.start a]).step m mode = some (x.begun m mode a) := by
  simp only [step, plan, List.singleton_append, h]

/-- Something is left to do before `rest` is, and the counter is in its bounds. -/
structure During (m : Machine) (rest : List Pending) (low : Nat) (x : Execution) : Prop where
  pending : ∃ item items, x.pending = item :: (items ++ rest)
  low_le : low ≤ x.depth
  le_limit : x.depth ≤ m.limit

/-- Steps lead from one state to another before `rest` is left to do, with the counter in its
bounds. -/
def Passes (m : Machine) (mode : Mode) (rest : List Pending) (low : Nat) :
    Execution → Execution → Prop :=
  Relation.ReflTransGen fun x y => During m rest low x ∧ x.step m mode = some y

theorem During.mono {items : List Pending} {low' : Nat} (h : During m (items ++ rest) low' x)
    (hlow : low ≤ low') : During m rest low x := by
  obtain ⟨item, items', hpending⟩ := h.pending
  refine ⟨⟨item, items' ++ items, ?_⟩, Nat.le_trans hlow h.low_le, h.le_limit⟩
  rw [hpending, List.append_assoc]

theorem Passes.mono {items : List Pending} {low' : Nat}
    (h : Passes m mode (items ++ rest) low' x y) (hlow : low ≤ low') :
    Passes m mode rest low x y :=
  Relation.ReflTransGen.mono (fun _ _ hstep => ⟨hstep.1.mono hlow, hstep.2⟩) _ _ h

/-- An activity that is begun when that many nested calls are still allowed ends as it does in the
recursive evaluation, with all that was left to do before it and the counter as it was. -/
def Settles (m : Machine) (mode : Mode) (calls : Nat) (a : Activity) : Prop :=
  ∀ x : Execution, x.depth + calls = m.limit →
    Passes m mode x.pending x.depth (x.plan [.start a]) (x.perform (a.run m mode calls))

/-- After a failure an activity is left out, so only its first step is to be looked at. -/
theorem settles_of_begun {a : Activity} (h : ∀ x : Execution, x.depth + calls = m.limit →
    x.outcome.result = .ok () →
      Passes m mode x.pending x.depth (x.begun m mode a) (x.perform (a.run m mode calls))) :
    Settles m mode calls a := by
  intro x hx
  have hlimit : x.depth ≤ m.limit := by omega
  have hduring : During m x.pending x.depth (x.plan [.start a]) :=
    ⟨⟨.start a, [], rfl⟩, Nat.le_refl _, hlimit⟩
  cases hresult : x.outcome.result with
  | error e =>
    rw [perform_of_error hresult]
    exact .single ⟨hduring, step_start_of_error hresult a⟩
  | ok => exact .head ⟨hduring, step_start_of_ok hresult a⟩ (h x hx hresult)

theorem settles_sequence (hcall : ∀ name, Settles m mode calls (.call name)) (b : Block) :
    Settles m mode calls (.sequence b) := by
  induction b with
  | nil =>
    refine settles_of_begun fun x _ _ => ?_
    simp only [Activity.run, Machine.runBlock_nil, perform_pure]
    exact .refl
  | cons i b ih =>
    refine settles_of_begun fun x hx _ => ?_
    rw [Activity.run, Machine.runBlock_cons, perform_bind]
    have hrest := ih (x.perform (m.perform mode (m.invoke mode calls) i)) hx
    match i with
    | .push v | .run (.literal l) | .run (.quotation body) => exact hrest
    | .run (.word name) =>
      have hword := hcall name (x.plan [.start (.sequence b)]) hx
      exact Relation.ReflTransGen.trans (hword.mono (Nat.le_refl _)) hrest

theorem settles_block_zero (b : Block) : Settles m mode 0 (.block b) := by
  refine settles_of_begun fun x hx _ => ?_
  have hlimit : ¬x.depth < m.limit := by omega
  simp only [begun, descend, if_neg hlimit, Activity.run, Machine.invoke_zero]
  exact .refl

theorem settles_block_succ {b : Block} (hsequence : Settles m mode calls (.sequence b)) :
    Settles m mode (calls + 1) (.block b) := by
  refine settles_of_begun fun x hx _ => ?_
  have hlimit : x.depth < m.limit := by omega
  simp only [begun, descend, if_pos hlimit, Activity.run, Machine.invoke_succ]
  let inner : Execution := { x with depth := x.depth + 1 }.plan [.ascend]
  have hinner : Passes m mode ([.ascend] ++ x.pending) (x.depth + 1)
      (inner.plan [.start (.sequence b)]) (inner.perform (m.runBlock mode calls b)) :=
    hsequence inner (by show x.depth + 1 + calls = m.limit; omega)
  have hleft : During m x.pending x.depth (inner.perform (m.runBlock mode calls b)) :=
    ⟨⟨.ascend, [], rfl⟩, Nat.le_succ _, hlimit⟩
  exact (hinner.mono (Nat.le_succ _)).tail ⟨hleft, rfl⟩

/-- The values that a built-in word puts back are put back after its block, unless that has
failed. -/
theorem passes_restored (hblock : ∀ b, Settles m mode calls (.block b)) (b : Block)
    (saved : Option Value) (hx : x.depth + calls = m.limit) :
    Passes m mode x.pending x.depth (x.plan (.start (.block b) :: saved.toList.map .restore))
      (x.perform (do m.invoke mode calls b; saved.toList.forM Run.push)) := by
  have hrun := (hblock b (x.plan (saved.toList.map .restore)) hx).mono (Nat.le_refl x.depth)
  rw [perform_bind]
  cases saved with
  | none => exact perform_pure.symm ▸ hrun
  | some v =>
    have hlimit : x.depth ≤ m.limit := by omega
    have hduring : During m x.pending x.depth
        ((x.perform (m.invoke mode calls b)).plan [.restore v]) :=
      ⟨⟨.restore v, [], rfl⟩, Nat.le_refl _, hlimit⟩
    have hpush : [v].forM Run.push = (do Run.push v; pure () : Run Unit) := rfl
    show Passes m mode x.pending x.depth _ ((x.perform _).perform ([v].forM Run.push))
    rw [hpush, perform_bind, perform_pure]
    exact hrun.tail ⟨hduring, rfl⟩

theorem passes_builtin (hblock : ∀ b, Settles m mode calls (.block b)) (p : Primitive)
    (hx : x.depth + calls = m.limit) (hresult : x.outcome.result = .ok ()) :
    Passes m mode x.pending x.depth (x.callBuiltin mode p)
      (x.perform (do .note p.name; p.exec mode (m.invoke mode calls))) := by
  have hok : (x.perform (.note p.name)).outcome.result = .ok () := by
    simp only [perform, Outcome.andThen_of_ok hresult]
    rfl
  rw [perform_bind]
  unfold callBuiltin
  dsimp only
  split
  · next b saved s hinvoked =>
    rw [perform_withStack hok (p.exec_of_invoked? hinvoked mode (m.invoke mode calls))]
    exact passes_restored (x := (x.perform (.note p.name)).withStack s) hblock b saved hx
  · next hinvoked =>
    have hexec := p.exec_of_invoked?_eq_none hinvoked mode (m.invoke mode calls) fun _ => pure ()
    rw [perform_withStack hok hexec]
    exact .refl

theorem settles_call (hblock : ∀ b, Settles m mode calls (.block b)) (name : String) :
    Settles m mode calls (.call name) := by
  refine settles_of_begun fun x hx hresult => ?_
  cases hbody : m.body? name with
  | some body =>
    simp only [begun, Activity.run, Machine.evalTerm, Machine.step, hbody]
    exact hblock (Block.ofCode body) x hx
  | none =>
    cases hname : Primitive.ofName? name with
    | none =>
      simp only [begun, Activity.run, Machine.evalTerm, Machine.step, hbody, hname]
      exact .refl
    | some p =>
      obtain rfl := Primitive.name_of_ofName? hname
      simp only [begun, Activity.run, Machine.evalTerm, Machine.step, hbody, hname]
      exact passes_builtin hblock p hx hresult

theorem settles (m : Machine) (mode : Mode) (calls : Nat) (a : Activity) :
    Settles m mode calls a := by
  have hblock : ∀ b, Settles m mode calls (.block b) := by
    induction calls with
    | zero => exact settles_block_zero
    | succ calls ih => exact fun b => settles_block_succ (settles_sequence (settles_call ih) b)
  match a with
  | .sequence b => exact settles_sequence (settles_call hblock) b
  | .call name => exact settles_call hblock name
  | .block b => exact hblock b

theorem after_of_step_eq_none (h : x.step m mode = none) (n : Nat) : after m mode n x = x := by
  cases n with
  | zero => rfl
  | succ n => simp only [after, h]

theorem after_add (n k : Nat) (x : Execution) :
    after m mode (n + k) x = after m mode k (after m mode n x) := by
  induction n generalizing x with
  | zero => rw [Nat.zero_add, after]
  | succ n ih =>
    rw [Nat.succ_add, after, after]
    cases hstep : x.step m mode with
    | none => exact (after_of_step_eq_none hstep k).symm
    | some y => exact ih y

theorem exists_after_of_passes (h : Passes m mode rest low x y) :
    ∃ n, after m mode n x = y ∧ ∀ k < n, During m rest low (after m mode k x) := by
  induction h using Relation.ReflTransGen.head_induction_on with
  | refl => exact ⟨0, rfl, by omega⟩
  | @head x z hstep _ ih =>
    obtain ⟨n, hafter, hduring⟩ := ih
    have hnext : ∀ k, after m mode (k + 1) x = after m mode k z := by
      intro k
      simp only [after, hstep.2]
    refine ⟨n + 1, (hnext n).trans hafter, ?_⟩
    rintro (_ | k) hk
    · exact hstep.1
    · exact hnext k ▸ hduring k (Nat.lt_of_succ_lt_succ hk)

/-- An activity that is next comes to its end, wherever the counter stands. -/
theorem exists_after_of_start {a : Activity} (hx : x.depth ≤ m.limit)
    (hpending : x.pending = .start a :: rest) :
    ∃ n, after m mode n x =
        ⟨rest, x.depth, x.outcome.andThen (a.run m mode (m.limit - x.depth))⟩ ∧
      ∀ k < n, During m rest x.depth (after m mode k x) := by
  have hplan : x = ({ x with pending := rest } : Execution).plan [.start a] := by
    simp only [plan, List.singleton_append, ← hpending]
  have hpasses := settles m mode (m.limit - x.depth) a { x with pending := rest }
    (Nat.add_sub_cancel' hx)
  rw [← hplan] at hpasses
  exact exists_after_of_passes hpasses

/-- Every run comes to its end, which is the outcome of the recursive evaluation. Until then the
counter stays within the limit, and whatever is begun on the way comes to its own end: the counter
does not fall below its value at the beginning before that, and has that value again then. -/
theorem run_settles (m : Machine) (mode : Mode) (c : Code) (s : Stack) :
    (∃ n, ∀ k ≥ n, after m mode k (ofCode c s) = ⟨[], 0, m.run mode c s⟩) ∧
    ∀ n x, after m mode n (ofCode c s) = x → x.depth ≤ m.limit ∧
      ∀ a rest, x.pending = .start a :: rest →
        ∃ k, after m mode k x =
            ⟨rest, x.depth, x.outcome.andThen (a.run m mode (m.limit - x.depth))⟩ ∧
          ∀ i < k, During m rest x.depth (after m mode i x) := by
  obtain ⟨n, hafter, hduring⟩ : ∃ n, after m mode n (ofCode c s) = ⟨[], 0, m.run mode c s⟩ ∧
      ∀ k < n, During m [] 0 (after m mode k (ofCode c s)) := by
    rw [Machine.run_eq_runBlock]
    exact exists_after_of_start (x := ofCode c s) (Nat.zero_le _) rfl
  have hend : ∀ k ≥ n, after m mode k (ofCode c s) = ⟨[], 0, m.run mode c s⟩ := by
    intro k hk
    obtain ⟨j, rfl⟩ := Nat.exists_eq_add_of_le hk
    rw [after_add, hafter]
    exact after_of_step_eq_none rfl j
  refine ⟨⟨n, hend⟩, ?_⟩
  rintro k _ rfl
  have hlimit : (after m mode k (ofCode c s)).depth ≤ m.limit := by
    by_cases hk : k < n
    · exact (hduring k hk).le_limit
    · exact hend k (Nat.le_of_not_lt hk) ▸ Nat.zero_le _
  exact ⟨hlimit, fun a rest hpending => exists_after_of_start hlimit hpending⟩

/-- A quotation that copies itself and runs the copy, with one level allowed. After ten steps the
counter is at the limit and the second level is next; that is refused, and the counter goes back. -/
theorem run_settles_self_application :
    let copying : Code := [.word "dup", .word "apply"]
    let m : Machine := { limit := 1 }
    let rest : List Pending := [.start (.sequence []), .ascend, .start (.sequence [])]
    let x : Execution :=
      { pending := .start (.block (Block.ofCode copying)) :: rest, depth := 1
        outcome :=
          { result := .ok (), stack := [.quotation (Block.ofCode copying)]
            calls := [⟨"dup", 1⟩, ⟨"apply", 2⟩, ⟨"dup", 1⟩, ⟨"apply", 2⟩] } }
    after m .pure 10 (ofCode (.quotation copying :: copying) []) = x ∧
      (∃ k, after m .pure k x =
        ⟨rest, 1, { x.outcome with result := .error (.callDepthExceeded 1) }⟩) ∧
      ∃ n, ∀ k ≥ n, (after m .pure k (ofCode (.quotation copying :: copying) [])).depth = 0 := by
  intro copying m rest x
  have hx : after m .pure 10 (ofCode (.quotation copying :: copying) []) = x := rfl
  obtain ⟨⟨n, hend⟩, hbegun⟩ := run_settles m .pure (.quotation copying :: copying) []
  obtain ⟨k, hafter, -⟩ := (hbegun 10 x hx).2 _ _ rfl
  have hrefused : (Activity.block (Block.ofCode copying)).run m .pure (m.limit - x.depth) =
      .fail (.callDepthExceeded 1) := rfl
  refine ⟨hx, ⟨k, ?_⟩, n, fun k hk => ?_⟩
  · rw [hafter, hrefused]
    rfl
  · rw [hend k hk]

end Execution

end Concatenative
