import Concatenative.Proofs.Folding
import Mathlib.Order.Bounds.Defs

/-! Folding is greedy. It runs the longest prefix of the code that runs from the empty stack, writes
the last stack in which every value has a term, then the terms that ran since, then the term that
does not run, and goes on behind it. -/

namespace Concatenative

/-- The terms of the values of a stack, from the bottom up. -/
def Stack.terms (s : Stack) : Code := s.reverse.filterMap Value.toTerm?

def Stack.Writable (s : Stack) : Prop := ∀ v ∈ s, v.toTerm?.isSome

theorem Stack.toCode?_eq_some_iff {s : Stack} {c : Code} :
    s.toCode? = some c ↔ s.Writable ∧ c = s.terms := by
  induction s generalizing c with
  | nil =>
    have hcode : Stack.toCode? [] = some [] := rfl
    rw [hcode, Option.some_inj]
    exact ⟨fun h => ⟨fun _ hv => absurd hv List.not_mem_nil, h.symm⟩, fun h => h.2.symm⟩
  | cons v s ih =>
    simp only [toCode?_cons_eq_some, ih, Writable, terms, List.forall_mem_cons,
      Option.isSome_iff_exists, List.reverse_cons, List.filterMap_append]
    constructor
    · rintro ⟨_, t, ⟨hs, rfl⟩, ht, rfl⟩
      exact ⟨⟨⟨t, ht⟩, hs⟩, by simp [ht]⟩
    · rintro ⟨⟨⟨t, ht⟩, hs⟩, rfl⟩
      exact ⟨_, t, ⟨hs, rfl⟩, ht, by simp [ht]⟩

/-- Only words that write are declared to have effects, and they fail where no output is allowed. -/
theorem Primitive.exec_pure_of_effects {p : Primitive} (h : p.signature.effects = true)
    (invoke : Block → Run Unit) (s : Stack) : (p.exec .pure invoke s).result ≠ .ok () := by
  have hwrites : p = .print ∨ p = .writeln := by
    cases p with
    | print => exact .inl rfl
    | writeln => exact .inr rfl
    | arg i =>
      revert i
      decide
    | _ => exact absurd h (by decide)
  intro hok
  rcases hwrites with rfl | rfl
  · obtain ⟨v, -, hemit⟩ := Run.bind_eq_ok_iff.mp hok
    cases hemit
  · obtain ⟨line, -, hemit⟩ := Run.bind_eq_ok_iff.mp hok
    cases hemit

namespace Machine

variable {m : Machine}

/-- No word that runs is refused for what is known about it beforehand. -/
theorem refusal?_eq_none {t : Term} {calls : Nat} {s : Stack}
    (h : (m.evalTerm .pure calls t s).result = .ok ()) : m.refusal? t = none := by
  cases t with
  | literal l => rfl
  | quotation body => rfl
  | word name =>
    simp only [refusal?, declaration]
    simp only [evalTerm, step] at h
    cases hbody : m.body? name with
    | some body => rfl
    | none =>
      cases hname : Primitive.ofName? name with
      | none =>
        simp only [hbody, hname] at h
        cases h
      | some p =>
        obtain rfl := Primitive.name_of_ofName? hname
        simp only [hbody, hname] at h
        obtain ⟨-, -, hexec⟩ := Run.bind_eq_ok_iff.mp h
        have heffects : ¬ p.signature.effects = true :=
          fun heffects => p.exec_pure_of_effects heffects _ _ hexec
        simp only [p.builtinSignature?_name, if_neg heffects]

theorem attempt_eq_ok {t : Term} {s : Stack} (h : (m.evalTerm .pure m.limit t s).result = .ok ()) :
    (m.attempt t s).value = .ok (m.evalTerm .pure m.limit t s).stack := by
  simp only [attempt, execute, refusal?_eq_none h, h]

/-- Code runs from the empty stack without output. -/
def Runs (m : Machine) (c : Code) : Prop := (m.run .pure c []).result = .ok ()

/-- The stack that code leaves when it runs from the empty stack without output. -/
def stackAfter (m : Machine) (c : Code) : Stack := (m.run .pure c []).stack

theorem runs_append {c c' : Code} :
    m.Runs (c ++ c') ↔ m.Runs c ∧ (m.run .pure c' (m.stackAfter c)).result = .ok () := by
  unfold Runs stackAfter
  rw [run_append, Run.bind_eq_ok_iff]
  exact ⟨fun ⟨_, h, h'⟩ => ⟨h, h'⟩, fun ⟨h, h'⟩ => ⟨(), h, h'⟩⟩

/-- Code with the body of every quotation folded; words and literals are kept. -/
def foldEach (m : Machine) (c : Code) : Code := c.map fun
  | .quotation body => .quotation (m.fold body).value
  | t => t

theorem foldEach_cons (m : Machine) (t : Term) (c : Code) :
    m.foldEach (t :: c) = (m.foldTerm t).value :: m.foldEach c := by
  cases t with
  | word name => rfl
  | literal l => rfl
  | quotation body =>
    rw [foldTerm_quotation]
    rfl

theorem length_foldEach (m : Machine) (c : Code) : (m.foldEach c).length = c.length :=
  List.length_map _

theorem foldEach_append (m : Machine) (done rest : Code) :
    m.foldEach (done ++ rest) = m.foldEach done ++ m.foldEach rest :=
  List.map_append

theorem take_foldEach_append {done rest : Code} {i : Nat} (hi : i ≤ done.length) :
    (m.foldEach (done ++ rest)).take i = (m.foldEach done).take i := by
  rw [foldEach_append, List.take_append_of_le_length]
  rwa [length_foldEach]

theorem append_foldEach_nil (m : Machine) (c : Code) : c ++ m.foldEach [] = c := List.append_nil c

end Machine

namespace Segment

variable {m : Machine} {c : Code} {s : Segment}

theorem Reached.runs_code (h : Reached m c s) : m.Runs c ∧ m.stackAfter c = s.stack := by
  unfold Machine.Runs Machine.stackAfter
  rw [Machine.run_eq_runBlock]
  exact h.runs

/-- The code of a segment writes the last stack that can be written, and repeats the terms since. -/
theorem Reached.code_eq (h : Reached m c s) :
    ∃ j, IsGreatest {i | i ≤ c.length ∧ (m.stackAfter (c.take i)).Writable} j ∧
      s.code = (m.stackAfter (c.take j)).terms ++ c.drop j := by
  induction h with
  | start =>
    refine ⟨0, ⟨⟨Nat.le_refl 0, ?_⟩, fun i hi => hi.1⟩, rfl⟩
    exact fun v hv => absurd hv List.not_mem_nil
  | @step c s t stack hreached hattempt ih =>
    obtain ⟨-, hstack⟩ := (hreached.step hattempt).runs_code
    rw [extend_stack] at hstack
    cases hcode : stack.toCode? with
    | some code =>
      obtain ⟨hwritable, rfl⟩ := Stack.toCode?_eq_some_iff.mp hcode
      refine ⟨(c ++ [t]).length, ⟨⟨Nat.le_refl _, ?_⟩, fun i hi => hi.1⟩, ?_⟩
      · rwa [List.take_length, hstack]
      · rw [List.take_length, hstack, List.drop_length]
        simp [extend, hcode, Segment.code]
    | none =>
      have hopaque : ¬ stack.Writable := by
        intro hwritable
        rw [Stack.toCode?_eq_some_iff.mpr ⟨hwritable, rfl⟩] at hcode
        cases hcode
      obtain ⟨j, ⟨⟨hj, hjw⟩, hgreatest⟩, hs⟩ := ih
      refine ⟨j, ⟨⟨?_, ?_⟩, ?_⟩, ?_⟩
      · rw [List.length_append]
        omega
      · rwa [List.take_append_of_le_length hj]
      · rintro i ⟨hi, hiw⟩
        by_cases hlast : i ≤ c.length
        · rw [List.take_append_of_le_length hlast] at hiw
          exact hgreatest ⟨hlast, hiw⟩
        · rw [List.length_append] at hi
          rw [List.take_of_length_le (by simp; omega), hstack] at hiw
          exact absurd hiw hopaque
      · rw [List.take_append_of_le_length hj, List.drop_append_of_le_length hj,
          ← List.append_assoc, ← hs]
        simp [extend, hcode, Segment.code]

end Segment

namespace Machine

variable {m : Machine}

theorem Runs.take {c : Code} (h : m.Runs c) (i : Nat) : m.Runs (c.take i) := by
  rw [← List.take_append_drop i c] at h
  exact (runs_append.mp h).1

/-- The longest prefix that runs ends where a term follows that does not run behind it. -/
theorem isGreatest_runs {c rest : Code} (hruns : m.Runs c)
    (hstop : ∀ t rest', rest = t :: rest' → ¬ m.Runs (c ++ [t])) :
    IsGreatest {i | i ≤ (c ++ rest).length ∧ m.Runs ((c ++ rest).take i)} c.length := by
  refine ⟨⟨by simp, by simpa using hruns⟩, ?_⟩
  rintro i ⟨hi, hlonger⟩
  by_contra hlt
  cases rest with
  | nil =>
    rw [List.append_nil] at hi
    omega
  | cons t rest' =>
    refine hstop t rest' rfl ?_
    have hnext := hlonger.take (c.length + 1)
    rw [List.take_take, Nat.min_eq_left (by omega)] at hnext
    rwa [List.take_length_add_append] at hnext

/-- A segment comes to its end with the code, or where a term does not run behind its terms. -/
theorem foldFrom_split (ts : Code) {c : Code} {s : Segment} (hs : Segment.Reached m c s) :
    ∃ done rest s', ts = done ++ rest ∧ Segment.Reached m (c ++ m.foldEach done) s' ∧
      (∀ t rest', m.foldEach rest = t :: rest' → ¬ m.Runs (c ++ m.foldEach done ++ [t])) ∧
      (m.foldFrom s ts).value = s'.code ++
        match rest with
        | [] => []
        | t :: rest' => (m.foldTerm t).value :: (m.fold rest').value := by
  induction ts generalizing c s with
  | nil =>
    refine ⟨[], [], s, rfl, by rwa [append_foldEach_nil], fun _ _ h => (by cases h), ?_⟩
    rw [foldFrom_nil, List.append_nil]
  | cons t ts ih =>
    cases hattempt : (m.attempt (m.foldTerm t).value s.stack).value with
    | ok stack =>
      obtain ⟨done, rest, s', rfl, hs', hrest⟩ := ih (hs.step hattempt)
      have hdone :
          c ++ [(m.foldTerm t).value] ++ m.foldEach done = c ++ m.foldEach (t :: done) := by
        rw [foldEach_cons, List.append_assoc, List.singleton_append]
      rw [hdone] at hs' hrest
      rw [foldFrom_cons_ok _ hattempt]
      exact ⟨t :: done, rest, s', rfl, hs', hrest⟩
    | error fault =>
      refine ⟨[], t :: ts, s, rfl, by rwa [append_foldEach_nil], ?_,
        foldFrom_cons_error ts hattempt⟩
      intro t' rest' hrest hruns
      rw [foldEach_cons] at hrest
      obtain ⟨rfl, -⟩ := List.cons.inj hrest
      rw [append_foldEach_nil, runs_append, hs.runs_code.2, run_singleton] at hruns
      rw [attempt_eq_ok hruns.2] at hattempt
      cases hattempt

/-- With its quotations folded, the code has a longest prefix that runs. Folding writes the last
stack in it of which every value has a term, keeps the terms since and the one at which the prefix
stops, and starts afresh behind that. -/
theorem fold_greedy (m : Machine) (ts : Code) :
    ∃ n j, IsGreatest {i | i ≤ ts.length ∧ m.Runs ((m.foldEach ts).take i)} n ∧
      IsGreatest {i | i ≤ n ∧ (m.stackAfter ((m.foldEach ts).take i)).Writable} j ∧
      (m.fold ts).value =
        (m.stackAfter ((m.foldEach ts).take j)).terms ++ ((m.foldEach ts).take n).drop j ++
          match (m.foldEach ts)[n]? with
          | none => []
          | some t => t :: (m.fold (ts.drop (n + 1))).value := by
  obtain ⟨done, rest, s, rfl, hs, hstop, hvalue⟩ := foldFrom_split ts (m := m) .start
  rw [List.nil_append] at hs hstop
  have hdone := m.length_foldEach done
  obtain ⟨j, hj, hcode⟩ := hs.code_eq
  rw [hdone] at hj
  refine ⟨done.length, j, ?_, ?_, ?_⟩
  · have hlongest := isGreatest_runs hs.runs_code.1 hstop
    rw [← foldEach_append, hdone] at hlongest
    rwa [length_foldEach] at hlongest
  · convert hj using 3 with i
    exact and_congr_right fun hi => by rw [take_foldEach_append hi]
  · rw [fold, hvalue, hcode, take_foldEach_append hj.1.1, take_foldEach_append (Nat.le_refl _),
      foldEach_append, ← hdone]
    rw [List.take_length, List.getElem?_append_right (Nat.le_refl _), Nat.sub_self, hdone]
    cases rest with
    | nil => rfl
    | cons t rest =>
      have hrest : (done ++ t :: rest).drop (done.length + 1) = rest := by simp
      rw [hrest, foldEach_cons]
      rfl

end Machine

end Concatenative
