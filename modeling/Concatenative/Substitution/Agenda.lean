import Concatenative.Substitution.Resolve

/-! Resolution without recursion, for bindings that nest too deeply for it. What is left to do
stands on an agenda, and finished kinds wait in a list until a function or a vector is put together
from the latest of them. An inner loop follows a chain of variables; all variables that it passes
stay on the path until the binding at the end of the chain is resolved. One step is one turn of
either loop. -/

namespace Concatenative

/-- A piece of work. -/
inductive Agenda.Item where
  /-- Resolve a kind, inside a function or not. -/
  | enter (k : Kind) (nested : Bool)
  /-- Take the latest kinds off the path. -/
  | leave (count : Nat)
  /-- Put a function together from the latest results. -/
  | function (consumption production : Nat) (effects : Bool)
  /-- Put a vector together from the latest results. -/
  | vector (length : Nat)

/-- A chain of variables on the way to its end. -/
structure Agenda.Chain where
  current : Variable
  /-- The number of variables that the chain has put on the path. -/
  pushed : Nat
  nested : Bool

/-- Why no further step is made. -/
inductive Agenda.Stop where
  | done
  | refused (e : BareVector)
  /-- The path or the results have fewer entries than are to be taken off. -/
  | missing

/-- The state of a resolution. -/
structure Agenda where
  /-- What is left to do, the next item first. -/
  items : List Agenda.Item
  /-- The chain that the inner loop follows, while it does. -/
  chain : Option Agenda.Chain := none
  /-- The kinds in progress, the latest first. -/
  path : List Kind := []
  /-- The finished kinds, the latest first. -/
  results : List Kind := []
  progress : Progress

namespace Agenda

open Substitution

def start (k : Kind) (names : NameSupply) : Agenda :=
  { items := [.enter k false], progress := { names } }

def addResult (s : Agenda) (k : Kind) : Agenda := { s with results := k :: s.results }

/-- Takes kinds off the path. -/
def leave (s : Agenda) (count : Nat) : Except Stop Agenda :=
  if count ≤ s.path.length then .ok { s with path := s.path.drop count } else .error .missing

theorem leave_eq_ok {s : Agenda} {count : Nat} (h : count ≤ s.path.length) :
    s.leave count = .ok { s with path := s.path.drop count } :=
  if_pos h

/-- Takes the latest results off, in the order in which they came. -/
def takeResults (s : Agenda) (count : Nat) : Except Stop (List Kind × Agenda) :=
  if count ≤ s.results.length then
    .ok ((s.results.take count).reverse, { s with results := s.results.drop count })
  else .error .missing

theorem takeResults_append {s : Agenda} (rs : List Kind) :
    ({ s with results := rs.reverse ++ s.results } : Agenda).takeResults rs.length =
      .ok (rs, s) := by
  have hcount : rs.length ≤ (rs.reverse ++ s.results).length := by simp
  have htake : (rs.reverse ++ s.results).take rs.length = rs.reverse := by
    rw [← List.length_reverse, List.take_left]
  have hdrop : (rs.reverse ++ s.results).drop rs.length = s.results := by
    rw [← List.length_reverse, List.drop_left]
  simp only [takeResults, if_pos hcount, htake, hdrop, List.reverse_reverse]

/-- Puts a kind on the path, and its entries on the agenda, to be put together after them. -/
def descend (s : Agenda) (k : Kind) (entries : List Kind) (assemble : Item) : Agenda :=
  { s with
    path := k :: s.path
    items := entries.map (.enter · true) ++ assemble :: .leave 1 :: s.items }

def enter (s : Agenda) (k : Kind) (nested : Bool) : Except Stop Agenda :=
  if k ∈ s.path then .ok (s.addResult k)
  else match k with
    | .self => .ok (s.addResult .self)
    | .named name => .ok (s.addResult (.named name))
    | .var v => .ok { s with path := .var v :: s.path, chain := some ⟨v, 1, nested⟩ }
    | .function c p e =>
      .ok (s.descend (.function c p e) (c ++ p) (.function c.length p.length e))
    | .vector items =>
      if nested then .ok (s.descend (.vector items) items (.vector items.length))
      else .error (.refused ⟨items⟩)

def perform (s : Agenda) : Item → Except Stop Agenda
  | .enter k nested => s.enter k nested
  | .leave count => s.leave count
  | .function consumption production effects => do
    let (produced, s) ← s.takeResults production
    let (consumed, s) ← s.takeResults consumption
    return s.addResult (.function consumed produced effects)
  | .vector length => do
    let (items, s) ← s.takeResults length
    return s.addResult (.vector items)

theorem perform_function (s : Agenda) {consumed produced : List Kind} {m n : Nat} (e : Bool)
    (hm : consumed.length = m) (hn : produced.length = n) :
    ({ s with results := (consumed ++ produced).reverse ++ s.results } : Agenda).perform
      (.function m n e) = .ok (s.addResult (.function consumed produced e)) := by
  have hproduced := takeResults_append (s := { s with results := consumed.reverse ++ s.results })
    produced
  subst hm hn
  rw [List.reverse_append, List.append_assoc]
  simp only [perform, hproduced, takeResults_append consumed, bind, Except.bind, pure, Except.pure]

theorem perform_vector (s : Agenda) {items : List Kind} {n : Nat} (hn : items.length = n) :
    ({ s with results := items.reverse ++ s.results } : Agenda).perform (.vector n) =
      .ok (s.addResult (.vector items)) := by
  subst hn
  simp only [perform, takeResults_append items, bind, Except.bind, pure, Except.pure]

/-- One turn of the loop that follows a chain. It ends at a variable without a binding and at a kind
in progress; a binding that is no variable is entered with the chain still on the path. -/
def followChain (u : Substitution) (reserved : List String) (s : Agenda) (c : Chain) :
    Except Stop Agenda :=
  match u.find? c.current.name with
  | none =>
    let fresh := freshen reserved c.current s.progress
    ({ s with progress := fresh.2, chain := none }.addResult fresh.1).leave c.pushed
  | some binding =>
    let progress := (follow c.current binding s.progress).2
    if binding ∈ s.path then ({ s with progress, chain := none }.addResult binding).leave c.pushed
    else match binding with
      | .var v =>
        .ok { s with progress, path := .var v :: s.path, chain := some ⟨v, c.pushed + 1, c.nested⟩ }
      | k => .ok { s with
          progress, chain := none, items := .enter k c.nested :: .leave c.pushed :: s.items }

section FollowChain

variable {u : Substitution} (reserved : List String) {s : Agenda} {c : Chain}

theorem followChain_unbound (hfind : u.find? c.current.name = none)
    (hpushed : c.pushed ≤ s.path.length) :
    s.followChain u reserved c = .ok ({ s with
      progress := (freshen reserved c.current s.progress).2
      chain := none
      path := s.path.drop c.pushed }.addResult (freshen reserved c.current s.progress).1) := by
  rw [followChain, hfind]
  exact leave_eq_ok hpushed

theorem followChain_of_mem {binding : Kind} (hfind : u.find? c.current.name = some binding)
    (hmem : binding ∈ s.path) (hpushed : c.pushed ≤ s.path.length) :
    s.followChain u reserved c = .ok ({ s with
      progress := (follow c.current binding s.progress).2
      chain := none
      path := s.path.drop c.pushed }.addResult binding) := by
  simp only [followChain, hfind, if_pos hmem]
  exact leave_eq_ok hpushed

theorem followChain_var {v : Variable} (hfind : u.find? c.current.name = some (.var v))
    (hmem : .var v ∉ s.path) :
    s.followChain u reserved c = .ok { s with
      progress := (follow c.current (.var v) s.progress).2
      path := .var v :: s.path
      chain := some ⟨v, c.pushed + 1, c.nested⟩ } := by
  simp only [followChain, hfind, if_neg hmem]

theorem followChain_entered {binding : Kind} (hfind : u.find? c.current.name = some binding)
    (hmem : binding ∉ s.path) (hvar : ∀ v, binding ≠ .var v) :
    s.followChain u reserved c = .ok { s with
      progress := (follow c.current binding s.progress).2
      chain := none
      items := .enter binding c.nested :: .leave c.pushed :: s.items } := by
  cases binding with
  | var v => exact absurd rfl (hvar v)
  | _ => simp only [followChain, hfind, if_neg hmem]

/-- Every turn leaves the loop with a result, comes to a new variable, or leaves the loop to enter
what the chain ends in. -/
theorem followChain_cases (u : Substitution) (hpushed : c.pushed ≤ s.path.length) :
    (∃ k progress, s.followChain u reserved c = .ok ({ s with
      progress, chain := none, path := s.path.drop c.pushed }.addResult k)) ∨
    (∃ v progress, u.find? c.current.name = some (.var v) ∧ .var v ∉ s.path ∧
      s.followChain u reserved c = .ok { s with
        progress, path := .var v :: s.path, chain := some ⟨v, c.pushed + 1, c.nested⟩ }) ∨
    (∃ k progress, u.find? c.current.name = some k ∧
      s.followChain u reserved c = .ok { s with
        progress, chain := none, items := .enter k c.nested :: .leave c.pushed :: s.items }) := by
  cases hfind : u.find? c.current.name with
  | none => exact .inl ⟨_, _, followChain_unbound reserved hfind hpushed⟩
  | some binding =>
    by_cases hmem : binding ∈ s.path
    · exact .inl ⟨_, _, followChain_of_mem reserved hfind hmem hpushed⟩
    · by_cases hvar : ∃ v, binding = .var v
      · obtain ⟨v, rfl⟩ := hvar
        exact .inr (.inl ⟨v, _, rfl, hmem, followChain_var reserved hfind hmem⟩)
      · exact .inr (.inr ⟨_, _, rfl,
          followChain_entered reserved hfind hmem (not_exists.mp hvar)⟩)

end FollowChain

/-- One turn of the inner loop while a chain is followed, and of the outer loop otherwise. -/
def step (u : Substitution) (reserved : List String) (s : Agenda) : Except Stop Agenda :=
  match s.chain with
  | some c => s.followChain u reserved c
  | none =>
    match s.items with
    | [] => .error .done
    | item :: items => { s with items }.perform item

theorem step_enter (u : Substitution) (reserved : List String) {s : Agenda} (hs : s.chain = none)
    (k : Kind) (nested : Bool) :
    ({ s with items := .enter k nested :: s.items } : Agenda).step u reserved =
      s.enter k nested := by
  simp only [step, hs, perform]
  rw [← hs]

theorem step_leave (u : Substitution) (reserved : List String) {s : Agenda} (hs : s.chain = none)
    (count : Nat) (hcount : count ≤ s.path.length) :
    ({ s with items := .leave count :: s.items } : Agenda).step u reserved =
      .ok { s with path := s.path.drop count } := by
  simp only [step, hs, perform]
  rw [← hs]
  exact leave_eq_ok hcount

/-- The state after a number of steps, or the state in which no step can be made any more. -/
def after (u : Substitution) (reserved : List String) :
    Nat → Agenda → Except (Stop × Agenda) Agenda
  | 0, s => .ok s
  | n + 1, s =>
    match s.step u reserved with
    | .ok t => after u reserved n t
    | .error stop => .error (stop, s)

theorem after_of_step {u : Substitution} {reserved : List String} {s t : Agenda}
    (h : s.step u reserved = .ok t) (n : Nat) :
    after u reserved (n + 1) s = after u reserved n t := by
  simp only [after, h]

theorem after_of_stop {u : Substitution} {reserved : List String} {s : Agenda} {stop : Stop}
    (h : s.step u reserved = .error stop) (n : Nat) :
    after u reserved (n + 1) s = .error (stop, s) := by
  simp only [after, h]

end Agenda

end Concatenative
