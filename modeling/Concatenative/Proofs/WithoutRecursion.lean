import Concatenative.Proofs.Descent
import Concatenative.Substitution.Agenda

/-! Resolution on an agenda ends as the recursion does: with the same kind or the same refused
vector, after the same names were given and the same bindings followed, in the same order. Whatever
else stands on the agenda, entering a kind leads to the state in which the result of the recursion
is added and all else is as before. -/

namespace Concatenative

theorem length_mapM_state {α β σ : Type} (f : α → StateM σ β) (as : List α) (s : σ) :
    (as.mapM f s).1.length = as.length := by
  induction as generalizing s with
  | nil => rfl
  | cons a as ih =>
    rw [List.mapM_cons, List.length_cons, ← ih (f a s).2]
    rfl

theorem mapM_append_state {α β σ : Type} (f : α → StateM σ β) (as bs : List α) (s : σ) :
    (as ++ bs).mapM f s =
      ((as.mapM f s).1 ++ (bs.mapM f (as.mapM f s).2).1, (bs.mapM f (as.mapM f s).2).2) := by
  rw [List.mapM_append]
  rfl

namespace Substitution

variable {u : Substitution} {reserved : List String} {nested : Bool} {depth : Nat}
  {path : List Kind}

/-- What the recursion makes of a kind, inside a function or not. -/
def resolveAt (u : Substitution) (reserved : List String) (nested : Bool) (depth : Nat)
    (path : List Kind) (k : Kind) : StateM Progress (Except BareVector Kind) :=
  if nested then Except.ok <$> u.resolveWithin reserved depth path k
  else u.resolveOuter reserved depth path k

/-- Inside a function or not, the recursion differs only in what it makes of a vector. -/
theorem resolveAt_succ (k : Kind) (q : Progress) :
    u.resolveAt reserved nested (depth + 1) path k q =
      if k ∈ path then (.ok k, q)
      else match k with
        | .self => (.ok .self, q)
        | .named name => (.ok (.named name), q)
        | .var v =>
          match u.find? v.name with
          | none => (.ok (freshen reserved v q).1, (freshen reserved v q).2)
          | some binding =>
            u.resolveAt reserved nested depth (.var v :: path) binding (follow v binding q).2
        | .function c p e =>
          let below := u.resolveWithin reserved depth (.function c p e :: path)
          let consumed := c.mapM below q
          let produced := p.mapM below consumed.2
          (.ok (.function consumed.1 produced.1 e), produced.2)
        | .vector items =>
          if nested then
            let resolved := items.mapM (u.resolveWithin reserved depth (.vector items :: path)) q
            (.ok (.vector resolved.1), resolved.2)
          else (.error ⟨items⟩, q) := by
  by_cases h : k ∈ path
  · cases nested <;> simp only [resolveAt, resolveOuter, resolveWithin, if_pos h] <;> rfl
  · cases k with
    | var v =>
      cases hfind : u.find? v.name <;> cases nested <;>
        simp only [resolveAt, resolveOuter, resolveWithin, if_neg h, hfind] <;> rfl
    | _ =>
      cases nested <;> simp only [resolveAt, resolveOuter, resolveWithin, if_neg h] <;> rfl

end Substitution

namespace Agenda

open Substitution

variable {u : Substitution} {reserved : List String}

/-- Steps lead from one state to another. -/
def Reaches (u : Substitution) (reserved : List String) : Agenda → Agenda → Prop :=
  Relation.ReflTransGen fun s t => s.step u reserved = .ok t

theorem exists_after_of_reaches {s t : Agenda} {stop : Stop} (h : Reaches u reserved s t)
    (ht : t.step u reserved = .error stop) : ∃ n, after u reserved n s = .error (stop, t) := by
  induction h using Relation.ReflTransGen.head_induction_on with
  | refl => exact ⟨1, after_of_stop ht 0⟩
  | head hstep _ ih =>
    obtain ⟨n, hn⟩ := ih
    exact ⟨n + 1, (after_of_step hstep n).trans hn⟩

/-- A run ends in one way only. -/
theorem stop_unique {m n : Nat} {s : Agenda} {x y : Stop × Agenda}
    (hm : after u reserved m s = .error x) (hn : after u reserved n s = .error y) : x = y := by
  induction m generalizing n s with
  | zero => cases hm
  | succ m ih =>
    cases n with
    | zero => cases hn
    | succ n =>
      cases hstep : s.step u reserved with
      | ok t =>
        rw [after_of_step hstep] at hm hn
        exact ih hm hn
      | error stop =>
        rw [after_of_stop hstep] at hm hn
        exact (Except.error.inj hm).symm.trans (Except.error.inj hn)

/-- From `s` the agenda comes to `base` with a result of the recursion added, or to the refusal that
the recursion ends in, and always with the progress of the recursion. -/
def Delivers (u : Substitution) (reserved : List String) (s base : Agenda)
    (out : Except BareVector Kind × Progress) : Prop :=
  match out.1 with
  | .ok r => Reaches u reserved s ({ base with progress := out.2 }.addResult r)
  | .error e => ∃ t, Reaches u reserved s t ∧ t.step u reserved = .error (.refused e) ∧
      t.progress = out.2

theorem Delivers.of_step {s s' base : Agenda} {out : Except BareVector Kind × Progress}
    (hstep : s.step u reserved = .ok s') (h : Delivers u reserved s' base out) :
    Delivers u reserved s base out := by
  obtain ⟨result, p⟩ := out
  cases result with
  | ok r => exact Relation.ReflTransGen.head hstep h
  | error e =>
    obtain ⟨t, ht, hstop⟩ := h
    exact ⟨t, Relation.ReflTransGen.head hstep ht, hstop⟩

/-- One more step, made once the result is there. -/
theorem Delivers.and_step {s base base' : Agenda} {out : Except BareVector Kind × Progress}
    (h : Delivers u reserved s base out)
    (hrest : ∀ r, ({ base with progress := out.2 }.addResult r).step u reserved =
      .ok ({ base' with progress := out.2 }.addResult r)) : Delivers u reserved s base' out := by
  obtain ⟨result, p⟩ := out
  cases result with
  | ok r => exact Relation.ReflTransGen.tail h (hrest r)
  | error e => exact h

section Simulation

variable {root : Kind} {depth : Nat}

/-- Entering a kind delivers what the recursion of this depth makes of it. -/
def Enters (u : Substitution) (reserved : List String) (root : Kind) (depth : Nat) : Prop :=
  ∀ (s : Agenda) (k : Kind) (nested : Bool), s.chain = none → u.Descent root s.path k →
    u.depthBound root ≤ depth + s.path.length →
    Delivers u reserved { s with items := .enter k nested :: s.items } s
      (u.resolveAt reserved nested depth s.path k s.progress)

/-- The inner loop delivers what the recursion makes of the variable that it has come to, and takes
the whole chain off the path. -/
theorem delivers_chain (henters : ∀ d < depth, Enters u reserved root d) :
    ∀ (s : Agenda) (path : List Kind) (c : Chain), s.chain = none →
      s.path = .var c.current :: path → c.pushed ≤ s.path.length →
      u.Descent root path (.var c.current) → .var c.current ∉ path →
      u.depthBound root ≤ depth + path.length →
      Delivers u reserved { s with chain := some c } { s with path := s.path.drop c.pushed }
        (u.resolveAt reserved c.nested depth path (.var c.current) s.progress) := by
  induction depth with
  | zero =>
    intro s path c _ _ _ hdescent _ hroom
    exact absurd rfl (hdescent.depth_ne_zero hroom)
  | succ depth ih =>
    intro s path c hs hpath hpushed hdescent hnew hroom
    cases hfind : u.find? c.current.name with
    | none =>
      simp only [resolveAt_succ, if_neg hnew, hfind]
      have hstep := followChain_unbound reserved (s := { s with chain := some c }) hfind hpushed
      rw [← hs] at hstep
      exact Relation.ReflTransGen.single hstep
    | some binding =>
      simp only [resolveAt_succ, if_neg hnew, hfind, ← hpath]
      have hbinding : u.Descent root s.path binding := by
        rw [hpath]
        exact hdescent.step hnew (by simp [successors, hfind])
      have hroom' : u.depthBound root ≤ depth + s.path.length := by
        rw [hpath, List.length_cons]
        omega
      by_cases hmem : binding ∈ s.path
      · obtain ⟨d, rfl⟩ := Nat.exists_eq_succ_of_ne_zero (hbinding.depth_ne_zero hroom')
        rw [resolveAt_succ, if_pos hmem]
        have hstep := followChain_of_mem reserved (s := { s with chain := some c }) hfind hmem
          hpushed
        rw [← hs] at hstep
        exact Relation.ReflTransGen.single hstep
      · by_cases hvar : ∃ v, binding = .var v
        · obtain ⟨v, rfl⟩ := hvar
          refine Delivers.of_step (followChain_var reserved hfind hmem) ?_
          exact ih (fun d hd => henters d (by omega))
            { s with
              path := .var v :: s.path, progress := (follow c.current (.var v) s.progress).2 }
            s.path ⟨v, c.pushed + 1, c.nested⟩ hs rfl (Nat.succ_le_succ hpushed) hbinding hmem
            hroom'
        · refine Delivers.of_step (followChain_entered reserved hfind hmem (not_exists.mp hvar)) ?_
          rw [← hs]
          have hentered := henters depth (Nat.lt_succ_self depth)
            { s with
              items := .leave c.pushed :: s.items
              progress := (follow c.current binding s.progress).2 } binding c.nested hs hbinding
            hroom'
          exact hentered.and_step fun r => step_leave u reserved
            (s := { s with progress := _, results := r :: s.results }) hs c.pushed hpushed

/-- Entries are resolved one after the other, and their results lie in reverse order. -/
theorem reaches_entries (henters : Enters u reserved root depth) (ks : List Kind) :
    ∀ s : Agenda, s.chain = none → (∀ k ∈ ks, u.Descent root s.path k) →
      u.depthBound root ≤ depth + s.path.length →
      let resolved := ks.mapM (u.resolveWithin reserved depth s.path) s.progress
      Reaches u reserved { s with items := ks.map (.enter · true) ++ s.items }
        { s with results := resolved.1.reverse ++ s.results, progress := resolved.2 } := by
  induction ks with
  | nil =>
    intro s _ _ _
    exact .refl
  | cons k ks ih =>
    intro s hs hks hroom
    let first := u.resolveWithin reserved depth s.path k s.progress
    let rest := ks.mapM (u.resolveWithin reserved depth s.path) first.2
    have hfirst : Reaches u reserved { s with items := (k :: ks).map (.enter · true) ++ s.items }
        { s with
          items := ks.map (.enter · true) ++ s.items
          results := first.1 :: s.results, progress := first.2 } :=
      henters { s with items := ks.map (.enter · true) ++ s.items } k true hs
        (hks k List.mem_cons_self) hroom
    have hrest := ih { s with results := first.1 :: s.results, progress := first.2 } hs
      (fun k hk => hks k (List.mem_cons_of_mem _ hk)) hroom
    have hresults : rest.1.reverse ++ first.1 :: s.results =
        (first.1 :: rest.1).reverse ++ s.results := by simp
    rw [List.mapM_cons]
    refine hfirst.trans ?_
    change Reaches u reserved _ { s with
      results := (first.1 :: rest.1).reverse ++ s.results, progress := rest.2 }
    rw [← hresults]
    exact hrest

/-- A kind is entered, its entries are resolved, and a result is put together from theirs when it is
taken off the path. -/
theorem reaches_assembled (henters : Enters u reserved root depth) {s : Agenda} {k r : Kind}
    {entries resolved : List Kind} {assemble : Item} {p : Progress} (hs : s.chain = none)
    (hdescent : u.Descent root s.path k) (hnew : k ∉ s.path)
    (hentries : ∀ k' ∈ entries, k' ∈ u.successors k)
    (hroom : u.depthBound root ≤ depth + 1 + s.path.length)
    (hresolved : entries.mapM (u.resolveWithin reserved depth (k :: s.path)) s.progress =
      (resolved, p))
    (hassemble : ∀ t : Agenda, ({ t with results := resolved.reverse ++ t.results } :
      Agenda).perform assemble = .ok (t.addResult r)) :
    Reaches u reserved (s.descend k entries assemble) ({ s with progress := p }.addResult r) := by
  have hentered := reaches_entries henters entries
    { s with path := k :: s.path, items := assemble :: .leave 1 :: s.items } hs
    (fun k' hk' => hdescent.step hnew (hentries k' hk'))
    (by rw [List.length_cons]; omega)
  rw [hresolved] at hentered
  have hput : ({ s with
        path := k :: s.path, items := assemble :: .leave 1 :: s.items
        results := resolved.reverse ++ s.results, progress := p } : Agenda).step u reserved =
      .ok ({ s with
        path := k :: s.path, items := .leave 1 :: s.items, progress := p }.addResult r) := by
    simp only [step, hs]
    rw [← hs]
    exact hassemble { s with path := k :: s.path, items := .leave 1 :: s.items, progress := p }
  have hleft := step_leave u reserved
    (s := { s with path := k :: s.path, results := r :: s.results, progress := p }) hs 1
    (Nat.le_add_left 1 _)
  exact (hentered.tail hput).tail hleft

/-- A chain uses up depth before its end is entered, so the induction is on all smaller depths. -/
theorem delivers_enter (depth : Nat) : Enters u reserved root depth := by
  induction depth using Nat.strongRecOn with
  | ind depth ih =>
    intro s k nested hs hdescent hroom
    obtain ⟨d, rfl⟩ := Nat.exists_eq_succ_of_ne_zero (hdescent.depth_ne_zero hroom)
    have hstep := step_enter u reserved hs k nested
    unfold enter at hstep
    by_cases hmem : k ∈ s.path
    · rw [if_pos hmem] at hstep
      rw [resolveAt_succ, if_pos hmem]
      exact Relation.ReflTransGen.single hstep
    · rw [if_neg hmem] at hstep
      cases k with
      | self =>
        rw [resolveAt_succ, if_neg hmem]
        exact Relation.ReflTransGen.single hstep
      | named name =>
        rw [resolveAt_succ, if_neg hmem]
        exact Relation.ReflTransGen.single hstep
      | var v =>
        refine Delivers.of_step hstep ?_
        exact delivers_chain ih { s with path := .var v :: s.path } s.path ⟨v, 1, nested⟩ hs rfl
          (Nat.le_add_left 1 _) hdescent hmem hroom
      | function c p e =>
        rw [resolveAt_succ, if_neg hmem]
        refine Relation.ReflTransGen.head hstep ?_
        refine reaches_assembled (ih d (Nat.lt_succ_self d)) hs hdescent hmem (fun _ hk' => hk')
          hroom (mapM_append_state _ c p _) fun t => ?_
        exact perform_function t e (length_mapM_state ..) (length_mapM_state ..)
      | vector items =>
        rw [resolveAt_succ, if_neg hmem]
        cases nested with
        | false =>
          exact ⟨_, .refl, hstep, rfl⟩
        | true =>
          refine Relation.ReflTransGen.head hstep ?_
          refine reaches_assembled (ih d (Nat.lt_succ_self d)) hs hdescent hmem (fun _ hk' => hk')
            hroom rfl fun t => ?_
          exact perform_vector t (length_mapM_state ..)

end Simulation

/-- The way to stop that stands for a result of the recursion. -/
def Stop.ofResult : Except BareVector Kind → Stop
  | .ok _ => .done
  | .error e => .refused e

theorem Stop.ofResult_ne_missing (result : Except BareVector Kind) :
    Stop.ofResult result ≠ .missing := by
  cases result <;> simp [Stop.ofResult]

theorem eq_of_ofResult_eq {a b : Except BareVector Kind} {results : List Kind}
    (h : Stop.ofResult a = .ofResult b) (ha : ∀ r, a = .ok r → results = [r])
    (hb : ∀ r, b = .ok r → results = [r]) : a = b := by
  cases a with
  | ok r =>
    cases b with
    | ok r' => rw [List.singleton_inj.mp ((ha r rfl).symm.trans (hb r' rfl))]
    | error e => cases h
  | error e =>
    cases b with
    | ok r => cases h
    | error e' => rw [Stop.refused.inj h]

theorem exists_after_start (k : Kind) (names : NameSupply) {depth : Nat}
    (hdepth : u.depthBound k ≤ depth) :
    let out := u.resolveOuter (u.reserved k) depth [] k { names }
    ∃ n s, after u (u.reserved k) n (start k names) = .error (.ofResult out.1, s) ∧
      s.progress = out.2 ∧ ∀ r, out.1 = .ok r → s.results = [r] ∧ s.path = [] := by
  intro out
  have hdelivers : Delivers u (u.reserved k) (start k names) { items := [], progress := { names } }
      out := delivers_enter depth { items := [], progress := { names } } k false rfl .root hdepth
  obtain ⟨result, p⟩ := out
  cases result with
  | ok r =>
    obtain ⟨n, hn⟩ := exists_after_of_reaches hdelivers rfl
    refine ⟨n, _, hn, rfl, fun r' hr' => ?_⟩
    cases hr'
    exact ⟨rfl, rfl⟩
  | error e =>
    obtain ⟨t, hreaches, hstop, hprogress⟩ := hdelivers
    obtain ⟨n, hn⟩ := exists_after_of_reaches hreaches hstop
    exact ⟨n, t, hn, hprogress, fun r hr => by cases hr⟩

/-- The agenda stops where the recursion ends: with its result as the only one and nothing left on
the path, or at the vector that it refuses, and in both cases with the same names given and the same
bindings followed in the same order. It never lacks an entry that is to be taken off. The recursion
is the same for every depth from the bound on, so the bound cuts nothing off. -/
theorem after_start_resolve (u : Substitution) (k : Kind) (names : NameSupply) :
    (∃ n s, after u (u.reserved k) n (start k names) =
        .error (.ofResult (u.resolve k names).1, s) ∧
      s.progress = (u.resolve k names).2 ∧
      ∀ r, (u.resolve k names).1 = .ok r → s.results = [r] ∧ s.path = []) ∧
    (∀ n s, after u (u.reserved k) n (start k names) ≠ .error (.missing, s)) ∧
    ∀ depth, u.depthBound k ≤ depth →
      u.resolveOuter (u.reserved k) depth [] k { names } = u.resolve k names := by
  obtain ⟨n, s, hstop, hprogress, hresults⟩ :=
    exists_after_start (u := u) k names (Nat.le_refl (u.depthBound k))
  refine ⟨⟨n, s, hstop, hprogress, hresults⟩, fun m t hmissing => ?_, fun depth hdepth => ?_⟩
  · exact Stop.ofResult_ne_missing _ (congrArg Prod.fst (stop_unique hstop hmissing))
  · obtain ⟨m, t, hstop', hprogress', hresults'⟩ := exists_after_start (u := u) k names hdepth
    obtain ⟨heq, rfl⟩ := Prod.mk.inj (stop_unique hstop' hstop)
    have hresult := eq_of_ofResult_eq heq (fun r hr => (hresults' r hr).1)
      fun r hr => (hresults r hr).1
    exact Prod.ext hresult (hprogress'.symm.trans hprogress)

end Agenda

end Concatenative
