import Concatenative.Proofs.Unfolding

/-! Vectors outside of functions. A variable leads to the binding of its name, that one, if it is a
variable, to the next, and so on along a chain. Resolution refuses a kind exactly if its chain comes
to a vector, and no name is drawn by then. A chain that comes back to one of its variables never
comes to a vector, and such a variable is then the result. -/

namespace Concatenative

namespace Substitution

variable {u : Substitution} {j k k' : Kind}

/-- The second kind comes right after the first on a chain of bindings. -/
def Next (u : Substitution) (k k' : Kind) : Prop := u.binding? k = some k'

/-- The chain of bindings that starts with the first kind comes to the second. -/
def LeadsTo (u : Substitution) : Kind → Kind → Prop := Relation.ReflTransGen u.Next

/-- The chain of bindings that starts with a kind comes back to it. -/
def Recurs (u : Substitution) (k : Kind) : Prop := Relation.TransGen u.Next k k

theorem next_iff : u.Next k k' ↔ ∃ v, k = .var v ∧ u.find? v.name = some k' := by
  cases k <;> simp [Next, binding?]

theorem next_var {v : Variable} (h : u.find? v.name = some k) : u.Next (.var v) k := h

theorem Next.eq (h : u.Next k j) (h' : u.Next k k') : j = k' := Option.some.inj (h.symm.trans h')

theorem Recurs.exists_var (h : u.Recurs k) : ∃ v, k = .var v := by
  obtain ⟨k', hnext, -⟩ := Relation.TransGen.head'_iff.mp h
  obtain ⟨v, hv, -⟩ := next_iff.mp hnext
  exact ⟨v, hv⟩

/-- A chain that comes to an end does not come back to its start. -/
theorem LeadsTo.not_recurs (h : u.LeadsTo k j) (hend : u.binding? j = none) : ¬u.Recurs k := by
  induction h using Relation.ReflTransGen.head_induction_on with
  | refl =>
    intro hrecurs
    obtain ⟨k', hnext, -⟩ := Relation.TransGen.head'_iff.mp hrecurs
    exact Option.some_ne_none k' (hnext.symm.trans hend)
  | head hnext _ ih =>
    intro hrecurs
    obtain ⟨k', hnext', hback⟩ := Relation.TransGen.head'_iff.mp hrecurs
    obtain rfl := Next.eq hnext hnext'
    exact ih (Relation.TransGen.tail' hback hnext)

/-- A chain on the way to a kind that it comes back to goes on, and does not leave that way. -/
theorem LeadsTo.exists_next (h : u.LeadsTo k j) (hj : u.Recurs j) :
    ∃ k', u.Next k k' ∧ u.LeadsTo k' j := by
  rcases Relation.ReflTransGen.cases_head h with rfl | hnext
  · exact Relation.TransGen.head'_iff.mp hj
  · exact hnext

variable {root : Kind} (reserved : List String)

/-- The kinds of the path lead to the next kind if they lead to the one before it. -/
theorem leads_cons {path : List Kind} (hpath : ∀ i ∈ path, Relation.TransGen u.Next i k)
    (hnext : u.Next k k') : ∀ i ∈ k :: path, Relation.TransGen u.Next i k' :=
  List.forall_mem_cons.mpr ⟨.single hnext, fun i hi => (hpath i hi).tail hnext⟩

/-- What is refused is the vector that the chain comes to, and no name has been drawn. -/
theorem leadsTo_of_resolveOuter : ∀ {depth : Nat} {path : List Kind} {k : Kind} {p : Progress}
    {e : BareVector}, (u.resolveOuter reserved depth path k p).1 = .error e →
      u.LeadsTo k (.vector e.items) ∧ (u.resolveOuter reserved depth path k p).2.names = p.names
  | 0, _, _, _, _, h => by cases h
  | depth + 1, path, k, p, e, h => by
    unfold resolveOuter at h ⊢
    by_cases hpath : k ∈ path
    · rw [if_pos hpath] at h
      cases h
    · rw [if_neg hpath] at h ⊢
      cases k with
      | var v =>
        cases hfind : u.find? v.name with
        | none =>
          simp only [hfind] at h
          cases h
        | some binding =>
          simp only [hfind] at h ⊢
          obtain ⟨hleads, hnames⟩ := leadsTo_of_resolveOuter h
          exact ⟨.head (next_var hfind) hleads, hnames⟩
      | vector items =>
        cases h
        exact ⟨.refl, rfl⟩
      | self | named _ | function _ _ _ => cases h

/-- A vector that the chain comes to is refused. On the way to it no kind is met again, since a chain
that comes to an end does not come back. -/
theorem resolveOuter_of_leadsTo {items : Shape} : ∀ {depth : Nat} {path : List Kind} {k : Kind}
    (p : Progress), u.Visit root depth path k → (∀ i ∈ path, Relation.TransGen u.Next i k) →
      u.LeadsTo k (.vector items) → (u.resolveOuter reserved depth path k p).1 = .error ⟨items⟩
  | 0, _, _, _, hvisit, _, _ => absurd rfl hvisit.depth_ne_zero
  | depth + 1, path, k, p, hvisit, hleads, h => by
    have hpath : k ∉ path := fun hmem => h.not_recurs rfl (hleads k hmem)
    unfold resolveOuter
    rw [if_neg hpath]
    rcases Relation.ReflTransGen.cases_head h with rfl | ⟨k', hnext, hrest⟩
    · rfl
    · obtain ⟨v, rfl, hfind⟩ := next_iff.mp hnext
      simp only [hfind]
      exact resolveOuter_of_leadsTo _ (hvisit.step hpath (by simp [successors, hfind]))
        (leads_cons hleads hnext) hrest

/-- If the chain comes back to a kind, the first variable that is met again is the result, and no
name has been drawn. -/
theorem resolveOuter_of_recurs {j : Kind} (hj : u.Recurs j) : ∀ {depth : Nat} {path : List Kind}
    {k : Kind} (p : Progress), u.Visit root depth path k →
      (∀ i ∈ path, Relation.TransGen u.Next i k) → u.LeadsTo k j →
      ∃ v, u.LeadsTo k (.var v) ∧ u.Recurs (.var v) ∧
        (u.resolveOuter reserved depth path k p).1 = .ok (.var v) ∧
        (u.resolveOuter reserved depth path k p).2.names = p.names
  | 0, _, _, _, hvisit, _, _ => absurd rfl hvisit.depth_ne_zero
  | depth + 1, path, k, p, hvisit, hleads, h => by
    unfold resolveOuter
    by_cases hpath : k ∈ path
    · have hrecurs : u.Recurs k := hleads k hpath
      obtain ⟨v, rfl⟩ := hrecurs.exists_var
      rw [if_pos hpath]
      exact ⟨v, .refl, hrecurs, rfl, rfl⟩
    · obtain ⟨k', hnext, hrest⟩ := h.exists_next hj
      obtain ⟨v, rfl, hfind⟩ := next_iff.mp hnext
      obtain ⟨w, hw, hrecurs, hresult, hnames⟩ := resolveOuter_of_recurs hj _
        (hvisit.step hpath (by simp [successors, hfind])) (leads_cons hleads hnext) hrest
      rw [if_neg hpath]
      simp only [hfind]
      exact ⟨w, .head hnext hw, hrecurs, hresult, hnames⟩

end Substitution

/-- The message shows the vector as the text of kinds does. -/
theorem BareVector.message_eq (e : BareVector) : e.message =
    "internal error: bare type vector " ++ (Kind.vector e.items).text
      ++ " reached the unifier outside a function type" := by
  have hopening : "internal error: bare type vector \x7b" =
      "internal error: bare type vector " ++ "\x7b" := by decide
  have hclosing : "\x7d reached the unifier outside a function type" =
      "\x7d" ++ " reached the unifier outside a function type" := by decide
  unfold message Kind.text Shape.text
  generalize shapeText _ = entries
  simp only [String.append_assoc, hopening, hclosing, -String.reduceAppend]

namespace Session

open Substitution

theorem normalize_value (session : Session) (k : Kind) (u : Substitution) :
    (session.normalize k u).value =
      ((u.resolve k session.names).1,
        { session with names := (u.resolve k session.names).2.names }) := rfl

/-- A kind is refused exactly if its chain of bindings comes to a vector. The message shows that
vector, and the session is as it was before. If instead the chain comes back to a kind, the result
is a variable that it comes back to, and the session is as before, too. -/
theorem normalize_refused_iff (session : Session) (k : Kind) (u : Substitution) :
    (∀ items, (session.normalize k u).value.1 = .error ⟨items⟩ ↔ u.LeadsTo k (.vector items)) ∧
    (∀ e, (session.normalize k u).value.1 = .error e →
      (session.normalize k u).value.2 = session ∧
      e.message = "internal error: bare type vector " ++ (Kind.vector e.items).text
        ++ " reached the unifier outside a function type") ∧
    ∀ j, u.LeadsTo k j → u.Recurs j → ∃ v, u.LeadsTo k (.var v) ∧ u.Recurs (.var v) ∧
      (session.normalize k u).value = (.ok (.var v), session) := by
  have hstart := Visit.start u k
  have hnone : ∀ i ∈ ([] : List Kind), Relation.TransGen u.Next i k := by simp
  rw [normalize_value, resolve, StateT.run]
  refine ⟨fun items => ⟨fun h => ?_, fun h => ?_⟩, fun e h => ⟨?_, e.message_eq⟩, ?_⟩
  · exact (leadsTo_of_resolveOuter _ h).1
  · exact resolveOuter_of_leadsTo _ _ hstart hnone h
  · rw [(leadsTo_of_resolveOuter _ h).2]
  · intro j hj hrecurs
    obtain ⟨v, hv, hvrecurs, hresult, hnames⟩ :=
      resolveOuter_of_recurs (u.reserved k) hrecurs { names := session.names } hstart hnone hj
    exact ⟨v, hv, hvrecurs, by rw [hresult, hnames]⟩

/-- Two chains through variables of both sorts. The one that starts with `x` comes into a circle
which `x` is no part of, and the one that starts with `y` comes to a vector. -/
theorem normalize_refused_iff_chains :
    let row : Kind := .var ⟨.stack, "a"⟩
    let pair : Shape := [.named "Int", .var ⟨.type, "x"⟩]
    let u : Substitution := ⟨[("x", row), ("a", .var ⟨.type, "b"⟩), ("b", row),
      ("y", .var ⟨.stack, "z"⟩), ("z", .vector pair)]⟩
    let session : Session := { names := ⟨7⟩ }
    (u.LeadsTo (.var ⟨.type, "x"⟩) row ∧ u.Recurs row ∧ ∃ v, u.Recurs (.var v) ∧
      (session.normalize (.var ⟨.type, "x"⟩) u).value = (.ok (.var v), session)) ∧
    (session.normalize (.var ⟨.type, "y"⟩) u).value = (.error ⟨pair⟩, session) := by
  intro row pair u session
  have hleads : u.LeadsTo (.var ⟨.type, "x"⟩) row := .single rfl
  have hforth : u.Next row (.var ⟨.type, "b"⟩) := rfl
  have hrecurs : u.Recurs row := .tail (.single hforth) rfl
  obtain ⟨v, -, hv, hvalue⟩ := (normalize_refused_iff session _ u).2.2 row hleads hrecurs
  have hrow : u.Next (.var ⟨.type, "y"⟩) (.var ⟨.stack, "z"⟩) := rfl
  have hvector : u.LeadsTo (.var ⟨.type, "y"⟩) (.vector pair) := .head hrow (.single rfl)
  obtain ⟨hiff, hrefused, -⟩ := normalize_refused_iff session (.var ⟨.type, "y"⟩) u
  have herror := (hiff pair).mpr hvector
  exact ⟨⟨hleads, hrecurs, v, hv, hvalue⟩, Prod.ext herror (hrefused _ herror).1⟩

end Session

end Concatenative
