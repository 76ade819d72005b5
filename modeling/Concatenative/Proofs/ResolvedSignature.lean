import Concatenative.Proofs.Resolution
import Concatenative.Proofs.Verdict

/-! What resolution makes of a signature. It is always a signature of the same form, and a
well-typed one stays well-typed: a variable of the production that becomes a variable becomes the
same one wherever it stands in the consumption, since the way from one variable to the next depends
on no functions and vectors that are in progress around it. -/

namespace Concatenative

/-- A variable of a kind is the kind itself or stands in one of its entries. -/
theorem Kind.eq_var_or_mem_entries {k : Kind} {v : Variable} (h : v ∈ k.variables) :
    k = .var v ∨ ∃ k' ∈ k.entries, v ∈ k'.variables := by
  cases k with
  | self | named _ => simp [Kind.variables] at h
  | var w =>
    obtain rfl : v = w := by simpa [Kind.variables] using h
    exact .inl rfl
  | function c p e =>
    rw [Kind.variables_function] at h
    exact .inr (List.mem_flatMap.mp h)
  | vector items =>
    rw [Kind.variables_vector] at h
    exact .inr (List.mem_flatMap.mp h)

namespace Substitution

variable {u : Substitution} {naming : Variable → String} {root : Kind}

/-- Only a variable becomes a variable. -/
theorem exists_var_of_expand_eq {depth : Nat} {path : List Kind} {k : Kind} {x : Variable}
    (h : u.expand naming depth path k = .var x) : ∃ v, k = .var v := by
  cases depth with
  | zero => exact ⟨x, h⟩
  | succ depth =>
    by_cases hpath : k ∈ path
    · rw [expand_of_mem hpath] at h
      exact ⟨x, h⟩
    · cases k with
      | var v => exact ⟨v, rfl⟩
      | self => rw [expand_self] at h; cases h
      | named name => rw [expand_named] at h; cases h
      | function c p e => rw [expand_function hpath] at h; cases h
      | vector items => rw [expand_vector hpath] at h; cases h

/-- Which variable a variable becomes depends on no kinds of the path but the variables. -/
theorem expand_var_congr {x : Variable} : ∀ {depth depth' : Nat} {path path' : List Kind}
    {v : Variable}, u.Visit root depth path (.var v) → u.Visit root depth' path' (.var v) →
      (∀ w, .var w ∈ path ↔ .var w ∈ path') → u.expand naming depth path (.var v) = .var x →
      u.expand naming depth' path' (.var v) = .var x
  | 0, _, _, _, _, h, _, _, _ => absurd rfl h.depth_ne_zero
  | _ + 1, 0, _, _, _, _, h', _, _ => absurd rfl h'.depth_ne_zero
  | depth + 1, depth' + 1, path, path', v, h, h', hpaths, hx => by
    by_cases hpath : .var v ∈ path
    · rw [expand_of_mem hpath] at hx
      rw [expand_of_mem ((hpaths v).mp hpath), hx]
    · have hpath' := mt (hpaths v).mpr hpath
      cases hfind : u.find? v.name with
      | none =>
        rw [expand_unbound hpath hfind] at hx
        rw [expand_unbound hpath' hfind, hx]
      | some binding =>
        rw [expand_bound hpath hfind] at hx
        rw [expand_bound hpath' hfind]
        obtain ⟨w, rfl⟩ := exists_var_of_expand_eq hx
        have hw : .var w ∈ u.successors (.var v) := by simp [successors, hfind]
        exact expand_var_congr (h.step hpath hw) (h'.step hpath' hw) (by simp [hpaths]) hx

/-- A variable that becomes a variable wherever none is in progress occurs, as what it becomes, in
all that is made of a kind which has it. On the way down to it kinds get smaller, so none of them is
met again. -/
theorem mem_variables_expand {v x : Variable}
    (hvar : ∀ {depth : Nat} {path : List Kind}, u.Visit root depth path (.var v) →
      (∀ w, .var w ∉ path) → u.expand naming depth path (.var v) = .var x) :
    ∀ {depth : Nat} {path : List Kind} {k : Kind}, u.Visit root depth path k →
      (∀ j ∈ path, k.size < j.size) → (∀ w, .var w ∉ path) → v ∈ k.variables →
      x ∈ (u.expand naming depth path k).variables
  | 0, _, _, h, _, _, _ => absurd rfl h.depth_ne_zero
  | depth + 1, path, k, h, hsize, hnovar, hv => by
    have hpath : k ∉ path := fun hmem => Nat.lt_irrefl _ (hsize k hmem)
    rcases Kind.eq_var_or_mem_entries hv with rfl | ⟨k', hk', hv⟩
    · rw [hvar h hnovar, Kind.variables]
      exact List.mem_singleton_self x
    · have hnot : ∀ w, k ≠ .var w := by
        rintro w rfl
        cases hk'
      have hunbound : u.unbound? k = none := by
        cases k with
        | var w => exact absurd rfl (hnot w)
        | _ => rfl
      have hsucc : k' ∈ u.successors k := mem_successors.mpr (.inl hk')
      have hlt := Kind.size_lt_of_mem_entries hk'
      rw [variables_expand_successors hpath hunbound]
      refine List.mem_flatMap.mpr ⟨k', hsucc, mem_variables_expand hvar (h.step hpath hsucc)
        (List.forall_mem_cons.mpr ⟨hlt, fun j hj => Nat.lt_trans hlt (hsize j hj)⟩) ?_ hv⟩
      intro w hw
      rcases List.mem_cons.mp hw with heq | hw
      · exact hnot w heq.symm
      · exact hnovar w hw

/-- A function becomes a function, entry by entry. -/
theorem resolve_function (u : Substitution) (c p : Shape) (e : Bool) (names : NameSupply) :
    ∃ depth naming, depth + 1 = u.depthBound (.function c p e) ∧
      (u.resolve (.function c p e) names).1 =
        .ok (.function (c.map (u.expand naming depth [.function c p e]))
          (p.map (u.expand naming depth [.function c p e])) e) := by
  have hok : ∃ r, (u.resolve (.function c p e) names).1 = .ok r := ⟨_, rfl⟩
  obtain ⟨r, hr⟩ := hok
  obtain ⟨-, -, hexpand⟩ := eq_expand_of_resolve hr
  refine ⟨_, (u.resolve (.function c p e) names).2.naming, rfl, ?_⟩
  rw [hr, hexpand]
  exact congrArg Except.ok (expand_function List.not_mem_nil)

end Substitution

namespace Signature

open Substitution

variable {u : Substitution} {f : Signature}

/-- No name belongs both to a type variable and to a stack variable. -/
def SortedByName (f : Signature) : Prop :=
  ∀ v ∈ f.kind.variables, ∀ w ∈ f.kind.variables, v.name = w.name → v.sort = w.sort

instance (f : Signature) : Decidable f.SortedByName :=
  inferInstanceAs (Decidable (∀ v ∈ _, ∀ w ∈ _, _))

/-- The variables that are introduced by name are introduced. -/
theorem SortedByName.introduces (h : f.SortedByName) (hcheck : f.check = .ok ()) :
    f.Introduces := by
  refine (check_eq_ok_iff.mp hcheck).imp_right fun hnames v hv => ?_
  obtain ⟨w, hw, hname⟩ := List.mem_map.mp (hnames v hv)
  have hsort := h w (List.mem_append_left _ hw) v (mem_kind_variables_of_mem_produced hv) hname
  exact Variable.ext hsort hname ▸ hw

/-- The signature with every entry expanded, below the kind of the signature. -/
def expanded (f : Signature) (u : Substitution) (naming : Variable → String) (depth : Nat) :
    Signature :=
  ⟨f.consumption.map (u.expand naming depth [f.kind]),
    f.production.map (u.expand naming depth [f.kind]), f.effects⟩

/-- If all produced variables are introduced, they are after expansion. -/
theorem Introduces.expanded (h : f.Introduces) (naming : Variable → String) {depth : Nat}
    (hdepth : depth + 1 = u.depthBound f.kind) : (f.expanded u naming depth).Introduces := by
  rcases h with hself | hproduced
  · exact .inl (List.mem_map.mpr ⟨.self, hself, expand_self⟩)
  · refine .inr fun x hx => ?_
    have hentry : ∀ k ∈ f.kind.entries, u.Visit f.kind depth [f.kind] k := by
      intro k hk
      have hstart := Visit.start u f.kind
      rw [← hdepth] at hstart
      exact hstart.step List.not_mem_nil (mem_successors.mpr (.inl hk))
    obtain ⟨_, hmem, hkx⟩ := List.mem_filterMap.mp hx
    obtain ⟨k, hk, rfl⟩ := List.mem_map.mp hmem
    have hexpand := Kind.toVar?_eq_some_iff.mp hkx
    obtain ⟨v, rfl⟩ := exists_var_of_expand_eq hexpand
    have hv := hproduced v (List.mem_filterMap.mpr ⟨.var v, hk, rfl⟩)
    rw [Shape.variables_eq_flatMap] at hv ⊢
    obtain ⟨k', hk', hv⟩ := List.mem_flatMap.mp hv
    refine List.mem_flatMap.mpr ⟨_, List.mem_map_of_mem hk', ?_⟩
    have hnone : ∀ w, .var w ∉ [f.kind] := by simp [kind]
    have hsize := Kind.size_lt_of_mem_entries (k := f.kind) (List.mem_append_left _ hk')
    refine mem_variables_expand (fun hvisit hnovar => ?_)
      (hentry k' (List.mem_append_left _ hk')) (by simpa using hsize) hnone hv
    exact expand_var_congr (hentry (.var v) (List.mem_append_right _ hk)) hvisit
      (fun w => iff_of_false (hnone w) (hnovar w)) hexpand

end Signature

namespace Session

open Substitution

theorem exists_normalize_eq_expanded (session : Session) (f : Signature) (u : Substitution) :
    ∃ depth naming, depth + 1 = u.depthBound f.kind ∧
      (session.normalize f.kind u).value.1 = .ok (f.expanded u naming depth).kind :=
  resolve_function u f.consumption f.production f.effects session.names

theorem resolveSignature_of_normalize {session : Session} {f g : Signature} {u : Substitution}
    (h : (session.normalize f.kind u).value.1 = .ok g.kind) :
    (session.resolveSignature f u).value.1 = match g.check with
      | .error e => .error (.illTyped e)
      | .ok () => .ok g := by
  simp only [resolveSignature, bind, Logged.bind, pure, h]
  rfl

/-- Every signature resolves to a signature with the same effects and as many entries on either
side; that one is then checked, and nothing else is ever refused. -/
theorem resolveSignature_cases (session : Session) (f : Signature) (u : Substitution) :
    ∃ g : Signature, (session.normalize f.kind u).value.1 = .ok g.kind ∧
      g.effects = f.effects ∧ g.consumption.length = f.consumption.length ∧
      g.production.length = f.production.length ∧
      ((g.check = .ok () ∧ (session.resolveSignature f u).value.1 = .ok g) ∨
        ∃ e, g.check = .error e ∧
          (session.resolveSignature f u).value.1 = .error (.illTyped e)) := by
  obtain ⟨depth, naming, -, hnormalize⟩ := exists_normalize_eq_expanded session f u
  have hresolve := resolveSignature_of_normalize hnormalize
  refine ⟨_, hnormalize, rfl, List.length_map _, List.length_map _, ?_⟩
  cases hcheck : (f.expanded u naming depth).check with
  | ok _ => exact .inl ⟨rfl, by rw [hresolve, hcheck]⟩
  | error e => exact .inr ⟨e, rfl, by rw [hresolve, hcheck]⟩

/-- Resolution does not break a well-typed signature in which no name has two sorts. -/
theorem resolveSignature_of_check (session : Session) (f : Signature) (u : Substitution)
    (hsorts : f.SortedByName) (hcheck : f.check = .ok ()) :
    ∃ g, (session.normalize f.kind u).value.1 = .ok g.kind ∧
      (session.resolveSignature f u).value.1 = .ok g := by
  obtain ⟨depth, naming, hdepth, hnormalize⟩ := exists_normalize_eq_expanded session f u
  have hintroduces := (hsorts.introduces hcheck).expanded naming hdepth
  have hg := Signature.check_eq_ok_iff_introduces_or_borrows.mpr (.inl hintroduces)
  exact ⟨_, hnormalize, by rw [resolveSignature_of_normalize hnormalize, hg]⟩

/-- The bindings of two variables of the production run in a circle, and a third is bound to the
signature itself. -/
theorem resolveSignature_of_check_cyclic :
    let f : Signature := ⟨[.function [.var ⟨.type, "a"⟩] [.var ⟨.stack, "r"⟩] false,
      .var ⟨.type, "b"⟩], [.var ⟨.type, "a"⟩, .var ⟨.type, "b"⟩, .var ⟨.stack, "r"⟩], true⟩
    let u : Substitution := ⟨[("a", .var ⟨.stack, "c"⟩), ("c", .var ⟨.type, "a"⟩), ("b", f.kind)]⟩
    f.SortedByName ∧ f.check = .ok () ∧
      ∃ g, (({} : Session).normalize f.kind u).value.1 = .ok g.kind ∧
        (({} : Session).resolveSignature f u).value.1 = .ok g := by
  intro f u
  have hsorts : f.SortedByName := by decide
  have hcheck : f.check = .ok () := rfl
  exact ⟨hsorts, hcheck, resolveSignature_of_check {} f u hsorts hcheck⟩

end Session

end Concatenative
