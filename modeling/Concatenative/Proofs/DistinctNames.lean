import Concatenative.Proofs.Escape

/-! A session never gives out a name twice. All that is asked of it draws on one counter, and every
name has a number that the counter had not passed before and has passed since. Resolution draws its
names one by one, in the steps that it is made of. -/

namespace Concatenative

/-- Drawing names takes one supply to another: no name is drawn twice, and the numbers of all are
numbers that the second supply has passed and the first has not. -/
structure NameSupply.Draws (names : NameSupply) (drawn : List String) (rest : NameSupply) :
    Prop where
  le : names.next ≤ rest.next
  nodup : drawn.Nodup
  numbered : ∀ name ∈ drawn,
    ∃ stem number, name = generatedName stem number ∧ names.next ≤ number ∧ number < rest.next

namespace NameSupply

theorem draws_nil {names rest : NameSupply} (h : names.next ≤ rest.next) : names.Draws [] rest :=
  ⟨h, List.nodup_nil, by simp⟩

theorem draws_generatedName {names : NameSupply} {number : Nat} (stem : String)
    (h : names.next ≤ number) : names.Draws [generatedName stem number] ⟨number + 1⟩ := by
  refine ⟨by dsimp only; omega, List.nodup_singleton _, ?_⟩
  rintro name hname
  obtain rfl := List.mem_singleton.mp hname
  exact ⟨stem, number, rfl, h, Nat.lt_succ_self number⟩

theorem Draws.append {names between rest : NameSupply} {drawn drawn' : List String}
    (h : names.Draws drawn between) (h' : between.Draws drawn' rest) :
    names.Draws (drawn ++ drawn') rest := by
  have hle := h.le
  have hle' := h'.le
  refine ⟨by omega, List.nodup_append.mpr ⟨h.nodup, h'.nodup, ?_⟩, ?_⟩
  · rintro name hname name' hname' rfl
    obtain ⟨stem, number, heq, -, hlt⟩ := h.numbered name hname
    obtain ⟨stem', number', heq', hge, -⟩ := h'.numbered name hname'
    have := number_eq_of_generatedName_eq (heq.symm.trans heq')
    omega
  · intro name hname
    rcases List.mem_append.mp hname with hname | hname
    · obtain ⟨stem, number, heq, hge, hlt⟩ := h.numbered name hname
      exact ⟨stem, number, heq, hge, by omega⟩
    · obtain ⟨stem, number, heq, hge, hlt⟩ := h'.numbered name hname
      exact ⟨stem, number, heq, by omega, hlt⟩

theorem draws_fresh (names : NameSupply) (base : String) :
    names.Draws [(names.fresh base).1] (names.fresh base).2 :=
  draws_generatedName (nameStem base) (Nat.le_refl _)

theorem draws_freshAvoiding (names : NameSupply) (base : String) (reserved : List String) :
    names.Draws [(names.freshAvoiding base reserved).1] (names.freshAvoiding base reserved).2 ∧
      (names.freshAvoiding base reserved).1 ∉ reserved := by
  obtain ⟨number, hnumber, hfresh, hfree, -⟩ := names.freshAvoiding_eq base reserved
  rw [hfresh]
  exact ⟨draws_generatedName (nameStem base) hnumber, hfree⟩

end NameSupply

namespace Progress

/-- The steps that resolution is made of. -/
inductive Step (reserved : List String) (p : Progress) : Progress → Prop
  | follow (v : Variable) (binding : Kind) :
    Step reserved p (Substitution.follow v binding p).2
  | freshen (v : Variable) : Step reserved p (Substitution.freshen reserved v p).2

/-- A computation that goes by such steps only. -/
def Proceeds (reserved : List String) {α : Type} (x : StateM Progress α) : Prop :=
  ∀ p, Relation.ReflTransGen (Step reserved) p (x p).2

variable {reserved : List String} {α β : Type}

theorem proceeds_pure (a : α) : Proceeds reserved (pure a) := fun _ => .refl

theorem Proceeds.bind {x : StateM Progress α} {f : α → StateM Progress β}
    (hx : Proceeds reserved x) (hf : ∀ a, Proceeds reserved (f a)) : Proceeds reserved (x >>= f) :=
  fun p => (hx p).trans (hf (x p).1 (x p).2)

theorem Proceeds.mapM {γ : Type} {f : γ → StateM Progress α} (h : ∀ c, Proceeds reserved (f c))
    (items : List γ) : Proceeds reserved (items.mapM f) := by
  induction items with
  | nil => exact proceeds_pure []
  | cons c items ih =>
    rw [List.mapM_cons]
    exact (h c).bind fun a => ih.bind fun as => proceeds_pure (a :: as)

theorem proceeds_follow (v : Variable) (binding : Kind) :
    Proceeds reserved (Substitution.follow v binding) :=
  fun _ => .single (.follow v binding)

theorem proceeds_freshen (v : Variable) : Proceeds reserved (Substitution.freshen reserved v) :=
  fun _ => .single (.freshen v)

theorem proceeds_resolveWithin (u : Substitution) :
    ∀ (depth : Nat) (path : List Kind) (k : Kind),
      Proceeds reserved (u.resolveWithin reserved depth path k)
  | 0, _, k => proceeds_pure k
  | depth + 1, path, k => by
    have below := proceeds_resolveWithin u depth (k :: path)
    unfold Substitution.resolveWithin
    split
    · exact proceeds_pure k
    · cases k with
      | self | named _ => exact proceeds_pure _
      | var v =>
        dsimp only
        split
        · exact proceeds_freshen v
        · next binding _ => exact (proceeds_follow v binding).bind fun _ => below binding
      | function c p e =>
        refine (Proceeds.mapM below c).bind fun c => ?_
        exact (Proceeds.mapM below p).bind fun p => proceeds_pure _
      | vector items => exact (Proceeds.mapM below items).bind fun items => proceeds_pure _

theorem proceeds_resolveOuter (u : Substitution) :
    ∀ (depth : Nat) (path : List Kind) (k : Kind),
      Proceeds reserved (u.resolveOuter reserved depth path k)
  | 0, _, k => proceeds_pure _
  | depth + 1, path, k => by
    unfold Substitution.resolveOuter
    split
    · exact proceeds_pure _
    · cases k with
      | self | named _ | function _ _ _ =>
        exact (proceeds_resolveWithin u _ _ _).bind fun _ => proceeds_pure _
      | var v =>
        dsimp only
        split
        · exact (proceeds_freshen v).bind fun _ => proceeds_pure _
        · next binding _ =>
          exact (proceeds_follow v binding).bind fun _ => proceeds_resolveOuter u depth _ binding
      | vector items => exact proceeds_pure _

/-- The names given to variables so far, oldest first. -/
def given (p : Progress) : List String := p.renamed.reverse.map (·.2)

/-- Since the first state, names have been drawn and given to variables, and none is reserved. -/
def Extends (reserved : List String) (p p' : Progress) : Prop :=
  ∃ drawn, p'.given = p.given ++ drawn ∧ p.names.Draws drawn p'.names ∧
    ∀ name ∈ drawn, name ∉ reserved

theorem Extends.refl (p : Progress) : Extends reserved p p :=
  ⟨[], by simp, NameSupply.draws_nil (Nat.le_refl _), by simp⟩

theorem Extends.trans {p q r : Progress} (h : Extends reserved p q) (h' : Extends reserved q r) :
    Extends reserved p r := by
  obtain ⟨drawn, hgiven, hdraws, hfree⟩ := h
  obtain ⟨drawn', hgiven', hdraws', hfree'⟩ := h'
  refine ⟨drawn ++ drawn', ?_, hdraws.append hdraws', ?_⟩
  · rw [hgiven', hgiven, List.append_assoc]
  · exact List.forall_mem_append.mpr ⟨hfree, hfree'⟩

theorem Step.extends {p q : Progress} (h : Step reserved p q) : Extends reserved p q := by
  cases h with
  | follow v binding => exact .refl p
  | freshen v =>
    unfold Substitution.freshen
    split
    · exact .refl p
    · obtain ⟨hdraws, hfree⟩ := p.names.draws_freshAvoiding v.name reserved
      refine ⟨[(p.names.freshAvoiding v.name reserved).1], ?_, hdraws, by simpa using hfree⟩
      simp [given]

theorem extends_of_steps {p q : Progress} (h : Relation.ReflTransGen (Step reserved) p q) :
    Extends reserved p q := by
  induction h with
  | refl => exact .refl p
  | tail _ hstep ih => exact ih.trans hstep.extends

end Progress

namespace Substitution

/-- A name occurs in a kind or in a substitution, as the name of a variable or as a bound name. -/
def Uses (u : Substitution) (k : Kind) (name : String) : Prop :=
  (∃ v ∈ k.variables, v.name = name) ∨
    ∃ b ∈ u.bindings, b.1 = name ∨ ∃ v ∈ b.2.variables, v.name = name

theorem mem_reserved_iff {u : Substitution} {k : Kind} {name : String} :
    name ∈ u.reserved k ↔ u.Uses k name := by
  simp only [reserved, names, Uses, List.mem_append, List.mem_flatMap, List.mem_cons, List.mem_map,
    or_comm, eq_comm]

/-- The names that a resolution gives to variables are drawn from its supply, and are in use neither
in the kind nor in the substitution. -/
theorem draws_resolve (u : Substitution) (k : Kind) (names : NameSupply) :
    names.Draws (u.resolve k names).2.given (u.resolve k names).2.names ∧
      ∀ name ∈ (u.resolve k names).2.given, ¬u.Uses k name := by
  have hsteps : Relation.ReflTransGen (Progress.Step (u.reserved k)) { names }
      (u.resolve k names).2 :=
    Progress.proceeds_resolveOuter u (u.depthBound k) [] k { names }
  obtain ⟨drawn, hgiven, hdraws, hfree⟩ := Progress.extends_of_steps hsteps
  have hdrawn : (u.resolve k names).2.given = drawn := hgiven
  rw [hdrawn]
  exact ⟨hdraws, fun name hname huses => hfree name hname (mem_reserved_iff.mpr huses)⟩

/-- A resolved kind has no names but those that were given and those that were in use before. -/
theorem given_or_uses_of_resolve {u : Substitution} {k r : Kind} {names : NameSupply}
    (h : (u.resolve k names).1 = .ok r) :
    ∀ v ∈ r.variables, v.name ∈ (u.resolve k names).2.given ∨ u.Uses k v.name := by
  obtain ⟨-, hmet, hr⟩ := eq_expand_of_resolve h
  intro x hx
  rw [hr] at hx
  rcases met_or_revisits_of_mem_expand (.start u k) hx with
    ⟨v, hv, rfl⟩ | ⟨path, j, hdescent, -, hx⟩
  · have hmem := List.mem_reverse.mpr (hmet v hv)
    exact .inl (List.mem_map_of_mem (f := Prod.snd) hmem)
  · exact .inr (mem_reserved_iff.mp (hdescent.name_mem_reserved x hx))

end Substitution

theorem Shape.rest?_pushBottom (s : Shape) (name : String) :
    (s.pushBottom (.var ⟨.stack, name⟩)).rest? = some name := by
  simp [Shape.rest?, Shape.bottom?, Shape.pushBottom, Kind.stackVar?]

namespace Session

/-- What can be asked of a session. -/
inductive Request where
  | normalize (k : Kind) (u : Substitution)
  | resolveSignature (f : Signature) (u : Substitution)
  | openSignature (f : Signature)
  | fresh (base : String)
  | freshAvoiding (base : String) (reserved : List String)
  | takeNumber

/-- The kind that a request resolves, and the substitution. -/
def Request.resolved? : Request → Option (Kind × Substitution)
  | .normalize k u => some (k, u)
  | .resolveSignature f u => some (f.kind, u)
  | _ => none

/-- The session after a request. -/
def after (session : Session) : Request → Session
  | .normalize k u => (session.normalize k u).value.2
  | .resolveSignature f u => (session.resolveSignature f u).value.2
  | .openSignature f => (session.openSignature f).2
  | .fresh base => (session.fresh base).2
  | .freshAvoiding base reserved => (session.freshAvoiding base reserved).2
  | .takeNumber => session.takeNumber.2

/-- The names that a session generates for a request, oldest first. -/
def generated (session : Session) : Request → List String
  | .normalize k u => (u.resolve k session.names).2.given
  | .resolveSignature f u => (u.resolve f.kind session.names).2.given
  | .openSignature f =>
    if f.consumption.isOpen then [] else (session.openSignature f).1.consumption.rest?.toList
  | .fresh base => [(session.fresh base).1]
  | .freshAvoiding base reserved => [(session.freshAvoiding base reserved).1]
  | .takeNumber => []

/-- The requests of a sequence, each with the session that it is made to. -/
def history (session : Session) : List Request → List (Session × Request)
  | [] => []
  | request :: requests => (session, request) :: (session.after request).history requests

theorem draws_after (session : Session) (request : Request) :
    session.names.Draws (session.generated request) (session.after request).names := by
  cases request with
  | normalize k u => exact (u.draws_resolve k session.names).1
  | resolveSignature f u => exact (u.draws_resolve f.kind session.names).1
  | openSignature f =>
    by_cases hopen : f.consumption.isOpen = true
    · simp only [generated, after, openSignature, Signature.opened, if_pos hopen]
      exact NameSupply.draws_nil (Nat.le_refl _)
    · simp only [generated, after, openSignature, Signature.opened, if_neg hopen,
        Shape.rest?_pushBottom, Option.toList_some]
      exact session.names.draws_fresh "a"
  | fresh base => exact session.names.draws_fresh base
  | freshAvoiding base reserved => exact (session.names.draws_freshAvoiding base reserved).1
  | takeNumber => exact NameSupply.draws_nil (Nat.le_succ _)

/-- The session after a sequence of requests. -/
def afterAll (session : Session) (requests : List Request) : Session :=
  requests.foldl after session

theorem draws_afterAll (session : Session) (requests : List Request) :
    session.names.Draws ((session.history requests).flatMap fun entry => entry.1.generated entry.2)
      (session.afterAll requests).names := by
  induction requests generalizing session with
  | nil => exact NameSupply.draws_nil (Nat.le_refl _)
  | cons request requests ih => exact (session.draws_after request).append (ih _)

/-- A session never generates a name twice, whatever is asked of it and in which order. A name that
it generates while it resolves a kind is in use neither in that kind nor in the substitution, and
all other names of the result are. -/
theorem generated_nodup (session : Session) (requests : List Request) :
    ((session.history requests).flatMap fun entry => entry.1.generated entry.2).Nodup ∧
      ∀ entry ∈ session.history requests, ∀ k u, entry.2.resolved? = some (k, u) →
        (∀ name ∈ entry.1.generated entry.2, ¬u.Uses k name) ∧
        ∀ r, (entry.1.normalize k u).value.1 = .ok r →
          ∀ v ∈ r.variables, v.name ∈ entry.1.generated entry.2 ∨ u.Uses k v.name := by
  refine ⟨(session.draws_afterAll requests).nodup, ?_⟩
  rintro ⟨s, request⟩ - k u hresolved
  have hgenerated : s.generated request = (u.resolve k s.names).2.given := by
    cases request with
    | normalize | resolveSignature =>
      cases hresolved
      rfl
    | _ => cases hresolved
  dsimp only
  rw [hgenerated]
  exact ⟨(u.draws_resolve k s.names).2, fun r h => Substitution.given_or_uses_of_resolve h⟩

/-- One of the numbers is skipped because its name is in use, and one is given out bare. -/
example : (({} : Session).history
    [.fresh "x$7", .normalize (.function [.var ⟨.type, "x"⟩, .var ⟨.stack, "x$1"⟩] [] false) {},
      .takeNumber, .openSignature ⟨[], [], false⟩]).flatMap
      (fun entry => entry.1.generated entry.2) = ["x$0", "x$2", "x$3", "a$5"] := by
  decide

end Session

end Concatenative
