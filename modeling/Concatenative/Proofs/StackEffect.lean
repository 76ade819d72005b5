import Concatenative.Machine.Basic
import Mathlib.Data.List.Forall2

/-! The built-in words do what their signatures say. A computation has a stack effect if it succeeds
only on values that fill the slots it takes, puts values that fill the slots it leaves in their
place, and fails only for given reasons when its slots are filled. The effects of the stack
operations add up to the signatures of the words. -/

namespace Concatenative

/-- Whether a value can fill a slot: a named kind asks for a value of the type of that name and a
function for a quotation. -/
def Kind.Admits : Kind → Value → Prop
  | .named name, v => v.tag.text = name
  | .function _ _ _, v => v.tag = .quotation
  | _, _ => True

/-- The values fill the slots one by one, top first. -/
def Shape.Fits (slots : Shape) (values : List Value) : Prop := List.Forall₂ Kind.Admits slots values

namespace Run

/-- What a computation does to the stack, and how it may fail if its slots are filled by values from
a list. -/
structure Effect {α : Type} (given : List Value) (takes leaves : Shape) (fails : RunError → Prop)
    (r : Run α) : Prop where
  ok : ∀ s a, (r s).result = .ok a → ∃ taken left rest, s = taken ++ rest ∧
    (r s).stack = left ++ rest ∧ takes.Fits taken ∧ leaves.Fits left
  error : ∀ taken rest e, takes.Fits taken → taken ⊆ given →
    (r (taken ++ rest)).result = .error e → fails e

variable {α β : Type} {given : List Value} {takes leaves : Shape} {fails : RunError → Prop}
  {k : Kind} {op : String}

theorem effect_of_leaves {r : Run α} {a : α} (left : List Value) (hleft : leaves.Fits left)
    (h : ∀ s, (r s).result = .ok a ∧ (r s).stack = left ++ s) : r.Effect given [] leaves fails where
  ok := fun s _ _ => ⟨[], left, s, rfl, (h s).2, .nil, hleft⟩
  error := by
    intro taken rest e _ _ herror
    rw [(h _).1] at herror
    cases herror

theorem effect_pure (a : α) : (Pure.pure a : Run α).Effect given [] [] fails :=
  effect_of_leaves [] .nil fun _ => ⟨rfl, rfl⟩

theorem effect_push {v : Value} (h : k.Admits v) : (push v).Effect given [] [k] fails :=
  effect_of_leaves [v] (.cons h .nil) fun _ => ⟨rfl, rfl⟩

theorem effect_push_push {k' : Kind} {v w : Value} (hv : k.Admits v) (hw : k'.Admits w) :
    (do push v; push w : Run Unit).Effect given [] [k', k] fails :=
  effect_of_leaves [w, v] (.cons hw (.cons hv .nil)) fun _ => ⟨rfl, rfl⟩

theorem effect_fail {e : RunError} (h : fails e) :
    (fail e : Run α).Effect given takes leaves fails where
  ok := by
    intro _ _ hok
    cases hok
  error := by
    intro _ _ _ _ _ herror
    cases herror
    exact h

theorem effect_emit {mode : Mode} (line : String) (h : mode = .pure → fails (.sideEffect op)) :
    (emit mode op line).Effect given [] [] fails := by
  cases mode with
  | effectful => exact effect_of_leaves [] .nil fun _ => ⟨rfl, rfl⟩
  | pure => exact effect_fail (h rfl)

theorem effect_pop {x : Variable} : (Run.pop op).Effect given [.var x] [] fails where
  ok := by
    intro s a hok
    cases s with
    | nil => cases hok
    | cons v s => exact ⟨[v], [], s, rfl, rfl, .cons trivial .nil, .nil⟩
  error := by
    rintro _ rest e (_ | ⟨_, _⟩) _ herror
    cases herror

theorem Effect.takes_one {r : Run α} (hr : r.Effect given [k] [] fails) {s : Stack} {a : α}
    (h : (r s).result = .ok a) : ∃ v, k.Admits v ∧ s = v :: (r s).stack := by
  obtain ⟨_, _, rest, hs, hstack, _ | ⟨hv, _ | _⟩, _ | _⟩ := hr.ok s a h
  rw [hstack]
  exact ⟨_, hv, hs⟩

/-- A computation that takes one value, and another one after it. -/
theorem Effect.bind {r : Run α} {next : α → Run β} (hr : r.Effect given [k] [] fails)
    (hnext : ∀ a, (next a).Effect given takes leaves fails) :
    (r >>= next).Effect given (k :: takes) leaves fails where
  ok := by
    intro s b hok
    cases hresult : (r s).result with
    | error e =>
      rw [bind_of_error hresult] at hok
      cases hok
    | ok a =>
      rw [bind_of_ok hresult] at hok ⊢
      obtain ⟨v, hv, hs⟩ := hr.takes_one hresult
      obtain ⟨taken, left, rest, hrest, hleft, htaken, hleaves⟩ := (hnext a).ok _ b hok
      exact ⟨v :: taken, left, rest, hs.trans (congrArg (List.cons v) hrest), hleft,
        .cons hv htaken, hleaves⟩
  error := by
    rintro _ rest e (_ | @⟨_, v, _, taken, hv, htaken⟩) hgiven herror
    obtain ⟨hvgiven, htakengiven⟩ := List.cons_subset.mp hgiven
    cases hresult : (r (v :: taken ++ rest)).result with
    | error e' =>
      rw [bind_of_error hresult] at herror
      cases herror
      exact hr.error [v] (taken ++ rest) e (.cons hv .nil) (by simpa using hvgiven) hresult
    | ok a =>
      obtain ⟨w, -, hs⟩ := hr.takes_one hresult
      rw [bind_of_ok hresult, ← (List.cons.inj hs).2] at herror
      exact (hnext a).error taken rest e htaken htakengiven herror

/-- Asking for no more values than are taken anyway changes nothing. -/
theorem Effect.after_need {n : Nat} {next : Run α} (h : next.Effect given takes leaves fails)
    (hn : n ≤ takes.length) :
    (do need op n; next : Run α).Effect given takes leaves fails := by
  have hneed : ∀ s : Stack, n ≤ s.length → (do need op n; next : Run α) s = next s := by
    intro s hs
    have hok : (need op n s) = ⟨.ok (), s, [], []⟩ := by rw [need, if_neg (by omega)]
    rw [bind_of_ok (a := ()) (by rw [hok]), hok]
    rfl
  constructor
  · intro s a hok
    by_cases hs : n ≤ s.length
    · rw [hneed s hs] at hok ⊢
      exact h.ok s a hok
    · have herror : (need op n s).result = .error (.stackUnderflow op) := by
        rw [need, if_pos (by omega)]
      rw [bind_of_error herror] at hok
      cases hok
  · intro taken rest e htaken hgiven herror
    have hlength := htaken.length_eq
    rw [hneed _ (by rw [List.length_append]; omega)] at herror
    exact h.error taken rest e htaken hgiven herror

theorem popAs_cons (op : String) (expected : Expectation) (read : Value → Option α) (v : Value)
    (s : Stack) : popAs op expected read (v :: s) = match read v with
      | some a => ⟨.ok a, s, [], []⟩
      | none => ⟨.error (.typeMismatch op expected v.tag), s, [], []⟩ := by
  rw [popAs, bind_of_ok (a := v) rfl]
  cases read v <;> rfl

theorem effect_popAs {expected : Expectation} {read : Value → Option α}
    (hread : ∀ v a, read v = some a → k.Admits v)
    (hmiss : ∀ v ∈ given, k.Admits v → read v = none → fails (.typeMismatch op expected v.tag)) :
    (popAs op expected read).Effect given [k] [] fails where
  ok := by
    intro s a hok
    cases s with
    | nil => cases hok
    | cons v s =>
      rw [popAs_cons] at hok ⊢
      cases hv : read v with
      | none =>
        rw [hv] at hok
        cases hok
      | some a => exact ⟨[v], [], s, rfl, rfl, .cons (hread v a hv) .nil, .nil⟩
  error := by
    rintro _ rest e (_ | @⟨_, v, _, _, hadmits, _ | _⟩) hgiven herror
    rw [List.cons_append, popAs_cons] at herror
    cases hv : read v with
    | none =>
      rw [hv] at herror
      cases herror
      exact hmiss v (hgiven List.mem_cons_self) hadmits hv
    | some a =>
      rw [hv] at herror
      cases herror

/-- Taking a value of one type from a slot for values of that type. -/
theorem effect_popTagged {t : TypeTag} {read : Value → Option α} (hk : ∀ v, k.Admits v ↔ v.tag = t)
    (hread : ∀ v, (read v).isSome ↔ v.tag = t) :
    (popAs op (.tag t) read).Effect given [k] [] fails := by
  refine effect_popAs (fun v a hv => (hk v).mpr ((hread v).mp (by simp [hv]))) ?_
  intro v _ hadmits hnone
  have hsome := (hread v).mpr ((hk v).mp hadmits)
  simp [hnone] at hsome

theorem admits_named_iff (t : TypeTag) (v : Value) :
    (Kind.named t.text).Admits v ↔ v.tag = t := by
  have hinj : ∀ t' : TypeTag, t'.text = t.text → t' = t := by
    intro t'
    cases t <;> cases t' <;> decide
  exact ⟨hinj v.tag, congrArg TypeTag.text⟩

theorem effect_popInt : (popInt op).Effect given [.named "Int"] [] fails := by
  refine effect_popTagged (admits_named_iff .int) ?_
  rintro ((_ | _ | _ | _) | _ | _) <;> simp [Value.tag, Literal.tag]

theorem effect_popBool : (popBool op).Effect given [.named "Bool"] [] fails := by
  refine effect_popTagged (admits_named_iff .bool) ?_
  rintro ((_ | _ | _ | _) | _ | _) <;> simp [Value.tag, Literal.tag]

theorem effect_popString : (popString op).Effect given [.named "String"] [] fails := by
  refine effect_popTagged (admits_named_iff .string) ?_
  rintro ((_ | _ | _ | _) | _ | _) <;> simp [Value.tag, Literal.tag]

theorem effect_popList : (popList op).Effect given [.named "List"] [] fails := by
  refine effect_popTagged (admits_named_iff .list) ?_
  rintro ((_ | _ | _ | _) | _ | _) <;> simp [Value.tag, Literal.tag]

theorem effect_popQuotation {consumption production : Shape} {effects : Bool} :
    (popQuotation op).Effect given [.function consumption production effects] [] fails := by
  refine effect_popTagged (t := .quotation) (fun _ => Iff.rfl) ?_
  rintro ((_ | _ | _ | _) | _ | _) <;> simp [Value.tag, Literal.tag]

theorem effect_popPlain {x : Variable}
    (h : ∀ v ∈ given, v.hasQuotation = true → fails (.typeMismatch op .plain v.tag)) :
    (popPlain op).Effect given [.var x] [] fails := by
  refine effect_popAs (fun _ _ _ => trivial) fun w hw _ hnone => h w hw ?_
  simpa using hnone

end Run

namespace Primitive

open Run

/-- How a built-in word may fail when values fill its slots. -/
inductive MayFail (mode : Mode) (given : List Value) : Primitive → RunError → Prop
  | notPlain {p : Primitive} {v : Value} : p = .eq ∨ p = .print → v ∈ given →
    v.hasQuotation = true → MayFail mode given p (.typeMismatch p.name .plain v.tag)
  | zeroDivisor {p : Primitive} : p = .div ∨ p = .mod →
    MayFail mode given p (.divisionByZero p.name)
  | noArgument {i : Fin 10} {length : Nat} : length ≤ i.val →
    MayFail mode given (.arg i) (.indexOutOfRange (Primitive.arg i).name i.val length)
  | silenced {p : Primitive} : mode = .pure → p.signature.effects = true →
    MayFail mode given p (.sideEffect p.name)

variable {mode : Mode} {given : List Value} {fails : RunError → Prop} {k : Kind}

theorem onInts_effect {op : String} {f : Int64 → Int64 → Run Literal}
    (h : ∀ a b, (do push (.literal (← f a b)) : Run Unit).Effect given [] [k] fails) :
    (onInts op f).Effect given [.named "Int", .named "Int"] [k] fails :=
  effect_popInt.bind fun b => effect_popInt.bind fun a => h a b

theorem onBools_effect {op : String} (f : Bool → Bool → Bool) :
    (onBools op f).Effect given [.named "Bool", .named "Bool"] [.named "Bool"] fails :=
  effect_popBool.bind fun _ => effect_popBool.bind fun _ => effect_push rfl

theorem signature_arg (i : Fin 10) : (Primitive.arg i).signature =
    .ofBottomUp [.var ⟨.stack, "a"⟩, .named "List"]
      [.var ⟨.stack, "a"⟩, .var ⟨.type, "T"⟩, .named "List"] := by
  revert i
  decide

theorem exec_effect (p : Primitive) {c l : Nat} (hc : p.signature.taken? = some c)
    (hl : p.signature.left? = some l) (mode : Mode) (invoke : Block → Run Unit)
    (given : List Value) :
    (p.exec mode invoke).Effect given (p.signature.consumption.take c)
      (p.signature.production.take l) (p.MayFail mode given) := by
  cases p with
  | add | sub | mul | lt | gt =>
    cases hc
    cases hl
    exact onInts_effect fun a b => effect_push rfl
  | div | mod =>
    cases hc
    cases hl
    refine onInts_effect fun a b => ?_
    split
    · exact effect_fail (.zeroDivisor (by simp))
    · exact effect_push rfl
  | eq =>
    cases hc
    cases hl
    have hplain : ∀ v ∈ given, v.hasQuotation = true →
        Primitive.eq.MayFail mode given (.typeMismatch Primitive.eq.name .plain v.tag) :=
      fun v => .notPlain (.inl rfl)
    refine Effect.after_need ?_ (Nat.le_refl 2)
    exact (effect_popPlain hplain).bind fun b => (effect_popPlain hplain).bind fun a =>
      effect_push rfl
  | and | or =>
    cases hc
    cases hl
    exact onBools_effect _
  | not =>
    cases hc
    cases hl
    exact effect_popBool.bind fun a => effect_push rfl
  | concat =>
    cases hc
    cases hl
    exact effect_popString.bind fun b => effect_popString.bind fun a => effect_push rfl
  | dup =>
    cases hc
    cases hl
    exact effect_pop.bind fun v => effect_push_push trivial trivial
  | pop =>
    cases hc
    cases hl
    exact effect_pop.bind fun v => effect_pure ()
  | swap =>
    cases hc
    cases hl
    simp only [exec, popTwo, bind_assoc, pure_bind]
    refine Effect.after_need ?_ (Nat.le_refl 2)
    exact effect_pop.bind fun b => effect_pop.bind fun a =>
      effect_push_push trivial trivial
  | print =>
    cases hc
    cases hl
    refine (effect_popPlain fun v => .notPlain (.inr rfl)).bind fun v => ?_
    exact effect_emit _ fun hmode => .silenced hmode rfl
  | writeln =>
    cases hc
    cases hl
    exact effect_popString.bind fun line => effect_emit _ fun hmode => .silenced hmode rfl
  | apply | dip | choose => cases hc
  | compose =>
    cases hc
    cases hl
    exact effect_popQuotation.bind fun b => effect_popQuotation.bind fun a => effect_push rfl
  | argList =>
    cases hc
    cases hl
    exact effect_push rfl
  | swons =>
    cases hc
    cases hl
    exact effect_popList.bind fun items => effect_pop.bind fun v =>
      effect_push rfl
  | embedArgs =>
    cases hc
    cases hl
    exact effect_popQuotation.bind fun b => effect_popList.bind fun items =>
      effect_push_push rfl rfl
  | arg i =>
    rw [signature_arg] at hc hl ⊢
    cases hc
    cases hl
    refine effect_popList.bind fun items => ?_
    split
    · exact effect_push_push trivial rfl
    · next hnone => exact effect_fail (.noArgument (List.getElem?_eq_none_iff.mp hnone))

/-- The words that this says nothing about are those that run a quotation. -/
example : all.filter (fun p => p.signature.taken?.isNone || p.signature.left?.isNone) =
    [.apply, .dip, .choose] := by
  decide

end Primitive

theorem Shape.le_length_of_depth? {s other : Shape} {n : Nat} (h : s.depth? other = some n) :
    n ≤ s.length := by
  unfold Shape.depth? at h
  split at h
  · cases h
    exact Nat.le_refl _
  · split at h
    · cases h
      omega
    · cases h

theorem Shape.Fits.length_of_take {slots : Shape} {values : List Value} {n : Nat}
    (h : Shape.Fits (slots.take n) values) (hn : n ≤ slots.length) : values.length = n := by
  have hlength := h.length_eq
  rw [List.length_take] at hlength
  omega

namespace Primitive

/-- The words with signatures are the words that can be run. A word whose signature leaves the rest
of the stack alone succeeds only if the values on top fill the slots that it takes, and replaces
them by values that fill the slots that it leaves; if its slots are filled, it fails only where
something else than the number and the types of the values is amiss. -/
theorem exec_meets_signature :
    (∀ name, (builtinSignature? name).isSome = (ofName? name).isSome) ∧
    ∀ (name : String) (p : Primitive) (f : Signature) (c l : Nat), ofName? name = some p →
      builtinSignature? name = some f → f.taken? = some c → f.left? = some l →
      ∀ (m : Machine) (mode : Mode) (calls : Nat) (s : Stack),
        ((p.exec mode (m.invoke mode calls) s).result = .ok () →
          ∃ taken left rest, s = taken ++ rest ∧
            (p.exec mode (m.invoke mode calls) s).stack = left ++ rest ∧
            taken.length = c ∧ left.length = l ∧
            Shape.Fits (f.consumption.take c) taken ∧ Shape.Fits (f.production.take l) left) ∧
        (Shape.Fits (f.consumption.take c) (s.take c) →
          ∀ e, (p.exec mode (m.invoke mode calls) s).result = .error e →
            p.MayFail mode (s.take c) e) := by
  refine ⟨isSome_builtinSignature?, fun name p f c l hp hf hc hl m mode calls s => ?_⟩
  obtain rfl := name_of_ofName? hp
  obtain rfl : p.signature = f := Option.some.inj (p.builtinSignature?_name.symm.trans hf)
  have heffect := p.exec_effect hc hl mode (m.invoke mode calls) (s.take c)
  constructor
  · intro hok
    obtain ⟨taken, left, rest, hs, hstack, htaken, hleft⟩ := heffect.ok s () hok
    have hclength := htaken.length_of_take (Shape.le_length_of_depth? hc)
    have hllength := hleft.length_of_take (Shape.le_length_of_depth? hl)
    exact ⟨taken, left, rest, hs, hstack, hclength, hllength, htaken, hleft⟩
  · intro hfits e herror
    refine heffect.error (s.take c) (s.drop c) e hfits (List.Subset.refl _) ?_
    rwa [List.take_append_drop]

/-- A word that leaves its values the other way round, and one that looks for an argument that is
not there. -/
theorem exec_meets_signature_arguments :
    let m : Machine := {}
    let arguments : Value := .list [.literal (.int 7)]
    let s : Stack := [.quotation [.run (.word "arg0")], arguments, .literal (.bool true)]
    ((embedArgs.exec .pure (m.invoke .pure 0) s).result = .ok () ∧ ∃ taken left rest,
      s = taken ++ rest ∧ (embedArgs.exec .pure (m.invoke .pure 0) s).stack = left ++ rest ∧
      taken.length = 2 ∧ left.length = 2 ∧
      Shape.Fits (embedArgs.signature.consumption.take 2) taken ∧
      Shape.Fits (embedArgs.signature.production.take 2) left) ∧
    ((arg 3).exec .pure (m.invoke .pure 0) [arguments]).result =
      .error (.indexOutOfRange "arg3" 3 1) ∧
    (arg 3).MayFail .pure [arguments] (.indexOutOfRange "arg3" 3 1) := by
  intro m arguments s
  have hembed := exec_meets_signature.2 "embed_args" embedArgs embedArgs.signature 2 2 rfl rfl rfl
    rfl m .pure 0 s
  have harg := exec_meets_signature.2 "arg3" (arg 3) (arg 3).signature 1 2 rfl rfl rfl rfl m .pure 0
    [arguments]
  exact ⟨⟨rfl, hembed.1 rfl⟩, rfl, harg.2 (.cons rfl .nil) _ rfl⟩

end Primitive

end Concatenative
