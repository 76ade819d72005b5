import Concatenative.Signature
import Concatenative.Term

/-! The built-in words and their signatures. -/

namespace Concatenative

/-- A built-in word. -/
inductive Primitive where
  | add
  | sub
  | mul
  | div
  | mod
  | eq
  | lt
  | gt
  | and
  | or
  | not
  | concat
  | dup
  | pop
  | swap
  | print
  | writeln
  | apply
  | dip
  /-- Runs one of two quotations. -/
  | choose
  | compose
  /-- Pushes an empty list of arguments. -/
  | argList
  /-- Puts a value in front of a list. -/
  | swons
  /-- Gives a quotation the list of arguments below it. -/
  | embedArgs
  /-- Copies an argument out of the list. -/
  | arg (i : Fin 10)
  deriving DecidableEq

namespace Primitive

def name : Primitive → String
  | add => "add"
  | sub => "sub"
  | mul => "mul"
  | div => "div"
  | mod => "mod"
  | eq => "eq"
  | lt => "lt"
  | gt => "gt"
  | and => "and"
  | or => "or"
  | not => "not"
  | concat => "concat"
  | dup => "dup"
  | pop => "pop"
  | swap => "swap"
  | print => "print"
  | writeln => "writeln"
  | apply => "apply"
  | dip => "dip"
  | choose => "if"
  | compose => "compose"
  | argList => "arg_list"
  | swons => "swons"
  | embedArgs => "embed_args"
  | arg i => "arg" ++ toString i.val

/-- All built-in words. -/
def all : List Primitive :=
  [add, sub, mul, div, mod, eq, lt, gt, and, or, not, concat, dup, pop, swap, print, writeln, apply,
    dip, choose, compose, argList, swons, embedArgs] ++ (List.finRange 10).map arg

/-- The built-in words by their names. -/
def table : List (String × Primitive) := all.map fun p => (p.name, p)

/-- The built-in word with a name. -/
def ofName? (name : String) : Option Primitive := table.lookup name

theorem ofName?_name (p : Primitive) : ofName? p.name = some p := by
  cases p with
  | arg i => revert i; decide
  | _ => rfl

/-- A word that is found has the name that was looked for. -/
theorem name_of_ofName? {name : String} {p : Primitive} (h : ofName? name = some p) :
    p.name = name := by
  unfold ofName? table at h
  generalize all = words at h
  induction words with
  | nil => simp at h
  | cons q rest ih =>
    simp only [List.map_cons, List.lookup_cons] at h
    split at h
    · simp_all
    · exact ih h

/-- The call of a built-in word. -/
def term (p : Primitive) : Term := .word p.name

end Primitive

/-- What the built-in words take and leave, by their names. -/
def builtinSignatures : List (String × Signature) :=
  let int := Kind.named "Int"
  let bool := Kind.named "Bool"
  let string := Kind.named "String"
  let list := Kind.named "List"
  let t := Kind.var ⟨.type, "T"⟩
  let u := Kind.var ⟨.type, "U"⟩
  let a := Kind.var ⟨.stack, "a"⟩
  let b := Kind.var ⟨.stack, "b"⟩
  let c := Kind.var ⟨.stack, "c"⟩
  let d := Kind.var ⟨.stack, "d"⟩
  let quotation (takes leaves : List Kind) := (Signature.ofBottomUp takes leaves).kind
  let accessors := ["arg0", "arg1", "arg2", "arg3", "arg4", "arg5", "arg6", "arg7", "arg8", "arg9"]
  let shared : List (List String × Signature) :=
    [(["add", "sub", "mul", "div", "mod"], .ofBottomUp [a, int, int] [a, int]),
      (["eq"], .ofBottomUp [a, t, t] [a, bool]),
      (["lt", "gt"], .ofBottomUp [a, int, int] [a, bool]),
      (["and", "or"], .ofBottomUp [a, bool, bool] [a, bool]),
      (["not"], .ofBottomUp [a, bool] [a, bool]),
      (["concat"], .ofBottomUp [a, string, string] [a, string]),
      (["dup"], .ofBottomUp [a, t] [a, t, t]),
      (["pop"], .ofBottomUp [a, t] [a]),
      (["swap"], .ofBottomUp [a, t, u] [a, u, t]),
      (["print"], .ofBottomUp [a, t] [a] true),
      (["writeln"], .ofBottomUp [a, string] [a] true),
      (["arg_list"], .ofBottomUp [a] [a, list]),
      (["swons"], .ofBottomUp [a, t, list] [a, list]),
      (accessors, .ofBottomUp [a, list] [a, t, list]),
      (["apply"], .ofBottomUp [a, quotation [a] [b]] [b]),
      (["dip"], .ofBottomUp [a, t, quotation [a] [b]] [b, t]),
      (["if"], .ofBottomUp [a, bool, quotation [a] [b], quotation [a] [b]] [b]),
      (["compose"],
        .ofBottomUp [a, quotation [b] [c], quotation [c] [d]] [a, quotation [b] [d]]),
      (["embed_args"],
        .ofBottomUp [a, list, quotation [b, list] [c]] [a, quotation [b] [c], list])]
  shared.flatMap fun entry => entry.1.map fun name => (name, entry.2)

/-- The signature of a built-in word, by its name. -/
def builtinSignature? (name : String) : Option Signature := builtinSignatures.lookup name

namespace Primitive

theorem isSome_builtinSignature?_name (p : Primitive) :
    (builtinSignature? p.name).isSome = true := by
  cases p with
  | arg i => revert i; decide
  | _ => rfl

/-- What a built-in word takes and leaves. -/
def signature (p : Primitive) : Signature :=
  (builtinSignature? p.name).get p.isSome_builtinSignature?_name

theorem builtinSignature?_name (p : Primitive) :
    builtinSignature? p.name = some p.signature :=
  (Option.some_get p.isSome_builtinSignature?_name).symm

/-- The words with a signature are those that can be run. -/
theorem isSome_builtinSignature? (name : String) :
    (builtinSignature? name).isSome = (ofName? name).isSome := by
  have hlisted : ∀ entry ∈ builtinSignatures, (ofName? entry.1).isSome = true := by decide
  rw [Bool.eq_iff_iff, Option.isSome_iff_exists]
  constructor
  · rintro ⟨f, hf⟩
    obtain ⟨before, after, hsplit, _⟩ := List.lookup_eq_some_iff.mp hf
    exact hlisted (name, f) (by simp [hsplit])
  · intro h
    obtain ⟨p, hp⟩ := Option.isSome_iff_exists.mp h
    exact ⟨p.signature, name_of_ofName? hp ▸ p.builtinSignature?_name⟩

end Primitive

end Concatenative
