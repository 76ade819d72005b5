import Concatenative.Event
import Concatenative.Settings.Basic
import Concatenative.Signature
import Concatenative.Substitution.Resolve

/-! An inference session: resolutions that draw on one supply of fresh names. -/

namespace Concatenative

structure Session where
  names : NameSupply := {}
  settings : Settings := {}

/-- Why a signature was refused. -/
inductive SignatureError where
  | bareVector (e : BareVector)
  | illTyped (e : IllTyped)
  /-- The signature resolved to a kind that is not a function. -/
  | notFunction (k : Kind)

namespace Session

/-- Resolves a kind. -/
def normalize (session : Session) (k : Kind) (u : Substitution) :
    Logged (Except BareVector Kind × Session) :=
  let (result, progress) := u.resolve k session.names
  let followed := progress.followed.reverse.map fun d => Event.dereferenced d.source d.binding
  let inferred := match result with
    | .ok resolved => [Event.inferred k resolved]
    | .error _ => []
  ⟨(result, { session with names := progress.names }),
    (if session.settings.verboseInference then followed else [])
      ++ (if session.settings.showInferred then inferred else [])⟩

/-- Resolves a signature and checks the result. A function resolves to a function, so the error for
other kinds does not occur. -/
def resolveSignature (session : Session) (f : Signature) (u : Substitution) :
    Logged (Except SignatureError Signature × Session) := do
  let (result, session) ← session.normalize f.kind u
  let verdict := match result with
    | .error e => .error (.bareVector e)
    | .ok (.function consumption production effects) =>
      let resolved : Signature := ⟨consumption, production, effects⟩
      match resolved.check with
      | .error e => .error (.illTyped e)
      | .ok () => .ok resolved
    | .ok k => .error (.notFunction k)
  return (verdict, session)

/-- Puts a fresh stack variable under a closed signature. -/
def openSignature (session : Session) (f : Signature) : Signature × Session :=
  let (opened, names) := f.opened session.names
  (opened, { session with names })

def takeNumber (session : Session) : Nat × Session :=
  let (number, names) := session.names.takeNumber
  (number, { session with names })

def fresh (session : Session) (base : String) : String × Session :=
  let (name, names) := session.names.fresh base
  (name, { session with names })

def freshAvoiding (session : Session) (base : String) (reserved : List String) :
    String × Session :=
  let (name, names) := session.names.freshAvoiding base reserved
  (name, { session with names })

end Session

end Concatenative
