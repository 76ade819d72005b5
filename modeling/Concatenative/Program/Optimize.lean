import Concatenative.Fold
import Concatenative.Program.PointFree
import Concatenative.Settings.Basic

/-! The passes over a program: conversion to point-free form, then folding. -/

namespace Concatenative

/-- Converts a definition and reports it if it had parameters. -/
def Definition.convert (settings : Settings) (d : Definition) :
    Logged (Except UnsupportedArity Definition) :=
  match d.pointFree with
  | .error e => ⟨.error e, []⟩
  | .ok d' =>
    ⟨.ok d', if settings.showPointFree && !d.isPointFree then [.converted d'] else []⟩

namespace Program

/-- Converts the definitions in order, up to the first that cannot be converted. The result is the
program as far as it was converted, and the failure, if there was one. -/
def convert (settings : Settings) : Program → Logged (Program × Option UnsupportedArity)
  | [] => return ([], none)
  | d :: ds => do
    match ← d.convert settings with
    | .error e => return (d :: ds, some e)
    | .ok d' =>
      let (rest, failure) ← convert settings ds
      return (d' :: rest, failure)

/-- Converts a program and, if the settings ask for it, folds the bodies of its definitions, running
words on a machine. After a failed conversion nothing is folded. -/
def optimize (settings : Settings) (m : Machine) (p : Program) :
    Logged (Program × Option UnsupportedArity) := do
  let (p', failure) ← p.convert settings
  match failure with
  | some e => return (p', some e)
  | none =>
    if settings.partialEvaluation then return (← p'.mapM m.foldDefinition, none)
    else return (p', none)

end Program

end Concatenative
