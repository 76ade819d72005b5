import Concatenative.Value

/-! What can go wrong when code runs, and what an attempt to run code ahead of time reports. -/

namespace Concatenative

/-- What a word asks of a value. -/
inductive Expectation where
  | tag (t : TypeTag)
  /-- A value that neither is nor holds a quotation. -/
  | plain
  deriving DecidableEq

def Expectation.text : Expectation → String
  | .tag t => t.text
  | .plain => "value without quotations"

/-- Why a run ended early. Words are named as they were called. -/
inductive RunError where
  | stackUnderflow (op : String)
  | typeMismatch (op : String) (expected : Expectation) (found : TypeTag)
  | unknownWord (name : String)
  /-- A word that writes output was called where output is not allowed. -/
  | sideEffect (op : String)
  | divisionByZero (op : String)
  | indexOutOfRange (op : String) (index length : Nat)
  | callDepthExceeded (limit : Nat)
  deriving DecidableEq

def RunError.message : RunError → String
  | .stackUnderflow op => op ++ ": stack underflow"
  | .typeMismatch op expected found =>
    op ++ ": expected " ++ expected.text ++ ", got " ++ found.text
  | .unknownWord name => "unknown word '" ++ name ++ "'"
  | .sideEffect op => op ++ ": side effects are not allowed here"
  | .divisionByZero op => op ++ ": division by zero"
  | .indexOutOfRange op index length =>
    op ++ ": index " ++ toString index ++ " out of range for list of length " ++ toString length
  | .callDepthExceeded limit => "call depth exceeded " ++ toString limit

/-- Why a term cannot be run ahead of time. -/
inductive Fault where
  | sideEffect (name : String)
  | missingType (name : String)
  | run (cause : RunError)
  deriving DecidableEq

def Fault.message : Fault → String
  | .sideEffect name => "'" ++ name ++ "' has side effects"
  | .missingType name => "no stack effect known for '" ++ name ++ "'"
  | .run cause => cause.message

/-- The fault that a failed run amounts to. -/
def RunError.fault : RunError → Fault
  | .sideEffect op => .sideEffect op
  | .unknownWord name => .missingType name
  | e => .run e

end Concatenative
