/-! Settings: which passes run and what they report. -/

namespace Concatenative

structure Settings where
  /-- Report every definition that is brought into point-free form. -/
  showPointFree : Bool := false
  /-- Report every binding that is followed when a kind is resolved. -/
  verboseInference : Bool := false
  /-- Report every kind that was resolved. -/
  showInferred : Bool := false
  /-- Fold the bodies of definitions. -/
  partialEvaluation : Bool := true
  deriving DecidableEq

/-- One of the settings. -/
inductive Setting where
  | showPointFree
  | verboseInference
  | showInferred
  | partialEvaluation
  deriving DecidableEq

namespace Setting

def all : List Setting := [showPointFree, verboseInference, showInferred, partialEvaluation]

/-- The name that a setting has in a document. -/
def key : Setting → String
  | showPointFree => "show_point_free_conversion"
  | verboseInference => "verbose_inference"
  | showInferred => "show_inferred_type"
  | partialEvaluation => "partial_evaluation"

def ofKey? (key : String) : Option Setting := all.find? (·.key = key)

theorem ofKey?_key (s : Setting) : ofKey? s.key = some s := by
  cases s <;> rfl

end Setting

namespace Settings

def get (s : Settings) : Setting → Bool
  | .showPointFree => s.showPointFree
  | .verboseInference => s.verboseInference
  | .showInferred => s.showInferred
  | .partialEvaluation => s.partialEvaluation

def set (s : Settings) (setting : Setting) (value : Bool) : Settings :=
  match setting with
  | .showPointFree => { s with showPointFree := value }
  | .verboseInference => { s with verboseInference := value }
  | .showInferred => { s with showInferred := value }
  | .partialEvaluation => { s with partialEvaluation := value }

theorem get_set (s : Settings) (setting other : Setting) (value : Bool) :
    (s.set setting value).get other = if other = setting then value else s.get other := by
  cases setting <;> cases other <;> rfl

end Settings

end Concatenative
