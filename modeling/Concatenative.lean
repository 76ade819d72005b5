import Concatenative.Event
import Concatenative.Fold
import Concatenative.Kind.Basic
import Concatenative.Kind.Canonical
import Concatenative.Kind.Shape
import Concatenative.Kind.Text
import Concatenative.Machine.Basic
import Concatenative.Machine.Error
import Concatenative.Machine.Exec
import Concatenative.Machine.Interpreter
import Concatenative.Machine.Primitive
import Concatenative.Machine.Run
import Concatenative.Machine.Stepwise
import Concatenative.Name
import Concatenative.Number.Binary64
import Concatenative.Number.Shortest
import Concatenative.Number.Text
import Concatenative.Program.Basic
import Concatenative.Program.Optimize
import Concatenative.Program.PointFree
import Concatenative.Proofs.Acyclic
import Concatenative.Proofs.Arithmetic
import Concatenative.Proofs.Arity
import Concatenative.Proofs.BareVectors
import Concatenative.Proofs.Capture
import Concatenative.Proofs.Comparison
import Concatenative.Proofs.Conversion
import Concatenative.Proofs.Descent
import Concatenative.Proofs.DistinctNames
import Concatenative.Proofs.Equivalence
import Concatenative.Proofs.Escape
import Concatenative.Proofs.FirstOutput
import Concatenative.Proofs.FoldInvariant
import Concatenative.Proofs.Folding
import Concatenative.Proofs.Following
import Concatenative.Proofs.FreshNames
import Concatenative.Proofs.Greedy
import Concatenative.Proofs.Halting
import Concatenative.Proofs.Independence
import Concatenative.Proofs.Invariant
import Concatenative.Proofs.KnownWords
import Concatenative.Proofs.Laws
import Concatenative.Proofs.MoreRoom
import Concatenative.Proofs.NameSearch
import Concatenative.Proofs.NestingDepth
import Concatenative.Proofs.NormalForm
import Concatenative.Proofs.Optimizing
import Concatenative.Proofs.Parameters
import Concatenative.Proofs.Refolding
import Concatenative.Proofs.Reification
import Concatenative.Proofs.Renamer
import Concatenative.Proofs.Renaming
import Concatenative.Proofs.Resolution
import Concatenative.Proofs.ResolvedSignature
import Concatenative.Proofs.Rewriting
import Concatenative.Proofs.StackEffect
import Concatenative.Proofs.Unfolding
import Concatenative.Proofs.Verdict
import Concatenative.Proofs.WithoutRecursion
import Concatenative.Session
import Concatenative.Settings.Basic
import Concatenative.Settings.Document
import Concatenative.Signature
import Concatenative.Substitution.Agenda
import Concatenative.Substitution.Basic
import Concatenative.Substitution.Resolve
import Concatenative.Term
import Concatenative.Text.Extender
import Concatenative.Text.Hex
import Concatenative.Text.Printable
import Concatenative.Text.Quoted
import Concatenative.Value
