import Polytype.Assoc
import Polytype.Clash
import Polytype.Coverage.Matrix
import Polytype.Coverage.MissingCase
import Polytype.Coverage.Pat
import Polytype.Coverage.Search
import Polytype.Coverage.Weight
import Polytype.Diagnostic.Excerpt
import Polytype.Diagnostic.TypeError
import Polytype.Env.Alias
import Polytype.Env.Basic
import Polytype.Env.Definition
import Polytype.Env.Prelude
import Polytype.Inference.Annotation
import Polytype.Inference.Basic
import Polytype.Inference.Declaration
import Polytype.Inference.Event
import Polytype.Inference.Expr
import Polytype.Inference.Generalize
import Polytype.Inference.Pattern
import Polytype.Module.Check
import Polytype.Program.Declaration
import Polytype.Program.Double
import Polytype.Program.Expr
import Polytype.Program.Pattern
import Polytype.Program.Span
import Polytype.Program.TypeExpr
import Polytype.Proofs.Assoc
import Polytype.Proofs.Coverage.Covers
import Polytype.Proofs.Coverage.Exhaustive
import Polytype.Proofs.Coverage.Lowering
import Polytype.Proofs.Coverage.Totality
import Polytype.Proofs.Coverage.Uncovered
import Polytype.Proofs.Coverage.Value
import Polytype.Proofs.Env.AliasChain
import Polytype.Proofs.Env.Expansion
import Polytype.Proofs.Env.Fields
import Polytype.Proofs.Env.Free
import Polytype.Proofs.Env.Mentions
import Polytype.Proofs.Env.Parameters
import Polytype.Proofs.Env.Reading
import Polytype.Proofs.Inference.Annotation
import Polytype.Proofs.Inference.Complete
import Polytype.Proofs.Inference.Declaration
import Polytype.Proofs.Inference.Equality
import Polytype.Proofs.Inference.Expr
import Polytype.Proofs.Inference.Freshness
import Polytype.Proofs.Inference.Generalize
import Polytype.Proofs.Inference.History
import Polytype.Proofs.Inference.Inside
import Polytype.Proofs.Inference.Let
import Polytype.Proofs.Inference.Needs
import Polytype.Proofs.Inference.PartialCall
import Polytype.Proofs.Inference.Parts
import Polytype.Proofs.Inference.Pattern
import Polytype.Proofs.Inference.PatternNames
import Polytype.Proofs.Inference.RecordLiteral
import Polytype.Proofs.Inference.RecordPattern
import Polytype.Proofs.Inference.Refinement
import Polytype.Proofs.Inference.Rendering
import Polytype.Proofs.Inference.Run
import Polytype.Proofs.Inference.Scope
import Polytype.Proofs.Inference.Stage
import Polytype.Proofs.Inference.Steps
import Polytype.Proofs.Inference.Supply
import Polytype.Proofs.Inference.Typed
import Polytype.Proofs.Inference.ValueRestriction
import Polytype.Proofs.Inference.Values
import Polytype.Proofs.Inference.Visits
import Polytype.Proofs.Inference.World
import Polytype.Proofs.Inference.Yields
import Polytype.Proofs.Module.Agreement
import Polytype.Proofs.Module.Constructors
import Polytype.Proofs.Module.Generalization
import Polytype.Proofs.Module.Isolation
import Polytype.Proofs.Module.Origin
import Polytype.Proofs.Module.Outermost
import Polytype.Proofs.Module.Parameters
import Polytype.Proofs.Module.Prefix
import Polytype.Proofs.Module.Run
import Polytype.Proofs.Module.Scope
import Polytype.Proofs.Module.World
import Polytype.Proofs.Program.Induction
import Polytype.Proofs.Program.Needs
import Polytype.Proofs.Program.PatternParts
import Polytype.Proofs.Program.References
import Polytype.Proofs.Renaming.Checker
import Polytype.Proofs.Renaming.Declaration
import Polytype.Proofs.Renaming.Env
import Polytype.Proofs.Renaming.Inference
import Polytype.Proofs.Renaming.Run
import Polytype.Proofs.Renaming.Subst
import Polytype.Proofs.Renaming.Ty
import Polytype.Proofs.Renaming.Unification
import Polytype.Proofs.Scheme.Identity
import Polytype.Proofs.Subst.Absorption
import Polytype.Proofs.Subst.Closing
import Polytype.Proofs.Subst.Composition
import Polytype.Proofs.Subst.Discipline
import Polytype.Proofs.Subst.Evolution
import Polytype.Proofs.Subst.Image
import Polytype.Proofs.Subst.Instance
import Polytype.Proofs.Subst.Level
import Polytype.Proofs.Subst.LevelOrder
import Polytype.Proofs.Subst.Lowering
import Polytype.Proofs.Subst.Mentions
import Polytype.Proofs.Subst.Omission
import Polytype.Proofs.Subst.Operation
import Polytype.Proofs.Subst.Reachability
import Polytype.Proofs.Subst.Retention
import Polytype.Proofs.Ty.Erasure
import Polytype.Proofs.Ty.FreeVars
import Polytype.Proofs.Ty.Hereditary
import Polytype.Proofs.Ty.Text
import Polytype.Proofs.Typing.Core
import Polytype.Proofs.Typing.Principal
import Polytype.Proofs.Typing.Rules
import Polytype.Proofs.Typing.Soundness
import Polytype.Proofs.Typing.Substitution
import Polytype.Proofs.Unification.Fields
import Polytype.Proofs.Unification.Fit
import Polytype.Proofs.Unification.MostGeneral
import Polytype.Proofs.Unification.Step
import Polytype.Proofs.Unification.Strata
import Polytype.Proofs.Unification.Subtyping
import Polytype.Proofs.Unification.Termination
import Polytype.Proofs.Unification.Unfolding
import Polytype.Proofs.Unification.Watch
import Polytype.Scheme
import Polytype.Subst.Basic
import Polytype.Subst.Closing
import Polytype.Subst.Mention
import Polytype.Subst.OpenRecord
import Polytype.Subst.Reachable
import Polytype.Text.Quoted
import Polytype.Text.Separated
import Polytype.Ty.Basic
import Polytype.Ty.Lemmas
import Polytype.Ty.Printer
import Polytype.Unification.Measure
import Polytype.Unification.Problem
import Polytype.Unification.Solution
