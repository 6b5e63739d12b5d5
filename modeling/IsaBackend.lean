import IsaBackend.Builtin
import IsaBackend.CText.Expression
import IsaBackend.CText.Layout
import IsaBackend.CText.Name
import IsaBackend.CText.Program
import IsaBackend.Code.Basic
import IsaBackend.Code.Listing
import IsaBackend.Compilation
import IsaBackend.CompileError
import IsaBackend.Ensuring
import IsaBackend.Expr
import IsaBackend.Inline
import IsaBackend.Interface
import IsaBackend.Lifetime.Check
import IsaBackend.Lifetime.Error
import IsaBackend.Machine.Eval
import IsaBackend.Machine.Exec
import IsaBackend.Machine.Frame
import IsaBackend.Names.Ascending
import IsaBackend.Names.Fresh
import IsaBackend.Names.Table
import IsaBackend.Position
import IsaBackend.Rep.Basic
import IsaBackend.Rep.Bridge
import IsaBackend.Rep.Layouts
import IsaBackend.Rep.OfTy
import IsaBackend.Size
import IsaBackend.Staging.Basic
import IsaBackend.Staging.Call
import IsaBackend.Staging.Load
import IsaBackend.Staging.Term
import IsaBackend.Term.Basic
import IsaBackend.Term.Fuse
import IsaBackend.Term.Listing
import IsaBackend.Term.OfExpr
import IsaBackend.Term.Scope
import IsaBackend.Text.Digits
import IsaBackend.Text.Invisible
import IsaBackend.Text.Lines
import IsaBackend.Text.Quoted
import IsaBackend.Text.Unassigned
import IsaBackend.Ty
import IsaBackend.Value.Basic
import IsaBackend.Value.Conform
import IsaBackend.Value.Error
import IsaBackend.Value.Primitive
import IsaBackend.Proofs.Code.Tidy
import IsaBackend.Proofs.Effects
import IsaBackend.Proofs.Lifetime.Acceptance
import IsaBackend.Proofs.Machine.Calm
import IsaBackend.Proofs.Machine.Frames
import IsaBackend.Proofs.Machine.Logged
import IsaBackend.Proofs.Machine.Access
import IsaBackend.Proofs.Machine.Safety
import IsaBackend.Proofs.Lifetime.Soundness
import IsaBackend.Proofs.Names
import IsaBackend.Proofs.Staging.State
import IsaBackend.Proofs.Staging.Storage
import IsaBackend.Proofs.Staging.Operands
import IsaBackend.Proofs.Staging.Values
import IsaBackend.Proofs.Staging.Terms
import IsaBackend.Proofs.Staging.Functions
import IsaBackend.Proofs.Lifetime.Compliance
import IsaBackend.Proofs.Compilation.Safety
import IsaBackend.Proofs.Machine.Runs
import IsaBackend.Proofs.Meaning.Hosts
import IsaBackend.Proofs.Meaning.Terms
import IsaBackend.Proofs.Meaning.Exprs
import IsaBackend.Proofs.Meaning.Functions
import IsaBackend.Proofs.Accumulator
import IsaBackend.Proofs.Lifetime.Uses
import IsaBackend.Proofs.Machine.Fuel
import IsaBackend.Proofs.Machine.Places
import IsaBackend.Proofs.Term.Lexical
import IsaBackend.Proofs.Code.Match
import IsaBackend.Proofs.Machine.Facts
import IsaBackend.Proofs.Machine.Matching
import IsaBackend.Proofs.Lifetime.Matching
import IsaBackend.Proofs.Lifetime.Paths
import IsaBackend.Proofs.Machine.Programs
import IsaBackend.Proofs.Staging.LinkedForms
import IsaBackend.Proofs.Staging.LinkedFunctions
import IsaBackend.Proofs.Term.LinkedExprs
import IsaBackend.Proofs.Term.LinkedFusing
import IsaBackend.Proofs.Machine.Evaluation
import IsaBackend.Proofs.Machine.Stored
import IsaBackend.Proofs.Machine.Surplus
import IsaBackend.Proofs.Renaming.Code
import IsaBackend.Proofs.Renaming.Uniform
import IsaBackend.Proofs.Renaming.Terms
import IsaBackend.Proofs.Renaming.Flattening
import IsaBackend.Proofs.Renaming.Operands
import IsaBackend.Proofs.Renaming.Staging
import IsaBackend.Proofs.Compilation.Independence
import IsaBackend.Proofs.Compilation.Matching
import IsaBackend.Proofs.Expr.Renaming
import IsaBackend.Proofs.Expr.Contexts
import IsaBackend.Proofs.Compilation.Hygiene
import IsaBackend.Proofs.Compilation.Parameters
import IsaBackend.Proofs.Expr.Trivial
import IsaBackend.Proofs.Expr.Arguments
import IsaBackend.Proofs.Compilation.Arguments
import IsaBackend.Proofs.Compilation.Casts
import IsaBackend.Proofs.Machine.Writes
import IsaBackend.Proofs.Staging.Writes
import IsaBackend.Proofs.Machine.Counting
import IsaBackend.Proofs.Staging.Counting
import IsaBackend.Proofs.Term.EffectOrder
import IsaBackend.Proofs.Code.Everywhere
import IsaBackend.Proofs.Staging.Emission
import IsaBackend.Proofs.Staging.Conformance
import IsaBackend.Proofs.Code.Access
import IsaBackend.Proofs.Staging.Scoping
import IsaBackend.Proofs.Value.BitRanges
import IsaBackend.Proofs.Value.Widths
import IsaBackend.Proofs.Value.Bridges
import IsaBackend.Proofs.Value.Types
import IsaBackend.Proofs.Text.Digits
import IsaBackend.Proofs.CText.Names
import IsaBackend.Proofs.CText.Layouts
import IsaBackend.Proofs.CText.Suffixes
import IsaBackend.Proofs.Staging.Literals
import IsaBackend.Proofs.Lifetime.Merging
import IsaBackend.Proofs.CText.Strings
import IsaBackend.Proofs.Compilation.Registrations
