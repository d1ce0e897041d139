import LogicalForms.Decimal.Basic
import LogicalForms.Decimal.Shortest
import LogicalForms.Features.Arithmetic
import LogicalForms.Features.Key
import LogicalForms.Features.Vector
import LogicalForms.Features.Written
import LogicalForms.Joint.Basic
import LogicalForms.Joint.Execute
import LogicalForms.Json.Basic
import LogicalForms.Json.Reader
import LogicalForms.Json.Writer
import LogicalForms.Learning.Error
import LogicalForms.Learning.Margin
import LogicalForms.Learning.Params
import LogicalForms.Learning.Partition
import LogicalForms.Learning.Stats
import LogicalForms.Learning.Training
import LogicalForms.Learning.Update
import LogicalForms.Learning.Visit
import LogicalForms.Lexicon
import LogicalForms.Model.Basic
import LogicalForms.Model.FeatureSet
import LogicalForms.Parse.Output
import LogicalForms.Parse.Parser
import LogicalForms.Score.Basic
import LogicalForms.Score.Best
import LogicalForms.Score.LogSum
import LogicalForms.Sexp.Basic
import LogicalForms.Sexp.Reader
import LogicalForms.Sexp.Token
import LogicalForms.SymbolTable
import LogicalForms.Term.Basic
import LogicalForms.Term.Error
import LogicalForms.Term.Printer
import LogicalForms.Term.Reader
import LogicalForms.Term.Simplify
import LogicalForms.Term.Variables
import LogicalForms.Text.Alphanumeric
import LogicalForms.Text.Pointer
import LogicalForms.Text.Space
import LogicalForms.Text.Split
import LogicalForms.Ty.Basic
import LogicalForms.Ty.Printer
import LogicalForms.Ty.Reader
import LogicalForms.Proofs.Features.Accumulation
import LogicalForms.Proofs.Features.Arithmetic
import LogicalForms.Proofs.Features.Inner
import LogicalForms.Proofs.Features.Mass
import LogicalForms.Proofs.Features.Noise
import LogicalForms.Proofs.Joint.Best
import LogicalForms.Proofs.Joint.Execution
import LogicalForms.Proofs.Joint.ExpectedFeatures
import LogicalForms.Proofs.Joint.Grouping
import LogicalForms.Proofs.Joint.Normalizer
import LogicalForms.Proofs.Joint.StableGroups
import LogicalForms.Proofs.Learning.Accounts
import LogicalForms.Proofs.Learning.Adoption
import LogicalForms.Proofs.Learning.Construction
import LogicalForms.Proofs.Learning.Course
import LogicalForms.Proofs.Learning.Driver
import LogicalForms.Proofs.Learning.Epochs
import LogicalForms.Proofs.Learning.Filtering
import LogicalForms.Proofs.Learning.Hardest
import LogicalForms.Proofs.Learning.Ledger
import LogicalForms.Proofs.Learning.Margin
import LogicalForms.Proofs.Learning.Means
import LogicalForms.Proofs.Learning.Notes
import LogicalForms.Proofs.Learning.Pinned
import LogicalForms.Proofs.Learning.Quiet
import LogicalForms.Proofs.Learning.Recording
import LogicalForms.Proofs.Learning.Schedule
import LogicalForms.Proofs.Learning.Separation
import LogicalForms.Proofs.Learning.Sorting
import LogicalForms.Proofs.Learning.Statistics
import LogicalForms.Proofs.Learning.Step
import LogicalForms.Proofs.Learning.StoredZeros
import LogicalForms.Proofs.Learning.Update
import LogicalForms.Proofs.Learning.Violations
import LogicalForms.Proofs.List.FirstPlaces
import LogicalForms.Proofs.List.Lookup
import LogicalForms.Proofs.Model.Anonymous
import LogicalForms.Proofs.Model.ConstantCounts
import LogicalForms.Proofs.Score.Counting
import LogicalForms.Proofs.Score.Largest
import LogicalForms.Proofs.Score.LogOrder
import LogicalForms.Proofs.Score.LogReal
import LogicalForms.Proofs.Score.Order
import LogicalForms.Proofs.Score.Shift
import LogicalForms.Proofs.Score.Threshold
import LogicalForms.Proofs.Sexp.Balance
import LogicalForms.Proofs.Sexp.Descent
import LogicalForms.Proofs.Sexp.LongestPrefix
import LogicalForms.Proofs.Sexp.RoundTrip
import LogicalForms.Proofs.Sexp.Spelling
import LogicalForms.Proofs.SymbolTable.Lines
import LogicalForms.Proofs.SymbolTable.Reading
import LogicalForms.Proofs.SymbolTable.Standalone
import LogicalForms.Proofs.Term.Acceptance
import LogicalForms.Proofs.Term.Alpha
import LogicalForms.Proofs.Term.Constants
import LogicalForms.Proofs.Term.Grammar
import LogicalForms.Proofs.Term.Hygiene
import LogicalForms.Proofs.Term.Identity
import LogicalForms.Proofs.Term.Lexical
import LogicalForms.Proofs.Term.Numbering
import LogicalForms.Proofs.Term.Printed
import LogicalForms.Proofs.Term.ReadBack
import LogicalForms.Proofs.Term.Reading
import LogicalForms.Proofs.Term.Renaming
import LogicalForms.Proofs.Term.RoundTrip
import LogicalForms.Proofs.Term.Scoping
import LogicalForms.Proofs.Term.StaleNumbers
import LogicalForms.Proofs.Term.Supply
import LogicalForms.Proofs.Term.UnusedBinders
import LogicalForms.Proofs.Term.Vacuous
import LogicalForms.Proofs.Ty.Grammar
import LogicalForms.Proofs.Ty.RoundTrip
import LogicalForms.Proofs.Ty.Tag
