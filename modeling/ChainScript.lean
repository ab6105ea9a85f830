import ChainScript.CommandLine
import ChainScript.Expr.Equality
import ChainScript.Host.Converters
import ChainScript.Host.Methods
import ChainScript.Main
import ChainScript.Proofs.Parsing
import ChainScript.Proofs.TextLayout
import ChainScript.Proofs.ReadBack
import ChainScript.Proofs.Canonical
import ChainScript.Proofs.RoundTrip
import ChainScript.Proofs.Likeness
import ChainScript.Proofs.Steady
import ChainScript.Proofs.TwoRuns
import ChainScript.Proofs.Hygiene
import ChainScript.Proofs.Calls
import ChainScript.Proofs.Grouping
import ChainScript.Proofs.Candor
import ChainScript.Proofs.Journal
import ChainScript.Proofs.RunInvariant
import ChainScript.Proofs.Growth
import ChainScript.Proofs.Faults
import ChainScript.Proofs.Forcing
import ChainScript.Proofs.Places
import ChainScript.Proofs.Relayout
import ChainScript.Proofs.Limits
import ChainScript.Proofs.Tame
import ChainScript.Proofs.Orderly
import ChainScript.Proofs.Nesting
import ChainScript.Proofs.Surfacing
import ChainScript.Proofs.Asking
import ChainScript.Proofs.Deliveries
import ChainScript.Proofs.WriteOnce
import ChainScript.Proofs.Blocks
import ChainScript.Proofs.HostCall
import ChainScript.Proofs.Subcommands
import ChainScript.Proofs.HandedOn
import ChainScript.Proofs.Registrations
import ChainScript.Proofs.Loops
import ChainScript.Proofs.Closures
import ChainScript.Proofs.Coverage
import ChainScript.Proofs.Reentry
import ChainScript.Proofs.Counting
import ChainScript.Proofs.Accounts
import ChainScript.Proofs.Rearranging
import ChainScript.Proofs.Pointing
import ChainScript.Proofs.Resuming
import ChainScript.Proofs.Boundaries
import ChainScript.Proofs.AnyTokens
import ChainScript.Proofs.IntegerArithmetic
import ChainScript.Proofs.Conversions
import ChainScript.Proofs.Literals
import ChainScript.Proofs.IntegerLaws
import ChainScript.Proofs.MixedNumbers
import ChainScript.Proofs.Sameness
import ChainScript.Proofs.Sessions
import ChainScript.Proofs.Joining
import ChainScript.Proofs.Quotations
import ChainScript.Proofs.Provenance
import ChainScript.Proofs.FaultPlaces
import ChainScript.Proofs.ErrorPlaces
