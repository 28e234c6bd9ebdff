import Lox.Main
import Lox.Proofs.Classes.Histories
import Lox.Proofs.Domains
import Lox.Proofs.Execution.Arrays
import Lox.Proofs.Execution.Calls
import Lox.Proofs.Execution.Restoration
import Lox.Proofs.Failures
import Lox.Proofs.Growth
import Lox.Proofs.Locals.Frames
import Lox.Proofs.Locals.Interpreter
import Lox.Proofs.Locals.Machine
import Lox.Proofs.Locals.Renaming
import Lox.Proofs.Locals.Resolution
import Lox.Proofs.Locals.Runs
import Lox.Proofs.Locals.Sessions
import Lox.Proofs.Numbers.Literals
import Lox.Proofs.Output.Courses
import Lox.Proofs.Output.Runs
import Lox.Proofs.Ownership.Sessions
import Lox.Proofs.Printing.Arrays
import Lox.Proofs.Printing.Expressions
import Lox.Proofs.Printing.Trees
import Lox.Proofs.Reclamation.Created
import Lox.Proofs.Reclamation.Frames
import Lox.Proofs.Reclamation.History
import Lox.Proofs.Reclamation.Interpreter
import Lox.Proofs.Reclamation.Machine
import Lox.Proofs.Reclamation.Sessions
import Lox.Proofs.Reclamation.Unobservable
import Lox.Proofs.Relabeling.Frames
import Lox.Proofs.Relabeling.Machine
import Lox.Proofs.Relabeling.Sessions
import Lox.Proofs.Relabeling.Trees
import Lox.Proofs.Relabeling.Values
import Lox.Proofs.Reports
import Lox.Proofs.Resolution.Globals
import Lox.Proofs.Resolution.Learning
import Lox.Proofs.Resolution.Relabeling
import Lox.Proofs.Resolution.Verdict
import Lox.Proofs.Scanning.Escapes
import Lox.Proofs.Scoping.Contents
import Lox.Proofs.Scoping.Inheritance
import Lox.Proofs.Scoping.Resolution
import Lox.Proofs.Scoping.Sessions
import Lox.Proofs.Scoping.Trees
import Lox.Proofs.Splicing.Analysis
import Lox.Proofs.Splicing.Declarations
import Lox.Proofs.Splicing.Identities
import Lox.Proofs.Splicing.Items
import Lox.Proofs.Splicing.Lines
import Lox.Proofs.Splicing.Names
import Lox.Proofs.Splicing.Sessions
import Lox.Proofs.Splicing.Tokens
import Lox.Proofs.Splicing.Trees
import Lox.Proofs.Store.Assignments
import Lox.Proofs.Store.Captures
import Lox.Proofs.Store.Draining
import Lox.Proofs.Store.Growth
import Lox.Proofs.Store.Ledgers
import Lox.Proofs.Store.WellFormed
import Lox.Proofs.Syntax.Exact
import Lox.Proofs.Syntax.Identities
import Lox.Proofs.Syntax.Labels
import Lox.Proofs.Syntax.Recording
import Lox.Proofs.Syntax.Recovery
import Lox.Proofs.Syntax.Unparse
import Lox.Store.Inspect
