import Parley.Main
import Parley.Node.Build
import Parley.Store.Data
import Parley.Proofs.Grammar.Lexeme
import Parley.Proofs.Grammar.Scanning
import Parley.Proofs.Node.Proper
import Parley.Proofs.Node.Words
import Parley.Proofs.Grammar.Feeding
import Parley.Proofs.Node.Rereading
import Parley.Proofs.Node.RereadingStatement
import Parley.Proofs.Node.Parsed
import Parley.Proofs.Node.RoundTrip
import Parley.Proofs.Machine.Recursion
import Parley.Proofs.Machine.Steps
import Parley.Proofs.Machine.Serving
import Parley.Proofs.Store.Circular
import Parley.Proofs.Machine.Sending
import Parley.Proofs.Machine.Activations
import Parley.Proofs.Session
import Parley.Proofs.Machine.Returns
import Parley.Proofs.Machine.Code
import Parley.Proofs.Machine.Termination
import Parley.Proofs.ClassTable.Consistency
import Parley.Proofs.ClassTable.Lookup
import Parley.Proofs.Machine.Arguments
import Parley.Proofs.Machine.Coherence
import Parley.Proofs.Grammar.Completeness
import Parley.Proofs.Grammar.Exactness
import Parley.Proofs.Store.Retention
import Parley.Proofs.Machine.Slots
import Parley.Proofs.Store.Reachability
import Parley.Proofs.Store.Blending
import Parley.Proofs.Machine.Blending
import Parley.Proofs.Machine.Confinement
import Parley.Proofs.Machine.Isolation
import Parley.Proofs.Machine.Limits
import Parley.Proofs.Machine.Programs
import Parley.Proofs.Grammar.Spans
import Parley.Proofs.Node.Places
import Parley.Proofs.Machine.Sites
import Parley.Proofs.Grammar.Joining
import Parley.Proofs.Node.Joining
import Parley.Proofs.Store.Bare
import Parley.Proofs.Machine.Bare
import Parley.Proofs.Machine.Joining
import Parley.Proofs.Source
import Parley.Proofs.Grammar.SyntaxErrors
import Parley.Proofs.Grammar.Prefixes
import Parley.Proofs.Node.Faults
import Parley.Proofs.Grammar.Slices
import Parley.Proofs.Grammar.Layout
import Parley.Proofs.Grammar.Forms
import Parley.Proofs.Node.Layout
import Parley.Proofs.Node.Conversion
import Parley.Proofs.Store.Literals
import Parley.Proofs.Machine.Literals
import Parley.Proofs.Store.Globals
import Parley.Proofs.Node.Names
import Parley.Proofs.Machine.Unused
import Parley.Proofs.Repl
import Parley.Proofs.ClassTable.Effects
import Parley.Proofs.Selector.Normal
import Parley.Proofs.Node.Messages
import Parley.Proofs.Machine.Defining
import Parley.Proofs.Machine.Logging
import Parley.Proofs.Machine.Understanding
import Parley.Proofs.Machine.Catching
import Parley.Proofs.ClassTable.Ascent
import Parley.Proofs.Store.Bindings
import Parley.Proofs.Store.Spelling
import Parley.Proofs.Store.Equality
import Parley.Proofs.Colour
import Parley.Proofs.Report
import Parley.Proofs.Selector.Encoding
import Parley.Proofs.Text.Decimal
import Parley.Proofs.Machine.Integers
import Parley.Proofs.Node.Construction
