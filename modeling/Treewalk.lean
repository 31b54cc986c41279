import Treewalk.Text.Utf8
import Treewalk.Text.Blank
import Treewalk.Number.Style
import Treewalk.Token.Json
import Treewalk.Token.Lexer
import Treewalk.Tree.Outline
import Treewalk.Parser
import Treewalk.Scope
import Treewalk.Main
import Treewalk.Proofs.Moments
import Treewalk.Proofs.Nodes
import Treewalk.Proofs.Words
import Treewalk.Proofs.Places
import Treewalk.Proofs.Distances
import Treewalk.Proofs.Histories
import Treewalk.Proofs.Growth
import Treewalk.Proofs.Changes
import Treewalk.Proofs.Loading
import Treewalk.Proofs.Holdings
import Treewalk.Proofs.Resolution
import Treewalk.Proofs.Running
import Treewalk.Proofs.Mistakes
import Treewalk.Proofs.Agreement
import Treewalk.Proofs.Passages
import Treewalk.Proofs.Splicing
import Treewalk.Proofs.Homes
import Treewalk.Proofs.Lines
import Treewalk.Proofs.Scripts
import Treewalk.Proofs.Contexts
import Treewalk.Proofs.Completion
import Treewalk.Proofs.Starts
import Treewalk.Proofs.Exits
import Treewalk.Proofs.Grammar
import Treewalk.Proofs.Readable
import Treewalk.Proofs.Sentences
import Treewalk.Proofs.Parsing
import Treewalk.Proofs.Parsable
import Treewalk.Proofs.Bytes
import Treewalk.Proofs.Lexemes
import Treewalk.Proofs.Spans
import Treewalk.Proofs.Reaching
import Treewalk.Proofs.Locality
import Treewalk.Proofs.Filling
import Treewalk.Proofs.Abreast
import Treewalk.Proofs.Supplied
import Treewalk.Proofs.Tape
import Treewalk.Proofs.Courses
import Treewalk.Proofs.Recovery
import Treewalk.Proofs.Onward
import Treewalk.Proofs.Entrances
import Treewalk.Proofs.Tandem
import Treewalk.Proofs.Unobserved
import Treewalk.Proofs.Counterparts
import Treewalk.Proofs.Phases
import Treewalk.Proofs.Correspondence
import Treewalk.Proofs.Scoping
import Treewalk.Proofs.Jointly
import Treewalk.Proofs.Lockstep
import Treewalk.Proofs.Sameness
import Treewalk.Proofs.Composition
import Treewalk.Proofs.Numbering
import Treewalk.Proofs.Submission
import Treewalk.Proofs.Shifts
import Treewalk.Proofs.Refusals
import Treewalk.Proofs.Capture
import Treewalk.Proofs.Lexical
import Treewalk.Proofs.Snapshots
import Treewalk.Proofs.Exports
import Treewalk.Proofs.Visibility
import Treewalk.Proofs.Isolation
import Treewalk.Proofs.Construction
import Treewalk.Proofs.Recording
import Treewalk.Proofs.Properties
import Treewalk.Proofs.Arrays
import Treewalk.Proofs.Chronicles
import Treewalk.Proofs.Passing
import Treewalk.Proofs.Rounds
import Treewalk.Proofs.Openers
import Treewalk.Proofs.Bearings
import Treewalk.Proofs.Abridgment
import Treewalk.Proofs.Direct
import Treewalk.Proofs.Loops
import Treewalk.Proofs.LineNumbers
import Treewalk.Proofs.Rescanning
import Treewalk.Proofs.Doubles
import Treewalk.Proofs.Roundings
import Treewalk.Proofs.Decimals
import Treewalk.Proofs.Numerals
import Treewalk.Proofs.Indexing
import Treewalk.Proofs.Searches
import Treewalk.Proofs.Identities
import Treewalk.Proofs.Outlines
