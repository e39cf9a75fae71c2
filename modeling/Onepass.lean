import Onepass.Command.Sandbox
import Onepass.Main
import Onepass.Session
import Onepass.Proofs.Ids
import Onepass.Proofs.Functions
import Onepass.Proofs.Symbols
import Onepass.Proofs.Layout
import Onepass.Proofs.Frame
import Onepass.Proofs.Machine
import Onepass.Proofs.Run
import Onepass.Proofs.Fragments
import Onepass.Proofs.Activation
import Onepass.Proofs.Simulation
import Onepass.Proofs.Control
import Onepass.Proofs.Calls
import Onepass.Proofs.Preservation
import Onepass.Proofs.Depth
import Onepass.Proofs.Sites
import Onepass.Proofs.Discipline
import Onepass.Proofs.Phrase
import Onepass.Proofs.Reading
import Onepass.Proofs.Recognition
import Onepass.Proofs.Transcript
import Onepass.Proofs.Parsing
import Onepass.Proofs.Viability
import Onepass.Proofs.Checking
import Onepass.Proofs.Spelling
import Onepass.Proofs.Printing
import Onepass.Proofs.Nesting
import Onepass.Proofs.Flow
import Onepass.Proofs.Renaming
import Onepass.Proofs.History
import Onepass.Proofs.Tags
import Onepass.Proofs.Literals
import Onepass.Proofs.Munch
import Onepass.Proofs.Commented
import Onepass.Proofs.Lines
import Onepass.Proofs.Precedence
import Onepass.Proofs.Drawing
import Onepass.Proofs.Bytewise
import Onepass.Proofs.Closed
import Onepass.Proofs.Templates
import Onepass.Proofs.StringData
import Onepass.Proofs.Truncation
import Onepass.Proofs.Growth
import Onepass.Proofs.Joining
import Onepass.Proofs.Concatenation
import Onepass.Proofs.Hops
import Onepass.Proofs.Declared
import Onepass.Proofs.Journey
import Onepass.Proofs.Variables
import Onepass.Proofs.Logged
import Onepass.Proofs.Files
import Onepass.Proofs.Outcome
import Onepass.Proofs.Beside
import Onepass.Proofs.Expectation
import Onepass.Proofs.Stripping
import Onepass.Proofs.Offsets
import Onepass.Proofs.Ending
