import Hmr.Prog
import Hmr.Descent
import Hmr.Bytes
import Hmr.Radix
import Hmr.Value
import Hmr.Indices
import Hmr.Quotes
import Hmr.Pieces
import Hmr.Interpolating
import Hmr.Ast
import Hmr.Lowering
import Hmr.AstFactory
import Hmr.Lexer
import Hmr.Parser
import Hmr.Munch
import Hmr.Sources
import Hmr.Printer
import Hmr.Reprint
import Hmr.RoundTrip
import Hmr.Arena
import Hmr.Uri
import Hmr.UriShape
import Hmr.UriLaws
import Hmr.UriText
import Hmr.Matchers
import Hmr.Addresses
import Hmr.Subnets
import Hmr.Ranges
import Hmr.SipMessage
import Hmr.AssocList
import Hmr.HeaderStore
import Hmr.Serialize
import Hmr.Wire
import Hmr.HeaderMemory
import Hmr.NormalForm
import Hmr.Fields
import Hmr.RequestLine
import Hmr.Overrides
import Hmr.Context
import Hmr.Interleaving
import Hmr.Modules
import Hmr.Broadcast
import Hmr.Observers
import Hmr.SharedPointers
import Hmr.HotSwap
import Hmr.Runtime
import Hmr.Interpreter
import Hmr.Keys
import Hmr.Lowers
import Hmr.PreScan
import Hmr.BackReferences
import Hmr.Effects
import Hmr.Machine
import Hmr.Elements
import Hmr.Exhausting
import Hmr.Deleting
import Hmr.Records
import Hmr.Evaluation
import Hmr.Concatenation
import Hmr.ElementReferences
import Hmr.Absent
import Hmr.Forwarding
import Hmr.Untouched
import Hmr.Rejecting
import Hmr.Framing
import Hmr.SideBySide
import Hmr.Isolation
import Hmr.Optimizer
import Hmr.Fixpoint
import Hmr.DecisionPlan
import Hmr.Rewriting
import Hmr.Dropping
import Hmr.Patterns
import Hmr.Merging
import Hmr.OwnMatch
import Hmr.CppStrings
import Hmr.CaptureGroups
import Hmr.SettingHeaders
import Hmr.Placement
import Hmr.UriSplice
import Hmr.ArenaViews
import Hmr.Signatures
import Hmr.CppTokens
import Hmr.CppEmitter
import Hmr.CppComments
import Hmr.Blocks
import Hmr.Emission
import Hmr.Codes
import Hmr.EarlyReturns
import Hmr.IrGenerator
import Hmr.IrBranches
import Hmr.IrTerminators
import Hmr.CppProgram
import Hmr.CppRendering
import Hmr.CppMeaning
import Hmr.BackEnds
import Hmr.Pipeline
import Hmr.Optimizing
import Hmr.Serving
