import Petospa.Lib.Text
import Petospa.Lib.Except
import Petospa.Lib.Json
import Petospa.Lib.CLiteral
import Petospa.Lib.Coroutine
import Petospa.Lib.Transducer
import Petospa.Lib.Dict
import Petospa.Lib.Infix
import Petospa.Lib.BreakLoop
import Petospa.Lib.Owned
import Petospa.Lib.Pointwise
import Petospa.Lib.Regex
import Petospa.Lib.Segments
import Petospa.Lib.Simulation
import Petospa.Lib.Interaction
import Petospa.Lib.Unicode
import Petospa.Annotator.Kind
import Petospa.Annotator.ControlString
import Petospa.Annotator.ScanSafety
import Petospa.Annotator.ScanPositions
import Petospa.Annotator.Query
import Petospa.Annotator.History
import Petospa.Annotator.Answers
import Petospa.Annotator.Pinned
import Petospa.Annotator.Instances
import Petospa.Annotator.Module
import Petospa.Annotator.Loading
import Petospa.Annotator.Metadata
import Petospa.Annotator.Loops
import Petospa.Annotator.Parallel
import Petospa.Annotator.Visits
import Petospa.Annotator.OnlyParallel
import Petospa.Annotator.Attributes
import Petospa.Annotator.Verification
import Petospa.Annotator.AnnotateAttributes
import Petospa.Annotator.Effects
import Petospa.Annotator.AnnotatedKind
import Petospa.Annotator.AttributeRuns
import Petospa.Annotator.StaysValid
import Petospa.Annotator.DereferenceableBytes
import Petospa.Annotator.Reading
import Petospa.Annotator.Instructions
import Petospa.Annotator.Naming
import Petospa.Annotator.AttributePasses
import Petospa.Annotator.InstructionPasses
import Petospa.Annotator.Speculation
import Petospa.Annotator.ModulePasses
import Petospa.Annotator.InstructionQuestions
import Petospa.Annotator.AttributeQuestions
import Petospa.Annotator.Independence
import Petospa.Annotator.PassRuns
import Petospa.Annotator.PassAttributes
import Petospa.Annotator.RunAttributes
import Petospa.Annotator.Strengthening
import Petospa.Annotator.Meaning
import Petospa.Annotator.NonOptimistic
import Petospa.Annotator.Completion
import Petospa.Annotator.Refinement
import Petospa.Annotator.Promises
import Petospa.Annotator.Parts
import Petospa.Annotator.Compared
import Petospa.Annotator.ComparedRuns
import Petospa.Annotator.Monotone
import Petospa.Tuner.Explorer
import Petospa.Tuner.WriteControl
import Petospa.Tuner.Layout
import Petospa.Tuner.Valid
import Petospa.Tuner.Search
import Petospa.Tuner.Oracle
import Petospa.Tuner.Soundness
import Petospa.Tuner.Blame
import Petospa.Tuner.Histories
import Petospa.Tuner.OldTuner
import Petospa.Transport.Codec
import Petospa.Transport.Produced
import Petospa.Tuner.Rounds
import Petospa.Tuner.Benchmark
import Petospa.Tuner.FastPath
import Petospa.Transport.Replay
import Petospa.Transport.OpportunityLines
import Petospa.Transport.DefaultAnswers
import Petospa.Transport.Settled
import Petospa.Transport.Agreement
import Petospa.Transport.FreshFirst
import Petospa.Transport.Embedded
import Petospa.Transport.AnnotatedSource
import Petospa.Transport.Rewriting
import Petospa.Transport.Carries
import Petospa.Transport.Recompile
import Petospa.Transport.RecompiledModule
import Petospa.Tuner.Invariant
import Petospa.Tuner.Bound
import Petospa.Transport.Offered
import Petospa.Transport.Lines
import Petospa.Transport.Frame
import Petospa.Transport.Rest
import Petospa.Tuner.Serializable
import Petospa.Tuner.RoundTrip
import Petospa.Tuner.Built
