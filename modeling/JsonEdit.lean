import JsonEdit.Editor.Tree
import JsonEdit.Event.Grammar
import JsonEdit.Event.Told
import JsonEdit.Json.Events
import JsonEdit.Json.Spelling
import JsonEdit.Main
import JsonEdit.Pattern.Written
import JsonEdit.Proofs.Editor.Step
import JsonEdit.Regex.Parser
import JsonEdit.Stream.Value
import JsonEdit.Proofs.Editor.Feed
import JsonEdit.Proofs.Editor.Outline
import JsonEdit.Proofs.Event.Acceptance
import JsonEdit.Proofs.Editor.Withheld
import JsonEdit.Proofs.Editor.TreeEdit
import JsonEdit.Proofs.Editor.Completable
import JsonEdit.Proofs.Scanner.Run
import JsonEdit.Proofs.Scanner.Moves
import JsonEdit.Proofs.Scanner.Protocol
import JsonEdit.Proofs.Source.Drain
import JsonEdit.Proofs.Stream.Pipeline
import JsonEdit.Proofs.Editor.Failure
import JsonEdit.Proofs.Stream.Protocol
import JsonEdit.Proofs.Editor.Alike
import JsonEdit.Proofs.Editor.SinkFailure
import JsonEdit.Proofs.Sink.Keeper
import JsonEdit.Proofs.Stream.Writing
import JsonEdit.Proofs.Stream.InputLimit
import JsonEdit.Proofs.Scanner.Scalars
import JsonEdit.Proofs.Scanner.Cut
import JsonEdit.Proofs.Editor.EarlyEnd
import JsonEdit.Proofs.Stream.Truncation
import JsonEdit.Proofs.Scanner.Tokens
import JsonEdit.Proofs.Scanner.Spelling
import JsonEdit.Proofs.Json.Spelling
import JsonEdit.Proofs.Stream.Reading
import JsonEdit.Proofs.Stream.EntryPoints
import JsonEdit.Proofs.Stream.Faults
import JsonEdit.Proofs.Editor.Representation
import JsonEdit.Proofs.Pattern.Written
import JsonEdit.Proofs.Editor.DepthLimit
import JsonEdit.Proofs.Editor.Places
import JsonEdit.Proofs.Editor.Positions
import JsonEdit.Proofs.Path.Display
import JsonEdit.Proofs.Pattern.Alignment
import JsonEdit.Proofs.Pattern.Glob
import JsonEdit.Proofs.Pattern.Normal
import JsonEdit.Proofs.Pattern.Language
import JsonEdit.Proofs.Pattern.Grammar
import JsonEdit.Proofs.Pattern.Accepted
import JsonEdit.Proofs.Pattern.Segments
import JsonEdit.Proofs.Json.Parser
import JsonEdit.Proofs.Editor.Replace
import JsonEdit.Proofs.RuleConfig.Arguments
import JsonEdit.Proofs.Stream.Files
import JsonEdit.Proofs.Command.Refusal
import JsonEdit.Proofs.Command.FileToFile
import JsonEdit.Proofs.Event.Depth
import JsonEdit.Proofs.Json.OneLine
import JsonEdit.Proofs.Editor.Documents
import JsonEdit.Proofs.Stream.TooDeep
import JsonEdit.Proofs.Editor.HandlerFailure
import JsonEdit.Proofs.Editor.Survey
import JsonEdit.Proofs.Editor.Statistics
import JsonEdit.Source.Ahead
import JsonEdit.Proofs.Stream.GenerousLimit
import JsonEdit.Proofs.Editor.SameActions
import JsonEdit.Proofs.Command.Listing
import JsonEdit.Proofs.Source.Reads
import JsonEdit.Proofs.RuleConfig.Setup
import JsonEdit.Proofs.Editor.FirstName
import JsonEdit.Proofs.Stream.Flushing
import JsonEdit.Proofs.Stream.Files
