import JackVm.Token
import JackVm.Token.Cursor
import JackVm.Token.Stream
import JackVm.Vm.Instruction
import JackVm.Vm.Code
import JackVm.Scope
import JackVm.Grammar.Trace
import JackVm.CompileError
import JackVm.Compilation.Basic
import JackVm.Compilation.Expression
import JackVm.Compilation.Statement
import JackVm.Compilation.Class
import JackVm.Compile
import JackVm.CommandLine.Arguments
import JackVm.CommandLine.PathName
import JackVm.CommandLine.FileSystem
import JackVm.CommandLine.FileTree
import JackVm.CommandLine.Run
import JackVm.Main
import JackVm.Proofs.Lines
import JackVm.Proofs.Syntax.Identifier
import JackVm.Proofs.Syntax.Expression
import JackVm.Proofs.Syntax.Statement
import JackVm.Proofs.Syntax.Class
import JackVm.Proofs.Syntax.Unambiguity
import JackVm.Proofs.Syntax.Terminals
import JackVm.Proofs.Syntax.Mention
import JackVm.Proofs.Syntax.Placement
import JackVm.Proofs.Syntax.Sentence
import JackVm.Proofs.Translation.Environment
import JackVm.Proofs.Translation.Code
import JackVm.Proofs.Translation.ScopeTable
import JackVm.Proofs.Translation.Occurrence
import JackVm.Proofs.Translation.Instructions
import JackVm.Proofs.Translation.Labels
import JackVm.Proofs.Translation.Renaming
import JackVm.Proofs.Compilation.Window
import JackVm.Proofs.Compilation.Progress
import JackVm.Proofs.Compilation.Steps
import JackVm.Proofs.Compilation.Source
import JackVm.Proofs.Compilation.TreeOutput
import JackVm.Proofs.Compilation.ClassOutput
import JackVm.Proofs.Compilation.ExpressionSound
import JackVm.Proofs.Compilation.StatementSound
import JackVm.Proofs.Compilation.Declarations
import JackVm.Proofs.Compilation.ClassSound
import JackVm.Proofs.Compilation.Translation
import JackVm.Proofs.Compilation.ExpressionComplete
import JackVm.Proofs.Compilation.StatementComplete
import JackVm.Proofs.Compilation.ClassComplete
import JackVm.Proofs.Compilation.Acceptance
import JackVm.Proofs.Compilation.Quiet
import JackVm.Proofs.Compilation.Consumption
import JackVm.Proofs.Compilation.ExpressionConsumption
import JackVm.Proofs.Compilation.StatementConsumption
import JackVm.Proofs.Compilation.Termination
import JackVm.Proofs.Compilation.Prediction
import JackVm.Proofs.Compilation.ExpressionPrediction
import JackVm.Proofs.Compilation.StatementPrediction
import JackVm.Proofs.Compilation.ClassPrediction
import JackVm.Proofs.Compilation.SyntaxErrors
import JackVm.Proofs.Compilation.Correspondence
import JackVm.Proofs.Compilation.ExpressionLockstep
import JackVm.Proofs.Compilation.StatementLockstep
import JackVm.Proofs.Compilation.ClassLockstep
import JackVm.Proofs.Compilation.Session
import JackVm.Proofs.Compilation.Anchors
import JackVm.Proofs.Compilation.Beginnings
import JackVm.Proofs.Compilation.Sites
import JackVm.Proofs.Compilation.Units
import JackVm.Proofs.Compilation.RenamedSources
import JackVm.Proofs.Compilation.Independence
import JackVm.Proofs.Machine.StackDepth
import JackVm.Proofs.Machine.CallSites
import JackVm.Proofs.Machine.Balance
import JackVm.Proofs.Machine.StackSafety
import JackVm.Proofs.Machine.Operands
import JackVm.Proofs.Machine.Constants
import JackVm.Proofs.Machine.Jumps
import JackVm.Proofs.Machine.Execution
import JackVm.Proofs.Machine.Evaluation
import JackVm.Proofs.Machine.ExpressionValue
import JackVm.Proofs.Machine.StatementExecution
import JackVm.Proofs.Machine.BlockRun
import JackVm.Proofs.Machine.Temp
import JackVm.Proofs.Machine.Simulation
import JackVm.Proofs.Token.Bytes
import JackVm.Proofs.Token.Trivia
import JackVm.Proofs.Token.Piece
import JackVm.Proofs.Token.Partition
import JackVm.Proofs.Token.Reading
import JackVm.Proofs.Token.Word
import JackVm.Proofs.Token.LineNumber
import JackVm.Proofs.Token.Spacing
import JackVm.Proofs.Token.Scanner
import JackVm.Proofs.Token.Following
import JackVm.Proofs.Token.InPlace
import JackVm.Proofs.Scope.History
import JackVm.Proofs.Scope.Resolution
import JackVm.Proofs.Derivation.Grammar
import JackVm.Proofs.Derivation.Recorded
import JackVm.Proofs.Derivation.Lines
import JackVm.Proofs.Derivation.Nesting
import JackVm.Proofs.Derivation.OfTree
import JackVm.Proofs.Derivation.Uniqueness
import JackVm.Proofs.Derivation.Faithful
import JackVm.Proofs.CommandLine.ByteOrder
import JackVm.Proofs.CommandLine.Path
import JackVm.Proofs.CommandLine.Collection
import JackVm.Proofs.CommandLine.Tree
import JackVm.Proofs.CommandLine.Refusal
import JackVm.Proofs.CommandLine.Writes
import JackVm.Proofs.CommandLine.Units
import JackVm.Proofs.CommandLine.Isolation
import JackVm.Proofs.CommandLine.Outputs
import JackVm.Proofs.Compilation.SourceLines
import JackVm.Proofs.Vm.Text
import JackVm.Proofs.Vm.Names
import JackVm.Proofs.Vm.Listing
