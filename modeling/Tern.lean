import Tern.Emit.Script
import Tern.Machine.Sized
import Tern.Main
import Tern.Proofs.Cli.Effects
import Tern.Proofs.Cli.Grammar
import Tern.Proofs.Compile.Composition
import Tern.Proofs.Compile.Constants
import Tern.Proofs.Compile.Evaluation
import Tern.Proofs.Compile.Grouping
import Tern.Proofs.Compile.Pressure
import Tern.Proofs.Compile.Progress
import Tern.Proofs.Compile.Rendering
import Tern.Proofs.Compile.Storage
import Tern.Proofs.Compile.Tokens
import Tern.Proofs.Emit.Discipline
import Tern.Proofs.Machine.Clobber
import Tern.Proofs.Meaning.Operands
import Tern.Proofs.Scope.Scoping
import Tern.Proofs.Token.Lexing
import Tern.Proofs.Token.Positions
