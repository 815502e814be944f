import Untype.Command.LogFormat
import Untype.Main
import Untype.Proofs.Command.Effects
import Untype.Proofs.Erasure.Assignments
import Untype.Proofs.Erasure.Boundaries
import Untype.Proofs.Erasure.Identity
import Untype.Proofs.Erasure.Lists
import Untype.Proofs.Erasure.Openings
import Untype.Proofs.Erasure.Overrides
import Untype.Proofs.Erasure.Trailing
import Untype.Proofs.Erasure.TypesOnly
import Untype.Proofs.Erasure.Variables
import Untype.Proofs.Files.Discovery
import Untype.Proofs.Files.Encodings
import Untype.Proofs.Files.Isolation
import Untype.Proofs.Files.Workers
import Untype.Proofs.Integers
import Untype.Proofs.Locations
import Untype.Proofs.Lossless.Printing
import Untype.Proofs.Progress.Patterns
import Untype.Proofs.Speculation.Memory
import Untype.Proofs.Tokens.Snapshots
import Untype.Proofs.Trivia.Skipped
import Untype.Tree.Positions
