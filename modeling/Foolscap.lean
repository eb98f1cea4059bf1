import Foolscap.Editor
import Foolscap.Entry.Shared
import Foolscap.Main
import Foolscap.Proofs.Class.Acyclic
import Foolscap.Proofs.Command.Ways
import Foolscap.Proofs.Editor.Completions
import Foolscap.Proofs.Editor.Definition
import Foolscap.Proofs.Editor.Enclosing
import Foolscap.Proofs.Editor.Places
import Foolscap.Proofs.Image.Recovered
import Foolscap.Proofs.Machine.Construct
import Foolscap.Proofs.Machine.Culprit
import Foolscap.Proofs.Machine.Disassembly
import Foolscap.Proofs.Machine.InRange
import Foolscap.Proofs.Machine.StackEffect
import Foolscap.Proofs.Program.Ancestors
import Foolscap.Proofs.Program.Discipline
import Foolscap.Proofs.Program.Dispatch
import Foolscap.Proofs.Program.MemorySize
import Foolscap.Proofs.Program.Renamed
import Foolscap.Proofs.Program.Total
import Foolscap.Proofs.Scope.Bound
import Foolscap.Proofs.Scope.Recorded
import Foolscap.Proofs.Tree.Complete
import Foolscap.Proofs.Tree.Excerpts
