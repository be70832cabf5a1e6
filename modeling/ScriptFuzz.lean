import ScriptFuzz.Main
import ScriptFuzz.Program.Wire
import ScriptFuzz.Proofs.Builder.Builtins
import ScriptFuzz.Proofs.Builder.Replay
import ScriptFuzz.Proofs.Builder.Representation
import ScriptFuzz.Proofs.Code.BlockStructure
import ScriptFuzz.Proofs.Corpus.Loading
import ScriptFuzz.Proofs.Environment
import ScriptFuzz.Proofs.Fuzzing.Accounting
import ScriptFuzz.Proofs.Fuzzing.Resets
import ScriptFuzz.Proofs.Mutation.Extension
import ScriptFuzz.Proofs.Mutation.Parameters
import ScriptFuzz.Proofs.Mutation.Reports
import ScriptFuzz.Proofs.Novelty
import ScriptFuzz.Proofs.Observation.Exactness
import ScriptFuzz.Proofs.Program.Bytes
import ScriptFuzz.Proofs.Program.Instrumentation
import ScriptFuzz.Proofs.Program.Json
import ScriptFuzz.Proofs.Program.Loading
import ScriptFuzz.Proofs.Program.RepeatedPruning
import ScriptFuzz.Proofs.Program.Stripping
import ScriptFuzz.Proofs.Python.Annotations
import ScriptFuzz.Proofs.Python.Declarations
import ScriptFuzz.Proofs.Python.Literals
import ScriptFuzz.Proofs.Python.Positions
import ScriptFuzz.Proofs.Python.ReadOrder
import ScriptFuzz.Rehearsal
