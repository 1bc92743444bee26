import WireCodec.Text.Hex
import WireCodec.Proofs.Flow.Frontier
import WireCodec.Proofs.Flow.Runs
import WireCodec.Proofs.Machine.Registers
import WireCodec.Proofs.Native.Landing
import WireCodec.Proofs.Peephole.Fewest
import WireCodec.Proofs.Schema.Layouts
import WireCodec.Proofs.Session.Compiling
import WireCodec.Proofs.Session.Growth
import WireCodec.Proofs.Session.Measuring
import WireCodec.Proofs.Session.Termination
import WireCodec.Proofs.Value.Survival
