import Ogg.Main
import Ogg.Page.Encode
import Ogg.Page.Walk
import Ogg.Proofs.Buffer.Queue
import Ogg.Proofs.Checksum.Remainder
import Ogg.Proofs.Codec.PrefixFree
import Ogg.Proofs.Framer.Cuts
import Ogg.Proofs.Framer.Inversion
import Ogg.Proofs.Framer.Ledger
import Ogg.Proofs.Framer.Straddle
import Ogg.Proofs.Page.Corrupted
import Ogg.Proofs.Probe.Phases
import Ogg.Proofs.Probe.Rewinding
import Ogg.Proofs.Probe.Widening
import Ogg.Proofs.Scan.Log
import Ogg.Proofs.Scan.Quality
import Ogg.Proofs.Scan.Storage
import Ogg.Proofs.Stream.Asking
import Ogg.Proofs.Stream.Identification
import Ogg.Proofs.Stream.Packetized
