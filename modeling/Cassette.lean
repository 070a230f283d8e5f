import Cassette.Archive.Stored
import Cassette.Main
import Cassette.Proofs.Archive.PackedTape
import Cassette.Proofs.Archive.Stored
import Cassette.Proofs.Console.DebugLog
import Cassette.Proofs.Frontend.AutomaticLoad
import Cassette.Proofs.Frontend.FailedLoad
import Cassette.Proofs.Frontend.HostKeys
import Cassette.Proofs.Frontend.Outputs
import Cassette.Proofs.Frontend.Schedule
import Cassette.Proofs.Frontend.TapeDrive
import Cassette.Proofs.Frontend.Typing
import Cassette.Proofs.Keyboard.Timing
import Cassette.Proofs.Signal.Limit
import Cassette.Proofs.Signal.Positions
import Cassette.Proofs.Signal.ReadBack
import Cassette.Proofs.Tape.Border
import Cassette.Proofs.Tape.Flip
