import SpaceWire.Agreement
import SpaceWire.Backing
import SpaceWire.BadParity
import SpaceWire.Burst
import SpaceWire.CableHandshake
import SpaceWire.ColdStart
import SpaceWire.Connect
import SpaceWire.Continuity
import SpaceWire.Coverage
import SpaceWire.CreditCalls
import SpaceWire.Drain
import SpaceWire.Dwell
import SpaceWire.ErrorResetWait
import SpaceWire.FairDelivery
import SpaceWire.FairHandshake
import SpaceWire.LineErrors
import SpaceWire.LinkFsmRuns
import SpaceWire.Loopback
import SpaceWire.NCharStream
import SpaceWire.Noise
import SpaceWire.Progress
import SpaceWire.Recovery
import SpaceWire.Reencode
import SpaceWire.Resets
import SpaceWire.Restart
import SpaceWire.Resync
import SpaceWire.RoundTrip
import SpaceWire.SendApi
import SpaceWire.Senders
import SpaceWire.Silence
import SpaceWire.Timers
import SpaceWire.Translation
import SpaceWire.Wakeup
import SpaceWire.Watchdog
