import XinuConsole.StatusRoundTrip
import XinuConsole.DecoderSafety
import XinuConsole.Consoled.Session
import XinuConsole.Transparency
import XinuConsole.Powerd.Agreement
import XinuConsole.Keepalive
import XinuConsole.Reservation
import XinuConsole.Correlation.Replies
import XinuConsole.BreakConnection
import XinuConsole.Keyboard
import XinuConsole.Admission
import XinuConsole.Steal
import XinuConsole.Consoled.CleanUp
import XinuConsole.Target
import XinuConsole.Powerd.Descriptors
import XinuConsole.ServerSearch
import XinuConsole.Config.Hosts
import XinuConsole.Config.Continuation
import XinuConsole.TtyWrites
import XinuConsole.NetWrites
import XinuConsole.Consoled.Elapsed
import XinuConsole.IdleMinutes
import XinuConsole.Consoled.RequestScans
import XinuConsole.FallBack
import XinuConsole.ObtainStatus
import XinuConsole.TtyMode
import XinuConsole.Connectsock
import XinuConsole.RetryLoop
import XinuConsole.Config.Cdata
import XinuConsole.Config.Lines
import XinuConsole.Relay.Session
import XinuConsole.ActiveSession
import XinuConsole.Consoled.Launch
import XinuConsole.Consoled.Locks
import XinuConsole.Terminal
import XinuConsole.XinuStatus
import XinuConsole.Config.Print
import XinuConsole.Powerd.Isolation
import XinuConsole.Spawn
