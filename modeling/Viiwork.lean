import Viiwork.Alias.AntiEntropy
import Viiwork.Alias.Gossip
import Viiwork.Alias.Limits
import Viiwork.Alias.Mesh
import Viiwork.Alias.Tombstones
import Viiwork.Energy.Days
import Viiwork.Energy.DaySums
import Viiwork.Energy.Hours
import Viiwork.Energy.Names
import Viiwork.Energy.Reopen
import Viiwork.Energy.Split
import Viiwork.Enginesync.Recovery
import Viiwork.Kvshare.Cached
import Viiwork.Kvshare.Tiling
import Viiwork.Meshauth.Replay
import Viiwork.Node.Park
import Viiwork.Perf.Window
import Viiwork.Pipelines.Advertised
import Viiwork.Proxy.Body
import Viiwork.Proxy.Bounded
import Viiwork.Proxy.FirstToken
import Viiwork.Proxy.Measure
import Viiwork.Proxy.ThinkFast
import Viiwork.Route.Leases
import Viiwork.Route.Memory
import Viiwork.Route.Refusals
import Viiwork.Route.Settled
import Viiwork.Sessionshare.Target
import Viiwork.Setup.Plan
import Viiwork.Supervisor.Exclusive
import Viiwork.Supervisor.Grace
import Viiwork.Update.HelperWait
import Viiwork.Update.Pruning
import Viiwork.Update.Starts
import Viiwork.Update.WayBack
import Viiwork.Updatecli.Rollout
