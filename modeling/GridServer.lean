import GridServer.Necklace.Scripts
import GridServer.NodeManager.Mail
import GridServer.NodeManager.Reception
import GridServer.NodeWorker.BinCodec
import GridServer.NodeWorker.Caches
import GridServer.NodeWorker.Compilations
import GridServer.NodeWorker.Computations
import GridServer.NodeWorker.Executions
import GridServer.PathFinding.Dijkstra
import GridServer.PathFinding.Job
import GridServer.PathFinding.MinPath
import GridServer.PathFinding.Reduction
import GridServer.PathFinding.Safety
import GridServer.Scheduler.Averages
import GridServer.Scheduler.Counter
import GridServer.Scheduler.Delivery
import GridServer.Scheduler.Demands
import GridServer.Scheduler.Frames
import GridServer.Scheduler.Lobby
import GridServer.Scheduler.Progress
import GridServer.Scheduler.Provenance
import GridServer.Scheduler.Speculation
import GridServer.Scheduler.Starvation
import GridServer.Scheduler.Supplies
import GridServer.Scheduler.Switchboard
import GridServer.Scheduler.WorkerOrders
import GridServer.Shared.BitSetInit
import GridServer.Shared.BitSetRuns
import GridServer.Shared.BufferRuns
import GridServer.Shared.LinkedNodesRuns
import GridServer.Shared.MultilevelVecMapRuns
import GridServer.Shared.VecMapRuns
import GridServer.Shared.PriorityQueueRepair
import GridServer.System.Plans
import GridServer.System.Solutions
import GridServer.TaskManager.Announcement
import GridServer.TaskManager.Handlers
import GridServer.TaskManager.Listing
import GridServer.TaskManager.Lookups
import GridServer.TaskManager.Optimum
import GridServer.TaskManager.Origins
import GridServer.TaskManager.Parts
import GridServer.TaskManager.Plans
import GridServer.TaskManager.Requests
