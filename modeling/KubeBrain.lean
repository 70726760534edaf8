import KubeBrain.Node.Revision
import KubeBrain.Node.Restart
import KubeBrain.Scan.Faults
import KubeBrain.Events.Queue
import KubeBrain.Server.WatchProtocol
import KubeBrain.Race.Winner
import KubeBrain.Watch.Suffix
import KubeBrain.Watch.CatchUp
import KubeBrain.Writes.Leases
import KubeBrain.Compaction.Ranges
import KubeBrain.Scan.Count
import KubeBrain.Compaction.Serial
import KubeBrain.Writes.Verdict
import KubeBrain.Server.Interval
import KubeBrain.Compaction.Window
import KubeBrain.Storage.Cursors
import KubeBrain.Scan.Headers
import KubeBrain.Node.Lock
import KubeBrain.Server.Reads
import KubeBrain.Snapshot.Informer
