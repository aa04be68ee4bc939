import Rueidis.Resp.Write
import Rueidis.Queue.RingRuns
import Rueidis.Cache.LruFlights
import Rueidis.Cache.LruCoherence
import Rueidis.Cache.AdapterValues
import Rueidis.Pipe.Repair
import Rueidis.Pipe.Matching
import Rueidis.Pipe.Flights
import Rueidis.Pipe.Exclusion
import Rueidis.Pool.Accounting
import Rueidis.Cluster.Resend
import Rueidis.Mux.Close
import Rueidis.Message.Total
import Rueidis.Cluster.Reconcile
import Rueidis.Lock.Exclusion
import Rueidis.Aside.Fresh
import Rueidis.Limiter.FixedWindow
import Rueidis.PubSub.Deliveries
import Rueidis.Queue.FlowBuffer
import Rueidis.Prob.Counting
import Rueidis.Om.Locking
import Rueidis.Om.SchemaNames
import Rueidis.Cluster.Declined
import Rueidis.Cache.MarshalTotal
import Rueidis.Resp.Streamed
import Rueidis.Cache.FlightsAgree
import Rueidis.Cluster.Askings
import Rueidis.Cluster.ParseAgree
import Rueidis.Client.SlotGroups
import Rueidis.Client.Redirects
import Rueidis.Client.Sentinel
import Rueidis.Lock.Invalidations
import Rueidis.Client.Singleflight
import Rueidis.Cluster.Bitmap
import Rueidis.Om.Cursor
import Rueidis.Resp.NumberLines
import Rueidis.Library.ReaderRules
import Rueidis.Resp.Framing
