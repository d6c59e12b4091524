import MySQLServer.Innodb.PurgeView
import MySQLServer.Innodb.PurgeOrder
import MySQLServer.Innodb.Mach
import MySQLServer.Innodb.Lock.RecWaiting
import MySQLServer.Innodb.Lock.Enqueue
import MySQLServer.Innodb.Lock.TableQueue
import MySQLServer.Innodb.Rec.CompactRoundTrip
import MySQLServer.Mdl.NoWait
import MySQLServer.Mdl.DeadlockFound
import MySQLServer.Partition.WalkingPruning
import MySQLServer.Partition.LinearHash
import MySQLServer.Range.QuickRanges
import MySQLServer.Decimal.MulExact
import MySQLServer.Decimal.ModExact
import MySQLServer.Decimal.Longlong
import MySQLServer.Decimal.TextRoundTrip
import MySQLServer.Decimal.BinRoundTrip
import MySQLServer.Item.Multiplicative
import MySQLServer.Item.Round
import MySQLServer.Inet.RoundTrip
import MySQLServer.NetServ
import MySQLServer.QueryStats.Buffers
import MySQLServer.Time.Offset
import MySQLServer.Time.DatetimeRoundTrip
import MySQLServer.Time.NextMonth
import MySQLServer.Time.Week
import MySQLServer.Rpl.RowRoundTrip
import MySQLServer.Semisync.CommitSafety
import MySQLServer.Semisync.Waiters
import MySQLServer.Semisync.LogOrder
import MySQLServer.Semisync.NodeMemory
import MySQLServer.ThdTimer
