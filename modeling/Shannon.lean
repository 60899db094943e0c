import Shannon.Lib.Run
import Shannon.Lib.Boundary
import Shannon.Lib.Store
import Shannon.Lib.Cells
import Shannon.Lib.Ring
import Shannon.Lib.Rings
import Shannon.Lib.Bitmap
import Shannon.Lib.Probe
import Shannon.Lib.Tree
import Shannon.Lib.Text
import Shannon.Lib.PerCpu
import Shannon.Lib.Simulation
import Shannon.Lib.Next
import Shannon.Lib.Heap
import Shannon.Block.Scatter
import Shannon.Block.Split
import Shannon.Block.ConvertBio
import Shannon.Block.Converters
import Shannon.Block.Bounce
import Shannon.Block.BounceCopy
import Shannon.Block.Request
import Shannon.Block.Ledger
import Shannon.Block.Resources
import Shannon.Block.TableSize
import Shannon.Block.RequestTables
import Shannon.Block.BounceLayout
import Shannon.Block.Hole
import Shannon.Block.Alignment
import Shannon.Block.Fallback
import Shannon.Block.DataPath
import Shannon.Block.Flights
import Shannon.Block.Disk
import Shannon.Block.Endio
import Shannon.Block.Discard
import Shannon.Block.Queuedata
import Shannon.Block.Iosched
import Shannon.Block.Requeue
import Shannon.Block.Operations
import Shannon.Block.ReadOnly
import Shannon.Block.SbioPool
import Shannon.Kcore.Gfp
import Shannon.Kcore.GfpIntent
import Shannon.Kcore.SlabFlags
import Shannon.Kcore.Ratelimit
import Shannon.Kcore.PmQos
import Shannon.Kcore.FindBit
import Shannon.Device.InFlight
import Shannon.Device.IoAcct
import Shannon.Device.IoTicks
import Shannon.Module.Init
import Shannon.Memblock.Stripe
import Shannon.Memblock.Index
import Shannon.Memblock.Lock
import Shannon.Cdev.Debug
import Shannon.Cdev.Flat
import Shannon.Cdev.Session
import Shannon.ErrInjection.Bitmaps
import Shannon.ErrInjection.Lifecycle
import Shannon.ErrInjection.RaidMutex
import Shannon.ErrInjection.TwinPattern
import Shannon.Prefetch.CacheLine
import Shannon.Scsi.DevBuffer
import Shannon.Pci.Tuning
import Shannon.Pci.Reset
import Shannon.Sysfs.Rollback
import Shannon.Workqueue.Queue
import Shannon.Workqueue.RtThread
import Shannon.Workqueue.Fifo
import Shannon.Workqueue.Flush
import Shannon.Workqueue.Init
import Shannon.Workqueue.Yield
import Shannon.Waitqueue.WaitEvent
import Shannon.Waitqueue.WakeUp
import Shannon.Waitqueue.Interruptible
import Shannon.Intrusive.Sequences
import Shannon.File.Seq
import Shannon.Scripts.DriftStatus
import Shannon.Scripts.EnumIndices
import Shannon.Scripts.EnumText
import Shannon.Scripts.EnumReading
import Shannon.Scripts.EnumItems
import Shannon.Scripts.EnumValues
import Shannon.Scripts.EnumNumbering
