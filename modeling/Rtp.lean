import Rtp.Workflow.Structured
import Rtp.Workflow.ElseIf
import Rtp.Framework.Deployed
import Rtp.Framework.Exclusive
import Rtp.Framework.GraphPool
import Rtp.Framework.Supervision
import Rtp.Leader.InverseIndex
import Rtp.Leader.RoundRobin
import Rtp.Leader.ServerSubscriber
import Rtp.Leader.RemovalsKept
import Rtp.Leader.ChannelGroup
import Rtp.Leader.JoinPath
import Rtp.Qed.BucketFields
import Rtp.Qed.ReserveFrame
import Rtp.Qed.Reopen
import Rtp.Qed.Workers
import Rtp.Qed.Allocation
import Rtp.Qed.FindReads
import Rtp.Qed.Visible
import Rtp.Qed.BatchFind
import Rtp.Qed.Converter
import Rtp.Qed.FatOrder
import Rtp.Qed.Memblock
import Rtp.Qed.KnownNames
import Rtp.Qed.SlimTrie
import Rtp.Common.ThreadRunningChecker
import Rtp.Util.BlockedDestructor
import Rtp.Util.LocalCache
import Rtp.Util.Observers
import Rtp.Util.ToString
import Rtp.Util.NumberTexts
import Rtp.Util.Random
import Rtp.Util.TaskQueue
import Rtp.Monitor.FileBounds
import Rtp.Monitor.Registrations
