import Kappai.Proofs.Prefill
import Kappai.Proofs.Decode
import Kappai.Proofs.SyncLink
import Kappai.Proofs.Recurrent
import Kappai.Proofs.Presampled
import Kappai.Proofs.Logits
import Kappai.Proofs.CpuWindow
import Kappai.Proofs.CpuCaches
import Kappai.Proofs.CpuShift
import Kappai.Proofs.CacheBytes
import Kappai.Proofs.CpuRegions
import Kappai.Proofs.ChatSlots
import Kappai.Proofs.Disconnect
import Kappai.Proofs.Scheduler
import Kappai.Proofs.MoeStream
import Kappai.Proofs.MemPlan
import Kappai.Proofs.SlotSharing
import Kappai.Proofs.FuseResidual
import Kappai.Proofs.RmsnormAdd
import Kappai.Proofs.MoeTasks
import Kappai.Proofs.MoeExperts
import Kappai.Proofs.MoeLayerCall
import Kappai.Proofs.KvMirrors
import Kappai.Proofs.CpuAttention
import Kappai.Proofs.TurnRollback
import Kappai.Proofs.VkKv
import Kappai.Proofs.JinjaCompile
import Kappai.Proofs.ThinkSplit
import Kappai.Proofs.DeviceHistory
import Kappai.Spec.MoeStreamOp
import Kappai.Proofs.VkHazards
import Kappai.Proofs.PrefillWindow
import Kappai.Proofs.ServerTask
import Kappai.Proofs.StopSequences
import Kappai.Proofs.MoeVictims
import Kappai.Proofs.MoeExec
import Kappai.Proofs.MoeTier
import Kappai.Proofs.MoeTopk
import Kappai.Proofs.JinjaSequence
import Kappai.Proofs.HcsCounts
import Kappai.Proofs.MoePlan
import Kappai.Proofs.MergeTable
import Kappai.Proofs.SamplerRing
import Kappai.Proofs.SamplerDraw
import Kappai.Proofs.IdlePrefill
import Kappai.Proofs.ThreadPool
import Kappai.Spec.ToolScan
import Kappai.Proofs.ToolChunks
import Kappai.Proofs.ToolBareRuns
import Kappai.Sanity.SamplerDraw
import Kappai.Proofs.GatedDelta
import Kappai.Proofs.Bpe
import Kappai.Proofs.JinjaJson
import Kappai.Proofs.QuantDots
import Kappai.Proofs.Specials
import Kappai.Proofs.Pretoken
import Kappai.Proofs.Png
import Kappai.Proofs.Decision
import Kappai.Proofs.EscapeMarks
import Kappai.Proofs.VkSuballoc
import Kappai.Proofs.MemPools
import Kappai.Proofs.VkRope
import Kappai.Proofs.BatchScratch
import Kappai.Proofs.VkQuantCache
import Kappai.Proofs.Conv
import Kappai.Proofs.Ple
import Kappai.Lib.ByteReader
import Kappai.Sanity.Gguf
