import MetalNative.Attention.Causality
import MetalNative.Attention.QkvRopeCalls
import MetalNative.Core.BroadcastLaws
import MetalNative.Core.ReshapeLaws
import MetalNative.Core.SliceLaws
import MetalNative.Core.StridedLoops
import MetalNative.Dispatch.CpuReads
import MetalNative.Dispatch.Deadlock
import MetalNative.Dispatch.EncoderLimit
import MetalNative.Dispatch.ICBReplay
import MetalNative.Dispatch.OpCountRuns
import MetalNative.Dispatch.OperatorEncoders
import MetalNative.Dispatch.Recycling
import MetalNative.Dispatch.WorkerRuns
import MetalNative.Graph.FailedEvaluation
import MetalNative.Graph.FusionSemantics
import MetalNative.Graph.GraphCacheImpl
import MetalNative.Graph.GraphSerializer
import MetalNative.Graph.GreedyFusion
import MetalNative.Graph.OperatorCacheBounds
import MetalNative.Graph.ShapeBucketing
import MetalNative.Interop.DLPackExchange
import MetalNative.Interop.ImportsAlive
import MetalNative.Interop.NumPyExportFaithful
import MetalNative.Kernels.JITFusionCache
import MetalNative.Kernels.JITFusionMeaning
import MetalNative.Kernels.RegistryCoherence
import MetalNative.Matmul.DequantProduct
import MetalNative.Matmul.SimdKernel
import MetalNative.Matmul.TensorDataCache
import MetalNative.Matmul.Tiled64Coverage
import MetalNative.Memory.ActivationCache
import MetalNative.Memory.BufferOwnership
import MetalNative.Memory.DequantizedWeights
import MetalNative.Memory.FailedAllocation
import MetalNative.Memory.HandleReuse
import MetalNative.Memory.KVCacheLayout
import MetalNative.Memory.KVCacheSizing
import MetalNative.Memory.MemoryStats
import MetalNative.Memory.PoolReuse
import MetalNative.Memory.SizeClasses
import MetalNative.Memory.SpeculativeBuffers
import MetalNative.Ops.BatchAdvisor
import MetalNative.Ops.ElementwiseBroadcast
import MetalNative.Ops.FusedNormAgreement
import MetalNative.Ops.GraphOperators
import MetalNative.Ops.OpRegistry
import MetalNative.Ops.RopeCalls
import MetalNative.Ops.UIntCalls
import MetalNative.Ops.Windows
import MetalNative.Optim.AdamRecurrence
import MetalNative.Optim.SGDRecurrence
import MetalNative.Optim.TensorParameters
