import LlmPager.Core.Layers
import LlmPager.Core.WaveGrants
import LlmPager.Core.Grants
import LlmPager.Core.OnePool
import LlmPager.Core.PackCrash
import LlmPager.Cuda.LostFetch
import LlmPager.Cuda.FailedRequest
import LlmPager.Cuda.PoolAgeing
import LlmPager.Cuda.RamTierInv
import LlmPager.Cuda.TierCallsInv
import LlmPager.Cuda.Slabs
import LlmPager.Run.KimiTraffic
import LlmPager.Run.Resize
import LlmPager.Run.KvLayout
import LlmPager.Run.BlobLayout
import LlmPager.Run.Cells
import LlmPager.Serve.Lockstep
import LlmPager.Serve.SlotTable
import LlmPager.Serve.SessionLru
import LlmPager.Serve.FailedAcquire
import LlmPager.Serve.AdminSlots
import LlmPager.Serve.Reuse
import LlmPager.Serve.Lanes
import LlmPager.Run.MlaSpec
import LlmPager.Run.SamplePeriod
import LlmPager.Run.Routing
import LlmPager.Run.GemvSpec
import LlmPager.Run.RepackRoundTrip
import LlmPager.Convert.KimiSpec
import LlmPager.Convert.QwenSpec
import LlmPager.Core.PackTotal
import LlmPager.Core.HalfNearest
import LlmPager.Run.ScaleStored
import LlmPager.Run.StoreGroup
import LlmPager.Run.WordAlign
import LlmPager.Run.ReleaseRingSafe
import LlmPager.Convert.GgufSpec
import LlmPager.Convert.OffsetRanges
import LlmPager.Cuda.WarmTier
import LlmPager.Run.Gqa
import LlmPager.Serve.EventStream
