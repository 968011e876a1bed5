import SuffixHybrid.Cache.Lookup
import SuffixHybrid.Engine.Rows
import SuffixHybrid.Engine.Skip
import SuffixHybrid.Mixer.Accounting
import SuffixHybrid.Mixer.Agree
import SuffixHybrid.Mixer.Blind
import SuffixHybrid.Mixer.Budget
import SuffixHybrid.Mixer.History
import SuffixHybrid.Mixer.Key
import SuffixHybrid.Mixer.Trust
import SuffixHybrid.Proposer.Bound
import SuffixHybrid.Proposer.Gate
import SuffixHybrid.Proposer.Atomic
import SuffixHybrid.Proposer.Vocab
import SuffixHybrid.Proposer.Tables
import SuffixHybrid.Drafter.Live
import SuffixHybrid.Drafter.Staging
import SuffixHybrid.Drafter.Trim
import SuffixHybrid.Hook.Charge
import SuffixHybrid.Wrapper.Lag
import SuffixHybrid.Wrapper.Lagged
import SuffixHybrid.Wrapper.Probe
import SuffixHybrid.Wrapper.Collective
import SuffixHybrid.Wrapper.Heartbeat
import SuffixHybrid.HiSparse.Residency
import SuffixHybrid.HostAr.Result
import SuffixHybrid.Sft.Cache
import SuffixHybrid.Sft.Lineage
import SuffixHybrid.Sft.Published
import SuffixHybrid.Sft.Mapping
import SuffixHybrid.Sft.Votes
import SuffixHybrid.Sft.DeltaRule
import SuffixHybrid.Sft.Packing
import SuffixHybrid.NcclSplit.Bands
import SuffixHybrid.NcclSplit.Tiling
import SuffixHybrid.Attn.Rows
import SuffixHybrid.Attn.Covered
import SuffixHybrid.Attn.Plan
import SuffixHybrid.DsMla.Plan
import SuffixHybrid.DsMla.Ranges
import SuffixHybrid.DsMla.Row
import SuffixHybrid.NcclSplit.BandText
import SuffixHybrid.Tune.Lockstep
import SuffixHybrid.Tune.Round
import SuffixHybrid.Tune.Replica
import SuffixHybrid.Tune.Served
import SuffixHybrid.Tune.Vocab
import SuffixHybrid.Decider.Mask
import SuffixHybrid.Decider.PythonJson
import SuffixHybrid.HiSparse.Split
import SuffixHybrid.HiSparse.Swaps
import SuffixHybrid.HiSparse.Passes
import SuffixHybrid.Gdn.Refine
import SuffixHybrid.MoeRoute.Stale
import SuffixHybrid.NvGemm.Once
import SuffixHybrid.Nvfp4.Weight
import SuffixHybrid.Nvfp4.LmHead
import SuffixHybrid.Profile.Owners
import SuffixHybrid.Dsa.Exact
import SuffixHybrid.Dsa.Warm
import SuffixHybrid.Verify.Greedy
import SuffixHybrid.Capture.Sound
import SuffixHybrid.Prefetch.Stable
import SuffixHybrid.Prefetch.Cover
import SuffixHybrid.Sft.Sharded
import SuffixHybrid.NvGemm.Exact
import SuffixHybrid.Nvfp4Moe.Parallel
import SuffixHybrid.Dsa.Bodies
import SuffixHybrid.HostAr.Progress
import SuffixHybrid.HostAr.Collectives
import SuffixHybrid.MoeRoute.Sort
