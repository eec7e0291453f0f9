import Resistance.Validation.Inverse
import Resistance.Validation.Conservation
import Resistance.Validation.NoDoubleSpend
import Resistance.Validation.Amounts
import Resistance.Validation.HeaderSafety
import Resistance.Primitives.PartialMerkleProof
import Resistance.Script.SignatureBinding
import Resistance.BlockTree.Interleavings
import Resistance.Wallet.FeeIteration
import Resistance.Wallet.KeyPool
import Resistance.BlockTree.Shutdown
import Resistance.Wallet.WitnessRuns
import Resistance.Pow.Retarget
import Resistance.Coins.RoundTrip
import Resistance.Coins.ShieldedRefinement
import Resistance.Privatizer.Failures
import Resistance.Builder.Anchors
import Resistance.Coins.FlushEffects
import Resistance.Privatizer.AddressMaps
import Resistance.BlockTree.BranchIds
import Resistance.Privatizer.Callbacks
import Resistance.Net.Orphans
import Resistance.Net.RollingBloom
import Resistance.Net.SendQueue
import Resistance.Net.TimeData
