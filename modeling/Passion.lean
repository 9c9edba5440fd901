import Passion.Chain.ModifierSelection
import Passion.Chain.Navigation
import Passion.Chat.Binding
import Passion.Chat.Delivery
import Passion.Chat.Received
import Passion.Coins.Stack
import Passion.Consensus.Retarget
import Passion.Mempool.FeeRuns
import Passion.Mining.Limits
import Passion.Net.InFlight
import Passion.Net.LimitedMap
import Passion.Net.Orphans
import Passion.Net.SendQueue
import Passion.Script.Delegation
import Passion.Script.SigOps
import Passion.Spork.Concurrency
import Passion.Spork.Restart
import Passion.Staking.TierCheck
import Passion.Validation.ForkStake
import Passion.Validation.IndexRun
import Passion.Validation.Mint
import Passion.Wallet.CoinSelection
import Passion.Wallet.ColdStake
import Passion.Wallet.Depth
import Passion.Wallet.KeyOrigin
import Passion.Wallet.KeyRetirement
import Passion.Wallet.NoteData
import Passion.Wallet.WitnessRoots
