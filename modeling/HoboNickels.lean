import HoboNickels.TargetBounds
import HoboNickels.PoolIndex
import HoboNickels.OrphanBuffer
import HoboNickels.Download
import HoboNickels.Issuance
import HoboNickels.StakeReward
import HoboNickels.TemplateConnects
import HoboNickels.Passphrase
import HoboNickels.KeyPool
import HoboNickels.TxOrder
import HoboNickels.WalletManager
import HoboNickels.Rescan
import HoboNickels.MessageDelivery
import HoboNickels.SendQueue
import HoboNickels.DataStream
import HoboNickels.Multisig
import HoboNickels.Alerts
import HoboNickels.AddrMan
import HoboNickels.TimeData
import HoboNickels.Balance
import HoboNickels.MerkleProof
import HoboNickels.MainChain
import HoboNickels.ModifierSelection
import HoboNickels.LockedCoins
import HoboNickels.SendAccept
import HoboNickels.StakeMeta
import HoboNickels.StakePayout
import HoboNickels.SnapFetch
import HoboNickels.Salvage
import HoboNickels.Groupings
import HoboNickels.WalletRepair
import HoboNickels.TrustedChain
import HoboNickels.Startup
import HoboNickels.Wildcard
import HoboNickels.NetBase
import HoboNickels.KeyCopy
import HoboNickels.MruSet
import HoboNickels.CanonicalSig
