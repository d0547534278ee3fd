import Otedama.Btccrypto.Classify
import Otedama.Btccrypto.ConvertBits
import Otedama.Btccrypto.SingleError
import Otedama.Btccrypto.Transaction
import Otedama.Cmd.LogFile
import Otedama.Config.Margin
import Otedama.Daemon.Service
import Otedama.Engine.AddressFailover
import Otedama.Engine.ArbitrationPauses
import Otedama.Engine.CurtailGate
import Otedama.Engine.DuplicateShares
import Otedama.Engine.ExpiredQuotes
import Otedama.Engine.Extensions
import Otedama.Engine.FanInProgress
import Otedama.Engine.JobTables
import Otedama.Engine.Latency
import Otedama.Engine.Leftovers
import Otedama.Engine.RetargetV1
import Otedama.Engine.StaleShares
import Otedama.Engine.StatsTick
import Otedama.Engine.SubmitLimiter
import Otedama.Engine.SupersededV1
import Otedama.Engine.WorkersFollow
import Otedama.Engine.YieldRotation
import Otedama.Hal.Detect
import Otedama.Lightning.WalletRace
import Otedama.Lightning.WalletRuns
import Otedama.Metrics.WriteText
import Otedama.Miner.Difficulty
import Otedama.Poolproto.CoinbaseMerkle
import Otedama.Poolproto.JobDelivery
import Otedama.Poolproto.RpcSafety
import Otedama.Poolproto.Url
import Otedama.Rates.FetchSections
import Otedama.Rates.FlightProgress
import Otedama.Rates.Hashrate
import Otedama.Stratum.Noise
