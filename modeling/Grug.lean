import Grug.BTreeMap
import Grug.Uint128
import Grug.Coins
import Grug.CoinsLedger
import Grug.CoinsCodec
import Grug.CoinsText
import Grug.App
import Grug.Execute
import Grug.Lifting
import Grug.Registry
import Grug.Telemetry
import Grug.Roles
import Grug.Footprint
import Grug.Targets
import Grug.RegistryMachine
