import Esptag.Host.Agree
import Esptag.Host.Provision
import Esptag.Host.Roots
import Esptag.Host.Kdf
import Esptag.Host.SeedFile
import Esptag.Host.Retention
import Esptag.Host.ScanFindmy
import Esptag.Tag.Resume
import Esptag.Tag.PingPong
import Esptag.Tag.Scrub
import Esptag.Nvs.Register
import Esptag.Nvs.Seed
import Esptag.Device.Replay
import Esptag.Device.Retry
import Esptag.Device.Abort
import Esptag.Device.Owner
import Esptag.Device.Ideal
import Esptag.Host.Reports
import Esptag.Uecc.Sqrt
import Esptag.Uecc.Unbiased
