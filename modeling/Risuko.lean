import Risuko.Theorems.Pieces
import Risuko.Theorems.Storage
import Risuko.Theorems.Metainfo
import Risuko.Theorems.Magnet
import Risuko.Theorems.Merkle
import Risuko.Theorems.Wire
import Risuko.Theorems.Uploads
import Risuko.Theorems.Swarm
import Risuko.Theorems.Trackers
import Risuko.Theorems.Utp
import Risuko.Theorems.Router
import Risuko.Theorems.Dht
import Risuko.Theorems.ExternalIp
import Risuko.Theorems.Kad
import Risuko.Theorems.Ed2k
import Risuko.Theorems.Engine
import Risuko.Theorems.Rss
import Risuko.Theorems.Http
import Risuko.Theorems.M3u8
import Risuko.Theorems.Doh
import Risuko.Theorems.Sftp
import Risuko.Theorems.S3
import Risuko.Theorems.Usenet
import Risuko.Theorems.Parity
import Risuko.Theorems.Limiter
import Risuko.Theorems.Stats
