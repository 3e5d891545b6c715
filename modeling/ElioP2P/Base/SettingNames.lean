import ElioP2P.Base.Config

/-!
# The documented names of the settings

The names under which a user may give a setting, whatever `src/base/config.cpp`
makes of them.  The options and the variables are those of
`docs/Configuration.md` and of the text of `--help`.  An entry of a file is named
after its record and its field in `base/config.h`.
-/

namespace ElioP2P.Base

open ElioP2P.Library

def documentedOption : Setting → Option Bytes
  | .logLevel => some (ascii "--log-level")
  | .logOutput => some (ascii "--log-output")
  | .logFilePath => some (ascii "--log-file")
  | .nodeId => some (ascii "--node-id")
  | .nodeBindAddress => some (ascii "--bind-address")
  | .nodeHttpPort => some (ascii "--http-port")
  | .cacheMemorySizeMb => some (ascii "--cache-memory-size")
  | .cacheDiskSizeMb => some (ascii "--cache-disk-size")
  | .cacheChunkSizeMb => some (ascii "--cache-chunk-size")
  | .cacheDiskPath => some (ascii "--cache-disk-path")
  | .cacheEvictionThreshold => some (ascii "--cache-eviction-threshold")
  | .cacheEvictionTarget => some (ascii "--cache-eviction-target")
  | .p2pListenPort => some (ascii "--p2p-port")
  | .p2pGossipPort => none
  | .p2pMaxConnections => some (ascii "--p2p-max-connections")
  | .p2pMaxPeers => some (ascii "--p2p-max-peers")
  | .p2pMaxUploadSpeedMbps => some (ascii "--p2p-max-upload-speed")
  | .p2pMaxDownloadSpeedMbps => some (ascii "--p2p-max-download-speed")
  | .p2pSelectionK => some (ascii "--p2p-selection-k")
  | .p2pGossipIntervalSec => some (ascii "--p2p-gossip-interval")
  | .p2pHeartbeatTimeoutSec => some (ascii "--p2p-heartbeat-timeout")
  | .p2pTransport => some (ascii "--p2p-transport")
  | .controlPlaneEndpoint => some (ascii "--control-plane-endpoint")
  | .controlPlanePort => some (ascii "--control-plane-port")
  | .controlPlaneHeartbeatIntervalSec => some (ascii "--control-plane-heartbeat")
  | .controlPlaneReconnectIntervalSec => some (ascii "--control-plane-reconnect")
  | .controlPlaneEnable => some (ascii "--control-plane-enable")
  | .controlPlaneServerListenPort => some (ascii "--control-server-port")
  | .controlPlaneServerBindAddress => some (ascii "--control-server-bind")
  | .controlPlaneServerHeartbeatTimeoutSec => some (ascii "--control-server-timeout")
  | .controlPlaneServerMaxNodes => some (ascii "--control-server-max-nodes")
  | .controlPlaneServerMinReplicas => some (ascii "--control-server-min-replicas")
  | .controlPlaneServerMaxReplicas => some (ascii "--control-server-max-replicas")
  | .storageType => some (ascii "--storage-type")
  | .storageEndpoint => some (ascii "--storage-endpoint")
  | .storageRegion => some (ascii "--storage-region")
  | .storageBucket => some (ascii "--storage-bucket")
  | .storageAccessKey => some (ascii "--storage-access-key")
  | .storageSecretKey => some (ascii "--storage-secret-key")
  | .storageUseHttps => some (ascii "--storage-https")
  | .storageConnectionTimeoutSec => some (ascii "--storage-connection-timeout")
  | .storageReadTimeoutSec => some (ascii "--storage-read-timeout")
  | .proxyListenPort => some (ascii "--proxy-port")
  | .proxyBindAddress => some (ascii "--proxy-bind-address")
  | .proxyMaxConnections => some (ascii "--proxy-max-connections")
  | .proxyAuthType => some (ascii "--proxy-auth-type")
  | .proxyAuthToken => some (ascii "--proxy-auth-token")
  | .proxyAllowedBucket => none
  | .serverMode => some (ascii "--server")

def documentedVariable : Setting → Option Bytes
  | .nodeId => some (ascii "ELIOP2P_NODE_ID")
  | .nodeBindAddress => some (ascii "ELIOP2P_BIND_ADDRESS")
  | .logLevel => some (ascii "ELIOP2P_LOG_LEVEL")
  | .cacheMemorySizeMb => some (ascii "ELIOP2P_CACHE_MEMORY_SIZE")
  | .cacheDiskSizeMb => some (ascii "ELIOP2P_CACHE_DISK_SIZE")
  | .p2pListenPort => some (ascii "ELIOP2P_P2P_PORT")
  | .p2pGossipPort => some (ascii "ELIOP2P_P2P_GOSSIP_PORT")
  | .proxyListenPort => some (ascii "ELIOP2P_PROXY_PORT")
  | .proxyAllowedBucket => some (ascii "ELIOP2P_PROXY_ALLOWED_BUCKET")
  | .controlPlaneEndpoint => some (ascii "ELIOP2P_CONTROL_PLANE")
  | .controlPlanePort => some (ascii "ELIOP2P_CONTROL_PLANE_PORT")
  | .storageEndpoint => some (ascii "ELIOP2P_STORAGE_ENDPOINT")
  | .storageRegion => some (ascii "ELIOP2P_STORAGE_REGION")
  | .storageBucket => some (ascii "ELIOP2P_STORAGE_BUCKET")
  | .storageAccessKey => some (ascii "ELIOP2P_STORAGE_ACCESS_KEY")
  | .storageSecretKey => some (ascii "ELIOP2P_STORAGE_SECRET_KEY")
  | _ => none

def fieldPath : Setting → Option (Bytes × Bytes)
  | .logLevel => some (ascii "log", ascii "level")
  | .logOutput => some (ascii "log", ascii "output")
  | .logFilePath => some (ascii "log", ascii "file_path")
  | .nodeId => some (ascii "node", ascii "node_id")
  | .nodeBindAddress => some (ascii "node", ascii "bind_address")
  | .nodeHttpPort => some (ascii "node", ascii "http_port")
  | .cacheMemorySizeMb => some (ascii "cache", ascii "memory_cache_size_mb")
  | .cacheDiskSizeMb => some (ascii "cache", ascii "disk_cache_size_mb")
  | .cacheChunkSizeMb => some (ascii "cache", ascii "chunk_size_mb")
  | .cacheDiskPath => some (ascii "cache", ascii "disk_cache_path")
  | .cacheEvictionThreshold => some (ascii "cache", ascii "eviction_threshold")
  | .cacheEvictionTarget => some (ascii "cache", ascii "eviction_target")
  | .p2pListenPort => some (ascii "p2p", ascii "listen_port")
  | .p2pGossipPort => some (ascii "p2p", ascii "gossip_port")
  | .p2pMaxConnections => some (ascii "p2p", ascii "max_connections")
  | .p2pMaxPeers => some (ascii "p2p", ascii "max_peers")
  | .p2pMaxUploadSpeedMbps => some (ascii "p2p", ascii "max_upload_speed_mbps")
  | .p2pMaxDownloadSpeedMbps => some (ascii "p2p", ascii "max_download_speed_mbps")
  | .p2pSelectionK => some (ascii "p2p", ascii "selection_k")
  | .p2pGossipIntervalSec => some (ascii "p2p", ascii "gossip_interval_sec")
  | .p2pHeartbeatTimeoutSec => some (ascii "p2p", ascii "heartbeat_timeout_sec")
  | .p2pTransport => some (ascii "p2p", ascii "transport")
  | .controlPlaneEndpoint => some (ascii "control_plane", ascii "endpoint")
  | .controlPlanePort => some (ascii "control_plane", ascii "port")
  | .controlPlaneHeartbeatIntervalSec =>
      some (ascii "control_plane", ascii "heartbeat_interval_sec")
  | .controlPlaneReconnectIntervalSec =>
      some (ascii "control_plane", ascii "reconnect_interval_sec")
  | .controlPlaneEnable => some (ascii "control_plane", ascii "enable")
  | .controlPlaneServerListenPort => some (ascii "control_plane_server", ascii "listen_port")
  | .controlPlaneServerBindAddress => some (ascii "control_plane_server", ascii "bind_address")
  | .controlPlaneServerHeartbeatTimeoutSec =>
      some (ascii "control_plane_server", ascii "heartbeat_timeout_sec")
  | .controlPlaneServerMaxNodes => some (ascii "control_plane_server", ascii "max_nodes")
  | .controlPlaneServerMinReplicas => some (ascii "control_plane_server", ascii "min_replicas")
  | .controlPlaneServerMaxReplicas => some (ascii "control_plane_server", ascii "max_replicas")
  | .storageType => some (ascii "storage", ascii "type")
  | .storageEndpoint => some (ascii "storage", ascii "endpoint")
  | .storageRegion => some (ascii "storage", ascii "region")
  | .storageBucket => some (ascii "storage", ascii "bucket")
  | .storageAccessKey => some (ascii "storage", ascii "access_key")
  | .storageSecretKey => some (ascii "storage", ascii "secret_key")
  | .storageUseHttps => some (ascii "storage", ascii "use_https")
  | .storageConnectionTimeoutSec => some (ascii "storage", ascii "connection_timeout_sec")
  | .storageReadTimeoutSec => some (ascii "storage", ascii "read_timeout_sec")
  | .proxyListenPort => some (ascii "proxy", ascii "listen_port")
  | .proxyBindAddress => some (ascii "proxy", ascii "bind_address")
  | .proxyMaxConnections => some (ascii "proxy", ascii "max_connections")
  | .proxyAuthType => some (ascii "proxy", ascii "auth_type")
  | .proxyAuthToken => some (ascii "proxy", ascii "auth_token")
  | .proxyAllowedBucket => some (ascii "proxy", ascii "allowed_bucket")
  | .serverMode => none

/-- How a text outside the command line is read for a field.  A `float` is only
converted by the parser. -/
def CommandLineParser.readText (parser : CommandLineParser) : (s : Setting) → Bytes → Option s.Value
  | .nodeHttpPort | .p2pListenPort | .p2pGossipPort | .controlPlanePort
  | .controlPlaneServerListenPort | .proxyListenPort => readUInt16
  | .cacheChunkSizeMb | .p2pMaxConnections | .p2pMaxPeers | .p2pSelectionK | .p2pGossipIntervalSec
  | .p2pHeartbeatTimeoutSec | .controlPlaneHeartbeatIntervalSec | .controlPlaneReconnectIntervalSec
  | .controlPlaneServerHeartbeatTimeoutSec | .controlPlaneServerMaxNodes
  | .controlPlaneServerMinReplicas | .controlPlaneServerMaxReplicas
  | .storageConnectionTimeoutSec | .storageReadTimeoutSec | .proxyMaxConnections => readUInt32
  | .cacheMemorySizeMb | .cacheDiskSizeMb | .p2pMaxUploadSpeedMbps
  | .p2pMaxDownloadSpeedMbps => readUInt64
  | .cacheEvictionThreshold => parser.lexicalCast .cacheEvictionThreshold
  | .cacheEvictionTarget => parser.lexicalCast .cacheEvictionTarget
  | .controlPlaneEnable | .storageUseHttps | .serverMode => readFlag
  | .storageAccessKey | .storageSecretKey | .proxyAuthToken => readOptional
  | .logLevel | .logOutput | .logFilePath | .nodeId | .nodeBindAddress | .cacheDiskPath
  | .p2pTransport | .controlPlaneEndpoint | .controlPlaneServerBindAddress | .storageType
  | .storageEndpoint | .storageRegion | .storageBucket | .proxyBindAddress | .proxyAuthType
  | .proxyAllowedBucket => some

end ElioP2P.Base
