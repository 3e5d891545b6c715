import ElioP2P.Library.Layers
import ElioP2P.Library.Numerals

/-!
# Settings

The fields of `GlobalConfig` that a source can set, with their types, their
defaults, and the names they have in the environment, in a configuration file and
on the command line, in the order in which `src/base/config.cpp` reads them.

A configuration is a value for every setting.  The server mode is a member of
`Config` beside it and is kept with the others.
-/

namespace ElioP2P.Base

open ElioP2P.Library

/-- A field is named after its record and itself. -/
inductive Setting where
  | logLevel
  | logOutput
  | logFilePath
  | nodeId
  | nodeBindAddress
  | nodeHttpPort
  | cacheMemorySizeMb
  | cacheDiskSizeMb
  | cacheChunkSizeMb
  | cacheDiskPath
  | cacheEvictionThreshold
  | cacheEvictionTarget
  | p2pListenPort
  | p2pGossipPort
  | p2pMaxConnections
  | p2pMaxPeers
  | p2pMaxUploadSpeedMbps
  | p2pMaxDownloadSpeedMbps
  | p2pSelectionK
  | p2pGossipIntervalSec
  | p2pHeartbeatTimeoutSec
  | p2pTransport
  | controlPlaneEndpoint
  | controlPlanePort
  | controlPlaneHeartbeatIntervalSec
  | controlPlaneReconnectIntervalSec
  | controlPlaneEnable
  | controlPlaneServerListenPort
  | controlPlaneServerBindAddress
  | controlPlaneServerHeartbeatTimeoutSec
  | controlPlaneServerMaxNodes
  | controlPlaneServerMinReplicas
  | controlPlaneServerMaxReplicas
  | storageType
  | storageEndpoint
  | storageRegion
  | storageBucket
  | storageAccessKey
  | storageSecretKey
  | storageUseHttps
  | storageConnectionTimeoutSec
  | storageReadTimeoutSec
  | proxyListenPort
  | proxyBindAddress
  | proxyMaxConnections
  | proxyAuthType
  | proxyAuthToken
  | proxyAllowedBucket
  | serverMode
  deriving DecidableEq

structure Single where
  bits : UInt32
  deriving DecidableEq

@[reducible]
def Setting.Value : Setting → Type
  | .nodeHttpPort | .p2pListenPort | .p2pGossipPort | .controlPlanePort
  | .controlPlaneServerListenPort | .proxyListenPort => UInt16
  | .cacheChunkSizeMb | .p2pMaxConnections | .p2pMaxPeers | .p2pSelectionK | .p2pGossipIntervalSec
  | .p2pHeartbeatTimeoutSec | .controlPlaneHeartbeatIntervalSec | .controlPlaneReconnectIntervalSec
  | .controlPlaneServerHeartbeatTimeoutSec | .controlPlaneServerMaxNodes
  | .controlPlaneServerMinReplicas | .controlPlaneServerMaxReplicas
  | .storageConnectionTimeoutSec | .storageReadTimeoutSec | .proxyMaxConnections => UInt32
  | .cacheMemorySizeMb | .cacheDiskSizeMb | .p2pMaxUploadSpeedMbps
  | .p2pMaxDownloadSpeedMbps => UInt64
  | .cacheEvictionThreshold | .cacheEvictionTarget => Single
  | .controlPlaneEnable | .storageUseHttps | .serverMode => Bool
  | .storageAccessKey | .storageSecretKey | .proxyAuthToken => Option Bytes
  | .logLevel | .logOutput | .logFilePath | .nodeId | .nodeBindAddress | .cacheDiskPath
  | .p2pTransport | .controlPlaneEndpoint | .controlPlaneServerBindAddress | .storageType
  | .storageEndpoint | .storageRegion | .storageBucket | .proxyBindAddress | .proxyAuthType
  | .proxyAllowedBucket => Bytes

abbrev GlobalConfig := (s : Setting) → s.Value

def defaultConfig : GlobalConfig
  | .logLevel => ascii "info"
  | .logOutput => ascii "stdout"
  | .logFilePath => []
  | .nodeId => []
  | .nodeBindAddress => ascii "0.0.0.0"
  | .nodeHttpPort => 0
  | .cacheMemorySizeMb => 4096
  | .cacheDiskSizeMb => 102400
  | .cacheChunkSizeMb => 16
  | .cacheDiskPath => ascii "/var/cache/eliop2p"
  | .cacheEvictionThreshold => ⟨0x3f4ccccd⟩
  | .cacheEvictionTarget => ⟨0x3f19999a⟩
  | .p2pListenPort => 9000
  | .p2pGossipPort => 9001
  | .p2pMaxConnections => 100
  | .p2pMaxPeers => 50
  | .p2pMaxUploadSpeedMbps => 0
  | .p2pMaxDownloadSpeedMbps => 0
  | .p2pSelectionK => 5
  | .p2pGossipIntervalSec => 10
  | .p2pHeartbeatTimeoutSec => 60
  | .p2pTransport => ascii "tcp"
  | .controlPlaneEndpoint => []
  | .controlPlanePort => 8081
  | .controlPlaneHeartbeatIntervalSec => 30
  | .controlPlaneReconnectIntervalSec => 5
  | .controlPlaneEnable => true
  | .controlPlaneServerListenPort => 8082
  | .controlPlaneServerBindAddress => ascii "0.0.0.0"
  | .controlPlaneServerHeartbeatTimeoutSec => 90
  | .controlPlaneServerMaxNodes => 1000
  | .controlPlaneServerMinReplicas => 2
  | .controlPlaneServerMaxReplicas => 5
  | .storageType => ascii "s3"
  | .storageEndpoint => []
  | .storageRegion => ascii "us-east-1"
  | .storageBucket => []
  | .storageAccessKey => none
  | .storageSecretKey => none
  | .storageUseHttps => true
  | .storageConnectionTimeoutSec => 30
  | .storageReadTimeoutSec => 60
  | .proxyListenPort => 8080
  | .proxyBindAddress => ascii "0.0.0.0"
  | .proxyMaxConnections => 1000
  | .proxyAuthType => ascii "none"
  | .proxyAuthToken => none
  | .proxyAllowedBucket => []
  | .serverMode => false

/-! ## How a text is read -/

/-- A number is read as an `int` and cut to the width of the field. -/
def readUInt16 (text : Bytes) : Option UInt16 := (stoi text).map UInt16.ofInt

def readUInt32 (text : Bytes) : Option UInt32 := (stoi text).map UInt32.ofInt

def readUInt64 (text : Bytes) : Option UInt64 := (stoull text).map UInt64.ofNat

def readFlag (text : Bytes) : Option Bool := some (text == ascii "true")

def readOptional (text : Bytes) : Option (Option Bytes) := some (some text)

/-! ## The names of the settings -/

/-- `override_from_env` -/
def environmentVariables : List (Binding Bytes Bytes Setting.Value) :=
  [⟨ascii "ELIOP2P_NODE_ID", .nodeId, some⟩,
    ⟨ascii "ELIOP2P_BIND_ADDRESS", .nodeBindAddress, some⟩,
    ⟨ascii "ELIOP2P_LOG_LEVEL", .logLevel, some⟩,
    ⟨ascii "ELIOP2P_CONTROL_PLANE", .controlPlaneEndpoint, some⟩,
    ⟨ascii "ELIOP2P_CONTROL_PLANE_PORT", .controlPlanePort, readUInt16⟩,
    ⟨ascii "ELIOP2P_STORAGE_ENDPOINT", .storageEndpoint, some⟩,
    ⟨ascii "ELIOP2P_STORAGE_REGION", .storageRegion, some⟩,
    ⟨ascii "ELIOP2P_STORAGE_BUCKET", .storageBucket, some⟩,
    ⟨ascii "ELIOP2P_STORAGE_ACCESS_KEY", .storageAccessKey, readOptional⟩,
    ⟨ascii "ELIOP2P_STORAGE_SECRET_KEY", .storageSecretKey, readOptional⟩,
    ⟨ascii "ELIOP2P_P2P_PORT", .p2pListenPort, readUInt16⟩,
    ⟨ascii "ELIOP2P_P2P_GOSSIP_PORT", .p2pGossipPort, readUInt16⟩,
    ⟨ascii "ELIOP2P_PROXY_PORT", .proxyListenPort, readUInt16⟩,
    ⟨ascii "ELIOP2P_PROXY_ALLOWED_BUCKET", .proxyAllowedBucket, some⟩]

/-- The section and the key of an entry that `load_from_file` reads. -/
def fileEntries : List (Binding (Bytes × Bytes) Bytes Setting.Value) :=
  [⟨(ascii "log", ascii "level"), .logLevel, some⟩,
    ⟨(ascii "log", ascii "output"), .logOutput, some⟩,
    ⟨(ascii "log", ascii "file_path"), .logFilePath, some⟩,
    ⟨(ascii "node", ascii "node_id"), .nodeId, some⟩,
    ⟨(ascii "node", ascii "bind_address"), .nodeBindAddress, some⟩,
    ⟨(ascii "node", ascii "http_port"), .nodeHttpPort, readUInt16⟩,
    ⟨(ascii "cache", ascii "memory_cache_size_mb"), .cacheMemorySizeMb, readUInt64⟩,
    ⟨(ascii "cache", ascii "disk_cache_size_mb"), .cacheDiskSizeMb, readUInt64⟩,
    ⟨(ascii "cache", ascii "chunk_size_mb"), .cacheChunkSizeMb, readUInt32⟩,
    ⟨(ascii "cache", ascii "disk_cache_path"), .cacheDiskPath, some⟩,
    ⟨(ascii "p2p", ascii "listen_port"), .p2pListenPort, readUInt16⟩,
    ⟨(ascii "p2p", ascii "max_connections"), .p2pMaxConnections, readUInt32⟩,
    ⟨(ascii "p2p", ascii "max_peers"), .p2pMaxPeers, readUInt32⟩,
    ⟨(ascii "p2p", ascii "selection_k"), .p2pSelectionK, readUInt32⟩,
    ⟨(ascii "control_plane", ascii "endpoint"), .controlPlaneEndpoint, some⟩,
    ⟨(ascii "control_plane", ascii "port"), .controlPlanePort, readUInt16⟩,
    ⟨(ascii "control_plane", ascii "enable"), .controlPlaneEnable, readFlag⟩,
    ⟨(ascii "storage", ascii "type"), .storageType, some⟩,
    ⟨(ascii "storage", ascii "endpoint"), .storageEndpoint, some⟩,
    ⟨(ascii "storage", ascii "region"), .storageRegion, some⟩,
    ⟨(ascii "storage", ascii "bucket"), .storageBucket, some⟩,
    ⟨(ascii "storage", ascii "access_key"), .storageAccessKey, readOptional⟩,
    ⟨(ascii "storage", ascii "secret_key"), .storageSecretKey, readOptional⟩,
    ⟨(ascii "proxy", ascii "listen_port"), .proxyListenPort, readUInt16⟩,
    ⟨(ascii "proxy", ascii "bind_address"), .proxyBindAddress, some⟩,
    ⟨(ascii "proxy", ascii "max_connections"), .proxyMaxConnections, readUInt32⟩]

def commandLineOptions : List (Bytes × Setting) :=
  [(ascii "--node-id", .nodeId),
    (ascii "--bind-address", .nodeBindAddress),
    (ascii "--http-port", .nodeHttpPort),
    (ascii "--log-level", .logLevel),
    (ascii "--log-output", .logOutput),
    (ascii "--log-file", .logFilePath),
    (ascii "--cache-memory-size", .cacheMemorySizeMb),
    (ascii "--cache-disk-size", .cacheDiskSizeMb),
    (ascii "--cache-chunk-size", .cacheChunkSizeMb),
    (ascii "--cache-disk-path", .cacheDiskPath),
    (ascii "--cache-eviction-threshold", .cacheEvictionThreshold),
    (ascii "--cache-eviction-target", .cacheEvictionTarget),
    (ascii "--p2p-port", .p2pListenPort),
    (ascii "--p2p-max-connections", .p2pMaxConnections),
    (ascii "--p2p-max-peers", .p2pMaxPeers),
    (ascii "--p2p-max-upload-speed", .p2pMaxUploadSpeedMbps),
    (ascii "--p2p-max-download-speed", .p2pMaxDownloadSpeedMbps),
    (ascii "--p2p-selection-k", .p2pSelectionK),
    (ascii "--p2p-gossip-interval", .p2pGossipIntervalSec),
    (ascii "--p2p-heartbeat-timeout", .p2pHeartbeatTimeoutSec),
    (ascii "--p2p-transport", .p2pTransport),
    (ascii "--control-plane-endpoint", .controlPlaneEndpoint),
    (ascii "--control-plane-port", .controlPlanePort),
    (ascii "--control-plane-heartbeat", .controlPlaneHeartbeatIntervalSec),
    (ascii "--control-plane-reconnect", .controlPlaneReconnectIntervalSec),
    (ascii "--control-plane-enable", .controlPlaneEnable),
    (ascii "--control-server-port", .controlPlaneServerListenPort),
    (ascii "--control-server-bind", .controlPlaneServerBindAddress),
    (ascii "--control-server-timeout", .controlPlaneServerHeartbeatTimeoutSec),
    (ascii "--control-server-max-nodes", .controlPlaneServerMaxNodes),
    (ascii "--control-server-min-replicas", .controlPlaneServerMinReplicas),
    (ascii "--control-server-max-replicas", .controlPlaneServerMaxReplicas),
    (ascii "--storage-type", .storageType),
    (ascii "--storage-endpoint", .storageEndpoint),
    (ascii "--storage-region", .storageRegion),
    (ascii "--storage-bucket", .storageBucket),
    (ascii "--storage-access-key", .storageAccessKey),
    (ascii "--storage-secret-key", .storageSecretKey),
    (ascii "--storage-https", .storageUseHttps),
    (ascii "--storage-connection-timeout", .storageConnectionTimeoutSec),
    (ascii "--storage-read-timeout", .storageReadTimeoutSec),
    (ascii "--proxy-port", .proxyListenPort),
    (ascii "--proxy-bind-address", .proxyBindAddress),
    (ascii "--proxy-max-connections", .proxyMaxConnections),
    (ascii "--proxy-auth-type", .proxyAuthType),
    (ascii "--proxy-auth-token", .proxyAuthToken),
    (ascii "--server", .serverMode)]

end ElioP2P.Base
