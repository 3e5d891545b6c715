import ElioP2P.Library.Dialogues
import ElioP2P.Proxy.ChunkAccess

/-!
# What a request does without asking anyone

Reading and filling the cache, recording a hash and announcing a chunk wait for
nothing but their turn, and none of them touches the transfers.
-/

namespace ElioP2P.Proxy

open ElioP2P.Library ElioP2P.Library.Coroutine ElioP2P.Cache ElioP2P.Cache.ChunkManager
open ElioP2P.P2P

section OwnSections

variable {handler : RequestHandler} {H : Sha256} {fuel : Nat} {s : Node}
  {W : Wait nodeSignature → Prop} {R : Node → Node → Prop}
  (hR : ∀ (s : Node) cache anchors discovery,
  R s { s with cache := cache, anchors := anchors, discovery := discovery })

section

include hR

theorem within_provideFromCache (chunkId : Bytes) :
    (atomically (S := nodeSignature) (provideFromCache fuel chunkId)).Within W R s := by
  apply within_atomically
  intro data s' hload
  simp only [provideFromCache, Option.bind_eq_bind, Option.bind_eq_some_iff, Option.some.injEq,
    Prod.mk.injEq] at hload
  obtain ⟨⟨chunk, cache⟩, -, -, rfl⟩ := hload
  exact hR s cache s.anchors s.discovery

theorem within_consumeIntoCache (chunkId data : Bytes) :
    (atomically (S := nodeSignature) (consumeIntoCache H fuel chunkId data)).Within W R s := by
  apply within_atomically
  intro stored s' hstore
  simp only [consumeIntoCache, Option.bind_eq_bind, Option.bind_eq_some_iff, Option.some.injEq,
    Prod.mk.injEq] at hstore
  obtain ⟨⟨ok, cache⟩, -, -, rfl⟩ := hstore
  exact hR s cache s.anchors s.discovery

theorem within_enterHash (info : CacheKeyInfo) (obj : ObjectInfo) (chunkIndex : Nat)
    (hash : Bytes) :
    (atomically (S := nodeSignature) (enterHash H fuel info obj chunkIndex hash)).Within W R s := by
  apply within_atomically
  intro entered s' henter
  simp only [enterHash, Option.bind_eq_bind, Option.bind_eq_some_iff] at henter
  obtain ⟨⟨chunk, cache⟩, -, henter⟩ := henter
  split at henter
  · simp only [Option.bind_eq_some_iff, Option.some.injEq, Prod.mk.injEq] at henter
    obtain ⟨⟨ok, stored⟩, -, -, rfl⟩ := henter
    exact hR s stored _ s.discovery
  · cases henter
    exact hR s cache s.anchors s.discovery

end

variable (hW : ∀ access, W (.external (.lock access)))
include hW

theorem within_lock (access : Access) : (lock access).Within W R s := within_ask (hW access)

include hR

theorem within_loadChunk (chunkId : Bytes) : (loadChunk fuel chunkId).Within W R s :=
  Within.bind (within_lock hW _) fun _ _ => within_provideFromCache hR chunkId

theorem within_storeChunk (chunkId data : Bytes) :
    (storeChunk H fuel chunkId data).Within W R s :=
  Within.bind (within_lock hW _) fun _ _ => within_consumeIntoCache hR chunkId data

theorem within_cachedChunk (chunkId : Bytes) :
    (cachedChunk fuel handler chunkId).Within W R s :=
  within_ite (within_loadChunk hR hW chunkId) (within_pure none)

theorem within_cacheChunk (chunkId data : Bytes) :
    (cacheChunk H fuel handler chunkId data).Within W R s :=
  within_ite (Within.bind (within_storeChunk hR hW _ _) fun _ _ => within_pure ()) (within_pure ())

theorem within_announceLocalChunk (chunkId : Bytes) :
    (announceLocalChunk handler chunkId).Within W R s := by
  apply within_ite ?_ (within_pure ())
  apply Within.bind (within_lock hW _)
  intro _ s
  apply within_atomically
  intro value s' hannounce
  cases hannounce
  exact hR s s.cache s.anchors _

theorem within_publishMeta (info : CacheKeyInfo) (obj : ObjectInfo) :
    (publishMeta H fuel handler info obj).Within W R s :=
  within_ite (Within.bind (within_cacheChunk hR hW _ _)
    fun _ _ => within_announceLocalChunk hR hW _) (within_pure ())

theorem within_recordHash (info : CacheKeyInfo) (obj : ObjectInfo) (chunkIndex : Nat)
    (hash : Bytes) : (recordHash H fuel handler info obj chunkIndex hash).Within W R s := by
  apply Within.bind (within_lock hW _)
  intro _ s
  apply Within.bind (within_enterHash hR info obj chunkIndex hash)
  intro entered s
  exact within_ite (within_announceLocalChunk hR hW _) (within_pure ())

theorem within_keepFromStorage (info : CacheKeyInfo) (obj : ObjectInfo) (chunkIndex : Nat)
    (data : Bytes) : (keepFromStorage H fuel handler info obj chunkIndex data).Within W R s :=
  within_ite (Within.bind (within_cacheChunk hR hW _ _)
    fun _ _ => within_recordHash hR hW _ _ _ _) (within_pure ())

end OwnSections

end ElioP2P.Proxy
