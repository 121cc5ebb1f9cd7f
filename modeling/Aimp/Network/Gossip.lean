import Aimp.Network.Session
import Aimp.Protocol.Envelope

/-!
# The gossip network

The receive pipeline of `GossipNetwork`: rate limit, circuit breaker, Noise session, parser, TTL,
deduplication and signature, in this order. What passes all of them is forwarded.
-/

namespace Aimp.Network

open Aimp.Protocol

/-- `PEER_FAILURE_THRESHOLD`. -/
def peerFailureThreshold : ℕ := 5

/-- `GOSSIP_LRU_SIZE`. -/
def gossipLruSize : ℕ := 1000

/-- `NETWORK_BUFFER_SIZE`. -/
@[irreducible] def networkBufferSize : ℕ := 65507

/-- Per-peer rate limiting state. -/
structure RateBucket where
  tokens : ℕ
  lastRefill : ℕ

/-- The filter for messages that were already seen: a queue for the order of eviction and a set for the
lookups. -/
structure GossipFilter where
  queue : List Signature
  set : List Signature
  capacity : ℕ

namespace GossipFilter

/-- `GossipFilter::new`. -/
def new (capacity : ℕ) : GossipFilter := ⟨[], [], capacity⟩

/-- `GossipFilter::contains`. -/
def contains (f : GossipFilter) (sig : Signature) : Bool := sig ∈ f.set

/-- `GossipFilter::insert`. -/
def insert (f : GossipFilter) (sig : Signature) : GossipFilter :=
  if sig ∈ f.set then f
  else
    let f := if f.capacity ≤ f.queue.length then
        match f.queue with
        | old :: queue => { f with queue := queue, set := f.set.erase old }
        | [] => f
      else f
    { f with queue := f.queue ++ [sig], set := f.set.insert sig }

end GossipFilter

variable {η Hs Ts : Type}

structure GossipNetwork (Hs Ts : Type) where
  gossipFilter : GossipFilter
  /-- The number of failures of each peer IP. -/
  peerHealth : HashMap String ℕ
  security : SessionManager Hs Ts
  rateLimits : HashMap String RateBucket
  /-- Tokens per second. -/
  peerRateLimit : ℕ
  /-- The capacity of a bucket. -/
  peerRateBurst : ℕ
  noiseRequired : Bool

/-- A received datagram, the time of its arrival and the randomness that a new session for its sender
would draw. -/
structure Packet (η : Type) where
  now : ℕ
  seed : η
  peer : SocketAddr
  bytes : List Byte

/-- The part of the datagram that fits into the receive buffer. -/
def Packet.rawBytes (p : Packet η) : List Byte := p.bytes.take networkBufferSize

namespace GossipNetwork

/-- `GossipNetwork::new`. -/
def new (noiseStaticSecret : ByteArr 32) (noiseRequired : Bool) (peerRateLimit peerRateBurst : ℕ) :
    GossipNetwork Hs Ts where
  gossipFilter := GossipFilter.new gossipLruSize
  peerHealth := ∅
  security := SessionManager.new noiseStaticSecret
  rateLimits := ∅
  peerRateLimit := peerRateLimit
  peerRateBurst := peerRateBurst
  noiseRequired := noiseRequired

/-- The bucket of `check_rate_limit` after the refill; the arithmetic is that of `u64`. -/
def refill (limit burst now : ℕ) (bucket : RateBucket) : RateBucket :=
  let elapsedMs := (now - bucket.lastRefill) / 10 ^ 6 % 2 ^ 64
  let refill := elapsedMs * limit % 2 ^ 64 / 1000
  if 0 < refill then ⟨min ((bucket.tokens + refill) % 2 ^ 64) burst, now⟩ else bucket

/-- `GossipNetwork::check_rate_limit`. -/
def checkRateLimit (net : GossipNetwork Hs Ts) (now : ℕ) (peerIp : String) :
    GossipNetwork Hs Ts × Bool :=
  let bucket := (net.rateLimits.lookup peerIp).getD ⟨net.peerRateBurst, now⟩
  let bucket := refill net.peerRateLimit net.peerRateBurst now bucket
  if 0 < bucket.tokens then
    ({ net with
        rateLimits := net.rateLimits.insert peerIp { bucket with tokens := bucket.tokens - 1 } }, true)
  else ({ net with rateLimits := net.rateLimits.insert peerIp bucket }, false)

/-- `*entry += 1` for the failures of a peer. -/
def countFailure (net : GossipNetwork Hs Ts) (peerIp : String) : GossipNetwork Hs Ts :=
  { net with
    peerHealth := net.peerHealth.insert peerIp ((net.peerHealth.lookup peerIp).getD 0 + 1) }

/-- The part of the loop body of `listen` behind the Noise session: parse and verify the plain bytes. -/
def inspect (rmp : RmpSerde) (ed : Ed25519) (net : GossipNetwork Hs Ts) (peerIp : String)
    (plainBytes : List Byte) : GossipNetwork Hs Ts × Option AimpEnvelope :=
  match fromBytes rmp plainBytes with
  | .error _ => (net.countFailure peerIp, none)
  | .ok envelope =>
    if envelope.data.ttl = 0 then (net.countFailure peerIp, none)
    else if net.gossipFilter.contains envelope.signature then (net, none)
    else if verify rmp ed envelope = false then (net.countFailure peerIp, none)
    else ({ net with gossipFilter := net.gossipFilter.insert envelope.signature }, some envelope)

/-- The loop body of `GossipNetwork::listen`: the envelope that is forwarded, if any. -/
def receive (rmp : RmpSerde) (ed : Ed25519) (snow : Snow η Hs Ts) (net : GossipNetwork Hs Ts)
    (p : Packet η) : GossipNetwork Hs Ts × Option AimpEnvelope :=
  let peerIp := p.peer.ip
  let (net, admitted) := net.checkRateLimit p.now peerIp
  if admitted = false then (net, none)
  else if peerFailureThreshold ≤ (net.peerHealth.lookup peerIp).getD 0 then (net, none)
  else
    let (security, opened) := net.security.unwrap snow p.now p.seed p.peer p.rawBytes
    let net := { net with security := security }
    if net.noiseRequired then
      match opened with
      | some plainBytes => net.inspect rmp ed peerIp plainBytes
      | none => (net, none)
    else net.inspect rmp ed peerIp (opened.getD p.rawBytes)

/-- `GossipNetwork::broadcast`, as far as it concerns the sessions: a message is wrapped for a peer. -/
def wrapFor (snow : Snow η Hs Ts) (net : GossipNetwork Hs Ts) (p : Packet η) :
    GossipNetwork Hs Ts :=
  { net with security := (net.security.wrap snow p.now p.seed p.peer p.bytes).1 }

end GossipNetwork

end Aimp.Network
