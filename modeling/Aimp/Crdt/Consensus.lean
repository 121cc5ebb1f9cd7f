import Aimp.Crdt.Node

/-!
# Quorum consensus

`QuorumManager` counts the votes for the decisions of each prompt, once for each voter id, and
detects equivocation: two mutations of one origin at one tick with different data.
-/

namespace Aimp.Crdt

/-- Proof that an origin signed two conflicting mutations with the same vector clock tick. -/
structure EquivocationProof where
  origin : String
  tick : U64
  hashA : Hash32
  hashB : Hash32
deriving DecidableEq

structure QuorumManager where
  /-- Minimum number of agreeing nodes required for verification. -/
  threshold : ℕ
  /-- prompt hash -> (decision hash -> voter ids). -/
  decisions : HashMap Hash32 (HashMap Hash32 (List Hash32))
  /-- Prompt hashes that have reached quorum. -/
  verified : List Hash32
  /-- Origins proven to be Byzantine via equivocation. -/
  denied : List String
  equivocationProofs : List EquivocationProof
  /-- (origin, tick) -> (data hash, node hash) of the first mutation observed there. -/
  observedTicks : HashMap (String × U64) (Hash32 × Hash32)

namespace QuorumManager

/-- `QuorumManager::new`. -/
def new (threshold : ℕ) : QuorumManager where
  threshold := threshold
  decisions := ∅
  verified := []
  denied := []
  equivocationProofs := []
  observedTicks := ∅

/-- The loop of `check_equivocation` over the entries of the node's vector clock. -/
def checkEntries (dataHash nodeHash : Hash32) :
    QuorumManager → List (String × U64) → QuorumManager × Option EquivocationProof
  | q, [] => (q, none)
  | q, (origin, tick) :: rest =>
    if origin ∈ q.denied then checkEntries dataHash nodeHash q rest
    else match q.observedTicks.lookup (origin, tick) with
      | some (prevDataHash, prevNodeHash) =>
        if prevDataHash ≠ dataHash then
          let proof : EquivocationProof := ⟨origin, tick, prevNodeHash, nodeHash⟩
          ({ q with
              denied := q.denied.insert origin
              equivocationProofs := q.equivocationProofs ++ [proof] }, some proof)
        else checkEntries dataHash nodeHash q rest
      | none =>
        checkEntries dataHash nodeHash
          { q with observedTicks := q.observedTicks.insert (origin, tick) (dataHash, nodeHash) } rest

/-- `QuorumManager::check_equivocation`. -/
def checkEquivocation (q : QuorumManager) (node : DagNode) (nodeHash : Hash32) :
    QuorumManager × Option EquivocationProof :=
  checkEntries node.dataHash nodeHash q node.vclock.entries

/-- The voters for one decision of a prompt, by hash. -/
def votersFor (q : QuorumManager) (promptHash decisionHash : Hash32) : List Hash32 :=
  (((q.decisions.lookup promptHash).getD ∅).lookup decisionHash).getD []

/-- `QuorumManager::observe`: record a vote, and tell whether it brings the prompt to quorum. -/
def observe (blake3 : List Byte → Hash32) (q : QuorumManager) (origin : Hash32)
    (evidence : AiEvidence) : QuorumManager × Bool :=
  let promptHash := blake3 (asBytes evidence.prompt)
  let decisionHash := blake3 (asBytes evidence.decision)
  if promptHash ∈ q.verified then (q, false)
  else if hexEncode origin.val ∈ q.denied then (q, false)
  else
    let promptEntry := (q.decisions.lookup promptHash).getD ∅
    -- one vote per prompt, not per decision
    if promptEntry.entries.any fun e => origin ∈ e.2 then
      ({ q with decisions := q.decisions.insert promptHash promptEntry }, false)
    else
      let voters := ((promptEntry.lookup decisionHash).getD []).insert origin
      let q := { q with
        decisions := q.decisions.insert promptHash (promptEntry.insert decisionHash voters) }
      if q.threshold ≤ voters.length then
        ({ q with verified := q.verified.insert promptHash }, true)
      else (q, false)

/-- `QuorumManager::is_verified`. -/
def isVerified (blake3 : List Byte → Hash32) (q : QuorumManager) (prompt : String) : Bool :=
  blake3 (asBytes prompt) ∈ q.verified

/-- `QuorumManager::get_support_count`. -/
def getSupportCount (blake3 : List Byte → Hash32) (q : QuorumManager) (prompt decision : String) :
    ℕ :=
  (((q.decisions.lookup (blake3 (asBytes prompt))).bind fun d =>
    d.lookup (blake3 (asBytes decision))).map List.length).getD 0

/-- `QuorumManager::is_denied`. -/
def isDenied (q : QuorumManager) (origin : String) : Bool := origin ∈ q.denied

/-- `QuorumManager::verified_hashes`. -/
def verifiedHashes (q : QuorumManager) : List Hash32 := q.verified

/-- `QuorumManager::restore_verified`. -/
def restoreVerified (q : QuorumManager) (hashes : List Hash32) : QuorumManager :=
  { q with verified := hashes.foldl (fun verified h => verified.insert h) q.verified }

end QuorumManager

end Aimp.Crdt
