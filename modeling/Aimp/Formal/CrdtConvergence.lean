import Mathlib.Data.Finset.Card
import Mathlib.Data.Finset.Union
import Mathlib.Logic.Function.Basic

/-!
# The convergence specification

`AimpCrdtConvergence.tla`: nodes that create mutations, receive each other's and vote. The sets of
prompts and of decisions are types here; the constants that the model checker is given numbers for
stay parameters.
-/

namespace Aimp.Formal

/-- A `DagNode` is simplified to its id and the set of its parents' ids. -/
@[ext] structure DagNode where
  id : ℕ
  parents : Finset ℕ
deriving DecidableEq

/-- The constants of the specification, without its prompts and decisions. -/
structure Constants (ν : Type*) where
  nodes : Finset ν
  /-- Max mutations per node. -/
  maxMutations : ℕ
  /-- Minimum votes for consensus. -/
  quorumThreshold : ℕ

/-- `MaxId`. -/
def Constants.maxId {ν : Type*} (c : Constants ν) : ℕ := c.nodes.card * c.maxMutations

/-- The variables of the specification. -/
@[ext] structure State (ν π δ : Type*) where
  store : ν → Finset DagNode
  /-- The node ids forming the frontier. -/
  heads : ν → Finset ℕ
  /-- The nodes in flight. -/
  network : Finset DagNode
  quorum : π → δ → Finset ν
  nextId : ℕ

/-- The actions of the specification; `receive` names the message that is received. -/
inductive Action (ν π δ : Type*) where
  | mutate (n : ν)
  | receive (n : ν) (msg : DagNode)
  | observe (n : ν) (prompt : π) (decision : δ)

variable {ν π δ : Type*}

/-- `Init`. -/
def init : State ν π δ where
  store _ := ∅
  heads _ := ∅
  network := ∅
  quorum _ _ := ∅
  nextId := 1

/-- The ids in a store that are not parents of any node in it. -/
def headsOf (store : Finset DagNode) : Finset ℕ :=
  store.image DagNode.id \ store.biUnion DagNode.parents

variable [DecidableEq ν] [DecidableEq π] [DecidableEq δ]

/-- The state after `Mutate(n)`. -/
def mutate (s : State ν π δ) (n : ν) : State ν π δ :=
  let newNode : DagNode := ⟨s.nextId, s.heads n⟩
  { s with
    store := Function.update s.store n (insert newNode (s.store n))
    heads := Function.update s.heads n {s.nextId}
    network := insert newNode s.network
    nextId := s.nextId + 1 }

/-- The state after `Receive(n)` of a message. -/
def receive (s : State ν π δ) (n : ν) (msg : DagNode) : State ν π δ :=
  { s with
    store := Function.update s.store n (insert msg (s.store n))
    heads := Function.update s.heads n (headsOf (insert msg (s.store n))) }

/-- The state after `Observe(n, prompt, decision)`. -/
def observe (s : State ν π δ) (n : ν) (prompt : π) (decision : δ) : State ν π δ :=
  { s with
    quorum := Function.update s.quorum prompt
      (Function.update (s.quorum prompt) decision (insert n (s.quorum prompt decision))) }

/-- `Next`, one clause for each action: its guards, and the state after it. -/
inductive Next (c : Constants ν) : State ν π δ → Action ν π δ → State ν π δ → Prop where
  | mutate {s : State ν π δ} {n : ν} (hn : n ∈ c.nodes)
      (hmax : (s.store n).card < c.maxMutations) (hid : s.nextId ≤ c.maxId) :
      Next c s (.mutate n) (mutate s n)
  | receive {s : State ν π δ} {n : ν} {msg : DagNode} (hn : n ∈ c.nodes)
      (hnet : msg ∈ s.network) (hnew : msg ∉ s.store n) :
      Next c s (.receive n msg) (receive s n msg)
  | observe {s : State ν π δ} {n : ν} {prompt : π} {decision : δ} (hn : n ∈ c.nodes)
      (honce : ∀ d, n ∉ s.quorum prompt d) :
      Next c s (.observe n prompt decision) (observe s n prompt decision)

/-- `Convergence`: nodes with equal stores have equal heads. -/
def Convergence (c : Constants ν) (s : State ν π δ) : Prop :=
  ∀ n1 ∈ c.nodes, ∀ n2 ∈ c.nodes, s.store n1 = s.store n2 → s.heads n1 = s.heads n2

/-- `QuorumSafety`: no two decisions both reach quorum. -/
def QuorumSafety (c : Constants ν) (s : State ν π δ) : Prop :=
  ∀ p d1 d2, c.quorumThreshold ≤ (s.quorum p d1).card → c.quorumThreshold ≤ (s.quorum p d2).card →
    d1 = d2

/-- `QuorumLiveness`: a decision that all nodes voted for reaches quorum. -/
def QuorumLiveness (c : Constants ν) (s : State ν π δ) : Prop :=
  ∀ p d, s.quorum p d = c.nodes → c.quorumThreshold ≤ (s.quorum p d).card

end Aimp.Formal
