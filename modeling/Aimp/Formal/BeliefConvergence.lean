import Mathlib.Data.Finset.Card
import Mathlib.Data.Int.Basic
import Mathlib.Logic.Function.Basic
import Mathlib.Order.Interval.Finset.Nat

/-!
# The belief convergence specification

`AimpBeliefConvergence.tla`: nodes hold claims, each with a trust from 0 to 100, and edges between
claims. They copy claims and edges from each other, let trust flow along the edges and classify their
claims. The phase counter, which no action changes, is left out.
-/

namespace Aimp.Formal.Belief

/-- The constants of the specification. -/
structure Constants (ν : Type*) where
  nodes : Finset ν
  maxClaims : ℕ
  maxEdges : ℕ
  /-- Max percentage that a single contradiction removes. -/
  dampingCap : ℕ
  acceptThreshold : ℕ
  rejectThreshold : ℕ

/-- `ClaimIds`. -/
abbrev Constants.ClaimIds {ν : Type*} (c : Constants ν) : Type := Finset.Icc 1 c.maxClaims

/-- `AimpBeliefConvergence.cfg`. -/
def Constants.cfg : Constants (Fin 3) where
  nodes := Finset.univ
  maxClaims := 3
  maxEdges := 3
  dampingCap := 50
  acceptThreshold := 60
  rejectThreshold := 20

/-- `EdgeTypes`. -/
inductive EdgeType where
  | supports
  | contradicts
deriving DecidableEq

/-- An edge, with its strength in percent. -/
structure Edge (κ : Type*) where
  f : κ
  t : κ
  tp : EdgeType
  s : ℕ
deriving DecidableEq

/-- What a node believes of a claim. -/
inductive Verdict where
  | accepted
  | rejected
  | uncertain
deriving DecidableEq

/-- The variables of the specification. -/
structure State (ν κ : Type*) where
  claims : ν → Finset κ
  edges : ν → Finset (Edge κ)
  trust : ν → κ → ℕ
  belief : ν → κ → Verdict

/-- The actions of the specification, with the claim or the edge that they choose. -/
inductive Action (ν κ : Type*) where
  | addClaim (n : ν) (k : κ) (initTrust : ℕ)
  | addEdge (n : ν) (newEdge : Edge κ)
  | replicate (src dst : ν)
  | propagatePositive (n : ν) (e : Edge κ)
  | applyContradiction (n : ν) (e : Edge κ)
  | classify (n : ν)

variable {ν κ : Type*}

/-- `Init`. -/
def init : State ν κ where
  claims _ := ∅
  edges _ := ∅
  trust _ _ := 0
  belief _ _ := .uncertain

/-- The new trust that `PropagatePositive` gives to the target of an edge. -/
def propagated (trust : κ → ℕ) (e : Edge κ) : ℕ :=
  let bonus := trust e.f * e.s / 100
  if 100 < trust e.t + bonus then 100 else trust e.t + bonus

/-- The new trust that `ApplyContradiction` gives to the target of an edge. -/
def contradicted (dampingCap : ℕ) (trust : κ → ℕ) (e : Edge κ) : ℕ :=
  let rawPenalty := trust e.f * e.s / 100
  let maxPenalty := if 0 < trust e.t then trust e.t * dampingCap / 100 else rawPenalty
  let penalty := if rawPenalty < maxPenalty then rawPenalty else maxPenalty
  if penalty < trust e.t then trust e.t - penalty else 0

variable [DecidableEq ν] [DecidableEq κ]

/-- The verdict on a claim at a node that holds the claims `held`. -/
def Constants.classOf (c : Constants ν) (held : Finset κ) (trust : κ → ℕ) (k : κ) : Verdict :=
  if k ∉ held then .uncertain
  else if c.acceptThreshold ≤ trust k then .accepted
  else if trust k ≤ c.rejectThreshold then .rejected
  else .uncertain

/-- `EXCEPT ![n][k] = v` for the trust. -/
def setTrust (s : State ν κ) (n : ν) (k : κ) (v : ℕ) : State ν κ :=
  { s with trust := Function.update s.trust n (Function.update (s.trust n) k v) }

/-- The state after `AddClaim(n, k, initTrust)`. -/
def addClaim (s : State ν κ) (n : ν) (k : κ) (initTrust : ℕ) : State ν κ :=
  { setTrust s n k initTrust with claims := Function.update s.claims n (insert k (s.claims n)) }

/-- The state after `AddEdge` of an edge at `n`. -/
def addEdge (s : State ν κ) (n : ν) (newEdge : Edge κ) : State ν κ :=
  { s with edges := Function.update s.edges n (insert newEdge (s.edges n)) }

/-- The state after `Replicate(src, dst)`: trust is copied for the claims that are new to `dst`. -/
def replicate (s : State ν κ) (src dst : ν) : State ν κ :=
  { s with
    claims := Function.update s.claims dst (s.claims dst ∪ s.claims src)
    edges := Function.update s.edges dst (s.edges dst ∪ s.edges src)
    trust := Function.update s.trust dst fun k =>
      if k ∈ s.claims src ∧ k ∉ s.claims dst then s.trust src k else s.trust dst k }

/-- The state after `Classify(n)`. -/
def Constants.classify (c : Constants ν) (s : State ν κ) (n : ν) : State ν κ :=
  { s with belief := Function.update s.belief n (c.classOf (s.claims n) (s.trust n)) }

/-- `Next`, one clause for each action: its guards, and the state after it. -/
inductive Next (c : Constants ν) :
    State ν c.ClaimIds → Action ν c.ClaimIds → State ν c.ClaimIds → Prop where
  | addClaim {s : State ν c.ClaimIds} {n : ν} {k : c.ClaimIds} {initTrust : ℕ} (hn : n ∈ c.nodes)
      (hnew : k ∉ s.claims n) (hmax : (s.claims n).card < c.maxClaims) (htrust : initTrust ≤ 100) :
      Next c s (.addClaim n k initTrust) (addClaim s n k initTrust)
  | addEdge {s : State ν c.ClaimIds} {n : ν} {e : Edge c.ClaimIds} (hn : n ∈ c.nodes)
      (hf : e.f ∈ s.claims n) (ht : e.t ∈ s.claims n) (hne : e.f ≠ e.t) (hs : e.s ≤ 100)
      (hmax : (s.edges n).card < c.maxEdges) : Next c s (.addEdge n e) (addEdge s n e)
  | replicate {s : State ν c.ClaimIds} {src dst : ν} (hsrc : src ∈ c.nodes) (hdst : dst ∈ c.nodes)
      (hne : src ≠ dst) : Next c s (.replicate src dst) (replicate s src dst)
  | propagatePositive {s : State ν c.ClaimIds} {n : ν} {e : Edge c.ClaimIds} (hn : n ∈ c.nodes)
      (he : e ∈ s.edges n) (htp : e.tp = .supports) (hf : e.f ∈ s.claims n) (ht : e.t ∈ s.claims n)
      (hpos : 0 < s.trust n e.f) (hinc : s.trust n e.t < propagated (s.trust n) e) :
      Next c s (.propagatePositive n e) (setTrust s n e.t (propagated (s.trust n) e))
  | applyContradiction {s : State ν c.ClaimIds} {n : ν} {e : Edge c.ClaimIds} (hn : n ∈ c.nodes)
      (he : e ∈ s.edges n) (htp : e.tp = .contradicts) (hf : e.f ∈ s.claims n)
      (ht : e.t ∈ s.claims n) (hpos : 0 < s.trust n e.f) :
      Next c s (.applyContradiction n e)
        (setTrust s n e.t (contradicted c.dampingCap (s.trust n) e))
  | classify {s : State ν c.ClaimIds} {n : ν} (hn : n ∈ c.nodes) :
      Next c s (.classify n) (c.classify s n)

variable {c : Constants ν}

/-- `BeliefDeterminism`: nodes with equal claims, edges and trust have equal beliefs. -/
def BeliefDeterminism (c : Constants ν) (s : State ν c.ClaimIds) : Prop :=
  ∀ n1 ∈ c.nodes, ∀ n2 ∈ c.nodes, s.claims n1 = s.claims n2 → s.edges n1 = s.edges n2 →
    s.trust n1 = s.trust n2 → s.belief n1 = s.belief n2

/-- `TrustBounded`. -/
def TrustBounded (c : Constants ν) (s : State ν c.ClaimIds) : Prop :=
  ∀ n ∈ c.nodes, ∀ k, s.trust n k ≤ 100

/-- `ContradictionSafety`: the most that one contradiction can take leaves an accepted claim above the
threshold for rejection. -/
def ContradictionSafety (c : Constants ν) (s : State ν c.ClaimIds) : Prop :=
  ∀ n ∈ c.nodes, ∀ k, c.acceptThreshold ≤ s.trust n k →
    (c.rejectThreshold : ℤ) < (s.trust n k : ℤ) - (s.trust n k * c.dampingCap / 100 : ℕ)

/-- Pass 1 has stabilized at `n`: no `PropagatePositive` is enabled there. -/
def Stable (c : Constants ν) (s : State ν c.ClaimIds) (n : ν) : Prop :=
  ∀ e t, ¬ Next c s (.propagatePositive n e) t

/-- "NoOscillation": once pass 1 has stabilized, a contradiction does not trigger a new round of it. -/
def NoOscillation (c : Constants ν) (s : State ν c.ClaimIds) : Prop :=
  ∀ n e t, Stable c s n → Next c s (.applyContradiction n e) t → Stable c t n

end Aimp.Formal.Belief
