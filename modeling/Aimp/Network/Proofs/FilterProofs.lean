import Aimp.Lib.Recent
import Aimp.Network.Gossip

/-!
# The deduplication filter

The queue of a `GossipFilter` holds the last signatures that were new when they were inserted, and the set
holds the same ones (`insert_window`).
-/

namespace Aimp.Network

namespace GossipFilter

variable {f : GossipFilter} {log sigs : List Signature} {sig : Signature}

/-- The filter holds the last signatures of `log`, each of them once. -/
structure Holds (f : GossipFilter) (log : List Signature) : Prop where
  queue : f.queue = log.rtake f.capacity
  nodup_queue : f.queue.Nodup
  nodup_set : f.set.Nodup
  mem_set : ∀ sig, sig ∈ f.set ↔ sig ∈ f.queue

theorem holds_new (capacity : ℕ) : (new capacity).Holds [] where
  queue := (List.rtake_nil capacity).symm
  nodup_queue := List.nodup_nil
  nodup_set := List.nodup_nil
  mem_set _ := Iff.rfl

theorem Holds.contains_iff (h : f.Holds log) : f.contains sig = true ↔ sig ∈ log.rtake f.capacity := by
  unfold contains
  rw [decide_eq_true_iff, h.mem_set, h.queue]

theorem Holds.length_queue (h : f.Holds log) : f.queue.length = min f.capacity log.length := by
  rw [h.queue, Recent.length_rtake]

/-- A new signature enters a filter that has room for it. -/
theorem Holds.push (h : f.Holds log) (hsig : sig ∉ f.set) (hroom : log.length < f.capacity) :
    ({ f with queue := f.queue ++ [sig], set := f.set.insert sig } : GossipFilter).Holds
      (log ++ [sig]) where
  queue := by
    have hlen : (log ++ [sig]).length ≤ f.capacity := by
      rw [List.length_append, List.length_singleton]
      exact hroom
    rw [Recent.rtake_of_length_le hlen, h.queue, Recent.rtake_of_length_le hroom.le]
  nodup_queue := by
    rw [h.mem_set] at hsig
    show (f.queue ++ [sig]).Nodup
    rw [← List.concat_eq_append, List.nodup_concat]
    exact ⟨hsig, h.nodup_queue⟩
  nodup_set := h.nodup_set.insert
  mem_set sig' := by
    rw [List.mem_insert_iff, h.mem_set, List.mem_append, List.mem_singleton, or_comm]

/-- A new signature enters a full filter, and the oldest one leaves it. -/
theorem Holds.rotate (h : f.Holds log) (hsig : sig ∉ f.set) {old : Signature} {rest : List Signature}
    (hq : f.queue = old :: rest) (hfull : f.capacity ≤ log.length) :
    ({ f with queue := rest ++ [sig], set := (f.set.erase old).insert sig } : GossipFilter).Holds
      (log ++ [sig]) where
  queue := by
    obtain ⟨n, hn⟩ : ∃ n, f.capacity = n + 1 := by
      have hlen := h.length_queue
      rw [hq, List.length_cons] at hlen
      exact ⟨f.capacity - 1, by omega⟩
    have htail : log.rtake n = rest := by
      rw [Recent.rtake_eq_tail (by omega), ← hn, ← h.queue, hq, List.tail_cons]
    show rest ++ [sig] = (log ++ [sig]).rtake f.capacity
    rw [hn, List.rtake_concat_succ, htail]
  nodup_queue := by
    rw [h.mem_set, hq, List.mem_cons, not_or] at hsig
    have hnd := h.nodup_queue
    rw [hq] at hnd
    show (rest ++ [sig]).Nodup
    rw [← List.concat_eq_append, List.nodup_concat]
    exact ⟨hsig.2, (List.nodup_cons.mp hnd).2⟩
  nodup_set := (h.nodup_set.erase old).insert
  mem_set sig' := by
    have hnd := h.nodup_queue
    rw [hq] at hnd
    have hold : old ∉ rest := (List.nodup_cons.mp hnd).1
    rw [List.mem_insert_iff, h.nodup_set.mem_erase_iff, h.mem_set, hq, List.mem_append,
      List.mem_singleton, List.mem_cons]
    constructor
    · rintro (heq | ⟨hne, heq | hmem⟩)
      · exact .inr heq
      · exact absurd heq hne
      · exact .inl hmem
    · rintro (hmem | heq)
      · exact .inr ⟨fun heq => hold (heq ▸ hmem), .inr hmem⟩
      · exact .inl heq

theorem capacity_insert (f : GossipFilter) (sig : Signature) : (f.insert sig).capacity = f.capacity := by
  unfold insert
  split
  · rfl
  · dsimp only
    split
    · split <;> rfl
    · rfl

/-- A new signature enters the filter. -/
theorem Holds.insert (h : f.Holds log) (hcap : 1 ≤ f.capacity) (hsig : sig ∉ f.set) :
    (f.insert sig).Holds (log ++ [sig]) := by
  have hlen := h.length_queue
  unfold GossipFilter.insert
  rw [if_neg hsig]
  dsimp only
  split
  · rename_i hfull
    have hle : f.capacity ≤ log.length := by omega
    cases hq : f.queue with
    | nil =>
      rw [hq, List.length_nil] at hfull
      omega
    | cons old rest => exact h.rotate hsig hq hle
  · rename_i hfree
    exact h.push hsig (by omega)

/-- A signature that is in the filter is not refreshed, and only such a signature changes nothing. -/
theorem insert_eq_self_iff : f.insert sig = f ↔ f.contains sig = true := by
  unfold contains
  rw [decide_eq_true_iff]
  constructor
  · intro heq
    by_contra hnot
    have hset : (f.insert sig).set = f.set := congrArg GossipFilter.set heq
    have hmem : sig ∈ (f.insert sig).set := by
      unfold insert
      rw [if_neg hnot]
      exact List.mem_insert_self ..
    rw [hset] at hmem
    exact hnot hmem
  · exact fun hmem => if_pos hmem

instance : Decidable (f.insert sig = f) := decidable_of_iff _ insert_eq_self_iff.symm

/-- The signatures whose insertion was not a no-op. -/
def entered (f : GossipFilter) : List Signature → List Signature
  | [] => []
  | sig :: sigs =>
    if f.insert sig = f then entered (f.insert sig) sigs
    else sig :: entered (f.insert sig) sigs

/-- One insertion after another. -/
theorem Holds.foldl_insert (h : f.Holds log) (hcap : 1 ≤ f.capacity) (sigs : List Signature) :
    (sigs.foldl GossipFilter.insert f).Holds (log ++ f.entered sigs) ∧
      (sigs.foldl GossipFilter.insert f).capacity = f.capacity := by
  induction sigs generalizing f log with
  | nil => exact ⟨by rwa [entered, List.append_nil], rfl⟩
  | cons sig sigs ih =>
    rw [List.foldl_cons, entered]
    split
    · rename_i hsame
      rw [hsame]
      exact ih h hcap
    · rename_i hnew
      have hsig : sig ∉ f.set := by
        rw [insert_eq_self_iff] at hnew
        exact fun hmem => hnew (decide_eq_true hmem)
      rw [← f.capacity_insert sig] at hcap ⊢
      rw [List.append_cons]
      exact ih (h.insert (by rwa [f.capacity_insert] at hcap) hsig) hcap

end GossipFilter

end Aimp.Network
