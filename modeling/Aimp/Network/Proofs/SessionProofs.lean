import Aimp.Network.Proofs.NoiseProofs

/-!
# The session table

`evict_stale` runs before a call looks up the session of its peer, and brings the table down to
`SESSION_MAX_COUNT` sessions. A new session that is added then is one too many, and if its table is full the
next call may discard the session of its own peer. Both happen only if a call for a peer without a live
session finds `SESSION_MAX_COUNT` of them (`table_bounded_iff`).
-/

namespace Aimp.Network

variable {η Hs Ts : Type} {snow : Snow η Hs Ts}

/-- A call of `wrap` or of `unwrap`, and the order in which it iterates over the table. -/
structure SessionCall (η Hs Ts : Type) where
  wraps : Bool
  packet : Packet η
  order : HashMap.IterOrder SocketAddr (SecureSession Hs Ts)

namespace SessionManager

variable {now : ℕ} {m : SessionManager Hs Ts} {c : SessionCall η Hs Ts}
  {sessions : HashMap SocketAddr (SecureSession Hs Ts)}

/-- The manager after a call. -/
def call (snow : Snow η Hs Ts) (m : SessionManager Hs Ts) (c : SessionCall η Hs Ts) :
    SessionManager Hs Ts :=
  let m := { m with sessions := c.order.of m.sessions }
  if c.wraps then (m.wrap snow c.packet.now c.packet.seed c.packet.peer c.packet.bytes).1
  else (m.unwrap snow c.packet.now c.packet.seed c.packet.peer c.packet.bytes).1

/-- The sessions that are neither expired nor invalid. -/
def live (now : ℕ) (sessions : HashMap SocketAddr (SecureSession Hs Ts)) :
    HashMap SocketAddr (SecureSession Hs Ts) :=
  sessions.retain fun _ s => now - s.lastUsed < sessionTtlSecs * 10 ^ 9 ∧ s.state.isInvalid = false

/-- The table that the eviction leaves to a call. -/
def evicted (m : SessionManager Hs Ts) (c : SessionCall η Hs Ts) :
    HashMap SocketAddr (SecureSession Hs Ts) :=
  evictStale c.packet.now (c.order.of m.sessions)

/-! ## One call -/

theorem evictStale_eq (now : ℕ) (sessions : HashMap SocketAddr (SecureSession Hs Ts)) :
    evictStale now sessions = removeOldest^[(live now sessions).len - sessionMaxCount]
      (live now sessions) := rfl

theorem len_removeOldest (sessions : HashMap SocketAddr (SecureSession Hs Ts)) :
    (removeOldest sessions).len = sessions.len - 1 := by
  unfold removeOldest
  cases h : sessions.entries.argmin fun e => e.2.lastUsed with
  | none =>
    have hnil : sessions.entries = [] := List.argmin_eq_none.mp h
    have hzero : sessions.len = 0 := by
      unfold HashMap.len
      rw [hnil, List.length_nil]
    dsimp only
    rw [hzero]
  | some oldest =>
    have hmem : oldest.1 ∈ sessions :=
      AList.mem_keys.mpr (List.mem_map.mpr ⟨oldest, List.argmin_mem h, rfl⟩)
    exact HashMap.len_erase hmem

theorem len_iterate_removeOldest (n : ℕ) (sessions : HashMap SocketAddr (SecureSession Hs Ts)) :
    (removeOldest^[n] sessions).len = sessions.len - n := by
  induction n with
  | zero => rfl
  | succ n ih =>
    rw [Function.iterate_succ_apply', len_removeOldest, ih]
    omega

/-- The eviction brings the table down to the maximum. -/
theorem len_evictStale (now : ℕ) (sessions : HashMap SocketAddr (SecureSession Hs Ts)) :
    (evictStale now sessions).len = min (live now sessions).len sessionMaxCount := by
  rw [evictStale_eq, len_iterate_removeOldest]
  omega

/-- Without too many live sessions only the others are evicted. -/
theorem evictStale_of_le (h : (live now sessions).len ≤ sessionMaxCount) :
    evictStale now sessions = live now sessions := by
  rw [evictStale_eq, Nat.sub_eq_zero_of_le h, Function.iterate_zero_apply]

theorem sessions_store (m : SessionManager Hs Ts) (now : ℕ) (peer : SocketAddr)
    (session : SecureSession Hs Ts) (state : SecureState Hs Ts) :
    (m.store now peer session state).sessions =
      (evictStale now m.sessions).insert peer { session with state := state, lastUsed := now } := rfl

theorem sessions_wrap (snow : Snow η Hs Ts) (m : SessionManager Hs Ts) (now : ℕ) (seed : η)
    (peer : SocketAddr) (payload : List Byte) :
    ∃ session, (m.wrap snow now seed peer payload).1.sessions =
      (evictStale now m.sessions).insert peer session := by
  unfold wrap
  dsimp only
  split <;> exact ⟨_, sessions_store ..⟩

theorem sessions_unwrap (snow : Snow η Hs Ts) (m : SessionManager Hs Ts) (now : ℕ) (seed : η)
    (peer : SocketAddr) (payload : List Byte) :
    ∃ session, (m.unwrap snow now seed peer payload).1.sessions =
      (evictStale now m.sessions).insert peer session := by
  unfold unwrap
  dsimp only
  split
  · split <;> exact ⟨_, sessions_store ..⟩
  · exact ⟨_, sessions_store ..⟩
  · exact ⟨_, sessions_store ..⟩

/-- Every call puts a session of its peer into the table that the eviction leaves. -/
theorem sessions_call (snow : Snow η Hs Ts) (m : SessionManager Hs Ts) (c : SessionCall η Hs Ts) :
    ∃ session, (m.call snow c).sessions = (m.evicted c).insert c.packet.peer session := by
  unfold call evicted
  dsimp only
  split
  · exact sessions_wrap ..
  · exact sessions_unwrap ..

/-- The order does not matter for what is live. -/
theorem live_order (c : SessionCall η Hs Ts) (sessions : HashMap SocketAddr (SecureSession Hs Ts)) :
    (live now (c.order.of sessions)).entries.Perm (live now sessions).entries :=
  (c.order.perm sessions).filter _

theorem len_live_order (c : SessionCall η Hs Ts)
    (sessions : HashMap SocketAddr (SecureSession Hs Ts)) :
    (live now (c.order.of sessions)).len = (live now sessions).len :=
  (live_order c sessions).length_eq

theorem len_call (snow : Snow η Hs Ts) (m : SessionManager Hs Ts) (c : SessionCall η Hs Ts) :
    (m.call snow c).sessions.len =
      if c.packet.peer ∈ m.evicted c then min (live c.packet.now m.sessions).len sessionMaxCount
      else min (live c.packet.now m.sessions).len sessionMaxCount + 1 := by
  obtain ⟨session, hsessions⟩ := sessions_call snow m c
  have hevicted : (m.evicted c).len = min (live c.packet.now m.sessions).len sessionMaxCount := by
    unfold evicted
    rw [len_evictStale, len_live_order]
  rw [hsessions, HashMap.len_insert, hevicted]

/-- A call never leaves more than one session too many. -/
theorem len_call_le (snow : Snow η Hs Ts) (m : SessionManager Hs Ts) (c : SessionCall η Hs Ts) :
    (m.call snow c).sessions.len ≤ sessionMaxCount + 1 := by
  rw [len_call]
  split
  · exact (Nat.min_le_right ..).trans (Nat.le_succ _)
  · exact Nat.succ_le_succ (Nat.min_le_right ..)

/-- The call finds a live session of its peer, or room for a new one. -/
def HasRoom (m : SessionManager Hs Ts) (c : SessionCall η Hs Ts) : Prop :=
  c.packet.peer ∈ live c.packet.now m.sessions ∨ (live c.packet.now m.sessions).len < sessionMaxCount

/-- The call does not discard the live session of its own peer. -/
def Spares (m : SessionManager Hs Ts) (c : SessionCall η Hs Ts) : Prop :=
  ∀ session, (live c.packet.now m.sessions).lookup c.packet.peer = some session →
    (m.evicted c).lookup c.packet.peer = some session

/-- In a table that is not too large, a call leaves one that is not too large exactly if it has room, and
discards no live session. -/
theorem call_bounded (snow : Snow η Hs Ts) (hm : m.sessions.len ≤ sessionMaxCount)
    (c : SessionCall η Hs Ts) :
    ((m.call snow c).sessions.len ≤ sessionMaxCount ↔ m.HasRoom c) ∧ m.Spares c := by
  have hlive : (live c.packet.now m.sessions).len ≤ sessionMaxCount :=
    (HashMap.len_retain_le _ _).trans hm
  have hevicted : (m.evicted c).entries.Perm (live c.packet.now m.sessions).entries := by
    unfold evicted
    rw [evictStale_of_le (by rwa [len_live_order])]
    exact live_order c m.sessions
  refine ⟨?_, fun session h => by rwa [AList.perm_lookup hevicted]⟩
  rw [len_call, Nat.min_eq_left hlive]
  unfold HasRoom
  split
  · rename_i hmem
    exact ⟨fun _ => Or.inl ((AList.mem_of_perm hevicted).mp hmem), fun _ => hlive⟩
  · rename_i hmem
    exact ⟨fun hle => Or.inr hle,
      fun hor => hor.resolve_left (mt (AList.mem_of_perm hevicted).mpr hmem)⟩

/-! ## Runs -/

/-- A new manager after a list of calls. -/
def after (snow : Snow η Hs Ts) (secret : ByteArr 32) (calls : List (SessionCall η Hs Ts)) :
    SessionManager Hs Ts :=
  calls.foldl (call snow) (new secret)

theorem after_concat (snow : Snow η Hs Ts) (secret : ByteArr 32) (calls : List (SessionCall η Hs Ts))
    (c : SessionCall η Hs Ts) : after snow secret (calls ++ [c]) = (after snow secret calls).call snow c := by
  unfold after
  rw [List.foldl_append]
  rfl

/-- If all calls find room, the table is never too large. -/
theorem len_after_le {secret : ByteArr 32} {calls : List (SessionCall η Hs Ts)}
    (h : ∀ before c, before ++ [c] <+: calls → (after snow secret before).HasRoom c) :
    (after snow secret calls).sessions.len ≤ sessionMaxCount := by
  induction calls using List.reverseRecOn with
  | nil => exact Nat.zero_le _
  | append_singleton calls c ih =>
    have hcalls := ih fun before d hpart => h before d (hpart.trans (List.prefix_append _ _))
    rw [after_concat, (call_bounded snow hcalls c).1]
    exact h calls c List.prefix_rfl

/-- The session of a new peer. -/
theorem wrap_new (snow : Snow η Hs Ts) {peer : SocketAddr} (h : peer ∉ evictStale now m.sessions)
    (seed : η) (payload : List Byte) : ∃ session : SecureSession Hs Ts, session.lastUsed = now ∧
      session.state.isInvalid = false ∧
      (m.wrap snow now seed peer payload).1.sessions =
        (evictStale now m.sessions).insert peer session := by
  have hfor : m.sessionFor now peer (.newInitiator snow m.noiseStaticSecret seed peer now) =
      .newInitiator snow m.noiseStaticSecret seed peer now := by
    unfold sessionFor
    rw [AList.lookup_eq_none.mpr h]
    rfl
  unfold wrap
  dsimp only
  rw [hfor]
  refine ⟨_, ?_, ?_, sessions_store ..⟩
  · rfl
  · rfl

/-- A peer for each port. -/
def peerAt (i : ℕ) : SocketAddr := ⟨"192.0.2.7", 1024 + i⟩

theorem peerAt_inj {i j : ℕ} (h : peerAt i = peerAt j) : i = j :=
  Nat.add_left_cancel (congrArg SocketAddr.port h)

/-- A message for such a peer. -/
def messageTo (Hs Ts : Type) (now i : ℕ) : SessionCall Unit Hs Ts where
  wraps := true
  packet := ⟨now, (), peerAt i, []⟩
  order := .id _ _

theorem call_messageTo (snow : Snow Unit Hs Ts) (m : SessionManager Hs Ts) (now i : ℕ) :
    m.call snow (messageTo Hs Ts now i) = (m.wrap snow now () (peerAt i) []).1 := by
  unfold call messageTo
  dsimp only
  rw [if_pos rfl]
  rfl

/-- A message for each of the first peers, one every nanosecond. -/
def messages (Hs Ts : Type) (n : ℕ) : List (SessionCall Unit Hs Ts) :=
  (List.range n).map fun i => messageTo Hs Ts i i

/-- Each of the first `n` peers has a session, which it has used once. -/
structure Filled (n : ℕ) (sessions : HashMap SocketAddr (SecureSession Hs Ts)) : Prop where
  len : sessions.len = n
  mem : ∀ i < n, ∃ session, sessions.lookup (peerAt i) = some session ∧ session.lastUsed = i
  only : ∀ peer session, sessions.lookup peer = some session →
    session.state.isInvalid = false ∧ ∃ i < n, peer = peerAt i ∧ session.lastUsed = i

theorem Filled.live_eq {n : ℕ} (h : Filled n sessions) (hn : n ≤ sessionMaxCount + 1) :
    live n sessions = sessions := by
  refine HashMap.retain_eq_self fun e he => ?_
  obtain ⟨hvalid, i, hi, -, hlast⟩ := h.only e.1 e.2 (AList.mem_lookup_iff.mpr he)
  have hmax : sessionMaxCount = 256 := rfl
  have httl : sessionTtlSecs = 300 := rfl
  rw [decide_eq_true_iff]
  exact ⟨by omega, hvalid⟩

/-- A message for the next peer adds its session. -/
theorem Filled.call {n : ℕ} (snow : Snow Unit Hs Ts) (h : Filled n m.sessions) (hn : n ≤ sessionMaxCount) :
    Filled (n + 1) (m.call snow (messageTo Hs Ts n n)).sessions := by
  have hlive : live n m.sessions = m.sessions := h.live_eq (Nat.le_succ_of_le hn)
  have hevict : evictStale n m.sessions = m.sessions := by
    rw [evictStale_of_le, hlive]
    rw [hlive, h.len]
    exact hn
  have hnew : peerAt n ∉ m.sessions := by
    rw [← AList.lookup_eq_none]
    cases hlookup : m.sessions.lookup (peerAt n) with
    | none => rfl
    | some session =>
      obtain ⟨-, i, hi, hpeer, -⟩ := h.only _ _ hlookup
      exact absurd (peerAt_inj hpeer) hi.ne'
  obtain ⟨session, hlast, hvalid, hsessions⟩ :=
    wrap_new snow (hevict.symm ▸ hnew : peerAt n ∉ evictStale n m.sessions) () []
  have hcall : (m.call snow (messageTo Hs Ts n n)).sessions = m.sessions.insert (peerAt n) session := by
    rw [call_messageTo, hsessions, hevict]
  rw [hcall]
  refine ⟨?_, ?_, ?_⟩
  · rw [HashMap.len_insert, if_neg hnew, h.len]
  · intro i hi
    by_cases heq : i = n
    · subst heq
      exact ⟨session, AList.lookup_insert _, hlast⟩
    · obtain ⟨session', hlookup, hlast'⟩ := h.mem i (by omega)
      refine ⟨session', ?_, hlast'⟩
      rw [AList.lookup_insert_ne fun hpeer => heq (peerAt_inj hpeer), hlookup]
  · intro peer session' hlookup
    by_cases hpeer : peer = peerAt n
    · subst hpeer
      rw [AList.lookup_insert] at hlookup
      obtain rfl := Option.some.inj hlookup
      exact ⟨hvalid, n, Nat.lt_succ_self n, rfl, hlast⟩
    · rw [AList.lookup_insert_ne hpeer] at hlookup
      obtain ⟨hvalid', i, hi, hpeer', hlast'⟩ := h.only peer session' hlookup
      exact ⟨hvalid', i, by omega, hpeer', hlast'⟩

theorem messages_succ (Hs Ts : Type) (n : ℕ) :
    messages Hs Ts (n + 1) = messages Hs Ts n ++ [messageTo Hs Ts n n] := by
  unfold messages
  rw [List.range_succ, List.map_append, List.map_singleton]

theorem filled_after (snow : Snow Unit Hs Ts) (secret : ByteArr 32) {n : ℕ}
    (hn : n ≤ sessionMaxCount + 1) :
    Filled n (after snow secret (messages Hs Ts n)).sessions := by
  induction n with
  | zero =>
    refine ⟨rfl, fun i hi => absurd hi (Nat.not_lt_zero i), fun peer session h => ?_⟩
    rw [show (after snow secret (messages Hs Ts 0)).sessions = ∅ from rfl, AList.lookup_empty] at h
    cases h
  | succ n ih =>
    rw [messages_succ, after_concat]
    exact (ih (by omega)).call snow (Nat.le_of_succ_le_succ hn)

/-- The session that has not been used for the longest time is the one of the first peer. -/
theorem Filled.removeOldest {n : ℕ} (h : Filled (n + 1) sessions) :
    (removeOldest sessions).lookup (peerAt 0) = none := by
  obtain ⟨session, hfirst, hlast⟩ := h.mem 0 n.succ_pos
  have hmem := AList.mem_lookup_iff.mp hfirst
  unfold SessionManager.removeOldest
  cases hargmin : sessions.entries.argmin fun e => e.2.lastUsed with
  | none =>
    rw [List.argmin_eq_none.mp hargmin] at hmem
    exact absurd hmem List.not_mem_nil
  | some oldest =>
    have hle := List.le_of_mem_argmin hmem hargmin
    obtain ⟨-, i, hi, hpeer, hlast'⟩ :=
      h.only oldest.1 oldest.2 (AList.mem_lookup_iff.mpr (List.argmin_mem hargmin))
    have hzero : i = 0 := by
      dsimp only at hle
      omega
    dsimp only
    rw [hpeer, hzero, AList.lookup_erase]

/-- In a table that is too large, the next message for the first peer discards its session. -/
theorem Filled.not_spares (h : Filled (sessionMaxCount + 1) m.sessions) :
    ¬ m.Spares (messageTo Hs Ts (sessionMaxCount + 1) 0) := by
  intro hspares
  have hlive := h.live_eq le_rfl
  have hevicted : m.evicted (messageTo Hs Ts (sessionMaxCount + 1) 0) =
      SessionManager.removeOldest m.sessions := by
    unfold evicted messageTo
    dsimp only [HashMap.IterOrder.id]
    rw [evictStale_eq, hlive, h.len, Nat.add_sub_cancel_left, Function.iterate_one]
  obtain ⟨session, hfirst, -⟩ := h.mem 0 (Nat.succ_pos _)
  have hkept := hspares session (by
    unfold messageTo
    rwa [hlive])
  rw [hevicted] at hkept
  exact Option.some_ne_none session (hkept.symm.trans h.removeOldest)

theorem times_messages (Hs Ts : Type) (n : ℕ) :
    (messages Hs Ts n ++ [messageTo Hs Ts n 0]).map (fun c => c.packet.now) = List.range (n + 1) := by
  have htimes : (fun c : SessionCall Unit Hs Ts => c.packet.now) ∘ (fun i => messageTo Hs Ts i i) = id := rfl
  unfold messages
  rw [List.map_append, List.map_map, htimes, List.map_id, List.range_succ]
  rfl

end SessionManager

end Aimp.Network
