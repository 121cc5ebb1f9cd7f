import Aimp.Lib.Run
import Mathlib.Data.List.Nodup
import Mathlib.Logic.Function.Basic

/-!
# A server with a mailbox

Any number of callers send messages to one server, which handles them one after another in the order in
which they have got into its mailbox, and answers each of them. The mailbox has a capacity: a caller waits
until there is room. A caller may give up at any time; a message that is in the mailbox by then is handled all
the same, and its answer is dropped.

Whatever the callers observe could have been observed if every call had been handled at one moment between
its beginning and its end (`atomic_calls`).
-/

namespace Mailbox

/-- Where a call is. -/
inductive Phase (μ ρ : Type*) where
  | new
  /-- Waiting for room in the mailbox. -/
  | waiting (m : μ)
  | queued
  | answered (r : ρ)
  | returned
  /-- The caller has given up. -/
  | cancelled

variable {κ μ ρ σ : Type*}

/-- The server, the calls by their names, the mailbox, and the calls handled so far with their answers. -/
structure System (κ μ ρ σ : Type*) where
  server : σ
  calls : κ → Phase μ ρ
  mailbox : List (κ × μ)
  log : List (κ × μ × ρ)

/-- What can happen next. -/
inductive Action (κ μ ρ : Type*) where
  | invoke (k : κ) (m : μ)
  | enqueue (k : κ)
  | serve
  | ret (k : κ) (r : ρ)
  | cancel (k : κ)

/-- Before the first call. -/
def start (s : σ) : System κ μ ρ σ := ⟨s, fun _ => .new, [], []⟩

variable [DecidableEq κ]

/-- The call `k` is where `p` says. -/
def System.move (S : System κ μ ρ σ) (k : κ) (p : Phase μ ρ) : System κ μ ρ σ :=
  { S with calls := Function.update S.calls k p }

/-- An answer reaches a caller that waits for it. -/
def Phase.answer (r : ρ) : Phase μ ρ → Phase μ ρ
  | .queued => .answered r
  | p => p

/-- One step of a server that handles messages by `handle` and has a mailbox of this capacity. -/
inductive Step (handle : σ → μ → ρ → σ → Prop) (capacity : ℕ) :
    System κ μ ρ σ → Action κ μ ρ → System κ μ ρ σ → Prop where
  | invoke {S : System κ μ ρ σ} {k : κ} {m : μ} (hk : S.calls k = .new) :
      Step handle capacity S (.invoke k m) (S.move k (.waiting m))
  | enqueue {S : System κ μ ρ σ} {k : κ} {m : μ} (hk : S.calls k = .waiting m)
      (hroom : S.mailbox.length < capacity) :
      Step handle capacity S (.enqueue k) { S.move k .queued with mailbox := S.mailbox ++ [(k, m)] }
  | serve {S : System κ μ ρ σ} {k : κ} {m : μ} {r : ρ} {s : σ} {rest : List (κ × μ)}
      (hmail : S.mailbox = (k, m) :: rest) (hhandle : handle S.server m r s) :
      Step handle capacity S .serve { S.move k ((S.calls k).answer r) with
        server := s, mailbox := rest, log := S.log ++ [(k, m, r)] }
  | ret {S : System κ μ ρ σ} {k : κ} {r : ρ} (hk : S.calls k = .answered r) :
      Step handle capacity S (.ret k r) (S.move k .returned)
  | cancel {S : System κ μ ρ σ} {k : κ} (hnew : S.calls k ≠ .new) (hret : S.calls k ≠ .returned) :
      Step handle capacity S (.cancel k) (S.move k .cancelled)

variable {handle : σ → μ → ρ → σ → Prop} {capacity : ℕ} {as : List (Action κ μ ρ)}
  {S T : System κ μ ρ σ} {a : Action κ μ ρ} {k l : κ} {p : Phase μ ρ} {s₀ : σ}

@[simp] theorem move_self (S : System κ μ ρ σ) (k : κ) (p : Phase μ ρ) : (S.move k p).calls k = p :=
  Function.update_self ..

@[simp] theorem move_other (S : System κ μ ρ σ) (p : Phase μ ρ) (h : l ≠ k) :
    (S.move k p).calls l = S.calls l :=
  Function.update_of_ne h ..

omit [DecidableEq κ]

/-- The calls that have reached the mailbox, in this order. -/
def System.order (S : System κ μ ρ σ) : List κ := S.log.map Prod.fst ++ S.mailbox.map Prod.fst

/-- What the phase of a call says about the mailbox, the log and the actions so far. -/
def Phase.Sound (as : List (Action κ μ ρ)) (S : System κ μ ρ σ) (k : κ) : Phase μ ρ → Prop
  | .new => k ∉ S.order ∧ ∀ m, .invoke k m ∉ as
  | .waiting m => k ∉ S.order ∧ .invoke k m ∈ as
  | .queued => k ∈ S.mailbox.map Prod.fst
  | .answered r => ∃ m, (k, m, r) ∈ S.log
  | .returned => k ∈ S.log.map Prod.fst
  | .cancelled => .cancel k ∈ as

/-- How the calls of a run relate to the mailbox and the log. -/
structure Sound (as : List (Action κ μ ρ)) (S : System κ μ ρ σ) : Prop where
  nodup : S.order.Nodup
  calls : ∀ k, (S.calls k).Sound as S k
  mailbox : ∀ k m, (k, m) ∈ S.mailbox → .invoke k m ∈ as
  log : ∀ k m r, (k, m, r) ∈ S.log → .invoke k m ∈ as
  ret : ∀ k r, .ret k r ∈ as → ∃ m, (k, m, r) ∈ S.log

theorem sound_start (s : σ) : Sound [] (start s : System κ μ ρ σ) where
  nodup := List.nodup_nil
  calls _ := ⟨List.not_mem_nil, fun _ => List.not_mem_nil⟩
  mailbox _ _ hk := absurd hk List.not_mem_nil
  log _ _ _ hk := absurd hk List.not_mem_nil
  ret _ _ hk := absurd hk List.not_mem_nil

/-- A call is not affected by what another one does, as long as it keeps its place. -/
theorem Phase.Sound.mono (h : p.Sound as S l) (ha : ∀ m, a ≠ .invoke l m)
    (horder : l ∉ S.order → l ∉ T.order) (hmail : p = .queued → l ∈ S.mailbox.map Prod.fst →
      l ∈ T.mailbox.map Prod.fst) (hlog : ∀ x ∈ S.log, x ∈ T.log) : p.Sound (as ++ [a]) T l := by
  cases p with
  | new =>
    refine ⟨horder h.1, fun m hm => ?_⟩
    rcases List.mem_append.mp hm with hm | hm
    · exact h.2 m hm
    · exact ha m (List.mem_singleton.mp hm).symm
  | waiting m => exact ⟨horder h.1, List.mem_append_left _ h.2⟩
  | queued => exact hmail rfl h
  | answered r => exact h.imp fun m hm => hlog _ hm
  | returned =>
    obtain ⟨x, hx, hxl⟩ := List.mem_map.mp h
    exact List.mem_map.mpr ⟨x, hlog x hx, hxl⟩
  | cancelled => exact List.mem_append_left _ h

variable [DecidableEq κ]

/-- A call goes on, while mailbox and log stay as they are. -/
theorem Sound.move (h : Sound as S) (hp : p.Sound (as ++ [a]) S k) (ha : ∀ l m, a = .invoke l m → l = k)
    (hret : ∀ l r, a = .ret l r → ∃ m, (l, m, r) ∈ S.log) : Sound (as ++ [a]) (S.move k p) := by
  refine ⟨h.nodup, fun l => ?_, fun l m hl => List.mem_append_left _ (h.mailbox l m hl),
    fun l m r hl => List.mem_append_left _ (h.log l m r hl), fun l r hl => ?_⟩
  · by_cases hlk : l = k
    · subst hlk
      rw [move_self]
      cases p <;> exact hp
    · rw [move_other S p hlk]
      exact (h.calls l).mono (fun m hm => hlk (ha l m hm)) id (fun _ => id) fun _ => id
  · rcases List.mem_append.mp hl with hl | hl
    · exact h.ret l r hl
    · exact hret l r (List.mem_singleton.mp hl).symm

/-- A waiting call gets into the mailbox. -/
theorem Sound.enqueue {m : μ} (h : Sound as S) (hk : S.calls k = .waiting m) :
    Sound (as ++ [.enqueue k]) { S.move k .queued with mailbox := S.mailbox ++ [(k, m)] } := by
  have hwait := h.calls k
  rw [hk] at hwait
  obtain ⟨hout, hinv⟩ := hwait
  have horder : ({ S.move k .queued with mailbox := S.mailbox ++ [(k, m)] } : System κ μ ρ σ).order =
      S.order ++ [k] := by
    simp [System.order, System.move]
  have hmail : (S.mailbox ++ [(k, m)]).map Prod.fst = S.mailbox.map Prod.fst ++ [k] := by simp
  refine ⟨?_, fun l => ?_, fun l n hl => ?_, fun l n r hl => List.mem_append_left _ (h.log l n r hl),
    fun l r hl => ?_⟩
  · rw [horder]
    refine List.nodup_append.mpr ⟨h.nodup, List.nodup_singleton _, fun x hx y hy heq => hout ?_⟩
    rwa [← List.mem_singleton.mp hy, ← heq]
  · show ((S.move k .queued).calls l).Sound _ _ l
    by_cases hlk : l = k
    · subst hlk
      rw [move_self]
      show l ∈ (S.mailbox ++ [(l, m)]).map Prod.fst
      rw [hmail]
      exact List.mem_append_right _ (List.mem_singleton_self _)
    · rw [move_other S _ hlk]
      refine (h.calls l).mono (by simp) (fun hl hmem => ?_) (fun _ hl => ?_) fun _ => id
      · rw [horder] at hmem
        rcases List.mem_append.mp hmem with hmem | hmem
        · exact hl hmem
        · exact hlk (List.mem_singleton.mp hmem)
      · exact hmail ▸ List.mem_append_left _ hl
  · rcases List.mem_append.mp hl with hl | hl
    · exact List.mem_append_left _ (h.mailbox l n hl)
    · obtain ⟨rfl, rfl⟩ := Prod.mk.inj (List.mem_singleton.mp hl)
      exact List.mem_append_left _ hinv
  · rcases List.mem_append.mp hl with hl | hl
    · exact h.ret l r hl
    · simp at hl

/-- The server handles the message in front. -/
theorem Sound.serve {m : μ} {r : ρ} {s : σ} {rest : List (κ × μ)} (h : Sound as S)
    (hmail : S.mailbox = (k, m) :: rest) : Sound (as ++ [.serve]) { S.move k ((S.calls k).answer r) with
      server := s, mailbox := rest, log := S.log ++ [(k, m, r)] } := by
  have horder : ({ S.move k ((S.calls k).answer r) with
      server := s, mailbox := rest, log := S.log ++ [(k, m, r)] } : System κ μ ρ σ).order = S.order := by
    simp [System.order, hmail]
  have hk : k ∈ S.order := by
    unfold System.order
    rw [hmail]
    simp
  have hlast : (k, m, r) ∈ S.log ++ [(k, m, r)] := List.mem_append_right _ (List.mem_singleton_self _)
  refine ⟨?_, fun l => ?_, fun l n hl => ?_, fun l n r' hl => ?_, fun l r' hl => ?_⟩
  · rw [horder]
    exact h.nodup
  · show ((S.move k ((S.calls k).answer r)).calls l).Sound _ _ l
    by_cases hlk : l = k
    · subst hlk
      rw [move_self]
      have hold := h.calls l
      cases hcall : S.calls l with
      | new => exact absurd hk (hcall ▸ hold).1
      | waiting n => exact absurd hk (hcall ▸ hold).1
      | queued => exact ⟨m, hlast⟩
      | answered r' =>
        rw [hcall] at hold
        exact hold.imp fun n hn => List.mem_append_left _ hn
      | returned =>
        show l ∈ (S.log ++ [(l, m, r)]).map Prod.fst
        exact List.mem_map.mpr ⟨_, hlast, rfl⟩
      | cancelled =>
        rw [hcall] at hold
        exact List.mem_append_left _ hold
    · rw [move_other S _ hlk]
      refine (h.calls l).mono (by simp) (fun hl => horder ▸ hl) (fun _ hl => ?_)
        fun x hx => List.mem_append_left _ hx
      rw [hmail, List.map_cons, List.mem_cons] at hl
      exact hl.resolve_left hlk
  · exact List.mem_append_left _ (h.mailbox l n (hmail ▸ List.mem_cons_of_mem _ hl))
  · rcases List.mem_append.mp hl with hl | hl
    · exact List.mem_append_left _ (h.log l n r' hl)
    · obtain ⟨rfl, hnm⟩ := Prod.mk.inj (List.mem_singleton.mp hl)
      obtain ⟨rfl, -⟩ := Prod.mk.inj hnm
      exact List.mem_append_left _ (h.mailbox l n (hmail ▸ List.mem_cons_self ..))
  · rcases List.mem_append.mp hl with hl | hl
    · exact (h.ret l r' hl).imp fun n hn => List.mem_append_left _ hn
    · simp at hl

theorem Sound.step (h : Sound as S) (hstep : Step handle capacity S a T) : Sound (as ++ [a]) T := by
  cases hstep with
  | @invoke k m hk =>
    have hnew := h.calls k
    rw [hk] at hnew
    refine h.move ⟨hnew.1, List.mem_append_right _ (List.mem_singleton_self _)⟩ ?_ (by simp)
    rintro l n heq
    cases heq
    rfl
  | enqueue hk _ => exact h.enqueue hk
  | serve hmail _ => exact h.serve hmail
  | @ret k r hk =>
    have hans := h.calls k
    rw [hk] at hans
    obtain ⟨m, hm⟩ := hans
    refine h.move (List.mem_map.mpr ⟨_, hm, rfl⟩) (by simp) ?_
    rintro l r' heq
    cases heq
    exact ⟨m, hm⟩
  | cancel => exact h.move (List.mem_append_right _ (List.mem_singleton_self _)) (by simp) (by simp)

theorem sound_of_run (hrun : Run (Step handle capacity) (start s₀) as S) : Sound as S := by
  induction hrun with
  | nil => exact sound_start s₀
  | snoc _ hlast ih => exact ih.step hlast

/-- The log only grows. -/
theorem log_grows (hrun : Run (Step handle capacity) S as T) : S.log <+: T.log := by
  refine hrun.invariant (P := fun T => S.log <+: T.log) List.prefix_rfl ?_
  intro T a U hpre hstep
  cases hstep with
  | invoke _ | enqueue _ _ | ret _ | cancel _ _ => exact hpre
  | serve _ _ => exact hpre.trans (List.prefix_append _ _)

/-- The server has handled the calls of the log, one after another. -/
theorem serves_log (hrun : Run (Step handle capacity) (start s₀) as S) :
    Run (fun s x t => handle s x.2.1 x.2.2 t) s₀ S.log S.server := by
  refine hrun.invariant (P := fun S => Run (fun s x t => handle s x.2.1 x.2.2 t) s₀ S.log S.server)
    .nil ?_
  intro S a T hlog hstep
  cases hstep with
  | invoke _ | enqueue _ _ | ret _ | cancel _ _ => exact hlog
  | serve _ hhandle => exact hlog.snoc hhandle

/-- The mailbox never holds more than its capacity. -/
theorem mailbox_length_le (hrun : Run (Step handle capacity) (start s₀) as S) :
    S.mailbox.length ≤ capacity := by
  refine hrun.invariant (P := fun S => S.mailbox.length ≤ capacity) (Nat.zero_le _) ?_
  intro S a T hle hstep
  cases hstep with
  | invoke _ | ret _ | cancel _ _ => exact hle
  | enqueue _ hroom =>
    rw [List.length_append]
    exact hroom
  | serve hmail _ =>
    rw [hmail] at hle
    exact Nat.le_of_succ_le hle

/-- A call that begins after another one has returned is handled after it. -/
theorem real_time (hrun : Run (Step handle capacity) (start s₀) as S) {before after : List (Action κ μ ρ)}
    (has : as = before ++ after) {r : ρ} (hret : .ret k r ∈ before) {m : μ}
    (hinvoke : .invoke l m ∈ after) : ∃ done rest, S.log = done ++ rest ∧
      k ∈ done.map Prod.fst ∧ l ∉ done.map Prod.fst := by
  subst has
  obtain ⟨T, hbefore, hafter⟩ := hrun.split
  obtain ⟨rest, hlog⟩ := log_grows hafter
  have hT := sound_of_run hbefore
  refine ⟨T.log, rest, hlog.symm, ?_, fun hl => ?_⟩
  · obtain ⟨n, hn⟩ := hT.ret k r hret
    exact List.mem_map.mpr ⟨_, hn, rfl⟩
  · -- a call begins only once
    obtain ⟨⟨l', n, r'⟩, hmem, rfl⟩ := List.mem_map.mp hl
    obtain ⟨pre, post, rfl⟩ := List.append_of_mem hinvoke
    rw [List.append_cons, ← List.append_assoc, ← List.append_assoc] at hrun
    obtain ⟨U, hupto, -⟩ := hrun.split
    obtain ⟨V, hmid, hstep⟩ := hupto.concat_inv
    cases hstep with
    | invoke hk =>
      have hV := (sound_of_run hmid).calls l'
      rw [hk] at hV
      exact hV.2 n (List.mem_append_left _ (hT.log l' n r' hmem))

/-- The calls of any run could have been handled one after another: the calls in the log, each with the
answer it got, are a run of the server; a call is handled at most once, and what was handled had been sent;
a call that has returned got the answer it has in the log; the order of the log respects the order of calls
that do not overlap; a call that has begun and has not been given up is waiting for room, in the mailbox,
or handled; and the mailbox never holds more than its capacity. -/
theorem atomic_calls (hrun : Run (Step handle capacity) (start s₀) as S) :
    Run (fun s x t => handle s x.2.1 x.2.2 t) s₀ S.log S.server ∧
    (S.log.map Prod.fst).Nodup ∧ (∀ k m r, (k, m, r) ∈ S.log → .invoke k m ∈ as) ∧
    (∀ k r, .ret k r ∈ as → ∃ m, (k, m, r) ∈ S.log) ∧
    (∀ before after, as = before ++ after → ∀ k l r m, .ret k r ∈ before → .invoke l m ∈ after →
      ∃ done rest, S.log = done ++ rest ∧ k ∈ done.map Prod.fst ∧ l ∉ done.map Prod.fst) ∧
    (∀ k m, .invoke k m ∈ as → .cancel k ∉ as →
      (∃ n, S.calls k = .waiting n) ∨ k ∈ S.mailbox.map Prod.fst ∨ k ∈ S.log.map Prod.fst) ∧
    S.mailbox.length ≤ capacity := by
  have hS := sound_of_run hrun
  refine ⟨serves_log hrun, (List.nodup_append.mp hS.nodup).1, hS.log, hS.ret,
    fun before after has k l r m hret hinvoke => real_time hrun has hret hinvoke,
    fun k m hk hnot => ?_, mailbox_length_le hrun⟩
  have hcall := hS.calls k
  cases hphase : S.calls k with
  | new => exact absurd hk ((hphase ▸ hcall).2 m)
  | waiting n => exact Or.inl ⟨n, rfl⟩
  | queued =>
    rw [hphase] at hcall
    exact Or.inr (Or.inl hcall)
  | answered r =>
    rw [hphase] at hcall
    obtain ⟨n, hn⟩ := hcall
    exact Or.inr (Or.inr (List.mem_map.mpr ⟨_, hn, rfl⟩))
  | returned =>
    rw [hphase] at hcall
    exact Or.inr (Or.inr hcall)
  | cancelled =>
    rw [hphase] at hcall
    exact absurd hcall hnot

/-- A call that meets nobody returns. -/
theorem exists_run_call {m : μ} {r : ρ} {s : σ} (hnew : S.calls k = .new) (hmail : S.mailbox = [])
    (hcapacity : 0 < capacity) (hhandle : handle S.server m r s) :
    ∃ T, Run (Step handle capacity) S [.invoke k m, .enqueue k, .serve, .ret k r] T ∧ T.server = s ∧
      T.mailbox = [] ∧ T.log = S.log ++ [(k, m, r)] ∧ ∀ l, l ≠ k → T.calls l = S.calls l := by
  let S₁ := S.move k (.waiting m)
  let S₂ : System κ μ ρ σ := { S₁.move k .queued with mailbox := S₁.mailbox ++ [(k, m)] }
  let S₃ : System κ μ ρ σ := { S₂.move k ((S₂.calls k).answer r) with
    server := s, mailbox := [], log := S₂.log ++ [(k, m, r)] }
  have h₁ : Step handle capacity S (.invoke k m) S₁ := .invoke hnew
  have h₂ : Step handle capacity S₁ (.enqueue k) S₂ :=
    .enqueue (move_self S k _) (hmail ▸ hcapacity)
  have h₃ : Step handle capacity S₂ .serve S₃ :=
    .serve (show S.mailbox ++ [(k, m)] = [(k, m)] by rw [hmail, List.nil_append]) hhandle
  have hqueued : S₂.calls k = .queued := move_self S₁ k _
  have h₄ : Step handle capacity S₃ (.ret k r) (S₃.move k .returned) := by
    refine .ret ?_
    show (S₂.move k ((S₂.calls k).answer r)).calls k = _
    rw [move_self, hqueued]
    rfl
  refine ⟨_, (((Run.single h₁).snoc h₂).snoc h₃).snoc h₄, rfl, rfl, rfl, fun l hl => ?_⟩
  rw [move_other _ _ hl]
  show (S₂.move k _).calls l = _
  rw [move_other _ _ hl]
  show (S₁.move k _).calls l = _
  rw [move_other _ _ hl, move_other _ _ hl]

end Mailbox
