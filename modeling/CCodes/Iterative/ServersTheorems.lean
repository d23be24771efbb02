/-
CCodes.Iterative.ServersTheorems — one client at a time, and a descriptor for each.

The three servers share their loop, so they share these results: each client is
answered by passes of the inner loop on what was read of it, in order; what was read
of a client is over when the next one is accepted; and every client takes a
descriptor for good, so that at some time no other client is accepted.
-/
import CCodes.Iterative.Servers

namespace CCodes.Iterative

open CCodes.Lib CCodes.Upper

namespace Server

variable {ρ ι : Type} {serve : Nat → Spec ρ ι (List UInt8)} {limit n₀ : Nat} {vars₀ : ρ}
  {s s' : Server ρ ι} {e : Input ι} {o : Unit}

/-! ## §1 Steps -/

/-- What each call does. -/
inductive Does (serve : Nat → Spec ρ ι (List UInt8)) (limit : Nat) (s : Server ρ ι) :
    Input ι → Server ρ ι → Prop
  | accept {connfd : Nat} {fds : Descriptors File} : s.pc = .accept →
      s.fds.alloc limit (.client s.accepted) = some (connfd, fds) →
      Does serve limit s .accept
        { s with pc := .serve (some connfd), fds, accepted := s.accepted + 1 }
  | full : s.pc = .accept → s.fds.alloc limit (.client s.accepted) = none →
      Does serve limit s .accept { s with pc := .serve none }
  | acceptFails : s.pc = .accept → Does serve limit s .acceptFails { s with pc := .serve none }
  | read {connfd k : Nat} {x : ι} : s.pc = .serve (some connfd) → s.fds connfd = some (.client k) →
      Does serve limit s (.read x) { s with
        vars := (serve connfd s.vars x).2
        log := Function.update s.log k (s.log k ++ [(x, (serve connfd s.vars x).1)]) }
  | stop {connfd : Option Nat} : s.pc = .serve connfd →
      Does serve limit s .stop { s with pc := .accept }

theorem does_of_step (h : step serve limit s e = some (o, s')) : Does serve limit s e s' := by
  unfold step at h
  split at h
  · split at h
    · cases h
      exact .accept ‹_› ‹_›
    · cases h
      exact .full ‹_› ‹_›
  · cases h
    exact .acceptFails ‹_›
  · split at h
    · cases h
      exact .read ‹_› ‹_›
    · cases h
  · cases h
    exact .stop ‹_›
  · cases h

/-- What was read of client `k` on the descriptor `connfd`, from the buffers `r` on. -/
def Answers (serve : Nat → Spec ρ ι (List UInt8)) (connfd : Nat) (r : ρ)
    (log : List (ι × List UInt8)) (vars : ρ) : Prop :=
  (serve connfd).run r (log.map Prod.fst) = (log.map Prod.snd, vars)

theorem Answers.snoc {connfd : Nat} {r vars : ρ} {log : List (ι × List UInt8)}
    (h : Answers serve connfd r log vars) (x : ι) :
    Answers serve connfd r (log ++ [(x, (serve connfd vars x).1)]) (serve connfd vars x).2 := by
  unfold Answers at h ⊢
  rw [List.map_append, List.map_append, List.map_singleton, List.map_singleton, Spec.run_snoc, h]

/-! ## §2 The invariant -/

/-- The buffers were `vars₀` at first. The passes for client `k` found them as `r k`, and
left them as `r (k + 1)`. -/
def Buffers (serve : Nat → Spec ρ ι (List UInt8)) (vars₀ : ρ) (s : Server ρ ι) : Prop :=
  ∃ r : Nat → ρ, r 0 = vars₀ ∧ r s.accepted = s.vars ∧ ∀ k, k < s.accepted →
    ∃ connfd, s.fds connfd = some (.client k) ∧ Answers serve connfd (r k) (s.log k) (r (k + 1))

/-- A new client finds the buffers as they are. -/
theorem Buffers.accept {connfd : Nat} {fds : Descriptors File} (h : s.Buffers serve vars₀)
    (hal : s.fds.alloc limit (.client s.accepted) = some (connfd, fds))
    (hlog : s.log s.accepted = []) :
    Buffers serve vars₀ { s with
      pc := .serve (some connfd), fds, accepted := s.accepted + 1 } := by
  obtain ⟨r, hr₀, hr, hans⟩ := h
  refine ⟨Function.update r (s.accepted + 1) s.vars, ?_, Function.update_self .., fun k hk => ?_⟩
  · rw [Function.update_of_ne (Nat.succ_ne_zero _).symm, hr₀]
  · replace hk : k < s.accepted + 1 := hk
    rw [Function.update_of_ne hk.ne]
    by_cases hkl : k = s.accepted
    · subst hkl
      refine ⟨connfd, Descriptors.alloc_self hal, ?_⟩
      show Answers serve connfd (r s.accepted) (s.log s.accepted) _
      rw [Function.update_self, hr, hlog]
      rfl
    · obtain ⟨fd, hfd, hfdans⟩ := hans k (by omega)
      rw [Function.update_of_ne (by omega)]
      exact ⟨fd, (Descriptors.alloc_eq_some_iff hal).mpr (.inr hfd), hfdans⟩

/-- A pass goes on with the buffers of the client that is served, the last one. -/
theorem Buffers.read {connfd k : Nat} (h : s.Buffers serve vars₀) (hk : s.accepted = k + 1)
    (hfd : s.fds connfd = some (.client k))
    (hown : ∀ fd, s.fds fd = some (.client k) → fd = connfd) (x : ι) :
    Buffers serve vars₀ { s with
      vars := (serve connfd s.vars x).2
      log := Function.update s.log k (s.log k ++ [(x, (serve connfd s.vars x).1)]) } := by
  obtain ⟨r, hr₀, hr, hans⟩ := h
  refine ⟨Function.update r (k + 1) (serve connfd s.vars x).2, ?_, ?_, fun j hj => ?_⟩
  · rw [Function.update_of_ne (Nat.succ_ne_zero _).symm, hr₀]
  · show Function.update r (k + 1) _ s.accepted = _
    rw [hk, Function.update_self]
  · replace hj : j < s.accepted := hj
    show ∃ fd, s.fds fd = _ ∧ Answers serve fd (Function.update r (k + 1) _ j)
      (Function.update s.log k _ j) (Function.update r (k + 1) _ (j + 1))
    rw [Function.update_of_ne (by omega)]
    obtain ⟨fd, hfdj, hansj⟩ := hans j hj
    by_cases hjk : j = k
    · subst hjk
      obtain rfl := hown fd hfdj
      rw [Function.update_self, Function.update_self]
      rw [← hk, hr] at hansj
      exact ⟨fd, hfd, hansj.snoc x⟩
    · rw [Function.update_of_ne hjk, Function.update_of_ne (by omega)]
      exact ⟨fd, hfdj, hansj⟩

/-- `n₀` descriptors were in use before the first client, and the buffers were
`vars₀`. -/
structure Inv (serve : Nat → Spec ρ ι (List UInt8)) (limit n₀ : Nat) (vars₀ : ρ)
    (s : Server ρ ι) : Prop where
  used : s.fds.used limit = n₀ + s.accepted
  clients : ∀ k, s.fds.Holds (.client k) ↔ k < s.accepted
  own : ∀ fd fd' k, s.fds fd = some (.client k) → s.fds fd' = some (.client k) → fd = fd'
  serving : ∀ connfd, s.pc = .serve (some connfd) → ∃ k, s.accepted = k + 1 ∧
    s.fds connfd = some (.client k)
  buffers : s.Buffers serve vars₀
  fresh : ∀ k, s.accepted ≤ k → s.log k = []

/-- **Step lemma.** -/
theorem Inv.does (h : s.Inv serve limit n₀ vars₀) (hd : Does serve limit s e s') :
    s'.Inv serve limit n₀ vars₀ := by
  cases hd with
  | @accept connfd fds hpc hal =>
    have hlast : ∀ {fd}, s.fds fd ≠ some (.client s.accepted) :=
      fun hfd => lt_irrefl _ ((h.clients _).mp ⟨_, hfd⟩)
    refine ⟨?_, fun k => ?_, fun fd fd' k hfd hfd' => ?_, ?_, h.buffers.accept hal ?_,
      fun k hk => h.fresh k (Nat.le_of_succ_le hk)⟩
    · rw [Descriptors.used_alloc hal, h.used, Nat.add_assoc]
    · show fds.Holds (.client k) ↔ k < s.accepted + 1
      rw [Descriptors.holds_alloc hal, h.clients, File.client.injEq]
      omega
    · rcases (Descriptors.alloc_eq_some_iff hal).mp hfd with ⟨hc, hk⟩ | hs
      · rcases (Descriptors.alloc_eq_some_iff hal).mp hfd' with ⟨hc', -⟩ | hs'
        · exact hc.trans hc'.symm
        · exact absurd (hk ▸ hs') hlast
      · rcases (Descriptors.alloc_eq_some_iff hal).mp hfd' with ⟨-, hk⟩ | hs'
        · exact absurd (hk ▸ hs) hlast
        · exact h.own fd fd' k hs hs'
    · rintro _ ⟨⟩
      exact ⟨s.accepted, rfl, Descriptors.alloc_self hal⟩
    · exact h.fresh _ le_rfl
  | full _ _ => exact ⟨h.used, h.clients, h.own, nofun, h.buffers, h.fresh⟩
  | acceptFails _ => exact ⟨h.used, h.clients, h.own, nofun, h.buffers, h.fresh⟩
  | @read connfd k x hpc hfd =>
    obtain ⟨i, hi, hfd'⟩ := h.serving connfd hpc
    obtain rfl : k = i := by
      rw [hfd'] at hfd
      cases hfd
      rfl
    refine ⟨h.used, h.clients, h.own, h.serving,
      h.buffers.read hi hfd (fun fd hfd₁ => h.own fd connfd k hfd₁ hfd) x, fun j hj => ?_⟩
    have hjk : j ≠ k := by
      replace hj : s.accepted ≤ j := hj
      omega
    exact (Function.update_of_ne hjk ..).trans (h.fresh j hj)
  | stop _ => exact ⟨h.used, h.clients, h.own, nofun, h.buffers, h.fresh⟩

theorem Inv.start {inUse : Nat → Bool} {vars : ρ} (serve : Nat → Spec ρ ι (List UInt8))
    (h : start limit inUse vars = some s) : s.Inv serve limit (s.fds.used limit) vars := by
  obtain ⟨⟨listenfd, fds⟩, hal, rfl⟩ := Option.map_eq_some_iff.mp h
  have hno : ∀ k, ¬ fds.Holds (.client k) := no_client_of_start hal
  refine ⟨rfl, fun k => iff_of_false (hno k) (Nat.not_lt_zero k),
    fun fd _ k hfd _ => absurd ⟨fd, hfd⟩ (hno k), nofun, ?_, fun _ _ => rfl⟩
  exact ⟨fun _ => vars, rfl, rfl, fun k hk => absurd hk (Nat.not_lt_zero k)⟩

/-- The invariant in every state reached. -/
theorem Inv.run {s₀ : Server ρ ι} {ok : Server ρ ι → Input ι → Prop}
    {tr : List (Input ι × Unit)} (h₀ : s₀.Inv serve limit n₀ vars₀)
    (h : Exec (step serve limit) ok s₀ tr s) : s.Inv serve limit n₀ vars₀ :=
  h.invariant (Inv serve limit n₀ vars₀) h₀ fun _ _ _ _ hinv _ hstep =>
    hinv.does (does_of_step hstep)

/-- What was written for one client. -/
theorem Inv.answered (h : s.Inv serve limit n₀ vars₀) {k : Nat} (hk : k < s.accepted) :
    ∃ connfd r vars, s.fds connfd = some (.client k) ∧ Answers serve connfd r (s.log k) vars := by
  obtain ⟨r, -, -, hans⟩ := h.buffers
  obtain ⟨connfd, hfd, hansk⟩ := hans k hk
  exact ⟨connfd, r k, r (k + 1), hfd, hansk⟩

/-- What was read of a client is over when the next one was accepted. -/
theorem Inv.log_does (h : s.Inv serve limit n₀ vars₀) (hd : Does serve limit s e s') {k : Nat}
    (hk : k + 1 < s.accepted) : s'.log k = s.log k ∧ k + 1 < s'.accepted := by
  cases hd with
  | accept _ _ => exact ⟨rfl, Nat.lt_succ_of_lt hk⟩
  | @read connfd j x hpc hfd =>
    obtain ⟨i, hi, hfd'⟩ := h.serving connfd hpc
    have hkj : k ≠ j := by
      rintro rfl
      rw [hfd'] at hfd
      cases hfd
      omega
    exact ⟨Function.update_of_ne hkj .., hk⟩
  | _ => exact ⟨rfl, hk⟩

theorem Inv.log_run {ok : Server ρ ι → Input ι → Prop} {tr : List (Input ι × Unit)}
    (h₀ : s.Inv serve limit n₀ vars₀) (h : Exec (step serve limit) ok s tr s') {k : Nat}
    (hk : k + 1 < s.accepted) : s'.log k = s.log k ∧ k + 1 < s'.accepted := by
  induction h with
  | nil => exact ⟨rfl, hk⟩
  | snoc hrun _ hstep ih =>
    obtain ⟨hlog, hk'⟩ := ih
    obtain ⟨hlog', hk''⟩ := (h₀.run hrun).log_does (does_of_step hstep) hk'
    exact ⟨hlog'.trans hlog, hk''⟩

/-! ## §3 All that was read -/

/-- What was read of all clients, each piece with what was written for it, in the
order in which it was read. -/
def told (s : Server ρ ι) : List (ι × List UInt8) := (List.range s.accepted).flatMap s.log

theorem vars_start {inUse : Nat → Bool} {vars : ρ} (h : start limit inUse vars = some s) :
    s.vars = vars := by
  obtain ⟨p, -, rfl⟩ := Option.map_eq_some_iff.mp h
  rfl

/-- Nothing was read before the loop. -/
theorem told_start {inUse : Nat → Bool} {vars : ρ} (h : start limit inUse vars = some s) :
    s.told = [] := by
  obtain ⟨p, -, rfl⟩ := Option.map_eq_some_iff.mp h
  rfl

/-- Reading of the last client. -/
theorem told_snoc {k : Nat} (hk : s.accepted = k + 1) (p : ι × List UInt8) (vars : ρ) :
    told { s with vars := vars, log := Function.update s.log k (s.log k ++ [p]) } =
      s.told ++ [p] := by
  have hold : ∀ j ∈ List.range k, Function.update s.log k (s.log k ++ [p]) j = s.log j :=
    fun j hj => Function.update_of_ne (List.mem_range.mp hj).ne ..
  simp only [told, hk, List.range_succ, List.flatMap_append, List.flatMap_singleton,
    Function.update_self, List.flatMap_congr hold, List.append_assoc]

/-- **Step lemma.** A call reads and answers one piece, or none. -/
theorem Inv.told_does (h : s.Inv serve limit n₀ vars₀) (hd : Does serve limit s e s') :
    (∃ connfd x, e = .read x ∧ s'.told = s.told ++ [(x, (serve connfd s.vars x).1)] ∧
      s'.vars = (serve connfd s.vars x).2) ∨
      e.piece = none ∧ s'.told = s.told ∧ s'.vars = s.vars := by
  cases hd with
  | accept _ hal =>
    refine .inr ⟨rfl, ?_, rfl⟩
    simp only [told, List.range_succ, List.flatMap_append, List.flatMap_singleton,
      h.fresh _ le_rfl, List.append_nil]
  | @read connfd k x hpc hfd =>
    obtain ⟨i, hi, hfd'⟩ := h.serving connfd hpc
    rw [hfd'] at hfd
    cases hfd
    exact .inl ⟨connfd, x, rfl, told_snoc hi .., rfl⟩
  | _ => exact .inr ⟨rfl, rfl, rfl⟩

/-- All that is read is answered, in order. -/
theorem Inv.told_run {ok : Server ρ ι → Input ι → Prop} {tr : List (Input ι × Unit)}
    (h₀ : s.Inv serve limit n₀ vars₀) (h : Exec (step serve limit) ok s tr s') :
    s'.told.map Prod.fst = s.told.map Prod.fst ++ reads (tr.map Prod.fst) := by
  induction h with
  | nil => exact (List.append_nil _).symm
  | @snoc tr t t' e o hrun _ hstep ih =>
    rw [List.map_append, List.map_singleton, reads_snoc]
    rcases (h₀.run hrun).told_does (does_of_step hstep) with
      ⟨connfd, x, rfl, htold, -⟩ | ⟨hpiece, htold, -⟩
    · rw [htold, List.map_append, ih, List.append_assoc]
      rfl
    · rw [htold, ih, hpiece, Option.toList_none, List.append_nil]

/-- When a client is accepted. -/
theorem Inv.accepts_iff (h : s.Inv serve limit n₀ vars₀) (hpc : s.pc = .accept) :
    (∃ s', step serve limit s .accept = some ((), s') ∧ s'.accepted = s.accepted + 1) ↔
      n₀ + s.accepted < limit := by
  rw [← h.used, ← Descriptors.alloc_isSome_iff (d := File.client s.accepted)]
  cases hal : s.fds.alloc limit (.client s.accepted) with
  | none => simp [step, hpc, hal]
  | some p => simp [step, hpc, hal]

/-! ## §4 The servers -/

/-- **One client at a time.** Whatever the passes of the inner loop do, in every run:
each client so far has a descriptor of its own, on which it was sent what the passes
make of what was read of it, from the buffers on as the client before left them (`r k`),
and the first one from those of the start. What was read of the clients, one after
the other, is all that was read, in that order; what was read of a client does not
change any more once another one was accepted. No connection is ever closed: a client
takes a descriptor for good, and one more is accepted if and only if the clients and
the descriptors of the start are fewer than the limit. -/
theorem one_at_a_time (serve : Nat → Spec ρ ι (List UInt8)) (limit : Nat) (inUse : Nat → Bool)
    (vars : ρ) (s₀ : Server ρ ι) (h₀ : start limit inUse vars = some s₀)
    (tr : List (Input ι × Unit)) (s : Server ρ ι)
    (h : Exec (step serve limit) (fun _ _ => True) s₀ tr s) :
    (∃ r : Nat → ρ, r 0 = vars ∧ r s.accepted = s.vars ∧
      ∀ k, k < s.accepted → ∃ connfd, s.fds connfd = some (.client k) ∧
        (serve connfd).run (r k) ((s.log k).map Prod.fst) =
          ((s.log k).map Prod.snd, r (k + 1))) ∧
    (∀ fd fd' k, s.fds fd = some (.client k) → s.fds fd' = some (.client k) → fd = fd') ∧
    s.told.map Prod.fst = reads (tr.map Prod.fst) ∧
    (∀ tr' s', Exec (step serve limit) (fun _ _ => True) s tr' s' →
      ∀ k, k + 1 < s.accepted → s'.log k = s.log k) ∧
    (∀ k, s.fds.Holds (.client k) ↔ k < s.accepted) ∧
    s₀.fds.used limit + s.accepted ≤ limit ∧
    (s.pc = .accept → ((∃ s', step serve limit s .accept = some ((), s') ∧
      s'.accepted = s.accepted + 1) ↔ s₀.fds.used limit + s.accepted < limit)) := by
  have hinv₀ := Inv.start serve h₀
  have hinv := hinv₀.run h
  have htold := hinv₀.told_run h
  rw [told_start h₀] at htold
  exact ⟨hinv.buffers, hinv.own, htold, fun tr' s' h' k hk => (hinv.log_run h' hk).1,
    hinv.clients, hinv.used ▸ Descriptors.used_le .., hinv.accepts_iff⟩

/-- A server for one client, with the descriptors 0 to 2 in use. -/
def roomForOne : Option (Server RecvLine Chunk) := start 5 (· < 3) RecvLine.clear

theorem roomForOne_isSome : roomForOne.isSome = true := by decide +kernel

/-- A client sends a line, which is read in two pieces. -/
def inPieces : List (Input Chunk) :=
  [.accept, .read ⟨bytes "good", by decide, by decide⟩,
    .read ⟨bytes " day" ++ [10], by decide, by decide⟩, .stop]

/-- After `inPieces` the upper-case server accepts no client any more. -/
theorem one_at_a_time_in_pieces : ∃ s₀ tr s, roomForOne = some s₀ ∧
    Exec (step uppRecv 5) (fun _ _ => True) s₀ tr s ∧ tr.map Prod.fst = inPieces ∧
      (s.log 0).length = 2 ∧
      ¬ ∃ s', step uppRecv 5 s .accept = some ((), s') ∧ s'.accepted = s.accepted + 1 := by
  obtain ⟨s₀, h₀⟩ := Option.isSome_iff_exists.mp roomForOne_isSome
  obtain rfl : s₀ = roomForOne.get roomForOne_isSome := by simp [h₀]
  obtain ⟨tr, s, h, hin, hpc, hfull, hlog⟩ := exec_such_that (step uppRecv 5) (fun _ _ => True)
    (roomForOne.get roomForOne_isSome) inPieces
    (fun p => p.2.pc = .accept ∧
      ¬ (roomForOne.get roomForOne_isSome).fds.used 5 + p.2.accepted < 5 ∧
      (p.2.log 0).length = 2) (by decide +kernel)
  obtain ⟨-, -, -, -, -, -, haccepts⟩ := one_at_a_time uppRecv 5 (· < 3) RecvLine.clear _ h₀ tr s h
  exact ⟨_, tr, s, h₀, h, hin, hlog, fun hmore => hfull ((haccepts hpc).mp hmore)⟩

end Server

end CCodes.Iterative
