/-
CCodes.Iterative.DateServers — `other/daytime/daytimeserver.c` and
`other/tcp/server.c`, with their clients.

    for (;;) {
      connfd = accept(listenfd, ...);
      ticks = time(NULL);
      snprintf(buff, sizeof(buff), "%.24s\r\n", ctime(&ticks));
      write(connfd, buff, strlen(buff));
      close(connfd);
    }

`tcp/server.c` sleeps between its calls, does not test those before the loop, and
prints the client's address from `buff` before the date is put there; none of this
reaches the client, and it is not modelled. `socket`, `bind` and `listen` succeed.
Unlike the servers of `CCodes.Iterative.Servers` the two close what they accepted, so
they can go on for ever. A failed `accept` is not tested: the server writes to -1 and
closes -1, to no effect. `ctime` and `time` belong to the system; a text of `ctime`
has no NUL in front of its end.
-/
import CCodes.Lib.CString
import CCodes.Lib.Descriptors
import CCodes.Lib.Runs

namespace CCodes.Iterative

open CCodes.Lib

/-- Where the server is: before `accept`, `write` or `close`. -/
inductive DatePc where
  | accept
  | write (connfd : Option Nat)
  | close (connfd : Option Nat)
  deriving DecidableEq

/-- The server, and what each client was sent. -/
structure DateServer where
  pc : DatePc
  fds : Descriptors File
  accepted : Nat
  sent : Nat → List UInt8

/-- The next call, with what it answers; `ticks` is the time. -/
inductive DateEvent where
  | accept
  | acceptFails
  | write (ticks : Nat)
  | close
  deriving DecidableEq

/-- `snprintf(buff, sizeof(buff), "%.24s\r\n", ctime(&ticks))`. -/
def date (ctime : Nat → List UInt8) (ticks : Nat) : List UInt8 :=
  (cstr (ctime ticks)).take 24 ++ [13, 10]

namespace DateServer

variable {ctime : Nat → List UInt8} {limit : Nat} {t : Descriptors File} {s s' : DateServer}
  {e : DateEvent} {o : Unit}

/-- The server before its loop. -/
def start (limit : Nat) (inUse : Nat → Bool) : Option DateServer :=
  ((inherit inUse).alloc limit .listening).map fun p =>
    { pc := .accept, fds := p.2, accepted := 0, sent := fun _ => [] }

/-- One call. -/
def step (ctime : Nat → List UInt8) (limit : Nat) : Machine DateServer DateEvent Unit := fun s e =>
  match e, s.pc with
  | .accept, .accept =>
      match s.fds.alloc limit (.client s.accepted) with
      | some (connfd, fds) =>
          some ((), { s with pc := .write (some connfd), fds, accepted := s.accepted + 1 })
      | none => some ((), { s with pc := .write none })
  | .acceptFails, .accept => some ((), { s with pc := .write none })
  | .write ticks, .write (some connfd) =>
      match s.fds connfd with
      | some (.client k) =>
          some ((), { s with
            pc := .close (some connfd)
            sent := Function.update s.sent k (s.sent k ++ date ctime ticks) })
      | _ => none
  | .write _, .write none => some ((), { s with pc := .close none })
  | .close, .close (some connfd) => some ((), { s with pc := .accept, fds := s.fds.close connfd })
  | .close, .close none => some ((), { s with pc := .accept })
  | _, _ => none

/-! ## §1 The server -/

/-- Where the last client is. -/
def PcOk (ctime : Nat → List UInt8) (limit : Nat) (t : Descriptors File) (s : DateServer) :
    DatePc → Prop
  | .accept => s.fds = t
  | .write none => s.fds = t
  | .close none => s.fds = t
  | .write (some connfd) => ∃ k, s.accepted = k + 1 ∧
      t.alloc limit (.client k) = some (connfd, s.fds) ∧ s.sent k = []
  | .close (some connfd) => ∃ k, s.accepted = k + 1 ∧
      t.alloc limit (.client k) = some (connfd, s.fds) ∧ ∃ ticks, s.sent k = date ctime ticks

/-- All clients but one that is still to be written to were sent a date. -/
structure Inv (ctime : Nat → List UInt8) (limit : Nat) (t : Descriptors File) (s : DateServer) :
    Prop where
  noClient : ∀ k, ¬ t.Holds (.client k)
  at_pc : s.PcOk ctime limit t s.pc
  dated : ∀ k, k < s.accepted → (∃ connfd, s.pc = .write (some connfd) ∧ s.accepted = k + 1) ∨
    ∃ ticks, s.sent k = date ctime ticks
  fresh : ∀ k, s.accepted ≤ k → s.sent k = []

/-- **Step lemma.** -/
theorem Inv.step (h : s.Inv ctime limit t)
    (hstep : DateServer.step ctime limit s e = some (o, s')) :
    s'.Inv ctime limit t := by
  obtain ⟨hno, hpcok, hdated, hfresh⟩ := h
  -- all earlier clients have their dates, unless the server is about to write
  have hall : (∀ connfd, s.pc ≠ .write (some connfd)) → ∀ k, k < s.accepted →
      ∃ ticks, s.sent k = date ctime ticks := fun hpc k hk =>
    (hdated k hk).resolve_left fun ⟨connfd, heq, _⟩ => hpc connfd heq
  unfold DateServer.step at hstep
  split at hstep
  · rename_i hpc
    rw [hpc] at hpcok
    have hfds : s.fds = t := hpcok
    split at hstep
    · rename_i connfd fds hal
      cases hstep
      rw [hfds] at hal
      refine ⟨hno, ⟨s.accepted, rfl, hal, hfresh _ le_rfl⟩, fun k hk => ?_,
        fun k hk => hfresh k (Nat.le_of_succ_le hk)⟩
      by_cases hlast : k = s.accepted
      · exact .inl ⟨connfd, rfl, by rw [hlast]⟩
      · replace hk : k < s.accepted + 1 := hk
        exact .inr (hall (by rw [hpc]; nofun) k (by omega))
    · cases hstep
      exact ⟨hno, hfds, fun k hk => .inr (hall (by rw [hpc]; nofun) k hk), hfresh⟩
  · rename_i hpc
    rw [hpc] at hpcok
    cases hstep
    exact ⟨hno, hpcok, fun k hk => .inr (hall (by rw [hpc]; nofun) k hk), hfresh⟩
  · rename_i ticks connfd hpc
    rw [hpc] at hpcok
    obtain ⟨i, hi, hal, hnil⟩ := hpcok
    rw [Descriptors.alloc_self hal] at hstep
    cases hstep
    have hsent : Function.update s.sent i (s.sent i ++ date ctime ticks) i =
        date ctime ticks := by rw [Function.update_self, hnil, List.nil_append]
    refine ⟨hno, ⟨i, hi, hal, ticks, hsent⟩, fun k hk => .inr ?_, fun k hk => ?_⟩
    · by_cases hki : k = i
      · rw [hki]
        exact ⟨ticks, hsent⟩
      · rcases hdated k hk with ⟨_, -, hlast⟩ | ⟨ticks', hk'⟩
        · omega
        · exact ⟨ticks', (Function.update_of_ne hki ..).trans hk'⟩
    · have hki : k ≠ i := by
        rintro rfl
        replace hk : s.accepted ≤ k := hk
        omega
      exact (Function.update_of_ne hki ..).trans (hfresh k hk)
  · rename_i hpc
    rw [hpc] at hpcok
    cases hstep
    exact ⟨hno, hpcok, fun k hk => .inr (hall (by rw [hpc]; nofun) k hk), hfresh⟩
  · rename_i connfd hpc
    rw [hpc] at hpcok
    obtain ⟨i, hi, hal, -⟩ := hpcok
    cases hstep
    exact ⟨hno, Descriptors.close_alloc hal, fun k hk => .inr (hall (by rw [hpc]; nofun) k hk),
      hfresh⟩
  · rename_i hpc
    rw [hpc] at hpcok
    cases hstep
    exact ⟨hno, hpcok, fun k hk => .inr (hall (by rw [hpc]; nofun) k hk), hfresh⟩
  · cases hstep

theorem Inv.start {inUse : Nat → Bool} (ctime : Nat → List UInt8)
    (h : start limit inUse = some s) : s.Inv ctime limit s.fds := by
  obtain ⟨⟨listenfd, fds⟩, hal, rfl⟩ := Option.map_eq_some_iff.mp h
  exact ⟨no_client_of_start hal, rfl, fun k hk => absurd hk (Nat.not_lt_zero k), fun _ _ => rfl⟩

end DateServer

/-! ## §2 The clients -/

/-- `daytimeclient.c`, lines 32-41: what is printed for what the reads gave. -/
def daytimeClient (chunks : List (List UInt8)) : List UInt8 := chunks.flatMap cstr

/-- `tcp/client.c`, lines 41-46. -/
def tcpClient (chunks : List (List UInt8)) : List UInt8 :=
  chunks.flatMap fun recvline => bytes "Echo" ++ [10] ++ cstr recvline

theorem cstr_eq_self {b : List UInt8} (h : 0 ∉ b) : cstr b = b := by
  rw [← List.append_nil b, cstr_append_of_notMem h, show cstr [] = [] from rfl]

/-- A text comes out as it went in, however it was cut. -/
theorem daytimeClient_eq {chunks : List (List UInt8)} (h : 0 ∉ chunks.flatten) :
    daytimeClient chunks = chunks.flatten := by
  induction chunks with
  | nil => rfl
  | cons c chunks ih =>
    rw [List.flatten_cons, List.mem_append, not_or] at h
    rw [daytimeClient, List.flatMap_cons, cstr_eq_self h.1, List.flatten_cons, ← ih h.2]
    rfl

/-- The other client prints a line for every read. -/
theorem length_tcpClient {chunks : List (List UInt8)} (h : 0 ∉ chunks.flatten) :
    (tcpClient chunks).length = chunks.flatten.length + 5 * chunks.length := by
  induction chunks with
  | nil => rfl
  | cons c chunks ih =>
    rw [List.flatten_cons, List.mem_append, not_or] at h
    have hecho : (bytes "Echo" ++ [10]).length = 5 := rfl
    rw [tcpClient, List.flatMap_cons, cstr_eq_self h.1, List.length_append, List.length_append,
      hecho, List.flatten_cons, List.length_append, List.length_cons]
    have := ih h.2
    rw [tcpClient] at this
    omega

theorem zero_notMem_date (ctime : Nat → List UInt8) (ticks : Nat) : 0 ∉ date ctime ticks := by
  rw [date, List.mem_append, not_or]
  exact ⟨fun h => zero_notMem_cstr _ (List.mem_of_mem_take h), by decide⟩

/-! ## §3 The server and its clients -/

/-- **The date.** In every run: whenever the server waits for a client, it has the
descriptors that it had at first, so it never runs out of them; and every client so far
was sent one date and no more, and has no descriptor of the server any more. However
the date comes cut into reads, `daytimeclient.c` prints it as it is, and `tcp/client.c`
prints 5 bytes more for each read. -/
theorem dates (ctime : Nat → List UInt8) (limit : Nat) (inUse : Nat → Bool) (s₀ : DateServer)
    (h₀ : DateServer.start limit inUse = some s₀) (tr : List (DateEvent × Unit)) (s : DateServer)
    (h : Exec (DateServer.step ctime limit) (fun _ _ => True) s₀ tr s) (hpc : s.pc = .accept) :
    s.fds = s₀.fds ∧ (∀ k, ¬ s.fds.Holds (.client k)) ∧
    ∀ k, k < s.accepted → ∃ ticks, s.sent k = date ctime ticks ∧
      ∀ chunks : List (List UInt8), chunks.flatten = s.sent k →
        daytimeClient chunks = s.sent k ∧
        (tcpClient chunks).length = (s.sent k).length + 5 * chunks.length := by
  have hinv : s.Inv ctime limit s₀.fds :=
    h.invariant (DateServer.Inv ctime limit s₀.fds) (DateServer.Inv.start ctime h₀)
      fun _ _ _ _ hs _ hstep => hs.step hstep
  have hfds : s.fds = s₀.fds := by
    have hat := hinv.at_pc
    rw [hpc] at hat
    exact hat
  refine ⟨hfds, hfds ▸ hinv.noClient, fun k hk => ?_⟩
  rcases hinv.dated k hk with ⟨_, hwrite, -⟩ | ⟨ticks, hsent⟩
  · rw [hpc] at hwrite
    cases hwrite
  · refine ⟨ticks, hsent, fun chunks hcut => ?_⟩
    have hnul : 0 ∉ chunks.flatten := by
      rw [hcut, hsent]
      exact zero_notMem_date ctime ticks
    rw [← hcut]
    exact ⟨daytimeClient_eq hnul, length_tcpClient hnul⟩

/-- A clock that stands still. -/
def noon (_ticks : Nat) : List UInt8 := bytes "Thu Jan  1 12:00:00 1970" ++ [10]

def noonServer : Option DateServer := DateServer.start 5 (· < 3)

theorem noonServer_isSome : noonServer.isSome = true := by decide

/-- Two clients come. -/
def twoDates : List DateEvent := [.accept, .write 0, .close, .accept, .write 0, .close]

/-- A server with room for one connection serves both clients of `twoDates`. -/
theorem dates_two : ∃ s₀ tr s, noonServer = some s₀ ∧
    Exec (DateServer.step noon 5) (fun _ _ => True) s₀ tr s ∧ tr.map Prod.fst = twoDates ∧
      s.fds = s₀.fds ∧ ∃ ticks, s.sent 1 = date noon ticks := by
  obtain ⟨s₀, h₀⟩ := Option.isSome_iff_exists.mp noonServer_isSome
  obtain rfl : s₀ = noonServer.get noonServer_isSome := by simp [h₀]
  obtain ⟨tr, s, h, hin, hpc, haccepted⟩ := exec_such_that (DateServer.step noon 5)
    (fun _ _ => True) (noonServer.get noonServer_isSome) twoDates
    (fun p => p.2.pc = .accept ∧ p.2.accepted = 2) (by decide +kernel)
  obtain ⟨hfds, -, hdates⟩ := dates noon 5 (· < 3) _ h₀ tr s h hpc
  have hsecond : 1 < s.accepted := by rw [show s.accepted = 2 from haccepted]; decide
  obtain ⟨ticks, hsent, -⟩ := hdates 1 hsecond
  exact ⟨_, tr, s, h₀, h, hin, hfds, ticks, hsent⟩

end CCodes.Iterative
