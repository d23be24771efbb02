/-
CCodes.Assignment.Answered — what a user at a terminal sees.

At rest the token is the `ty_flag` of every session: all details are thanked for. So
the next "again" is answered, whatever order the parties then read in: §2 follows
one order, "again", detail, thanks, and by `CCodes.Assignment.Determinacy` all others
come to the same rest. §1: the detail is the record of the student whose id the
client sent first.
-/
import CCodes.Assignment.Determinacy

namespace CCodes.Assignment

open CCodes.Lib

/-! ## §1 A client is sent its own record -/

/-- The session's record is the one for the first message of the connection, and all
that was sent is that record. -/
structure Conn.Own (studentStore : List StDetail) (c : Conn) (d : SsData) : Prop where
  record : ∃ m st i, c.handled.head? = some m ∧
    stSearch studentStore (atoi m.buffer) = some st ∧ d.data = (createSs i (atoi m.buffer) st).data
  sent : ∀ m ∈ c.sent, m = .ofDetail d.data

/-- A message of a connection with a session. -/
theorem Conn.Own.served {studentStore : List StDetail} {c : Conn} {d : SsData}
    (h : c.Own studentStore d) (res : Message) :
    (c.served res (d.serve res).1).Own studentStore (d.serve res).2 := by
  obtain ⟨m, st, i, hm, hst, hdata⟩ := h.record
  refine ⟨⟨m, st, i, ?_, hst, (SsData.serve_data d res).trans hdata⟩, fun x hx => ?_⟩
  · obtain ⟨rest, hrest⟩ := List.head?_eq_some_iff.mp hm
    simp only [Conn.served, hrest, List.cons_append, List.head?_cons]
  · rw [SsData.serve_data]
    rcases List.mem_append.mp hx with hx | hx
    · exact h.sent x hx
    · rcases d.serve_writes res with hw | hw
      · rw [hw] at hx
        exact absurd hx List.not_mem_nil
      · rw [hw] at hx
        exact List.mem_singleton.mp hx

namespace System

variable {s t : System} {listenFD : Fd} {studentStore : List StDetail} {e : SystemEvent}
  {w : List Message}

end System

/-! ## §2 One line of the user -/

section

variable {studentStore : List StDetail} {c : Conn} {d : SsData} {i : Fd} {chunk : List UInt8}

/-- A text that begins with "again" is an "again". -/
theorem Message.isAgain_ofText (h : bytes "again" <+: chunk) :
    (ofText (cstr chunk)).isAgain = true := by
  obtain ⟨r, rfl⟩ := h
  rw [isAgain, isBuffer_ofText, Bool.true_and, saysAgain_iff]
  exact ⟨cstr r, (cstr_append_of_notMem (by decide) r).symm⟩

/-- No other text is. -/
theorem Message.not_isAgain_ofText (h : ¬ bytes "again" <+: chunk) :
    (ofText (cstr chunk)).isAgain = false := by
  rw [isAgain, isBuffer_ofText, Bool.true_and, Bool.eq_false_iff, Ne, saysAgain_iff]
  exact fun hpre => h (hpre.trans (List.takeWhile_prefix _))

/-- The client sends an "again" and reads on: it is not taken for "quit". -/
theorem Client.handleStdin_again (cl : Client) (h : bytes "again" <+: chunk) :
    (cl.handleStdin chunk).1 = [.ofText (cstr chunk)] ∧
      (cl.handleStdin chunk).2.running = true := by
  obtain ⟨r, rfl⟩ := h
  have hquit : strncmp ((bytes "again" ++ r) ++ cl.writeBuff.drop (bytes "again" ++ r).length)
      (bytes "quit") 4 ≠ 0 := by
    simp [bytes, strncmp]
  have hne : (bytes "again" ++ r).length ≠ 0 := by simp [bytes]
  rw [handleStdin]
  dsimp only
  rw [if_neg hquit, take_set_chunk]
  exact ⟨rfl, decide_eq_true hne⟩

/-- Steps of one connection, in the middle of the others. -/
theorem netPath_update {k : Nat} {es : List SystemEvent} (hes : ∀ e ∈ es, e.conn = k)
    (v : Nat → View) {x y : View}
    (h : Path (fun x e => View.step studentStore e x) x es y) :
    Path (netStep studentStore) (Function.update v k x) es (Function.update v k y) := by
  induction es generalizing x with
  | nil => exact congrArg (Function.update v k) h
  | cons e es ih =>
    obtain ⟨u, hu, h⟩ := h
    have hu : View.step studentStore e x = some u := hu
    refine ⟨Function.update v k u, ?_, ih (fun e' he' => hes e' (List.mem_cons_of_mem _ he')) h⟩
    rw [netStep_update (hes e List.mem_cons_self), hu, Option.map_some]

/-- An "again": the server sends the detail, the client thanks, the flag is set
again. -/
theorem View.again (studentStore : List StDetail) (k : Nat) (hi : c.fd = some i)
    (hq : c.toServer = []) (hq' : c.toClient = []) (hty : d.tyFlag = 1) (hs : d.sFlag = 0)
    (h : bytes "again" <+: chunk) :
    ∃ c', Path (fun x e => View.step studentStore e x)
        (some (c.clientStep (c.client.handleStdin chunk), some d))
        [.serve k, .socket k, .serve k] (some (c', some d)) ∧
      c'.Idle ∧ c'.sent = c.sent ++ [.ofDetail d.data] := by
  obtain ⟨hw, hrun⟩ := c.client.handleStdin_again h
  have hask : d.Asks (.ofText (cstr chunk)) :=
    SsData.asks_iff.mpr ⟨Message.isAgain_ofText h, hty⟩
  let c₁ := c.clientStep (c.client.handleStdin chunk)
  let c₂ := c₁.served (.ofText (cstr chunk)) [.ofDetail d.data]
  let d₂ : SsData := { d with tyFlag := 0, sFlag := 0 }
  let c₃ : Conn := { c₂.clientStep (c₂.client.handleSocket (.ofDetail d.data)) with toClient := [] }
  let thanks := Message.ofText (bytes "thank_you")
  have hq₁ : c₁.toServer = [.ofText (cstr chunk)] := by
    simp only [c₁, Conn.clientStep, hq, hw, List.nil_append]
  have hthanks : (c₂.client.handleSocket (.ofDetail d.data)).1 = [thanks] := rfl
  have hq₃ : c₃.toServer = [thanks] := by
    show c₁.toServer.tail ++ _ = _
    rw [hq₁, hthanks]
    rfl
  have hserve₂ : d₂.serve thanks = ([], d) := by
    have hzero : (0 : Int32) ≠ 1 := by decide
    have hnot : ¬ d₂.Asks thanks := fun hask₂ => hzero hask₂.2.2
    have hset : { d₂ with tyFlag := 1 } = d := by
      obtain ⟨_, _, _, _, _, _⟩ := d
      cases hty
      cases hs
      rfl
    rw [SsData.serve_of_not_asks hzero hnot, if_pos (by decide), hset]
  refine ⟨c₃.served thanks [], ⟨some (c₂, some d₂), ?_, some (c₃, some d₂), ?_,
    some (c₃.served thanks [], some d), ?_, rfl⟩, ⟨fun _ => ?_, fun _ => ?_⟩, ?_⟩
  · have hfd : c₁.fd = some i := hi
    show View.step studentStore (.serve k) (some (c₁, some d)) = _
    simp [View.step, hfd, hq₁, connection, SsData.serve_of_asks hask, c₂, d₂]
  · have hrun₂ : c₂.client.running = true := hrun
    have hq₂ : c₂.toClient = [.ofDetail d.data] := by
      show c.toClient ++ _ = _
      rw [hq', List.nil_append]
    simp [View.step, hq₂, hrun₂, c₃]
  · have hfd : c₃.fd = some i := hi
    simp [View.step, hfd, hq₃, connection, hserve₂]
  · show c₃.toServer.tail = []
    rw [hq₃, List.tail_cons]
  · rfl
  · show (c.sent ++ [.ofDetail d.data]) ++ [] = _
    rw [List.append_nil]

/-- Any other line is no more than read. -/
theorem View.other (studentStore : List StDetail) (k : Nat) (hi : c.fd = some i)
    (hq : c.toServer = []) (hq' : c.toClient = []) (hs : d.sFlag = 0)
    (h : ¬ bytes "again" <+: chunk) (hth : ¬ bytes "thank_you" <+: chunk) :
    ∃ es c', (∀ e ∈ es, e.conn = k) ∧ es.length ≤ 1 ∧
      Path (fun x e => View.step studentStore e x)
        (some (c.clientStep (c.client.handleStdin chunk), some d)) es (some (c', some d)) ∧
      c'.Idle ∧ c'.sent = c.sent := by
  let c₁ := c.clientStep (c.client.handleStdin chunk)
  rcases c.client.handleStdin_eq chunk with ⟨hw, -⟩ | hw
  · have hq₁ : c₁.toServer = [] := by
      simp only [c₁, Conn.clientStep, hq, hw, List.nil_append]
    exact ⟨[], c₁, List.forall_mem_nil _, Nat.zero_le 1, rfl, ⟨fun _ => hq₁, fun _ => hq'⟩, rfl⟩
  · let res := Message.ofText (cstr chunk)
    have hq₁ : c₁.toServer = [res] := by
      simp only [c₁, res, Conn.clientStep, hq, hw, List.nil_append]
    have hserve : d.serve res = ([], d) := by
      have hnot : ¬ d.Asks res := fun hask => by
        rw [SsData.asks_iff, Message.not_isAgain_ofText h] at hask
        exact absurd hask.1 Bool.false_ne_true
      have hcond : ¬ (res.isBuffer = true ∧ res.saysThankYou = true) := by
        rw [← Bool.and_eq_true]
        exact Bool.eq_false_iff.mp (Message.not_isThanks_ofText hth)
      have howes : d.sFlag ≠ 1 := by
        rw [hs]
        decide
      rw [SsData.serve_of_not_asks howes hnot, if_neg hcond]
    refine ⟨[.serve k], c₁.served res [], ?_, Nat.le_refl 1,
      ⟨some (c₁.served res [], some d), ?_, rfl⟩, ⟨fun _ => ?_, fun _ => ?_⟩, ?_⟩
    · exact fun e he => congrArg SystemEvent.conn (List.mem_singleton.mp he)
    · have hfd : c₁.fd = some i := hi
      show View.step studentStore (.serve k) (some (c₁, some d)) = _
      simp [View.step, hfd, hq₁, connection, hserve]
    · show c₁.toServer.tail = []
      rw [hq₁, List.tail_cons]
    · show c.toClient ++ [] = []
      rw [hq', List.append_nil]
    · exact List.append_nil _

/-- Whatever the line is, there is an order in which it is read at the end. -/
theorem View.reply (studentStore : List StDetail) (k : Nat) (hi : c.fd = some i)
    (hq : c.toServer = []) (hq' : c.toClient = []) (hty : d.tyFlag = 1) (hs : d.sFlag = 0)
    (hth : ¬ bytes "thank_you" <+: chunk) :
    ∃ es c', (∀ e ∈ es, e.conn = k) ∧ es.length ≤ 3 ∧
      Path (fun x e => View.step studentStore e x)
        (some (c.clientStep (c.client.handleStdin chunk), some d)) es (some (c', some d)) ∧
      c'.Idle ∧
      c'.sent = c.sent ++ if bytes "again" <+: chunk then [.ofDetail d.data] else [] := by
  by_cases hagain : bytes "again" <+: chunk
  · obtain ⟨c', hpath, hidle, hsent⟩ :=
      View.again studentStore k hi hq hq' hty hs hagain
    rw [if_pos hagain]
    refine ⟨[.serve k, .socket k, .serve k], c', fun e he => ?_, Nat.le_refl 3, hpath, hidle, hsent⟩
    simp only [List.mem_cons, List.not_mem_nil, or_false] at he
    rcases he with rfl | rfl | rfl <;> rfl
  · obtain ⟨es, c', hes, hlen, hpath, hidle, hsent⟩ :=
      View.other studentStore k hi hq hq' hs hagain hth
    rw [if_neg hagain, List.append_nil]
    exact ⟨es, c', hes, hlen.trans (by decide), hpath, hidle, hsent⟩

end

/-! ## §3 At rest -/

namespace System

variable {s t u : System} {listenFD : Fd} {studentStore : List StDetail} {k : Nat} {c : Conn}

theorem net_fst (s : System) (k : Nat) : (s.net k).map Prod.fst = s.conns k := by
  rw [net, Option.map_map]
  exact Option.map_id'

/-- After a line of the user. -/
theorem net_stdin {chunk : List UInt8} {w : List Message} (hk : s.conns k = some c)
    (hstep : System.step s (.stdin k chunk) = some (w, u)) :
    u.net = Function.update s.net k
      (some (c.clientStep (c.client.handleStdin chunk), c.session s.main)) := by
  rcases step_cases hstep with ⟨_, _, _, heq, -⟩ | ⟨_, _, _, _, heq, -⟩ |
    ⟨k', chunk', c₀, heq, hk₀, -, -, -, rfl⟩ | ⟨_, _, _, _, heq, -⟩ |
    ⟨_, _, _, _, _, _, heq, -⟩ | ⟨_, _, _, _, heq, -⟩
  case inr.inr.inl =>
    cases heq
    obtain rfl : c = c₀ := Option.some.inj (hk.symm.trans hk₀)
    exact net_change (m := s.main) fun _ _ _ _ => rfl
  all_goals cases heq

/-- At rest the token of an accepted client that runs is the flag. -/
theorem Inv.at_rest (h : s.Inv listenFD studentStore) (hrest : s.AtRest)
    (hk : s.conns k = some c) (hfd : c.fd.isSome) (hrun : c.client.running = true) :
    ∃ d, c.session s.main = some d ∧ c.toServer = [] ∧ c.toClient = [] ∧ d.tyFlag = 1 ∧
      d.sFlag = 0 ∧ c.wrote = c.handled ∧
      c.sent.countP Message.isDetail = c.handled.countP Message.isThanks := by
  have hq := (hrest k c hk).1 hfd
  have hq' := (hrest k c hk).2 hrun
  have hok := h.conn k c hk
  cases hses : c.session s.main with
  | none =>
    rw [hses] at hok
    obtain ⟨_, _, hfirst, -⟩ := hok.1.first
    rw [hq] at hfirst
    cases hfirst
  | some d =>
    rw [hses] at hok
    obtain ⟨htoken, hfifo⟩ := hok
    have hone := htoken.one
    have hledger := htoken.ledger
    rw [hq, hq', List.countP_nil, List.countP_nil] at hone
    have hty : d.tyFlag = 1 := by
      rcases htoken.bit with h0 | h1
      · rw [h0] at hone
        cases hone
      · exact h1
    have hbit : (1 : Int32).toInt = 1 := rfl
    rw [hty] at hledger
    rw [Conn.Fifo, hq, List.append_nil] at hfifo
    exact ⟨d, rfl, hq, hq', hty, htoken.owes, hfifo, by omega⟩

/-- At rest a line is answered in every order as in the one of `View.reply`. -/
theorem Inv.reply {d : SsData} {chunk : List UInt8} {w : List Message}
    {tr : List (SystemEvent × List Message)} (hids : ∀ d ∈ studentStore, d.id ≠ 0)
    (h : s.Inv listenFD studentStore) (hrest : s.AtRest) (hk : s.conns k = some c)
    (hfd : c.fd.isSome) (hrun : c.client.running = true) (hd : c.session s.main = some d)
    (hstep : System.step s (.stdin k chunk) = some (w, u)) (hth : ¬ bytes "thank_you" <+: chunk)
    (hread : Exec System.step (fun _ e => e.Internal) u tr t) :
    tr.length ≤ 3 ∧ (t.AtRest → (∀ j, j ≠ k → t.conns j = s.conns j) ∧
      ∃ c', t.conns k = some c' ∧ c'.session t.main = some d ∧
        c'.sent = c.sent ++ if bytes "again" <+: chunk then [.ofDetail d.data] else []) := by
  obtain ⟨i, hi⟩ := Option.isSome_iff_exists.mp hfd
  obtain ⟨d', hd', hq, hq', hty, hs, -⟩ := h.at_rest hrest hk hfd hrun
  obtain rfl : d = d' := Option.some.inj (hd.symm.trans hd')
  obtain ⟨es, c', hes, hlen, hpath, hidle, hsent⟩ :=
    View.reply studentStore k hi hq hq' hty hs hth
  have hone := netPath_update hes s.net hpath
  -- that order comes to rest
  have hend : Ended (netStep studentStore) (Function.update s.net k (some (c', some d))) := by
    refine netStep_ended fun j x ses hx => ?_
    by_cases hj : j = k
    · rw [hj, Function.update_self] at hx
      cases hx
      exact hidle
    · rw [Function.update_of_ne hj] at hx
      exact hrest j x (net_eq_some.mp hx).1
  have hallowed : s.Allowed (.stdin k chunk) := ⟨trivial, hth⟩
  obtain ⟨-, hpath'⟩ := (h.step hids hallowed hstep).net_run hids hread
  rw [net_stdin hk hstep, hd] at hpath'
  obtain ⟨cs, -, hperm⟩ := Path.complete (netStep_commute studentStore) hend hone hpath'
  have hle := hperm.length_eq
  rw [List.length_append, List.length_map] at hle
  refine ⟨by omega, fun hrest' => ?_⟩
  obtain ⟨hnet, -⟩ := Path.ended_unique (netStep_commute studentStore) hend hrest'.net_ended
    hone hpath'
  have hkt : t.net k = some (c', some d) := by rw [hnet, Function.update_self]
  obtain ⟨hct, hdt⟩ := net_eq_some.mp hkt
  refine ⟨fun j hj => ?_, c', hct, hdt, hsent⟩
  rw [← net_fst t, ← net_fst s, hnet, Function.update_of_ne hj]

end System

/-- A client got its record and thanked for it. -/
def thanked : List SystemEvent :=
  [.connect 0 (bytes "1") (List.replicate 50 0), .accept 0 4, .serve 0, .socket 0, .serve 0]

end CCodes.Assignment
