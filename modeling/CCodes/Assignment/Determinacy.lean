/-
CCodes.Assignment.Determinacy — the order of delivery does not matter.

Of each connection the server's `main` uses the session only, so what the parties
do to a connection and its session (`View`) is a step of that view alone, the
server's part being `connection`. The server and the client of one connection use
opposite ends of two FIFO channels, and parties of different connections do not
meet. So the steps commute, and by `CCodes.Lib.Commute` all orders come to the same
rest.
-/
import CCodes.Lib.Commute
import CCodes.Assignment.Quiescence

namespace CCodes.Assignment

open CCodes.Lib

/-! ## §1 One connection with its session -/

/-- A connection with its session. -/
abbrev View := Option (Conn × Option SsData)

/-- What a party that reads does to the connection: the server answers as
`connection` does. -/
def View.step (studentStore : List StDetail) : SystemEvent → View → Option View
  | .serve _, v => do
      let (c, ses) ← v
      let i ← c.fd
      let res ← c.toServer.head?
      let (w, ses) := connection studentStore i ses res
      pure (some (c.served res w, ses))
  | .socket _, v => do
      let (c, ses) ← v
      let res ← c.toClient.head?
      if c.client.running then
        let p := c.client.handleSocket res
        pure (some ({ c.clientStep p with toClient := c.toClient.tail }, ses))
      else none
  | _, _ => none

/-- All connections, each on its own. -/
def netStep (studentStore : List StDetail) (v : Nat → View) (e : SystemEvent) :
    Option (Nat → View) :=
  (View.step studentStore e (v e.conn)).map (Function.update v e.conn)

theorem View.step_serve {studentStore : List StDetail} {k : Nat} {v u : View}
    (h : View.step studentStore (.serve k) v = some u) :
    ∃ c ses i res rest, v = some (c, ses) ∧ c.fd = some i ∧ c.toServer = res :: rest ∧
      u = some (c.served res (connection studentStore i ses res).1,
        (connection studentStore i ses res).2) := by
  obtain ⟨⟨c, ses⟩, rfl, h⟩ := Option.bind_eq_some_iff.mp h
  obtain ⟨i, hi, h⟩ := Option.bind_eq_some_iff.mp h
  obtain ⟨res, hres, h⟩ := Option.bind_eq_some_iff.mp h
  obtain ⟨rest, hrest⟩ := List.head?_eq_some_iff.mp hres
  cases h
  exact ⟨c, ses, i, res, rest, rfl, hi, hrest, rfl⟩

theorem View.step_socket {studentStore : List StDetail} {k : Nat} {v u : View}
    (h : View.step studentStore (.socket k) v = some u) :
    ∃ c ses res rest, v = some (c, ses) ∧ c.toClient = res :: rest ∧ c.client.running = true ∧
      u = some ({ c.clientStep (c.client.handleSocket res) with toClient := rest }, ses) := by
  obtain ⟨⟨c, ses⟩, rfl, h⟩ := Option.bind_eq_some_iff.mp h
  obtain ⟨res, hres, h⟩ := Option.bind_eq_some_iff.mp h
  obtain ⟨rest, hrest⟩ := List.head?_eq_some_iff.mp hres
  split at h
  · rename_i hrun
    cases h
    rw [hrest]
    exact ⟨c, ses, res, rest, rfl, hrest, hrun, rfl⟩
  · cases h

/-- The server and the client of a connection do not disturb each other: one
appends to the channel the other takes from. -/
theorem View.step_comm {studentStore : List StDetail} {k : Nat} {v u u' : View}
    (hserve : View.step studentStore (.serve k) v = some u)
    (hsocket : View.step studentStore (.socket k) v = some u') :
    ∃ x, View.step studentStore (.socket k) u = some x ∧
      View.step studentStore (.serve k) u' = some x := by
  obtain ⟨c, ses, i, res, rest, rfl, hi, hq, rfl⟩ := View.step_serve hserve
  obtain ⟨c', ses', res', rest', heq, hq', hrun, rfl⟩ := View.step_socket hsocket
  cases heq
  let w := (connection studentStore i ses res).1
  let c₁ := (c.served res w).clientStep (c.client.handleSocket res')
  refine ⟨some ({ c₁ with toClient := rest' ++ w }, (connection studentStore i ses res).2), ?_, ?_⟩
  · simp [View.step, c₁, w, Conn.served, Conn.clientStep, hq', hrun]
  · simp [View.step, c₁, w, Conn.served, Conn.clientStep, hi, hq]

section

variable {studentStore : List StDetail} {listenFD : Fd} {s t : System} {e e' : SystemEvent}

/-- Different steps on one connection are those of its two parties. -/
theorem View.step_diamond {v u u' : View} (hne : e ≠ e') (hk : e.conn = e'.conn)
    (h : View.step studentStore e v = some u) (h' : View.step studentStore e' v = some u') :
    ∃ x, View.step studentStore e' u = some x ∧ View.step studentStore e u' = some x := by
  cases e with
  | serve k =>
    cases e' with
    | socket k' => exact View.step_comm h h'
    | serve k' => exact absurd (congrArg SystemEvent.serve hk) hne
    | _ => cases h'
  | socket k =>
    cases e' with
    | serve k' =>
      obtain ⟨x, hx, hx'⟩ := View.step_comm h' h
      exact ⟨x, hx', hx⟩
    | socket k' => exact absurd (congrArg SystemEvent.socket hk) hne
    | _ => cases h'
  | _ => cases h

theorem netStep_update {v : Nat → View} {x : View} {k : Nat} (hk : e.conn = k) :
    netStep studentStore (Function.update v k x) e =
      (View.step studentStore e x).map (Function.update v k) := by
  subst hk
  rw [netStep, Function.update_self]
  refine congrArg (Option.map · _) (funext fun y => ?_)
  rw [Function.update_idem]

/-- Steps of different parties do not disturb each other. -/
theorem netStep_commute (studentStore : List StDetail) : Commute (netStep studentStore) := by
  intro v a b t u hab ht hu
  obtain ⟨x, hx, rfl⟩ := Option.map_eq_some_iff.mp ht
  obtain ⟨y, hy, rfl⟩ := Option.map_eq_some_iff.mp hu
  by_cases hk : a.conn = b.conn
  · obtain ⟨z, hz, hz'⟩ := View.step_diamond hab hk hx (hk ▸ hy)
    refine ⟨Function.update v a.conn z, ?_, ?_⟩
    · rw [netStep_update hk.symm, hz, Option.map_some]
    · rw [← hk, netStep_update rfl, hz', Option.map_some]
  · refine ⟨Function.update (Function.update v a.conn x) b.conn y, ?_, ?_⟩
    · rw [netStep, Function.update_of_ne (Ne.symm hk), hy, Option.map_some]
    · rw [netStep, Function.update_of_ne hk, hx, Option.map_some, Function.update_comm hk]

/-! ## §2 The system seen connection by connection -/

/-- What is seen of the connections. -/
def System.net (s : System) (k : Nat) : View := (s.conns k).map fun c => (c, c.session s.main)

/-- One connection changes, and the sessions of the others stay. -/
theorem System.net_change {k : Nat} {c : Conn} {m : Server}
    (hother : ∀ j x, j ≠ k → s.conns j = some x → x.session m = x.session s.main) :
    net { s.setConn k (some c) with main := m } =
      Function.update s.net k (some (c, c.session m)) := by
  funext j
  by_cases hj : j = k
  · subst hj
    rw [Function.update_self, net]
    show Option.map _ ((s.setConn j (some c)).conns j) = _
    rw [setConn_self, Option.map_some]
  · rw [Function.update_of_ne hj, net, net]
    show Option.map _ ((s.setConn k (some c)).conns j) = _
    rw [setConn_of_ne hj]
    cases hx : s.conns j with
    | none => rfl
    | some x => rw [Option.map_some, Option.map_some, hother j x hj hx]

/-- A step leaves the other connections their sessions. -/
theorem System.Inv.session_step {w : List Message} (h : s.Inv listenFD studentStore)
    (hstep : System.step s e = some (w, t)) {j : Nat} {x : Conn} (hj : j ≠ e.conn)
    (hx : s.conns j = some x) : x.session t.main = x.session s.main := by
  -- the descriptors are different, so it is enough to know it for those
  have hall : ∀ {k c i}, s.conns k = some c → c.fd = some i → j ≠ k →
      (∀ i', i' ≠ i → t.main.session i' = s.main.session i') →
      x.session t.main = x.session s.main := by
    intro k c i hk hi hj hother
    cases hxi : x.fd with
    | none => rw [Conn.session, Conn.session, hxi, Option.bind_none, Option.bind_none]
    | some i' =>
      rw [Conn.session_of_fd hxi, Conn.session_of_fd hxi]
      refine hother i' ?_
      rintro rfl
      exact hj (h.distinct j k x c i' hx hk hxi hi)
  rcases step_cases hstep with ⟨k, _, _, rfl, -, -, rfl⟩ |
    ⟨k, newFD, c, main', rfl, -, -, hev, rfl⟩ | ⟨k, _, _, rfl, -, -, -, -, rfl⟩ |
    ⟨k, _, _, _, rfl, -, -, -, -, rfl⟩ |
    ⟨k, c, i, res, rest, main', rfl, hk, hi, hq, hev, rfl⟩ |
    ⟨k, c, i, main', rfl, hk, hi, -, -, hev, rfl⟩
  case inr.inl =>
    rcases Server.body_cases (Server.events_eq hev).2 with ⟨_, -, heq, -, -, -, rfl⟩ |
      ⟨_, -, heq, -⟩ | ⟨-, heq, -⟩ | ⟨-, heq, -⟩
    · rfl
    all_goals cases heq
  case inr.inr.inr.inr.inl =>
    obtain ⟨⟨-, -, hother⟩, -⟩ := h.serve_isolated hk hi hq hev
    exact hall hk hi hj hother
  case inr.inr.inr.inr.inr =>
    obtain ⟨hreg, hne⟩ := h.accepted k c i hk hi
    obtain rfl : main' = s.main.hangUp i := by
      rw [Server.events_client hreg (h.listener ▸ hne)] at hev
      cases hev
      rfl
    exact hall hk hi hj fun i' hi' => Server.session_hangUp_of_ne hi'
  all_goals rfl

/-- A step without the users is a step of one view. -/
theorem System.Inv.net_step {e : SystemEvent} {w : List Message} (h : s.Inv listenFD studentStore)
    (he : e.Internal) (hstep : System.step s e = some (w, t)) :
    netStep studentStore s.net e = some t.net := by
  have hother := fun j x => h.session_step hstep (j := j) (x := x)
  rcases step_cases hstep with ⟨_, _, _, rfl, -⟩ | ⟨_, _, _, _, rfl, -⟩ | ⟨_, _, _, rfl, -⟩ |
    ⟨k, c, res, rest, rfl, hk, hq, hrun, -, rfl⟩ |
    ⟨k, c, i, res, rest, main', rfl, hk, hi, hq, hev, rfl⟩ | ⟨_, _, _, _, rfl, -⟩
  case inr.inr.inr.inl =>
    have hnet : s.net k = some (c, c.session s.main) := by rw [net, hk, Option.map_some]
    have hview : View.step studentStore (.socket k) (s.net k) = some (some
        ({ c.clientStep (c.client.handleSocket res) with toClient := rest },
          c.session s.main)) := by
      simp [View.step, hnet, hq, hrun]
    show Option.map _ (View.step studentStore (.socket k) (s.net k)) = _
    rw [hview, Option.map_some]
    exact congrArg some (net_change (m := s.main) hother).symm
  case inr.inr.inr.inr.inl =>
    obtain ⟨⟨hw, hself, -⟩, -⟩ := h.serve_isolated hk hi hq hev
    rw [h.students, ← Conn.session_of_fd hi s.main] at hw hself
    have hnet : s.net k = some (c, c.session s.main) := by rw [net, hk, Option.map_some]
    have hses : (c.served res w).session main' =
        (connection studentStore i (c.session s.main) res).2 := by
      rw [← hself]
      exact Conn.session_of_fd hi main'
    have hview : View.step studentStore (.serve k) (s.net k) =
        some (some (c.served res w, (c.served res w).session main')) := by
      rw [hses, hw]
      simp [View.step, hnet, hi, hq]
    show Option.map _ (View.step studentStore (.serve k) (s.net k)) = _
    rw [hview, Option.map_some]
    exact congrArg some (net_change hother).symm
  all_goals exact absurd he id

/-- The users' part of `Allowed` is nothing here. -/
theorem SystemEvent.Internal.allowed {e : SystemEvent} (he : e.Internal) (s : System) :
    s.Allowed e := by
  cases e with
  | serve k => exact ⟨trivial, trivial⟩
  | socket k => exact ⟨trivial, trivial⟩
  | _ => exact absurd he id

/-- A run without the users is a path of the views. -/
theorem System.Inv.net_run {tr : List (SystemEvent × List Message)}
    (hids : ∀ d ∈ studentStore, d.id ≠ 0) (h : s.Inv listenFD studentStore)
    (hrun : Exec System.step (fun _ e => e.Internal) s tr t) :
    t.Inv listenFD studentStore ∧
      Path (netStep studentStore) s.net (tr.map Prod.fst) t.net := by
  induction hrun with
  | nil => exact ⟨h, rfl⟩
  | snoc _ he hstep ih =>
    obtain ⟨hinv, hpath⟩ := ih
    refine ⟨hinv.step hids (he.allowed _) hstep, ?_⟩
    rw [List.map_append]
    exact hpath.snoc (hinv.net_step he hstep)

/-- When nothing is on the way, no party can read. -/
theorem netStep_ended {v : Nat → View} (h : ∀ k c ses, v k = some (c, ses) → c.Idle) :
    Ended (netStep studentStore) v := by
  intro e
  rw [Option.eq_none_iff_forall_ne_some]
  intro u hu
  obtain ⟨x, hx, -⟩ := Option.map_eq_some_iff.mp hu
  cases e with
  | serve k =>
    obtain ⟨c, ses, i, res, rest, heq, hi, hq, -⟩ := View.step_serve hx
    rw [(h k c ses heq).1 (Option.isSome_of_eq_some hi)] at hq
    cases hq
  | socket k =>
    obtain ⟨c, ses, res, rest, heq, hq, hrun, -⟩ := View.step_socket hx
    rw [(h k c ses heq).2 hrun] at hq
    cases hq
  | _ => cases hx

theorem System.net_eq_some {k : Nat} {c : Conn} {ses : Option SsData} :
    s.net k = some (c, ses) ↔ s.conns k = some c ∧ c.session s.main = ses := by
  rw [net, Option.map_eq_some_iff]
  constructor
  · rintro ⟨c', hc, heq⟩
    cases heq
    exact ⟨hc, rfl⟩
  · rintro ⟨hc, rfl⟩
    exact ⟨c, hc, rfl⟩

/-- At rest nothing more is seen. -/
theorem System.AtRest.net_ended (h : s.AtRest) : Ended (netStep studentStore) s.net :=
  netStep_ended fun k c _ hv => h k c (System.net_eq_some.mp hv).1

end

/-! ## §3 The rest -/

end CCodes.Assignment
