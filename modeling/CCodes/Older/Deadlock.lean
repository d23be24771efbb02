/-
CCodes.Older.Deadlock — the client of the older select server and the
server come to wait for each other.

The client expects a second message for its id (61) and the server sends
one only to a "thank_you", so a client whose id is stored waits at line 61
when it has its detail. An id that is itself a "thank_you" is answered
twice; then the user's "again" leaves the client at line 77, for the server
keeps the detail back until the next message.
-/
import CCodes.Older.Client

namespace CCodes.Older

open CCodes.Lib

variable {StudentDetail : Type} {H : Headers StudentDetail}

namespace Talk

variable {x y : Talk H} {s t : Server H} {R : Finset Fd} {i : Fd} {m : List UInt8}

/-- In a deadlocked state neither side can go on. -/
theorem Deadlocked.stuck (h : x.Deadlocked) (turn : Turn) : x.step turn = none := by
  obtain ⟨hts, htc, ⟨i, hfd, hopen⟩, ⟨htop, hready⟩, hread⟩ := h
  obtain ⟨argv3, line, toServer, toClient, ⟨ph, s⟩, fd⟩ := x
  dsimp only at hts htc hfd hopen htop hread
  subst hts htc hfd htop
  have hblocked : (⟨argv3, line, [], [], (.top, s), some i⟩ : Talk H).receive = none := by
    have hnot : ¬ (⟨argv3, line, [], [], (.top, s), some i⟩ : Talk H).ServerClosed := by
      rintro ⟨j, hj, hclosed⟩
      obtain rfl : i = j := Option.some.inj hj
      exact hclosed hopen
    simp only [receive, if_neg hnot]
  cases turn with
  | client typed =>
    change client _ _ = none
    obtain rfl | rfl | rfl := hread
    all_goals
      simp only [client, hblocked]
      rfl
  | server inp =>
    change serve _ _ = none
    cases inp with
    | select R =>
      refine if_neg ?_
      rintro ⟨rfl, hne⟩
      exact hne hready
    | next =>
      rw [serve, if_pos (by trivial)]
      rfl
    | ready a =>
      rw [serve]
      split <;> rfl

/-! ## §1 One round of the loop -/

theorem Reaches.single {turn : Turn} (h : x.step turn = some y) : x.Reaches y :=
  Relation.ReflTransGen.single ⟨turn, h⟩

theorem Reaches.trans {z : Talk H} (h : x.Reaches y) (h' : y.Reaches z) : x.Reaches z :=
  Relation.ReflTransGen.trans h h'

/-- The loop passes over an index that is not in the copy. -/
theorem step_next (h : x.server = (.scan R i, s)) (hi : i ≤ s.fdMax) (hR : i ∉ R) :
    x.step (.server .next) = some { x with server := (.scan R (i + 1), s) } := by
  have hm : (older H).machine x.server .next = some (none, .scan R (i + 1), s) := by
    rw [h]
    exact (if_pos hi).trans (if_neg hR)
  rw [step, serve, if_pos (by trivial), hm]
  rfl

/-- The loop leaves a scan behind the last index. -/
theorem step_leave (h : x.server = (.scan R i, s)) (hi : s.fdMax < i) :
    x.step (.server .next) = some { x with server := (.top, s) } := by
  have hm : (older H).machine x.server .next = some (none, .top, s) := by
    rw [h]
    exact if_neg (Int.not_le.mpr hi)
  rw [step, serve, if_pos (by trivial), hm]
  rfl

/-- The loop comes to an index when the copy has none before it. -/
theorem reaches_scan (hR : ∀ j ∈ R, i ≤ j) (hi : i ≤ s.fdMax + 1) :
    ∀ (n : Nat) (k : Fd) (x : Talk H), k + n = i → x.server = (.scan R k, s) →
      x.Reaches { x with server := (.scan R i, s) }
  | 0, k, x, hk, h => by
      obtain rfl : k = i := by grind
      rw [← h]
      exact .refl
  | n + 1, k, x, hk, h => by
      have hlt : k < i := by grind
      have hstep := step_next h (by grind) fun hmem => absurd (hR k hmem) (Int.not_le.mpr hlt)
      exact (Reaches.single hstep).trans (reaches_scan hR hi n (k + 1) _ (by grind) rfl)

/-- The loop comes back to `select` when the copy has no index from here on. -/
theorem reaches_top (hR : ∀ j ∈ R, j < i) :
    ∀ (n : Nat) (k : Fd) (x : Talk H), i ≤ k → s.fdMax < k + n → x.server = (.scan R k, s) →
      x.Reaches { x with server := (.top, s) }
  | 0, k, x, _, hn, h => Reaches.single (step_leave h (by grind))
  | n + 1, k, x, hk, hn, h => by
      by_cases hlast : s.fdMax < k
      · exact Reaches.single (step_leave h hlast)
      · have hstep := step_next h (Int.not_lt.mp hlast)
          fun hmem => absurd (hR k hmem) (Int.not_lt.mpr hk)
        exact (Reaches.single hstep).trans (reaches_top hR n (k + 1) _ (by grind) (by grind) rfl)

/-- **One round.** When one descriptor is ready, the loop handles it and
comes back to `select`. -/
theorem reaches_round {a : Answer} {w : List (Sent StudentDetail)} (h : x.server = (.top, s))
    (hready : x.ready = {i}) (h0 : 0 ≤ i) (hmax : i ≤ s.fdMax) (hreg : s.masterFDs ⊆ s.openFDs)
    (ha : x.Offers (.ready a)) (hbody : s.body i a = some (w, t)) :
    x.Reaches (handled { x with server := (.top, t) } w a) := by
  have hselect : x.step (.server (.select {i})) = some { x with server := (.scan {i} 0, s) } := by
    have hsub : ({i} : Finset Fd) ⊆ s.masterFDs := by
      have : x.ready ⊆ x.server.2.masterFDs := Finset.inter_subset_left
      rwa [hready, h] at this
    have hm : (older H).machine x.server (.select {i}) = some (none, .scan {i} 0, s) := by
      rw [h]
      exact if_pos ⟨hreg, hsub⟩
    rw [step, serve, if_pos ⟨hready.symm, Finset.singleton_ne_empty i⟩, hm]
    rfl
  obtain ⟨n, hn⟩ := Int.eq_ofNat_of_zero_le h0
  have hscan := reaches_scan (x := { x with server := (.scan {i} 0, s) }) (s := s)
    (fun j hj => (Finset.mem_singleton.mp hj).ge) (hmax.trans (Int.le_add_one (le_refl _)))
    n 0 (by rw [hn]; simp) rfl
  have hhandle : ({ x with server := (.scan {i} i, s) } : Talk H).step (.server (.ready a)) =
      some (handled { x with server := (.scan {i} (i + 1), t) } w a) := by
    have ha' : ({ x with server := (.scan {i} i, s) } : Talk H).Offers (.ready a) := by
      cases a <;> exact ha
    have hm : (older H).machine (.scan {i} i, s) (.ready a) =
        some (some (i, w), .scan {i} (i + 1), t) := by
      refine (if_pos ⟨hmax, Finset.mem_singleton_self i⟩).trans ?_
      change (s.body i a).map _ = _
      rw [hbody]
      rfl
    rw [step, serve, if_pos ha', hm]
    rfl
  have htop := reaches_top (x := handled { x with server := (.scan {i} (i + 1), t) } w a) (s := t)
    (fun j hj => Int.lt_add_one_iff.mpr (Finset.mem_singleton.mp hj).le) (t.fdMax - i).toNat (i + 1)
    (le_refl _) (by grind) (by cases a <;> rfl)
  refine (Reaches.single hselect).trans (hscan.trans ((Reaches.single hhandle).trans ?_))
  cases a <;> exact htop

/-! ## §2 The conversation -/

/-- The server has accepted the client as `i`, and is before `select`. -/
structure Settled (x : Talk H) (i : Fd) : Prop where
  top : x.server.1 = .top
  inStep : x.server.2.InStep
  fd : x.fd = some i
  nonneg : 0 ≤ i
  registered : i ∈ x.server.2.masterFDs
  accepted : i ≠ x.server.2.listenFD

/-- The server accepts the client. -/
theorem reaches_accept {listenFD : Fd} (junk : Ptr → ServerData StudentDetail)
    (h0 : 0 ≤ listenFD) (h : x.server = (.top, .init H listenFD junk)) (hfd : x.fd = none) :
    ∃ y, x.Reaches y ∧ y.Settled (listenFD + 1) ∧ y.line = x.line ∧ y.toServer = x.toServer ∧
      y.toClient = x.toClient ∧ y.server.2.entry (listenFD + 1) = none := by
  have hlt : listenFD < listenFD + 1 := Int.lt_succ listenFD
  have hready : x.ready = {listenFD} := by
    rw [ready, h, hfd]
    exact Finset.inter_self _
  have hbody : (Server.init H listenFD junk).body listenFD (.accepted (listenFD + 1)) =
      some ([], (Server.init H listenFD junk).addClient (listenFD + 1)) := by
    refine (if_pos rfl).trans (if_pos ⟨h0.trans hlt.le, fun hmem => hlt.ne' ?_⟩)
    exact Finset.mem_singleton.mp hmem
  have hround := reaches_round (a := .accepted _) h hready h0 (le_refl _) (Finset.Subset.refl _)
    hfd hbody
  refine ⟨_, hround, ⟨rfl, ?_, rfl, h0.trans hlt.le, ?_, hlt.ne'⟩, rfl, rfl, rfl, ?_⟩
  · exact (Server.InStep.init listenFD junk).addClient _
  · exact Finset.mem_insert_self ..
  · exact Server.entry_eq_none.mpr (H.ssSearch_sll _)

/-- The server handles the only message on its way. -/
theorem Settled.reaches_message (h : x.Settled i) (hto : x.toServer = [m]) (hm : m ≠ [])
    (hu : ¬ x.server.2.Unknown i m) :
    ∃ y, x.Reaches y ∧ y.Settled i ∧ y.line = x.line ∧ y.toServer = [] ∧
      y.toClient = x.toClient ++ ((x.server.2.recordFor i m).serve m).1 ∧
      y.server.2.entry i = some ((x.server.2.recordFor i m).serve m).2 := by
  obtain ⟨htop, hs, hfd, h0, hi, hl⟩ := h
  have hserver : x.server = (.top, x.server.2) := by rw [← htop]
  have hready : x.ready = {i} := by
    rw [ready, hfd, hto]
    exact Finset.inter_eq_right.mpr (Finset.singleton_subset_iff.mpr hi)
  obtain ⟨w, t, hmsg⟩ := hs.message_answers hi hu
  obtain ⟨ht, hlt, hentry, -, -, hserve⟩ := hs.message hi hmsg
  obtain ⟨rfl, hreg⟩ := hserve hu
  have hbody : x.server.2.body i (.read m) = some (_, t) :=
    (if_neg hl).trans ((if_neg hm).trans hmsg)
  have hround := reaches_round (a := .read m) hserver hready h0 (hs.bounded i hi) hs.registered.ge
    (.inl (by rw [hto]; rfl)) hbody
  refine ⟨_, hround, ⟨rfl, ht, hfd, h0, hreg ▸ hi, hlt ▸ hl⟩, rfl, ?_, rfl, hentry⟩
  change x.toServer.tail = []
  rw [hto]
  rfl

/-- A client that reads while nothing is on its way is deadlocked. -/
theorem Settled.deadlocked (h : x.Settled i) (hts : x.toServer = []) (htc : x.toClient = [])
    (hread : x.line = .read57 ∨ x.line = .read61 ∨ x.line = .recv77) : x.Deadlocked where
  toServer := hts
  toClient := htc
  connected := ⟨i, h.fd, h.inStep.registered ▸ h.registered⟩
  inSelect := by
    have hline : x.line ≠ .exits := by
      rintro hexits
      rw [hexits] at hread
      simp at hread
    refine ⟨h.top, ?_⟩
    rw [ready, h.fd, hts]
    simp [hline]
  inRead := hread

theorem Settled.congr (h : x.Settled i) (hserver : y.server = x.server) (hfd : y.fd = x.fd) :
    y.Settled i := by
  obtain ⟨htop, hs, hi, h0, hreg, hl⟩ := h
  rw [← hserver] at htop hs hreg hl
  exact ⟨htop, hs, hfd.trans hi, h0, hreg, hl⟩

/-- The client reads a message. -/
theorem receive_cons {d : Sent StudentDetail} {rest : List (Sent StudentDetail)}
    (h : x.toClient = d :: rest) : x.receive = some (true, { x with toClient := rest }) := by
  rw [receive, h]

/-- A client that has been thanked, and that the server has answered before,
is deadlocked when the user asks for the detail again. -/
theorem Settled.reaches_recv77 {d : ServerData StudentDetail} {a : Sent StudentDetail}
    (h : x.Settled i) (hline : x.line = .read61) (hts : x.toServer = []) (htc : x.toClient = [a])
    (hd : x.server.2.entry i = some d) (howes : d.sendDataFlag = 0) :
    ∃ y, x.Reaches y ∧ y.Deadlocked := by
  let line := bytes "again\n"
  let x₁ : Talk H := { x with toClient := [], line := .fgets72 }
  let x₂ : Talk H := { x₁ with line := .write73 line }
  let x₃ : Talk H := { x₂ with toServer := [line], line := .recv77 }
  have h₁ : x.step (.client []) = some x₁ := by
    rw [step, client, hline]
    dsimp only
    rw [receive_cons htc]
    rfl
  have h₂ : x₁.step (.client line) = some x₂ := by
    change (if Fgets line then some x₂ else none) = some x₂
    exact if_pos (by decide)
  have h₃ : x₂.step (.client []) = some x₃ := by
    change some { x₂.send (cstr line) with line := afterWrite line } = _
    have hcstr : cstr line = line := by decide
    have hafter : afterWrite line = .recv77 := by decide
    have hsend : x₂.send line = { x₂ with toServer := x.toServer ++ [line] } :=
      if_neg (by decide)
    rw [hcstr, hafter, hsend, hts]
    rfl
  have hset : x₃.Settled i := h.congr rfl rfl
  obtain ⟨y, hy, hsy, hly, hty, hcy, -⟩ := hset.reaches_message (m := line) rfl (by decide)
    fun hu => by
      change x.server.2.Unknown i line at hu
      rw [hu.1] at hd
      cases hd
  refine ⟨y, ?_, hsy.deadlocked hty ?_ (.inr (.inr hly))⟩
  · exact (Reaches.single h₁).trans ((Reaches.single h₂).trans ((Reaches.single h₃).trans hy))
  · have hrec : x₃.server.2.recordFor i line = d := by
      rw [Server.recordFor, show x₃.server.2.entry i = some d from hd, Option.getD_some]
    have hnot : ¬ saysThankYou line := by decide
    rw [hcy, hrec, ServerData.serve_fst, howes, if_neg (by decide), if_neg hnot]
    rfl

/-- The client sends its id, and reads the detail. -/
theorem reaches_read61 {argv3 : List UInt8} {listenFD : Fd} (junk : Ptr → ServerData StudentDetail)
    (h0 : 0 ≤ listenFD) (hst : (H.search (atoi argv3)).isSome) (hid : argv3 ≠ []) :
    ∃ x d, (start H argv3 listenFD junk).Reaches x ∧ x.Settled (listenFD + 1) ∧
      x.line = .read61 ∧ x.toServer = [] ∧
      x.toClient = (if saysThankYou argv3 then [.ackTy] else []) ∧
      x.server.2.entry (listenFD + 1) = some d ∧ d.sendDataFlag = 0 := by
  let x₀ := start H argv3 listenFD junk
  let x₁ : Talk H := { x₀ with toServer := [argv3], line := .read57 }
  have h₁ : x₀.step (.client []) = some x₁ := by
    change some { x₀.send argv3 with line := Line.read57 } = _
    rw [send, if_neg hid]
    rfl
  obtain ⟨y, hy, hset, hline, hts, htc, hnone⟩ := reaches_accept (x := x₁) junk h0 rfl rfl
  obtain ⟨z, hz, hset, hlinez, htsz, htcz, hentry⟩ := hset.reaches_message hts hid
    fun hu => by simp [hu.2] at hst
  obtain ⟨-, -, howes, hnew⟩ := Server.newServData_spec y.server.2 (listenFD + 1) argv3
  rw [Server.recordFor, hnone, Option.getD_none] at htcz hentry
  generalize Server.newServData y.server.2 (listenFD + 1) argv3 = d at *
  have hdetail : z.toClient =
      .detail d.data :: if saysThankYou argv3 then [.ackTy] else [] := by
    rw [htcz, htc, ServerData.serve_fst, if_pos howes]
    rfl
  let x : Talk H := { z with
    toClient := if saysThankYou argv3 then [.ackTy] else []
    line := .read61 }
  have h₂ : z.step (.client []) = some x := by
    rw [step, client, hlinez, hline]
    dsimp only
    rw [receive_cons hdetail]
    rfl
  refine ⟨x, _, (Reaches.single h₁).trans (hy.trans (hz.trans (Reaches.single h₂))),
    hset.congr rfl rfl, rfl, htsz, rfl, hentry, ?_⟩
  simp [ServerData.serve_snd, hnew, howes]

/-- **The deadlock.** -/
theorem reaches_deadlock (argv3 : List UInt8) (listenFD : Fd)
    (junk : Ptr → ServerData StudentDetail) (h0 : 0 ≤ listenFD)
    (hst : (H.search (atoi argv3)).isSome) :
    ∃ x, (start H argv3 listenFD junk).Reaches x ∧ x.Deadlocked := by
  by_cases hid : argv3 = []
  · let x₀ := start H argv3 listenFD junk
    let x₁ : Talk H := { x₀ with line := .read57 }
    have h₁ : x₀.step (.client []) = some x₁ := by
      change some { x₀.send argv3 with line := Line.read57 } = _
      rw [send, if_pos hid]
    obtain ⟨y, hy, hset, hline, hts, htc, -⟩ := reaches_accept (x := x₁) junk h0 rfl rfl
    exact ⟨y, (Reaches.single h₁).trans hy, hset.deadlocked hts htc (.inl hline)⟩
  · obtain ⟨x, d, hx, hset, hline, hts, htc, hentry, howes⟩ := reaches_read61 junk h0 hst hid
    by_cases hty : saysThankYou argv3
    · obtain ⟨y, hy, hdead⟩ :=
        hset.reaches_recv77 hline hts (htc.trans (if_pos hty)) hentry howes
      exact ⟨y, hx.trans hy, hdead⟩
    · have htc' := htc.trans (if_neg hty)
      exact ⟨x, hx, hset.deadlocked hts htc' (.inr (.inl hline))⟩

/-! ## §3 Every run -/

/-- How far a client gets whose id is no "thank_you": its id is on its way,
or its detail is, or it has read the detail, and then nothing is. -/
def Stage (x : Talk H) : Prop :=
  match x.line with
  | .write53 => x.toServer = [] ∧ x.toClient = [] ∧ ∀ j, x.server.2.entry j = none
  | .read57 =>
      x.toServer = [x.argv3] ∧ x.argv3 ≠ [] ∧ x.toClient = [] ∧
          (∀ j, x.server.2.entry j = none) ∨
        x.toServer = [] ∧ x.toClient.length ≤ 1
  | .read61 => x.toServer = [] ∧ x.toClient = []
  | _ => False

/-- What holds in every state that a client with a stored id that is no
"thank_you" comes to. -/
structure Doomed (x : Talk H) : Prop where
  stored : (H.search (atoi x.argv3)).isSome
  noThanks : ¬ saysThankYou x.argv3
  inStep : x.server.2.InStep
  listening : x.server.2.listenFD ∈ x.server.2.masterFDs
  accepted : ∀ i ∈ x.fd, i ∈ x.server.2.masterFDs ∧ i ≠ x.server.2.listenFD
  copy : ∀ R i, x.server.1 = .scan R i → ∀ j ∈ R, j = x.server.2.listenFD ∨ x.fd = some j
  stage : x.Stage

theorem Doomed.not_serverClosed (h : x.Doomed) : ¬ x.ServerClosed := by
  rintro ⟨i, hi, hclosed⟩
  exact hclosed (h.inStep.registered ▸ (h.accepted i hi).1)

/-- A step of the client. -/
theorem Doomed.client {typed : List UInt8} (h : x.Doomed) (hstep : x.client typed = some y) :
    y.Doomed := by
  have hopen := h.not_serverClosed
  obtain ⟨hst, hty, hs, hl, hacc, hcopy, hstage⟩ := h
  obtain ⟨argv3, line, toServer, toClient, server, fd⟩ := x
  simp only [Stage] at hstage
  cases line with
  | write53 =>
    obtain ⟨rfl, rfl, hnone⟩ := hstage
    simp only [Talk.client, send, Option.some.injEq] at hstep
    subst hstep
    split
    · exact ⟨hst, hty, hs, hl, hacc, hcopy, .inr ⟨rfl, Nat.zero_le 1⟩⟩
    · rename_i hid
      exact ⟨hst, hty, hs, hl, hacc, hcopy, .inl ⟨rfl, hid, rfl, hnone⟩⟩
  | read57 =>
    simp only [Talk.client] at hstep
    cases toClient with
    | nil =>
      simp only [receive, if_neg hopen] at hstep
      cases hstep
    | cons d rest =>
      simp only [receive, Option.map_some, Option.some.injEq] at hstep
      subst hstep
      obtain ⟨-, -, hnil, -⟩ | ⟨hts, hlen⟩ := hstage
      · cases hnil
      · refine ⟨hst, hty, hs, hl, hacc, hcopy, hts, ?_⟩
        exact List.length_eq_zero_iff.mp (Nat.le_zero.mp (Nat.le_of_succ_le_succ hlen))
  | read61 =>
    obtain ⟨rfl, rfl⟩ := hstage
    simp only [Talk.client, receive, if_neg hopen] at hstep
    cases hstep
  | _ => exact hstage.elim

/-- The client's only message is its id. -/
theorem Doomed.offered (h : x.Doomed) (hm : x.Offers (.ready (.read m))) :
    m = x.argv3 ∧ m ≠ [] ∧ x.line = .read57 ∧ x.toServer = [x.argv3] ∧ x.toClient = [] ∧
      ∀ j, x.server.2.entry j = none := by
  have hstage := h.stage
  have hempty : x.toServer = [] → x.line ≠ .exits → False := by
    intro hnil hline
    obtain hhead | ⟨-, hexits, -⟩ := hm
    · rw [hnil] at hhead
      cases hhead
    · exact hline hexits
  obtain ⟨argv3, line, toServer, toClient, server, fd⟩ := x
  simp only [Stage] at hstage
  cases line with
  | write53 => exact (hempty hstage.1 nofun).elim
  | read57 =>
    obtain ⟨rfl, hid, rfl, hnone⟩ | ⟨hnil, -⟩ := hstage
    · obtain hhead | ⟨-, hexits, -⟩ := hm
      · obtain rfl : argv3 = m := Option.some.inj hhead
        exact ⟨rfl, hid, rfl, rfl, rfl, hnone⟩
      · cases hexits
    · exact (hempty hnil nofun).elim
  | read61 => exact (hempty hstage.1 nofun).elim
  | _ => exact hstage.elim

theorem eq_of_mem_ready {j : Fd} (h : j ∈ x.ready) :
    j = x.server.2.listenFD ∨ x.fd = some j := by
  have h := (Finset.mem_inter.mp h).2
  cases hfd : x.fd with
  | none =>
    rw [hfd] at h
    exact .inl (Finset.mem_singleton.mp h)
  | some i =>
    rw [hfd] at h
    dsimp only at h
    split at h
    · exact .inr (congrArg some (Finset.mem_singleton.mp h).symm)
    · simp at h

/-- The loop moves on. -/
theorem Doomed.move {ph ph' : Phase} (h : x.Doomed) (hserver : x.server = (ph, s))
    (hcopy : ∀ R i, ph' = .scan R i → ∀ j ∈ R, j = s.listenFD ∨ x.fd = some j) :
    ({ x with server := (ph', s) } : Talk H).Doomed := by
  obtain ⟨hst, hty, hs, hl, hacc, -, hstage⟩ := h
  obtain ⟨argv3, line, toServer, toClient, server, fd⟩ := x
  dsimp only at hserver
  subst hserver
  exact ⟨hst, hty, hs, hl, hacc, hcopy, hstage⟩

/-- The client is accepted. -/
theorem Doomed.accept {newFD : Fd} (h : x.Doomed) (hserver : x.server = (.scan R i, s))
    (hfd : x.fd = none) (hnew : newFD ∉ s.openFDs) :
    (Talk.handled { x with server := (.scan R (i + 1), s.addClient newFD) } []
      (.accepted newFD)).Doomed := by
  obtain ⟨hst, hty, hs, hl, -, hcopy, hstage⟩ := h
  obtain ⟨argv3, line, toServer, toClient, server, fd⟩ := x
  dsimp only at hserver hfd
  subst hserver hfd
  refine ⟨hst, hty, hs.addClient newFD, Finset.mem_insert_of_mem hl, ?_, ?_, hstage⟩
  · intro j hj
    obtain rfl : newFD = j := Option.some.inj hj
    refine ⟨Finset.mem_insert_self .., ?_⟩
    change newFD ≠ s.listenFD
    rintro rfl
    exact hnew (hs.registered ▸ hl)
  · rintro R' k hph j hj
    obtain ⟨rfl, -⟩ := Phase.scan.inj hph
    exact .inl ((hcopy R i rfl j hj).resolve_right nofun)

/-- The client's message is handled. -/
theorem Doomed.message {w : List (Sent StudentDetail)} (h : x.Doomed)
    (hserver : x.server = (.scan R i, s)) (hR : i ∈ R) (hil : i ≠ s.listenFD)
    (ha : x.Offers (.ready (.read m))) (hmsg : s.handleMessage i m = some (w, t)) :
    (Talk.handled { x with server := (.scan R (i + 1), t) } w (.read m)).Doomed := by
  obtain ⟨rfl, -, hline, hts, htc, hnone⟩ := h.offered ha
  obtain ⟨hst, hty, hs, hl, hacc, hcopy, -⟩ := h
  obtain ⟨argv3, line, toServer, toClient, server, fd⟩ := x
  dsimp only at hserver hline hts htc
  subst hserver hline hts htc
  have hfd : fd = some i := (hcopy R i rfl i hR).resolve_left hil
  obtain ⟨ht, hlt, -, -, -, hserve⟩ := hs.message (hacc i hfd).1 hmsg
  obtain ⟨rfl, hreg⟩ := hserve fun hu => by
    rw [hu.2] at hst
    cases hst
  refine ⟨hst, hty, ht, ?_, ?_, ?_, .inr ⟨rfl, ?_⟩⟩
  · change t.listenFD ∈ t.masterFDs
    rw [hlt, hreg]
    exact hl
  · change ∀ j ∈ fd, j ∈ t.masterFDs ∧ j ≠ t.listenFD
    rw [hlt, hreg]
    exact hacc
  · rintro R' k hph j hj
    obtain ⟨rfl, -⟩ := Phase.scan.inj hph
    change j = t.listenFD ∨ _
    rw [hlt]
    exact hcopy R i rfl j hj
  · change ([] ++ ((s.recordFor i argv3).serve argv3).1).length ≤ 1
    rw [ServerData.serve_fst, if_neg hty, List.append_nil, List.nil_append]
    split <;> simp

/-- A body of the loop. -/
theorem Doomed.handled {a : Answer} {w : List (Sent StudentDetail)} (h : x.Doomed)
    (hserver : x.server = (.scan R i, s)) (hR : i ∈ R) (ha : x.Offers (.ready a))
    (hbody : s.body i a = some (w, t)) :
    (Talk.handled { x with server := (.scan R (i + 1), t) } w a).Doomed := by
  obtain ⟨newFD, -, rfl, -, hnew, rfl, rfl⟩ | ⟨-, rfl, -⟩ | ⟨m, hil, rfl, -, hmsg⟩ :=
    Server.body_cases hbody
  · exact h.accept hserver ha hnew
  · exact absurd rfl (h.offered ha).2.1
  · exact h.message hserver hR hil ha hmsg

/-- **Step lemma.** -/
theorem Doomed.step {turn : Turn} (h : x.Doomed) (hstep : x.step turn = some y) : y.Doomed := by
  cases turn with
  | client typed => exact h.client hstep
  | server inp =>
    change x.serve inp = some y at hstep
    rw [serve] at hstep
    split at hstep
    next hoffer =>
      obtain ⟨⟨o, c⟩, hm, hy⟩ := Option.map_eq_some_iff.mp hstep
      rcases hserver : x.server with ⟨ph, s⟩
      have hcopy := h.copy
      rw [hserver] at hm hcopy
      obtain ⟨R, rfl, rfl, -, -, rfl, rfl⟩ | ⟨R, i, rfl, rfl, -, -, rfl, rfl⟩ |
        ⟨R, i, rfl, rfl, -, rfl, rfl⟩ | ⟨R, i, a, w, t, rfl, rfl, -, hR, hbody, rfl, rfl⟩ :=
        SelectLoop.machine_cases hm
      · cases hy
        refine h.move hserver fun R' i hph j hj => ?_
        obtain ⟨rfl, -⟩ := Phase.scan.inj hph
        have hj := eq_of_mem_ready (hoffer.1 ▸ hj)
        rwa [hserver] at hj
      · cases hy
        refine h.move hserver fun R' k hph j hj => ?_
        obtain ⟨rfl, -⟩ := Phase.scan.inj hph
        exact hcopy R i rfl j hj
      · cases hy
        exact h.move hserver nofun
      · cases hy
        exact h.handled hserver hR hoffer hbody
    next => cases hstep

/-- **Run lemma.** -/
theorem Doomed.run (h : x.Doomed) (hreach : x.Reaches y) : y.Doomed := by
  induction hreach with
  | refl => exact h
  | tail _ hstep ih =>
    obtain ⟨turn, hstep⟩ := hstep
    exact ih.step hstep

theorem doomed_start {argv3 : List UInt8} {listenFD : Fd}
    {junk : Ptr → ServerData StudentDetail} (hst : (H.search (atoi argv3)).isSome)
    (hty : ¬ saysThankYou argv3) : (start H argv3 listenFD junk).Doomed where
  stored := hst
  noThanks := hty
  inStep := Server.InStep.init listenFD junk
  listening := Finset.mem_singleton_self _
  accepted := nofun
  copy := nofun
  stage := ⟨rfl, rfl, fun _ => Server.entry_eq_none.mpr (H.ssSearch_sll _)⟩

end Talk

/-- **The client and the server come to wait for each other**, whatever the
store and the stored id: a deadlocked state can be reached, and there neither
goes on. Unless the id begins with "thank_you", the client never even comes
to ask the user. -/
theorem always_deadlocks (H : Headers StudentDetail) (argv3 : List UInt8) (listenFD : Nat)
    (junk : Ptr → ServerData StudentDetail) (hst : (H.search (atoi argv3)).isSome) :
    (∃ x, (Talk.start H argv3 listenFD junk).Reaches x ∧ x.Deadlocked ∧
        ∀ turn, x.step turn = none) ∧
      (¬ saysThankYou argv3 → ∀ x, (Talk.start H argv3 listenFD junk).Reaches x →
        x.line = .write53 ∨ x.line = .read57 ∨ x.line = .read61) := by
  constructor
  · obtain ⟨x, hreach, hdead⟩ := Talk.reaches_deadlock argv3 listenFD junk
      (Int.natCast_nonneg listenFD) hst
    exact ⟨x, hreach, hdead, hdead.stuck⟩
  · intro hty x hreach
    have hstage := ((Talk.doomed_start hst hty).run hreach).stage
    unfold Talk.Stage at hstage
    split at hstage
    next hline => exact .inl hline
    next hline => exact .inr (.inl hline)
    next hline => exact .inr (.inr hline)
    next => exact hstage.elim

/-- The client of a student whose id is 1. -/
def clientOne : Talk (listHeaders oneStudent true) :=
  .start _ (bytes "1") (3 : Nat) fun _ => ⟨0, 0, 0, 0, 0, 0⟩

/-- The client of student 1 never comes to ask the user. -/
theorem clientOne_deadlocks : (∃ x, clientOne.Reaches x ∧ x.Deadlocked) ∧
    ∀ x, clientOne.Reaches x → x.line ≠ .fgets72 := by
  obtain ⟨⟨x, hreach, hdead, -⟩, hline⟩ :=
    always_deadlocks (listHeaders oneStudent true) (bytes "1") 3 (fun _ => ⟨0, 0, 0, 0, 0, 0⟩)
      (by decide)
  refine ⟨⟨x, hreach, hdead⟩, fun y hy hasks => ?_⟩
  obtain h | h | h := hline (by decide) y hy
  all_goals
    rw [hasks] at h
    cases h

/-- The client of student 1 and the server wait for each other. -/
theorem clientOne_waits : ¬ ∀ x, clientOne.Reaches x → ¬ x.Deadlocked := by
  intro hnever
  obtain ⟨x, hreach, hdead⟩ :=
    Talk.reaches_deadlock (H := listHeaders oneStudent true) (bytes "1") (3 : Nat)
    (fun _ => ⟨0, 0, 0, 0, 0, 0⟩) (by decide) (by decide)
  exact hnever x hreach hdead

end CCodes.Older
