/-
CCodes.Relay.FdSet — when the descriptor set of `selectserver.c` is the set
of the open sockets.

`sockets` are the clients' sockets that are open after some events, whatever
the server made of them. The server tests the result of `accept` for 1 where
a failure is -1: it puts -1 in its set (`FD_SET` of -1 is undefined in C; a
set that holds -1 stands for that here), and it does not serve a client that
gets descriptor 1. So the set is right as long as `accept` gives neither,
and never again after it did: `Corrupt` is kept by every event.
-/
import CCodes.Relay.SelectServerTheorems

namespace CCodes.Relay

open CCodes.Lib

/-- The sockets of clients that are open after one more event. -/
def socketsAfter (fds : Finset Fd) : Event → Finset Fd
  | (_, .accept newFD) => if newFD = -1 then fds else insert newFD fds
  | (i, .recv buf) => if buf = [] then fds.erase i else fds
  | (i, .recvError) => fds.erase i

/-- The sockets of clients that are open after some events. -/
def sockets (es : List Event) : Finset Fd := es.foldl socketsAfter ∅

namespace SelectServer

variable {s t : SelectServer} {i listenFD : Fd} {fds : Finset Fd} {e : Event} {w : List Send}
  {tr : List (Event × List Send)}

/-- The set is the listener and the open sockets of clients, all of them
valid descriptors up to `fdMax`. -/
structure Matches (listenFD : Fd) (fds : Finset Fd) (s : SelectServer) : Prop where
  set : s.masterFDS = insert listenFD fds
  valid : ∀ j ∈ s.masterFDS, 0 ≤ j ∧ j ≤ s.fdMax

/-- What an `accept` has to do to the set. -/
def AcceptTaken (newFD : Int) (s t : SelectServer) : Prop :=
  (newFD = -1 → t.masterFDS = s.masterFDS ∧ t.fdMax = s.fdMax) ∧
    (newFD ≠ -1 → newFD ∈ t.masterFDS)

/-- The set after an `accept` that the server misread. -/
def Corrupt (s : SelectServer) : Prop :=
  -1 ∈ s.masterFDS ∨ 1 ∈ s.openFDs ∧ 1 ∉ s.masterFDS

theorem accepted_masterFDS (s : SelectServer) (newFD : Int) :
    (s.accepted newFD).masterFDS = s.masterFDS := by
  unfold accepted
  split <;> rfl

theorem register_openFDs (s : SelectServer) (newFD : Int) :
    (s.register newFD).openFDs = s.openFDs := by
  unfold register
  split <;> rfl

theorem register_masterFDS (s : SelectServer) (newFD : Int) :
    (s.register newFD).masterFDS = if newFD = 1 then s.masterFDS else insert newFD s.masterFDS := by
  unfold register
  split <;> rfl

/-- The open descriptors are the listener and the sockets of clients. -/
theorem openFDs_event (h : s.openFDs = insert s.listenFD fds)
    (hstep : relay.events s e = some (w, t)) :
    t.openFDs = insert t.listenFD (socketsAfter fds e) ∧ t.listenFD = s.listenFD := by
  obtain ⟨i, a⟩ := e
  rcases body_cases (events_eq hstep).2 with ⟨newFD, -, rfl, -, -, rfl⟩ |
    ⟨buf, -, rfl, hbuf, -, rfl⟩ | ⟨hi, ha, -, rfl⟩
  · have hl : ((s.accepted newFD).register newFD).listenFD = s.listenFD := by
      unfold register accepted
      split <;> split <;> rfl
    refine ⟨?_, hl⟩
    rw [register_openFDs, hl, socketsAfter, accepted]
    split
    · exact h
    · simp only [h, Finset.insert_comm]
  · exact ⟨by rw [socketsAfter, if_neg hbuf, h], rfl⟩
  · have herase : (s.hangUp i).openFDs = insert s.listenFD (fds.erase i) := by
      simp only [hangUp, h, Finset.erase_insert_of_ne hi.symm]
    rcases ha with rfl | rfl
    · exact ⟨by rw [herase, socketsAfter, if_pos rfl]; rfl, rfl⟩
    · exact ⟨herase, rfl⟩

/-- One event keeps a set corrupt. -/
theorem Corrupt.event (h : s.Corrupt) (h0 : 0 ≤ e.1) (hstep : relay.events s e = some (w, t)) :
    t.Corrupt := by
  obtain ⟨i, a⟩ := e
  obtain ⟨hi, hbody⟩ := events_eq hstep
  rcases body_cases hbody with ⟨newFD, -, -, -, -, rfl⟩ | ⟨buf, -, -, -, -, rfl⟩ |
    ⟨-, -, -, rfl⟩
  · rw [Corrupt, register_masterFDS, register_openFDs, accepted_masterFDS]
    rcases h with hm | ⟨ho, hn⟩
    · left
      split
      · exact hm
      · exact Finset.mem_insert_of_mem hm
    · right
      constructor
      · unfold accepted
        split
        · exact ho
        · exact Finset.mem_insert_of_mem ho
      · split
        · exact hn
        · rename_i h1
          exact fun hmem => (Finset.mem_insert.mp hmem).elim (fun h => h1 h.symm) hn
  · exact h
  · rcases h with hm | ⟨ho, hn⟩
    · have hne : (-1 : Fd) ≠ i := by
        rintro rfl
        exact absurd (show (0 : Int) ≤ -1 from h0) (by decide)
      exact .inl (Finset.mem_erase.mpr ⟨hne, hm⟩)
    · have hne : (1 : Fd) ≠ i := by
        rintro rfl
        exact hn hi
      exact .inr ⟨Finset.mem_erase.mpr ⟨hne, ho⟩, fun hmem => hn (Finset.mem_of_mem_erase hmem)⟩

/-- An `accept` that fails, or gives 1, corrupts a set that was right. -/
theorem corrupt_of_accept {newFD : Int} (hset : s.masterFDS = s.openFDs)
    (hbad : newFD = -1 ∨ newFD = 1) (hstep : relay.events s (i, .accept newFD) = some (w, t)) :
    t.Corrupt := by
  rcases body_cases (events_eq hstep).2 with ⟨newFD', -, heq, hnew, -, rfl⟩ |
    ⟨buf, -, heq, -⟩ | ⟨-, heq | heq, -⟩
  · cases heq
    rw [Corrupt, register_masterFDS, register_openFDs, accepted_masterFDS]
    rcases hbad with rfl | rfl
    · exact .inl (Finset.mem_insert_self ..)
    · obtain ⟨-, hfree⟩ := hnew.resolve_left (by decide)
      exact .inr ⟨Finset.mem_insert_self .., by rwa [if_pos rfl, hset]⟩
  all_goals cases heq

/-- Neither -1 nor 1 is a result of `accept` in the event. -/
def AcceptGood (e : Event) : Prop := e.2 ≠ .accept (-1) ∧ e.2 ≠ .accept 1

theorem AcceptGood.successful (h : AcceptGood e) (s : SelectServer) : s.Successful e := by
  obtain ⟨i, a⟩ := e
  cases a with
  | accept newFD => exact ⟨fun h1 => h.1 (by rw [h1]), fun h1 => h.2 (by rw [h1])⟩
  | recv buf => trivial
  | recvError => trivial

theorem not_acceptGood (h : ¬ AcceptGood e) :
    ∃ i newFD, e = (i, .accept newFD) ∧ (newFD = -1 ∨ newFD = 1) := by
  obtain ⟨i, a⟩ := e
  by_cases h1 : a = .accept (-1)
  · exact ⟨i, -1, by rw [h1], .inl rfl⟩
  · by_cases h2 : a = .accept 1
    · exact ⟨i, 1, by rw [h2], .inr rfl⟩
    · exact absurd ⟨h1, h2⟩ h

/-- After a run the set is in step, or an `accept` was misread and the set
is corrupt. -/
theorem run_cases
    (h : Exec relay.events (fun _ e => 0 ≤ e.1) (SelectServer.init listenFD) tr s) :
    ((∀ p ∈ tr, AcceptGood p.1) ∧ s.InStep (Names.after (tr.map Prod.fst))) ∨
      (¬ (∀ p ∈ tr, AcceptGood p.1) ∧ s.Corrupt) := by
  have hgood : ∀ {tr s},
      Exec relay.events (fun _ e => 0 ≤ e.1) (SelectServer.init listenFD) tr s →
      (∀ p ∈ tr, AcceptGood p.1) → s.InStep (Names.after (tr.map Prod.fst)) := by
    intro tr s h hall
    have hrun := (h.and_of_forall hall).mono fun s e he => he.2.successful s
    rw [← talk_names 0 1]
    exact (InStep.run Nat.zero_ne_one hrun).1
  induction h with
  | nil => exact .inl ⟨nofun, .init listenFD⟩
  | @snoc tr s t e w hrun h0 hstep ih =>
    rcases ih with ⟨hall, hs⟩ | ⟨hbad, hs⟩
    · by_cases he : AcceptGood e
      · have hall' : ∀ p ∈ tr ++ [(e, w)], AcceptGood p.1 := by
          intro p hp
          rcases List.mem_append.mp hp with hp | hp
          · exact hall p hp
          · rwa [List.mem_singleton.mp hp]
        exact .inl ⟨hall', hgood (.snoc hrun h0 hstep) hall'⟩
      · obtain ⟨i, newFD, rfl, hnew⟩ := not_acceptGood he
        refine .inr ⟨fun hall' => he (hall' (_, w) ?_), corrupt_of_accept hs.registered hnew hstep⟩
        exact List.mem_append_right _ (List.mem_singleton_self _)
    · exact .inr ⟨fun hall => hbad fun p hp => hall p (List.mem_append_left _ hp),
        hs.event h0 hstep⟩

/-- A set in step matches the listener and the open sockets. -/
theorem InStep.matches {ns : Names} (h : s.InStep ns) (hl : 0 ≤ s.listenFD)
    (hopen : s.openFDs = insert s.listenFD fds) : s.Matches s.listenFD fds := by
  refine ⟨h.registered.trans hopen, fun j hj => ⟨?_, h.bounded j hj⟩⟩
  by_cases hjl : j = s.listenFD
  · exact hjl ▸ hl
  · exact h.natural j hj hjl

/-- A corrupt set does not. -/
theorem Corrupt.not_matches (h : s.Corrupt) (hopen : s.openFDs = insert s.listenFD fds) :
    ¬ s.Matches s.listenFD fds := by
  intro hm
  rcases h with hneg | ⟨ho, hn⟩
  · exact absurd (hm.valid _ hneg).1 (by decide)
  · exact hn (by rwa [hm.set, ← hopen])

theorem openFDs_run {ok : SelectServer → Event → Prop}
    (h : Exec relay.events ok (SelectServer.init listenFD) tr s) :
    s.openFDs = insert listenFD (sockets (tr.map Prod.fst)) ∧ s.listenFD = listenFD := by
  induction h with
  | nil => exact ⟨rfl, rfl⟩
  | @snoc tr s t e w _ _ hstep ih =>
    obtain ⟨ho, rfl⟩ := ih
    rw [List.map_append, sockets, List.foldl_append]
    obtain ⟨ho', hl⟩ := openFDs_event ho hstep
    exact ⟨hl ▸ ho', hl⟩

end SelectServer

/-- **The descriptor set.** In every state of every run of the loop (at the
top of it, and between the descriptors of a pass), whatever `accept` and
`recv` returned: the set is the listener and the open sockets of clients,
all of them valid descriptors up to `fdMax`, and every `accept` did to the
set what it has to, if and only if no `accept` returned -1 or 1. -/
theorem fd_set_matches (listenFD : Fd) (hl : 0 ≤ listenFD)
    (tr : List (Input Answer × Option (Fd × List Send))) (ph : Phase) (s : SelectServer)
    (h : Exec relay.machine (fun _ _ => True) (.top, SelectServer.init listenFD) tr (ph, s)) :
    let evs := SelectLoop.visits tr
    (s.Matches listenFD (sockets (evs.map Prod.fst)) ∧
      ∀ tr' i newFD w u v, tr' ++ [((i, .accept newFD), w)] <+: evs →
        Exec relay.events (fun _ _ => True) (SelectServer.init listenFD) tr' u →
        relay.events u (i, .accept newFD) = some (w, v) → u.AcceptTaken newFD v) ↔
      ∀ p ∈ evs, p.1.2 ≠ .accept (-1) ∧ p.1.2 ≠ .accept 1 := by
  intro evs
  have hrun : Exec relay.events (fun _ e => 0 ≤ e.1) (SelectServer.init listenFD) evs s :=
    (SelectLoop.exec_events SelectServer.keepsOthers (SelectLoop.exec_natural h).1).1
  obtain ⟨hopen, hls⟩ := SelectServer.openFDs_run hrun
  subst hls
  rcases SelectServer.run_cases hrun with ⟨hall, hs⟩ | ⟨hbad, hs⟩
  · refine iff_of_true ⟨hs.matches hl hopen, ?_⟩ hall
    intro tr' i newFD w u v hpre _ hstep
    have hgood : SelectServer.AcceptGood (i, .accept newFD) :=
      hall (_, w) (hpre.subset (List.mem_append_right _ (List.mem_singleton_self _)))
    refine ⟨fun h1 => absurd (congrArg Answer.accept h1) hgood.1, fun _ => ?_⟩
    rcases SelectServer.body_cases (SelectServer.events_eq hstep).2 with
      ⟨newFD', -, heq, -, -, rfl⟩ | ⟨_, -, heq, -⟩ | ⟨-, heq | heq, -⟩
    · cases heq
      rw [SelectServer.register_accepted (hgood.successful u)]
      exact Finset.mem_insert_self ..
    all_goals cases heq
  · exact iff_of_false (fun hm => hs.not_matches hopen hm.1) hbad

/-- A client is accepted at 4, sends a chunk and hangs up; the listener is
at 3. -/
def oneClient : List (Input Answer) :=
  [.select {3}, .next, .next, .next, .ready (.accept 4), .next, .next,
    .select {4}, .next, .next, .next, .next, .ready (.recv [65]), .next,
    .select {4}, .next, .next, .next, .next, .ready (.recv []), .next]

/-- The set after that. -/
theorem fd_set_matches_one_client : ∃ tr ph s,
    Exec relay.machine (fun _ _ => True) (.top, SelectServer.init 3) tr (ph, s) ∧
      tr.map Prod.fst = oneClient ∧
      s.Matches 3 (sockets ((SelectLoop.visits tr).map Prod.fst)) := by
  obtain ⟨tr, ⟨ph, s⟩, h, hin, hgood⟩ := exec_such_that relay.machine (fun _ _ => True)
    (.top, SelectServer.init 3) oneClient
    (fun p => ∀ q ∈ SelectLoop.visits p.1, q.1.2 ≠ .accept (-1) ∧ q.1.2 ≠ .accept 1) (by decide)
  exact ⟨tr, ph, s, h, hin, ((fd_set_matches 3 (by decide) tr ph s h).mpr hgood).1⟩

/-- After an `accept` that failed, the set at the top of the loop holds -1;
after one that gave 1, a client is left out of it. -/
theorem fd_set_corrupt :
    (∃ tr s, Exec relay.machine (fun _ _ => True) (.top, SelectServer.init 3) tr (.top, s) ∧
      (SelectLoop.visits tr).map Prod.fst = [(3, .accept (-1))] ∧ s.masterFDS = {3, -1} ∧
      ¬ s.Matches 3 (sockets ((SelectLoop.visits tr).map Prod.fst))) ∧
    ∃ tr s, Exec relay.machine (fun _ _ => True) (.top, SelectServer.init 3) tr (.top, s) ∧
      (SelectLoop.visits tr).map Prod.fst = [(3, .accept 1)] ∧ s.masterFDS = {3} ∧
      ¬ s.Matches 3 (sockets ((SelectLoop.visits tr).map Prod.fst)) := by
  have hrun : ∀ newFD : Int, (newFD = -1 ∨ newFD = 1) → ∃ tr s,
      Exec relay.machine (fun _ _ => True) (.top, SelectServer.init 3) tr (.top, s) ∧
        (SelectLoop.visits tr).map Prod.fst = [(3, .accept newFD)] ∧
        s = ((SelectServer.init 3).accepted newFD).register newFD := by
    rintro newFD (rfl | rfl)
    · exact ⟨_, _, exec_of_run (rfl : run relay.machine (fun _ _ => True)
        (.top, SelectServer.init 3) [.select {3}, .next, .next, .next, .ready (.accept (-1)), .next]
          = some (_, .top, _)), rfl, rfl⟩
    · exact ⟨_, _, exec_of_run (rfl : run relay.machine (fun _ _ => True)
        (.top, SelectServer.init 3) [.select {3}, .next, .next, .next, .ready (.accept 1), .next]
          = some (_, .top, _)), rfl, rfl⟩
  obtain ⟨tr, s, h, hvis, rfl⟩ := hrun (-1) (.inl rfl)
  obtain ⟨tr', s', h', hvis', rfl⟩ := hrun 1 (.inr rfl)
  refine ⟨⟨tr, _, h, hvis, by decide, fun hm => ?_⟩, ⟨tr', _, h', hvis', rfl, fun hm => ?_⟩⟩
  · exact absurd (hm.valid (-1) (by decide)).1 (by decide)
  · rw [hvis'] at hm
    exact absurd hm.set (by decide)

end CCodes.Relay
