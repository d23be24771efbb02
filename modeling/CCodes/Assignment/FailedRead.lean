/-
CCodes.Assignment.FailedRead — a read that fails.

`Read` closes the descriptor when `read` returns -1, as it does for 0, but
the caller tests for 0 only. So the descriptor goes on as if a message of
zeros had been read from it: the server ends in the `Write` that follows,
or keeps a closed descriptor in its set and ends in the next `select`.
-/
import CCodes.Assignment.ServerTheorems

namespace CCodes.Assignment

open CCodes.Lib

namespace Server

variable {s t u : Server} {i j : Fd}

/-- A failed read on `i` is contained: the server goes on without `i`, and
with all the rest as it was. -/
def ReadErrorContained (s : Server) (i : Fd) : Prop :=
  ∃ t, s.body i .error = some ([], t) ∧
    i ∉ t.masterFDs ∧ (∀ j, j ≠ i → (j ∈ t.masterFDs ↔ j ∈ s.masterFDs)) ∧
    t.session i = none ∧ (∀ j, j ≠ i → t.session j = s.session j) ∧
    t.masterFDs ⊆ t.openFDs

theorem setFlags_zero (d : SsData) : d.setFlags .zero = d := by
  simp [SsData.setFlags, Message.isBuffer, Message.zero, bytes, strncmp]

/-- Lines 127-150 after a failed read: a detail that is owed is written to
a closed descriptor. -/
theorem sendDetail_closed (hi : i ∉ s.openFDs) :
    (s.setFlags .zero).sendDetail i =
      if (s.mem s.clientData).sFlag = 1 then none else some ([], s) := by
  have hzero : s.setFlags .zero = s := by
    rw [setFlags, setFlags_zero, setMem, Function.update_eq_self]
  have hw : ∀ m, s.write i m = none := fun m => if_neg hi
  rw [hzero, sendDetail]
  split
  · rw [hw]
    rfl
  · rfl

/-! Lines 102-151 for a descriptor that `Read` just closed. -/

theorem closed_of_session {p : Ptr} (hp : ssSearch s.mem s.serverStore i = some p) :
    (s.close i).handleMessage i .zero =
      if (s.mem p).sFlag = 1 then none else some ([], { s.close i with clientData := p }) := by
  have hfind := findSession_of_session (s := s.close i) hp .zero
  have hsend := sendDetail_closed (s := { s.close i with clientData := p })
    (Finset.notMem_erase i s.openFDs)
  simp only [handleMessage, hfind, Option.bind_eq_bind, Option.bind_some, hsend]
  split
  · exact (if_pos ‹_›).symm
  · exact (if_neg ‹_›).symm

theorem closed_of_unknown (hp : ssSearch s.mem s.serverStore i = none)
    (hst : stSearch s.studentStore (atoi Message.zero.buffer) = none) :
    (s.close i).handleMessage i .zero = none := by
  have hw : (s.close i).write i .notFound = none := if_neg (Finset.notMem_erase i s.openFDs)
  have hfind := findSession_of_unknown (s := s.close i) hp hst
  rw [hw, Option.map_none] at hfind
  rw [handleMessage, hfind]
  rfl

/-- A record with id 0: the new session owes its detail. -/
theorem closed_of_stored {st : StDetail} (hp : ssSearch s.mem s.serverStore i = none)
    (hst : stSearch s.studentStore (atoi Message.zero.buffer) = some st) :
    (s.close i).handleMessage i .zero = none := by
  let s' : Server := { (s.close i).setMem s.brk (SsData.opened i (atoi Message.zero.buffer) st) with
    brk := s.brk + 1
    serverStore := ssPush s.serverStore s.brk
    clientData := s.brk }
  have hfind : (s.close i).findSession i .zero = some ([], s') :=
    findSession_of_stored (s := s.close i) hp hst
  have hsend := sendDetail_closed (s := s') (Finset.notMem_erase i s.openFDs)
  have howes : s'.mem s'.clientData = SsData.opened i (atoi Message.zero.buffer) st :=
    setMem_mem_self ..
  simp only [handleMessage, hfind, Option.bind_eq_bind, Option.bind_some, hsend, howes]
  rfl

/-- What the body does when a read fails: a session that is owed nothing
is all that saves the server from the `exit` in `Write`. -/
theorem body_error (hne : i ≠ s.listenFD) :
    s.body i .error =
      match ssSearch s.mem s.serverStore i with
      | some p =>
          if (s.mem p).sFlag = 1 then none
          else some ([], { s.close i with clientData := p })
      | none => none := by
  have hbody : s.body i .error = (s.close i).handleMessage i .zero := if_neg hne
  rw [hbody]
  cases hp : ssSearch s.mem s.serverStore i with
  | some p => exact closed_of_session hp
  | none =>
    cases hst : stSearch s.studentStore (atoi Message.zero.buffer) with
    | none => exact closed_of_unknown hp hst
    | some st => exact closed_of_stored hp hst

/-- A closed descriptor in the set. -/
def Dangling (i : Fd) (s : Server) : Prop := i ∈ s.masterFDs ∧ i ∉ s.openFDs

/-- No `select` is possible with a closed descriptor in the set. -/
theorem Dangling.select_fails (h : s.Dangling i) (R : Finset Fd) :
    server.machine (.top, s) (.select R) = none :=
  if_neg fun hsel => h.2 (hsel.1 h.1)

/-- It stays there until the system gives the descriptor to a client. -/
theorem Dangling.run {tr : List (Event × List Message)} (h : s.Dangling i)
    (hrun : Exec server.events (fun _ e => e.1 ≠ i ∧ e.2 ≠ .accepted i) s tr u) :
    u.Dangling i := by
  refine hrun.invariant (Dangling i) h ?_
  rintro s ⟨j, a⟩ w t ⟨hm, ho⟩ ⟨hji, hai⟩ hstep
  refine ⟨keepsOthers s j a w t (events_eq hstep).2 i hm hji.symm, ?_⟩
  rcases body_cases (events_eq hstep).2 with ⟨newFD, -, rfl, -, -, -, rfl⟩ | ⟨res, -, -, hm⟩ |
    ⟨-, -, -, rfl⟩ | ⟨-, -, hm⟩
  · intro hmem
    rcases Finset.mem_insert.mp hmem with rfl | hmem
    · exact hai rfl
    · exact ho hmem
  · obtain ⟨_, _, _, _, rfl⟩ := handleMessage_frame hm
    exact ho
  · exact fun hmem => ho (Finset.mem_of_mem_erase hmem)
  · obtain ⟨_, _, _, _, rfl⟩ := handleMessage_frame hm
    exact fun hmem => ho (Finset.mem_of_mem_erase hmem)

end Server

/-- **A failed read is never contained.** In every state that a run of the
loop comes to, and for every registered connection, a read that fails ends
the server at once, if the connection has no session; else, if the server
gets through the body at all, the closed descriptor stays in the set with
its session, and until the system gives that descriptor to another client
no `select` is possible. -/
theorem read_error_not_contained (listenFD : Fd) (studentStore : List StDetail) (junk : SsData)
    (tr : List (Input Answer × Option (Fd × List Message))) (ph : Phase) (s : Server)
    (h : Exec server.machine (fun _ _ => True)
      (.top, Server.init listenFD studentStore junk) tr (ph, s))
    (i : Fd) (hi : i ∈ s.masterFDs) (hne : i ≠ listenFD) :
    ¬ s.ReadErrorContained i ∧
    (s.session i = none → s.body i .error = none) ∧
    ∀ w t, s.body i .error = some (w, t) →
      i ∈ t.masterFDs ∧ i ∉ t.openFDs ∧ t.session i = s.session i ∧
      ∀ tr' u, Exec server.events (fun _ e => e.1 ≠ i ∧ e.2 ≠ .accepted i) t tr' u →
        ∀ R, server.machine (.top, u) (.select R) = none := by
  have hrun : Exec server.machine (SelectLoop.InputOk fun _ _ => True)
      (.top, Server.init listenFD studentStore junk) tr (ph, s) :=
    h.mono fun c inp _ => by
      obtain ⟨_ | _, _⟩ := c <;> cases inp <;> trivial
  obtain ⟨hrun, -⟩ := SelectLoop.exec_events Server.keepsOthers hrun
  have hl : s.listenFD = listenFD := by
    refine hrun.invariant (fun s => s.listenFD = listenFD) rfl ?_
    exact fun s e w t hs _ hstep => (Server.events_frame hstep).1.trans hs
  have hbody := Server.body_error (hl ▸ hne)
  have hafter : ∀ w t, s.body i .error = some (w, t) →
      ∃ p, t = { s.close i with clientData := p } := by
    intro w t hb
    rw [hbody] at hb
    split at hb
    · split at hb
      · cases hb
      · cases hb
        exact ⟨_, rfl⟩
    · cases hb
  refine ⟨?_, fun hnone => ?_, fun w t hb => ?_⟩
  · rintro ⟨t, hb, hmem, -⟩
    obtain ⟨p, rfl⟩ := hafter _ t hb
    exact hmem hi
  · rw [hbody, Server.session_eq_none.mp hnone]
  · obtain ⟨p, rfl⟩ := hafter w t hb
    have hdangling : Server.Dangling i { s.close i with clientData := p } :=
      ⟨hi, Finset.notMem_erase i s.openFDs⟩
    exact ⟨hdangling.1, hdangling.2, rfl, fun _ u hu R => (hdangling.run hu).select_fails R⟩

/-- One client is accepted at 2 and asks for its record; the listener is
at 1. -/
def oneClient : List (Input Answer) :=
  [.select {1}, .next, .ready (.accepted 2), .next, .next,
    .select {2}, .next, .next, .ready (.data (.ofText (bytes "1")))]

/-- The theorem for that client. -/
theorem read_error_not_contained_one_client : ∃ tr ph s,
    Exec server.machine (fun _ _ => True) (.top, Server.init 1 stLlGet .zero) tr (ph, s) ∧
      tr.map Prod.fst = oneClient ∧ ¬ s.ReadErrorContained 2 := by
  obtain ⟨tr, ⟨ph, s⟩, h, hin, hreg⟩ := exec_such_that server.machine (fun _ _ => True)
    (.top, Server.init 1 stLlGet .zero) oneClient (fun p => 2 ∈ p.2.2.masterFDs) (by decide)
  exact ⟨tr, ph, s, h, hin,
    (read_error_not_contained 1 stLlGet .zero tr ph s h 2 hreg (by decide)).1⟩

/-- When that client resets its connection, the server writes nothing and
goes on with the closed descriptor in its set. -/
theorem read_error_keeps_closed_fd : ∃ tr ph s t,
    Exec server.machine (fun _ _ => True) (.top, Server.init 1 stLlGet .zero) tr (ph, s) ∧
      tr.map Prod.fst = oneClient ∧ s.body 2 .error = some ([], t) ∧
      2 ∈ t.masterFDs ∧ 2 ∉ t.openFDs ∧ ¬ s.ReadErrorContained 2 := by
  obtain ⟨tr, ⟨ph, s⟩, h, hin, htest⟩ := exec_such_that server.machine (fun _ _ => True)
    (.top, Server.init 1 stLlGet .zero) oneClient
    (fun p => (p.2.2.body 2 .error).map (fun q => (q.1, decide (2 ∈ q.2.masterFDs),
      decide (2 ∈ q.2.openFDs))) = some ([], true, false)) (by decide)
  obtain ⟨⟨w, t⟩, hbody, htest⟩ := Option.map_eq_some_iff.mp htest
  simp only [Prod.mk.injEq, decide_eq_true_eq, decide_eq_false_iff_not] at htest
  obtain ⟨rfl, hmem, hclosed⟩ := htest
  refine ⟨tr, ph, s, t, h, hin, hbody, hmem, hclosed, ?_⟩
  rintro ⟨t', hbody', hgone, -⟩
  rw [hbody, Option.some.injEq, Prod.mk.injEq] at hbody'
  exact hgone (hbody'.2 ▸ hmem)

end CCodes.Assignment
