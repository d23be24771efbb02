/-
CCodes.Assignment.Registration — the descriptor set and the session list
over whole runs of the loop, with hang-ups and descriptors that come again.

The loop scans a copy of the set; `SelectLoop.exec_events` takes that away,
and what is left is the invariant `Server.InStep` of the events.
-/
import CCodes.Assignment.ServerTheorems

namespace CCodes.Assignment

open CCodes.Lib

/-- The connections that were accepted and have not hung up since. -/
def connect (c : Finset Fd) : Event → Finset Fd
  | (_, .accepted newFD) => insert newFD c
  | (i, .eof) => c.erase i
  | _ => c

def connections (es : List Event) : Finset Fd := es.foldl connect ∅

theorem connections_snoc (es : List Event) (e : Event) :
    connections (es ++ [e]) = connect (connections es) e := by
  rw [connections, List.foldl_append]
  rfl

section

variable {listenFD : Fd} {studentStore : List StDetail} {junk : SsData}

/-- The system's table of open descriptors is the listener and the
connections. -/
theorem openFDs_eq {tr : List (Event × List Message)} {s : Server}
    (h : Exec server.events Server.NoError (Server.init listenFD studentStore junk) tr s) :
    s.openFDs = insert listenFD (connections (tr.map Prod.fst)) ∧
      listenFD ∉ connections (tr.map Prod.fst) := by
  induction h with
  | nil => exact ⟨rfl, Finset.notMem_empty _⟩
  | @snoc tr s t e w hrun hok hstep ih =>
    obtain ⟨hopen, hlisten⟩ := ih
    obtain ⟨hs, hl, -⟩ := Server.InStep.run (fun _ _ h => h) hrun
    obtain ⟨i, a⟩ := e
    rw [List.map_append, List.map_singleton, connections_snoc]
    rcases Server.body_cases (Server.events_eq hstep).2 with
      ⟨newFD, -, rfl, -, hnew, -, rfl⟩ | ⟨res, -, rfl, hm⟩ | ⟨hne, rfl, -, rfl⟩ | ⟨-, rfl, -⟩
    · have hnl : newFD ≠ listenFD := by
        rintro rfl
        exact hnew (hs.registered ▸ hl ▸ hs.listening)
      simp only [Server.addClient, connect, hopen]
      exact ⟨Finset.insert_comm .., by simp [hnl.symm, hlisten]⟩
    · obtain ⟨_, _, _, _, rfl⟩ := Server.handleMessage_frame hm
      exact ⟨hopen, hlisten⟩
    · rw [hl] at hne
      simp only [Server.hangUp, Server.close, connect, hopen]
      exact ⟨Finset.erase_insert_of_ne hne.symm, by simp [hlisten]⟩
    · exact absurd rfl hok

/-- A connection without a session gets one only for an id it sends. -/
theorem session_of_own_id {s t : Server} {i : Fd} {res : Message} {w : List Message}
    (hs : s.InStep) (hi : i ∈ s.masterFDs) (hnone : s.session i = none)
    (hm : s.handleMessage i res = some (w, t)) :
    t.session i = none ∨ ∃ d st, t.session i = some d ∧
      stSearch s.studentStore (atoi res.buffer) = some st ∧ d.clientId = atoi res.buffer ∧
        d.data = (createSs i (atoi res.buffer) st).data := by
  have hopen : i ∈ s.openFDs := hs.registered ▸ hi
  have hp := Server.session_eq_none.mp hnone
  cases hst : stSearch s.studentStore (atoi res.buffer) with
  | none =>
    rw [Server.handleMessage_of_unknown hopen hp hst, Option.some.injEq, Prod.mk.injEq] at hm
    obtain ⟨-, rfl⟩ := hm
    refine .inl (Server.session_eq_none.mpr ?_)
    exact (ssSearch_congr i fun q _ => Server.update_fd (SsData.serve_fd ..) q).trans hp
  | some st =>
    rw [Server.handleMessage_of_stored hopen hp hst, Option.some.injEq, Prod.mk.injEq] at hm
    obtain ⟨-, rfl⟩ := hm
    have hfd : ((SsData.opened i (atoi res.buffer) st).serve res).2.fd = i := by
      simp [SsData.opened, createSs]
    have hpush := s.session_push_self s.brk (s.brk + 1) s.brk
      ((SsData.opened i (atoi res.buffer) st).serve res).2
    rw [hfd] at hpush
    exact .inr ⟨_, st, hpush, rfl, by simp [SsData.opened, createSs],
      by simp [SsData.opened]⟩

end

/-- **The tables stay in step.** In every state that a run of the loop
without read errors comes to, whatever descriptors `select` reports and
`accept` gives: the set is the listener with the open connections, all
within `fdMax`; the sessions are of different connections, all open and in
the set, and hold the record with their client's id. A descriptor that is
not open has no session, nor has it one when it is accepted; and a
connection without a session gets one only for a stored id of its own. -/
theorem registration (listenFD : Fd) (studentStore : List StDetail) (junk : SsData)
    (tr : List (Input Answer × Option (Fd × List Message))) (ph : Phase) (s : Server)
    (h : Exec server.machine (SelectLoop.InputOk Server.NoError)
      (.top, Server.init listenFD studentStore junk) tr (ph, s)) :
    let conns := connections ((SelectLoop.visits tr).map Prod.fst)
    s.masterFDs = insert listenFD conns ∧ listenFD ∉ conns ∧ s.openFDs = s.masterFDs ∧
    (∀ j ∈ s.masterFDs, j ≤ s.fdMax) ∧
    (s.serverStore.map fun p => (s.mem p).fd).Nodup ∧
    (∀ p ∈ s.serverStore, (s.mem p).fd ∈ conns ∧ (s.mem p).fd ∈ s.masterFDs) ∧
    (∀ p ∈ s.serverStore, (s.mem p).data.id = (s.mem p).clientId.toUInt32) ∧
    (∀ newFD, newFD ∉ s.openFDs → s.session newFD = none ∧
      ∀ w t, server.events s (listenFD, .accepted newFD) = some (w, t) →
        t.session newFD = none) ∧
    ∀ i ∈ conns, s.session i = none → ∀ res w t, s.handleMessage i res = some (w, t) →
      t.session i = none ∨ ∃ d st, t.session i = some d ∧
        stSearch studentStore (atoi res.buffer) = some st ∧ d.clientId = atoi res.buffer ∧
          d.data = (createSs i (atoi res.buffer) st).data := by
  intro conns
  obtain ⟨hrun, -⟩ := SelectLoop.exec_events Server.keepsOthers h
  obtain ⟨hs, hl, hst⟩ := Server.InStep.run (fun _ _ h => h) hrun
  obtain ⟨hopen, hlisten⟩ := openFDs_eq hrun
  have hmaster : s.masterFDs = insert listenFD conns := hs.registered.trans hopen
  refine ⟨hmaster, hlisten, hs.registered.symm, hs.bounded, hs.distinct, fun p hp => ?_,
    hs.looked_up, fun newFD hnew => ?_, fun i hi hnone res w t hm => ?_⟩
  · obtain ⟨hmem, hne⟩ := hs.connected p hp
    refine ⟨?_, hmem⟩
    exact Finset.mem_of_mem_insert_of_ne (hmaster ▸ hmem) (hl ▸ hne)
  · have hnone : s.session newFD = none := hs.session_none (by rwa [hs.registered])
    refine ⟨hnone, fun w t hstep => ?_⟩
    rcases Server.body_cases (Server.events_eq hstep).2 with
      ⟨_, -, heq, -, -, -, rfl⟩ | ⟨_, -, heq, -⟩ | ⟨-, heq, -⟩ | ⟨-, heq, -⟩
    · exact hnone
    all_goals cases heq
  · rw [← hst]
    exact session_of_own_id hs (hmaster ▸ Finset.mem_insert_of_mem hi) hnone hm

/-- A client is accepted at 2, asks for its record and hangs up, and the
next one gets the same descriptor; the listener is at 1. -/
def recycled : List (Input Answer) :=
  [.select {1}, .next, .ready (.accepted 2), .next, .next,
    .select {2}, .next, .next, .ready (.data (.ofText (bytes "1"))), .next,
    .select {2}, .next, .next, .ready .eof, .next,
    .select {1}, .next, .ready (.accepted 2), .next, .next]

/-- The tables after `recycled`. -/
theorem registration_recycled : ∃ tr ph s,
    Exec server.machine (SelectLoop.InputOk Server.NoError)
      (.top, Server.init 1 stLlGet .zero) tr (ph, s) ∧ tr.map Prod.fst = recycled ∧
      2 ∈ s.openFDs ∧
      s.masterFDs = insert 1 (connections ((SelectLoop.visits tr).map Prod.fst)) := by
  obtain ⟨tr, ⟨ph, s⟩, h, hin, hopen⟩ := exec_such_that server.machine
    (SelectLoop.InputOk Server.NoError) (.top, Server.init 1 stLlGet .zero) recycled
    (fun p => 2 ∈ p.2.2.openFDs) (by decide)
  exact ⟨tr, ph, s, h, hin, hopen, (registration 1 stLlGet .zero tr ph s h).1⟩

end CCodes.Assignment
