/-
CCodes.Assignment.ServerTheorems — what one event does to the sessions.

`handleMessage` is a step of `connection` for the descriptor it runs for,
except in the branch for an unknown id, which goes on with the record
`clientData` was left at (`handleMessage_of_unknown`).
-/
import CCodes.Assignment.Connection

namespace CCodes.Assignment

open CCodes.Lib

/-! ## §1 The session table -/

theorem ssSearch_spec {mem : Ptr → SsData} {ll : List Ptr} {i : Fd} {p : Ptr}
    (h : ssSearch mem ll i = some p) : p ∈ ll ∧ (mem p).fd = i :=
  ⟨List.mem_of_find?_eq_some h, by simpa using List.find?_some h⟩

theorem ssSearch_none {mem : Ptr → SsData} {ll : List Ptr} {i : Fd} :
    ssSearch mem ll i = none ↔ ∀ p ∈ ll, (mem p).fd ≠ i := by
  simp [ssSearch]

/-- `ss_search` looks at the descriptors only. -/
theorem ssSearch_congr {mem mem' : Ptr → SsData} {ll : List Ptr} (i : Fd)
    (h : ∀ p ∈ ll, (mem' p).fd = (mem p).fd) : ssSearch mem' ll i = ssSearch mem ll i := by
  induction ll with
  | nil => rfl
  | cons p ll ih =>
    have hp := h p List.mem_cons_self
    have hll := ih fun q hq => h q (List.mem_cons_of_mem _ hq)
    simp only [ssSearch, List.find?_cons, hp] at hll ⊢
    rw [hll]

theorem ssSearch_ssDelete_of_ne (mem : Ptr → SsData) {i j : Fd} (hij : j ≠ i) :
    ∀ ll : List Ptr, ssSearch mem (ssDelete mem ll i) j = ssSearch mem ll j
  | [] => rfl
  | p :: ll => by
      have ih := ssSearch_ssDelete_of_ne mem hij ll
      by_cases hp : (mem p).fd = i
      · have hj : (mem p).fd ≠ j := fun h => hij (h.symm.trans hp)
        simp [ssDelete, ssSearch, hp, hij.symm]
      · simp only [ssDelete, ssSearch] at ih ⊢
        rw [List.eraseP_cons_of_neg (by simpa using hp), List.find?_cons, List.find?_cons, ih]

/-- With one node for each descriptor, `ss_delete` leaves none. -/
theorem ssSearch_ssDelete_self {mem : Ptr → SsData} {i : Fd} :
    ∀ ll : List Ptr, (ll.map fun p => (mem p).fd).Nodup →
      ssSearch mem (ssDelete mem ll i) i = none
  | [], _ => rfl
  | p :: ll, hnd => by
      rw [List.map_cons, List.nodup_cons] at hnd
      by_cases hp : (mem p).fd = i
      · rw [ssSearch_none, ssDelete, List.eraseP_cons_of_pos (by simpa using hp)]
        intro q hq hqi
        exact hnd.1 (List.mem_map.mpr ⟨q, hq, hqi.trans hp.symm⟩)
      · have ih := ssSearch_ssDelete_self (i := i) ll hnd.2
        rw [ssSearch_none] at ih ⊢
        rw [ssDelete, List.eraseP_cons_of_neg (by simpa using hp)]
        intro q hq
        rcases List.mem_cons.mp hq with rfl | hq
        · exact hp
        · exact ih q hq

theorem mem_of_mem_ssDelete {mem : Ptr → SsData} {ll : List Ptr} {i : Fd} {p : Ptr}
    (h : p ∈ ssDelete mem ll i) : p ∈ ll :=
  List.mem_of_mem_eraseP h

namespace Server

variable {s t : Server} {i j : Fd} {p : Ptr} {res : Message}

@[simp] theorem setMem_mem_self (s : Server) (p : Ptr) (d : SsData) : (s.setMem p d).mem p = d :=
  Function.update_self ..

theorem setMem_mem_of_ne {q : Ptr} (hq : q ≠ p) (d : SsData) : (s.setMem p d).mem q = s.mem q :=
  Function.update_of_ne hq ..

/-- The record at `p` written over by one with the same descriptor. -/
theorem update_fd {d : SsData} (hd : d.fd = (s.mem p).fd) (q : Ptr) :
    (Function.update s.mem p d q).fd = (s.mem q).fd := by
  by_cases hq : q = p
  · rw [hq, Function.update_self, hd]
  · rw [Function.update_of_ne hq]

/-- Writing to the record at `p` changes the session of its descriptor at
most. -/
theorem session_setMem_of_ne {d : SsData} (hd : d.fd = (s.mem p).fd) (hj : j ≠ (s.mem p).fd) :
    (s.setMem p d).session j = s.session j := by
  have hss : ssSearch (Function.update s.mem p d) s.serverStore j =
      ssSearch s.mem s.serverStore j := ssSearch_congr j fun q _ => update_fd hd q
  simp only [session, setMem, hss]
  refine Option.map_congr fun q hq => ?_
  have hne : q ≠ p := by
    rintro rfl
    exact hj (ssSearch_spec hq).2.symm
  rw [Function.update_of_ne hne]

/-- A record that is in no session is free to change. -/
theorem session_setMem_of_not_mem {d : SsData} (hd : d.fd = (s.mem p).fd)
    (hp : p ∉ s.serverStore) (j : Fd) : (s.setMem p d).session j = s.session j := by
  have hss : ssSearch (Function.update s.mem p d) s.serverStore j =
      ssSearch s.mem s.serverStore j := ssSearch_congr j fun q _ => update_fd hd q
  simp only [session, setMem, hss]
  refine Option.map_congr fun q hq => ?_
  have hne : q ≠ p := by
    rintro rfl
    exact hp (ssSearch_spec hq).1
  rw [Function.update_of_ne hne]

/-- Writing to the record of a session changes that session. -/
theorem session_setMem_self {d : SsData} (hd : d.fd = (s.mem p).fd)
    (hp : ssSearch s.mem s.serverStore i = some p) : (s.setMem p d).session i = some d := by
  have hss : ssSearch (Function.update s.mem p d) s.serverStore i = some p := by
    rw [ssSearch_congr i fun q _ => update_fd hd q, hp]
  simp only [session, setMem, hss, Option.map_some, Function.update_self]

/-! ## §2 One message -/

/-- Lines 127-150: on an open descriptor they serve the record `clientData`
points to. -/
theorem serve_current (hi : i ∈ s.openFDs) (res : Message) :
    (s.setFlags res).sendDetail i =
      some (((s.mem s.clientData).serve res).1,
        s.setMem s.clientData ((s.mem s.clientData).serve res).2) := by
  have hmem : (s.setFlags res).mem (s.setFlags res).clientData =
      (s.mem s.clientData).setFlags res := Function.update_self ..
  have hw : (s.setFlags res).write i (.ofDetail ((s.mem s.clientData).setFlags res).data) =
      some [.ofDetail ((s.mem s.clientData).setFlags res).data] := if_pos hi
  simp only [sendDetail, hmem, SsData.serve]
  split
  · rw [hw]
    simp only [setFlags, setMem, Function.update_idem]
    rfl
  · rfl

/-! The three ways through lines 104-125. -/

theorem findSession_of_session (hp : ssSearch s.mem s.serverStore i = some p) (res : Message) :
    s.findSession i res = some ([], { s with clientData := p }) := by
  rw [findSession, hp]

theorem findSession_of_stored {stDetail : StDetail}
    (hp : ssSearch s.mem s.serverStore i = none)
    (hst : stSearch s.studentStore (atoi res.buffer) = some stDetail) :
    s.findSession i res = some ([],
      { s.setMem s.brk (SsData.opened i (atoi res.buffer) stDetail) with
        brk := s.brk + 1
        serverStore := ssPush s.serverStore s.brk
        clientData := s.brk }) := by
  rw [findSession, hp]
  simp only [hst]
  rfl

theorem findSession_of_unknown (hp : ssSearch s.mem s.serverStore i = none)
    (hst : stSearch s.studentStore (atoi res.buffer) = none) :
    s.findSession i res = (s.write i .notFound).map fun w => (w, s) := by
  rw [findSession, hp]
  simp only [hst]
  cases s.write i .notFound <;> rfl

/-- A connection with a session. -/
theorem handleMessage_of_session (hi : i ∈ s.openFDs)
    (hp : ssSearch s.mem s.serverStore i = some p) (res : Message) :
    s.handleMessage i res = some (((s.mem p).serve res).1,
      { s.setMem p ((s.mem p).serve res).2 with clientData := p }) := by
  have hserve := serve_current (s := { s with clientData := p }) hi res
  simp only [handleMessage, findSession_of_session hp, Option.bind_eq_bind, Option.bind_some,
    hserve]
  rfl

/-- A connection without a session that sends a stored id. -/
theorem handleMessage_of_stored {stDetail : StDetail} (hi : i ∈ s.openFDs)
    (hp : ssSearch s.mem s.serverStore i = none)
    (hst : stSearch s.studentStore (atoi res.buffer) = some stDetail) :
    let p := (SsData.opened i (atoi res.buffer) stDetail).serve res
    s.handleMessage i res = some (p.1,
      { s.setMem s.brk p.2 with
        brk := s.brk + 1
        serverStore := ssPush s.serverStore s.brk
        clientData := s.brk }) := by
  let s' : Server :=
    { s.setMem s.brk (SsData.opened i (atoi res.buffer) stDetail) with
      brk := s.brk + 1
      serverStore := ssPush s.serverStore s.brk
      clientData := s.brk }
  have hfind : s.findSession i res = some ([], s') := findSession_of_stored hp hst
  have hmem : s'.mem s'.clientData = SsData.opened i (atoi res.buffer) stDetail :=
    Function.update_self ..
  have hserve := serve_current (s := s') hi res
  rw [hmem] at hserve
  simp only [handleMessage, hfind, Option.bind_eq_bind, Option.bind_some, hserve]
  simp only [s', setMem, Function.update_idem]
  rfl

/-- A connection without a session that sends anything else. The lines
after the reply serve the record `clientData` was left at, whoever it
belongs to. -/
theorem handleMessage_of_unknown (hi : i ∈ s.openFDs)
    (hp : ssSearch s.mem s.serverStore i = none)
    (hst : stSearch s.studentStore (atoi res.buffer) = none) :
    s.handleMessage i res = some (.notFound :: ((s.mem s.clientData).serve res).1,
      s.setMem s.clientData ((s.mem s.clientData).serve res).2) := by
  have hfind : s.findSession i res = some ([.notFound], s) := by
    rw [findSession_of_unknown hp hst, write, if_pos hi, Option.map_some]
  simp only [handleMessage, hfind, Option.bind_eq_bind, Option.bind_some, serve_current hi res]
  rfl

/-- An open descriptor is always answered. -/
theorem handleMessage_answers (hi : i ∈ s.openFDs) (res : Message) :
    ∃ w t, s.handleMessage i res = some (w, t) := by
  cases hp : ssSearch s.mem s.serverStore i with
  | some p => exact ⟨_, _, handleMessage_of_session hi hp res⟩
  | none =>
    cases hst : stSearch s.studentStore (atoi res.buffer) with
    | some d => exact ⟨_, _, handleMessage_of_stored hi hp hst⟩
    | none => exact ⟨_, _, handleMessage_of_unknown hi hp hst⟩

/-- A message changes the sessions, and nothing about the descriptors. -/
theorem handleMessage_frame {w : List Message} (h : s.handleMessage i res = some (w, t)) :
    ∃ mem brk serverStore clientData, t = { s with
      mem := mem, brk := brk, serverStore := serverStore, clientData := clientData } := by
  have hfind : ∀ {w s'}, s.findSession i res = some (w, s') →
      ∃ mem brk serverStore clientData, s' = { s with
        mem := mem, brk := brk, serverStore := serverStore, clientData := clientData } := by
    intro w s' h
    unfold findSession at h
    split at h
    · cases h
      exact ⟨_, _, _, _, rfl⟩
    · dsimp only at h
      split at h
      · obtain ⟨w', -, h⟩ := Option.bind_eq_some_iff.mp h
        cases h
        exact ⟨_, _, _, _, rfl⟩
      · cases h
        exact ⟨_, _, _, _, rfl⟩
  have hsend : ∀ {s' : Server} {w t}, s'.sendDetail i = some (w, t) →
      ∃ mem, t = { s' with mem := mem } := by
    intro s' w t h
    unfold sendDetail at h
    dsimp only at h
    split at h
    · obtain ⟨w', -, h⟩ := Option.bind_eq_some_iff.mp h
      cases h
      exact ⟨_, rfl⟩
    · cases h
      exact ⟨_, rfl⟩
  unfold handleMessage at h
  obtain ⟨⟨w₁, s₁⟩, h₁, h⟩ := Option.bind_eq_some_iff.mp h
  obtain ⟨⟨w₂, s₂⟩, h₂, h⟩ := Option.bind_eq_some_iff.mp h
  cases h
  obtain ⟨_, _, _, _, rfl⟩ := hfind h₁
  obtain ⟨_, rfl⟩ := hsend h₂
  exact ⟨_, _, _, _, rfl⟩

/-! ## §3 The invariant of the tables -/

/-- The session list and the descriptor set are in step with the
connections. -/
structure InStep (s : Server) : Prop where
  listening : s.listenFD ∈ s.masterFDs
  registered : s.masterFDs = s.openFDs
  bounded : ∀ j ∈ s.masterFDs, j ≤ s.fdMax
  natural : ∀ j ∈ s.masterFDs, j ≠ s.listenFD → 0 ≤ j
  distinct : (s.serverStore.map fun p => (s.mem p).fd).Nodup
  connected : ∀ p ∈ s.serverStore, (s.mem p).fd ∈ s.masterFDs ∧ (s.mem p).fd ≠ s.listenFD
  looked_up : ∀ p ∈ s.serverStore, (s.mem p).data.id = (s.mem p).clientId.toUInt32
  allocated : ∀ p ∈ s.serverStore, p < s.brk
  current : s.clientData < s.brk

theorem InStep.init (listenFD : Fd) (studentStore : List StDetail) (junk : SsData) :
    (Server.init listenFD studentStore junk).InStep where
  listening := Finset.mem_singleton_self _
  registered := rfl
  bounded _ hj := (Finset.mem_singleton.mp hj).le
  natural _ hj hne := absurd (Finset.mem_singleton.mp hj) hne
  distinct := List.nodup_nil
  connected _ hp := absurd hp List.not_mem_nil
  looked_up _ hp := absurd hp List.not_mem_nil
  allocated _ hp := absurd hp List.not_mem_nil
  current := Nat.zero_lt_one

/-- A record keeps its place when its flags change. -/
theorem InStep.setMem {d : SsData} (h : s.InStep) (hd : d.fd = (s.mem p).fd)
    (hid : d.clientId = (s.mem p).clientId) (hdata : d.data = (s.mem p).data) :
    (s.setMem p d).InStep := by
  have hfd : ∀ q, ((s.setMem p d).mem q).fd = (s.mem q).fd := update_fd hd
  have hlook : ∀ q, ((s.setMem p d).mem q).data = (s.mem q).data ∧
      ((s.setMem p d).mem q).clientId = (s.mem q).clientId := by
    intro q
    by_cases hq : q = p
    · rw [hq, setMem_mem_self]
      exact ⟨hdata, hid⟩
    · rw [setMem_mem_of_ne hq]
      exact ⟨rfl, rfl⟩
  refine ⟨h.listening, h.registered, h.bounded, h.natural, ?_, fun q hq => ?_, fun q hq => ?_,
    h.allocated, h.current⟩
  · simp only [hfd]
    exact h.distinct
  · rw [hfd]
    exact h.connected q hq
  · rw [(hlook q).1, (hlook q).2]
    exact h.looked_up q hq

/-- A new session for a connection that has none. -/
theorem InStep.push {d : SsData} (h : s.InStep) (hi : d.fd ∈ s.masterFDs)
    (hne : d.fd ≠ s.listenFD) (hp : ssSearch s.mem s.serverStore d.fd = none)
    (hid : d.data.id = d.clientId.toUInt32) :
    InStep { s.setMem s.brk d with
      brk := s.brk + 1
      serverStore := ssPush s.serverStore s.brk
      clientData := s.brk } := by
  have hold : ∀ q ∈ s.serverStore, (s.setMem s.brk d).mem q = s.mem q := fun q hq =>
    setMem_mem_of_ne (h.allocated q hq).ne d
  refine ⟨h.listening, h.registered, h.bounded, h.natural, ?_, ?_, ?_, ?_, Nat.lt_succ_self _⟩
  · have hfds : s.serverStore.map (fun q => ((s.setMem s.brk d).mem q).fd) =
        s.serverStore.map fun q => (s.mem q).fd :=
      List.map_congr_left fun q hq => by rw [hold q hq]
    simp only [ssPush, List.map_cons, setMem_mem_self, hfds, List.nodup_cons]
    refine ⟨fun hmem => ?_, h.distinct⟩
    obtain ⟨q, hq, hqi⟩ := List.mem_map.mp hmem
    exact ssSearch_none.mp hp q hq hqi
  · intro q hq
    rcases List.mem_cons.mp hq with rfl | hq
    · rw [setMem_mem_self]
      exact ⟨hi, hne⟩
    · rw [hold q hq]
      exact h.connected q hq
  · intro q hq
    rcases List.mem_cons.mp hq with rfl | hq
    · rw [setMem_mem_self]
      exact hid
    · rw [hold q hq]
      exact h.looked_up q hq
  · intro q hq
    rcases List.mem_cons.mp hq with rfl | hq
    · exact Nat.lt_succ_self _
    · exact Nat.lt_succ_of_lt (h.allocated q hq)

theorem InStep.handleMessage {w : List Message} (h : s.InStep) (hi : i ∈ s.masterFDs)
    (hne : i ≠ s.listenFD) (hm : s.handleMessage i res = some (w, t)) : t.InStep := by
  have hopen : i ∈ s.openFDs := h.registered ▸ hi
  cases hp : ssSearch s.mem s.serverStore i with
  | some p =>
    rw [handleMessage_of_session hopen hp, Option.some.injEq, Prod.mk.injEq] at hm
    obtain ⟨-, rfl⟩ := hm
    have h' : (s.setMem p ((s.mem p).serve res).2).InStep := h.setMem (by simp) (by simp) (by simp)
    exact ⟨h'.listening, h'.registered, h'.bounded, h'.natural, h'.distinct, h'.connected,
      h'.looked_up, h'.allocated, h.allocated p (ssSearch_spec hp).1⟩
  | none =>
    cases hst : stSearch s.studentStore (atoi res.buffer) with
    | some stDetail =>
      rw [handleMessage_of_stored hopen hp hst, Option.some.injEq, Prod.mk.injEq] at hm
      obtain ⟨-, rfl⟩ := hm
      have hfd : ((SsData.opened i (atoi res.buffer) stDetail).serve res).2.fd = i := by
        simp [SsData.opened, createSs]
      refine h.push (by rwa [hfd]) (by rwa [hfd]) (by rwa [hfd]) ?_
      simp [SsData.opened, createSs, stCreate, (stSearch_id hst).2]
    | none =>
      rw [handleMessage_of_unknown hopen hp hst, Option.some.injEq, Prod.mk.injEq] at hm
      obtain ⟨-, rfl⟩ := hm
      exact h.setMem (by simp) (by simp) (by simp)

theorem InStep.hangUp (h : s.InStep) (hne : i ≠ s.listenFD) : (s.hangUp i).InStep := by
  refine ⟨Finset.mem_erase.mpr ⟨hne.symm, h.listening⟩, ?_, ?_, ?_, ?_, ?_, ?_, ?_, h.current⟩
  · simp only [Server.hangUp, close, h.registered]
  · exact fun j hj => h.bounded j (Finset.mem_of_mem_erase hj)
  · exact fun j hj => h.natural j (Finset.mem_of_mem_erase hj)
  · exact h.distinct.sublist (List.eraseP_sublist.map _)
  · intro p hp
    have hmem : p ∈ s.serverStore := mem_of_mem_ssDelete hp
    obtain ⟨hm, hl⟩ := h.connected p hmem
    refine ⟨Finset.mem_erase.mpr ⟨fun hpi => ?_, hm⟩, hl⟩
    exact ssSearch_none.mp (ssSearch_ssDelete_self _ h.distinct) p hp hpi
  · exact fun p hp => h.looked_up p (mem_of_mem_ssDelete hp)
  · exact fun p hp => h.allocated p (mem_of_mem_ssDelete hp)

theorem InStep.addClient {newFD : Fd} (h : s.InStep) (h0 : 0 ≤ newFD) :
    (s.addClient newFD).InStep := by
  refine ⟨Finset.mem_insert_of_mem h.listening, ?_, le_fdMax_insert h.bounded, ?_, h.distinct, ?_,
    h.looked_up, h.allocated, h.current⟩
  · simp only [Server.addClient, h.registered]
  · intro j hj hne
    rcases Finset.mem_insert.mp hj with rfl | hj
    · exact h0
    · exact h.natural j hj hne
  · exact fun p hp => ⟨Finset.mem_insert_of_mem (h.connected p hp).1, (h.connected p hp).2⟩

/-! ## §4 The sessions after an event -/

/-- The record of a session is found by its descriptor. -/
theorem InStep.ssSearch_of_mem (h : s.InStep) (hp : p ∈ s.serverStore) :
    ssSearch s.mem s.serverStore (s.mem p).fd = some p := by
  cases hq : ssSearch s.mem s.serverStore (s.mem p).fd with
  | none => exact absurd rfl (ssSearch_none.mp hq p hp)
  | some q =>
    obtain ⟨hmem, hfd⟩ := ssSearch_spec hq
    rw [List.inj_on_of_nodup_map h.distinct hmem hp hfd]

/-- Only a registered connection has a session. -/
theorem InStep.session_none (h : s.InStep) (hi : i ∉ s.masterFDs) : s.session i = none := by
  rw [session, Option.map_eq_none_iff, ssSearch_none]
  intro p hp hpi
  exact hi (hpi ▸ (h.connected p hp).1)

theorem session_eq_none : s.session i = none ↔ ssSearch s.mem s.serverStore i = none := by
  rw [session, Option.map_eq_none_iff]

@[simp] theorem session_addClient (s : Server) (newFD : Fd) (j : Fd) :
    (s.addClient newFD).session j = s.session j := rfl

theorem session_hangUp_of_ne (hj : j ≠ i) : (s.hangUp i).session j = s.session j :=
  congrArg (Option.map s.mem) (ssSearch_ssDelete_of_ne s.mem hj s.serverStore)

/-- A session that is pushed is the one its descriptor has. -/
theorem session_push_self (s : Server) (p brk clientData : Ptr) (d : SsData) :
    ({ s.setMem p d with
        brk := brk
        serverStore := ssPush s.serverStore p
        clientData := clientData } : Server).session d.fd = some d := by
  simp [session, ssSearch, ssPush, Server.setMem]

theorem session_push_of_ne {brk clientData : Ptr} {d : SsData} (hp : p ∉ s.serverStore)
    (hj : j ≠ d.fd) :
    ({ s.setMem p d with
        brk := brk
        serverStore := ssPush s.serverStore p
        clientData := clientData } : Server).session j = s.session j := by
  have hold : ∀ q ∈ s.serverStore, (s.setMem p d).mem q = s.mem q := by
    intro q hq
    refine setMem_mem_of_ne ?_ d
    rintro rfl
    exact hp hq
  have htail : ssSearch (s.setMem p d).mem s.serverStore j = ssSearch s.mem s.serverStore j :=
    ssSearch_congr j fun q hq => by rw [hold q hq]
  have hhead : ssSearch (s.setMem p d).mem (ssPush s.serverStore p) j =
      ssSearch (s.setMem p d).mem s.serverStore j := by
    simp [ssSearch, ssPush, hj.symm]
  simp only [session, hhead, htail]
  exact Option.map_congr fun q hq => hold q (ssSearch_spec hq).1

/-! ## §5 Events -/

theorem events_accepted {newFD : Fd} (hl : s.listenFD ∈ s.masterFDs) (h0 : 0 ≤ newFD)
    (hnew : newFD ∉ s.openFDs) :
    server.events s (s.listenFD, .accepted newFD) = some ([], s.addClient newFD) := by
  have hbody : server.body s s.listenFD (.accepted newFD) = s.handleAccept (.accepted newFD) :=
    if_pos rfl
  have haccept : s.handleAccept (.accepted newFD) = some ([], s.addClient newFD) :=
    if_pos ⟨h0, hnew⟩
  exact (if_pos hl).trans (hbody.trans haccept)

/-- A ready connection is handled. -/
theorem events_client (hi : i ∈ s.masterFDs) (hne : i ≠ s.listenFD) (a : Answer) :
    server.events s (i, a) = s.handleClient i a :=
  (if_pos hi).trans (if_neg hne)

/-- What the body of the loop does. -/
theorem body_cases {a : Answer} {w : List Message} (h : s.body i a = some (w, t)) :
    (∃ newFD, i = s.listenFD ∧ a = .accepted newFD ∧ 0 ≤ newFD ∧ newFD ∉ s.openFDs ∧
        w = [] ∧ t = s.addClient newFD) ∨
      (∃ res, i ≠ s.listenFD ∧ a = .data res ∧ s.handleMessage i res = some (w, t)) ∨
      (i ≠ s.listenFD ∧ a = .eof ∧ w = [] ∧ t = s.hangUp i) ∨
      (i ≠ s.listenFD ∧ a = .error ∧ (s.close i).handleMessage i .zero = some (w, t)) := by
  simp only [body] at h
  split at h
  · rename_i hl
    cases a with
    | accepted newFD =>
      simp only [handleAccept] at h
      split at h
      · rename_i hnew
        cases h
        exact .inl ⟨newFD, hl, rfl, hnew.1, hnew.2, rfl, rfl⟩
      · cases h
    | data res => cases h
    | eof => cases h
    | error => cases h
  · rename_i hl
    cases a with
    | accepted newFD => cases h
    | data res => exact .inr (.inl ⟨res, hl, rfl, h⟩)
    | eof =>
      cases h
      exact .inr (.inr (.inl ⟨hl, rfl, rfl, rfl⟩))
    | error => exact .inr (.inr (.inr ⟨hl, rfl, h⟩))

theorem events_eq {e : Event} {w : List Message} (h : server.events s e = some (w, t)) :
    e.1 ∈ s.masterFDs ∧ s.body e.1 e.2 = some (w, t) := by
  simp only [SelectLoop.events] at h
  split at h
  · exact ⟨‹_›, h⟩
  · cases h

/-- No event changes the listener or the students. -/
theorem events_frame {e : Event} {w : List Message} (h : server.events s e = some (w, t)) :
    t.listenFD = s.listenFD ∧ t.studentStore = s.studentStore := by
  rcases body_cases (events_eq h).2 with ⟨newFD, -, -, -, -, -, rfl⟩ | ⟨res, -, -, hm⟩ |
    ⟨-, -, -, rfl⟩ | ⟨-, -, hm⟩
  · exact ⟨rfl, rfl⟩
  · obtain ⟨_, _, _, _, rfl⟩ := handleMessage_frame hm
    exact ⟨rfl, rfl⟩
  · exact ⟨rfl, rfl⟩
  · obtain ⟨_, _, _, _, rfl⟩ := handleMessage_frame hm
    exact ⟨rfl, rfl⟩

/-- A body takes no descriptor out of the set but its own. -/
theorem keepsOthers : server.KeepsOthers := by
  intro s i a w t hbody j hj hij
  rcases body_cases hbody with ⟨newFD, -, -, -, -, -, rfl⟩ | ⟨res, -, -, hm⟩ |
    ⟨-, -, -, rfl⟩ | ⟨-, -, hm⟩
  · exact Finset.mem_insert_of_mem hj
  · obtain ⟨_, _, _, _, rfl⟩ := handleMessage_frame hm
    exact hj
  · exact Finset.mem_erase.mpr ⟨hij, hj⟩
  · obtain ⟨_, _, _, _, rfl⟩ := handleMessage_frame hm
    exact hj

/-- Every read returns a message or end of file. -/
def NoError (_ : Server) (e : Event) : Prop := e.2 ≠ .error

instance (s : Server) (e : Event) : Decidable (NoError s e) :=
  match e with
  | (_, .accepted _) => isTrue nofun
  | (_, .data _) => isTrue nofun
  | (_, .eof) => isTrue nofun
  | (_, .error) => isFalse fun h => h rfl

theorem InStep.event {e : Event} {w : List Message} (h : s.InStep) (hok : NoError s e)
    (hstep : server.events s e = some (w, t)) : t.InStep := by
  obtain ⟨hi, hbody⟩ := events_eq hstep
  rcases body_cases hbody with ⟨newFD, -, -, h0, -, -, rfl⟩ | ⟨res, hne, -, hm⟩ |
    ⟨hne, -, -, rfl⟩ | ⟨-, herr, -⟩
  · exact h.addClient h0
  · exact h.handleMessage hi hne hm
  · exact h.hangUp hne
  · exact absurd herr hok

/-- **The tables stay in step**, whatever the events are. -/
theorem InStep.run {ok : Server → Event → Prop} {listenFD : Fd} {studentStore : List StDetail}
    {junk : SsData} {tr : List (Event × List Message)} (hok : ∀ s e, ok s e → NoError s e)
    (h : Exec server.events ok (Server.init listenFD studentStore junk) tr s) :
    s.InStep ∧ s.listenFD = listenFD ∧ s.studentStore = studentStore := by
  refine h.invariant (fun s => s.InStep ∧ s.listenFD = listenFD ∧
    s.studentStore = studentStore) ⟨.init .., rfl, rfl⟩ ?_
  intro s e w t ⟨hs, hl, hst⟩ he hstep
  obtain ⟨hl', hst'⟩ := events_frame hstep
  exact ⟨hs.event (hok s e he) hstep, hl'.trans hl, hst'.trans hst⟩

end Server

end CCodes.Assignment
