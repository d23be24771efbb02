/-
CCodes.Assignment.Isolation — how far each connection of the assignment
server is on its own.

The server is compared with `connection`, and with itself serving one
connection only. The two agree in every run in which no message meets the
shared pointer: a message with an unknown id, on a connection without a
session, goes on to lines 127-150 with `clientData` where the last message
of any connection left it. `Contained` says that nothing comes of that.
-/
import CCodes.Assignment.ServerTheorems

namespace CCodes.Assignment

open CCodes.Lib

/-! ## §1 The branch for an unknown id -/

namespace Server

variable {s t : Server} {i j : Fd} {res : Message}

/-- The branch for an unknown id is taken. -/
def Unknown (s : Server) (i : Fd) (res : Message) : Prop :=
  ssSearch s.mem s.serverStore i = none ∧ stSearch s.studentStore (atoi res.buffer) = none

/-- A message with an unknown id finds `clientData` at a record that owes
no detail and is not asked for one, and that is in no session if the
message would set its `ty_flag`. -/
def Contained (s : Server) : Event → Prop
  | (i, .data res) => s.Unknown i res →
      (s.mem s.clientData).sFlag ≠ 1 ∧ ¬ (s.mem s.clientData).Asks res ∧
      (s.clientData ∈ s.serverStore → res.isBuffer = true → res.saysThankYou = true →
        (s.mem s.clientData).tyFlag = 1)
  | _ => True

instance (s : Server) (e : Event) : Decidable (s.Contained e) :=
  match e with
  | (_, .data _) => inferInstanceAs (Decidable (_ ∧ _ → _))
  | (_, .accepted _) => isTrue trivial
  | (_, .eof) => isTrue trivial
  | (_, .error) => isTrue trivial

/-- A step of `connection` for `i` that leaves all other sessions alone. -/
def Isolated (s : Server) (i : Fd) (res : Message) (w : List Message) (t : Server) : Prop :=
  w = (connection s.studentStore i (s.session i) res).1 ∧
  t.session i = (connection s.studentStore i (s.session i) res).2 ∧
  ∀ j, j ≠ i → t.session j = s.session j

theorem isolated_of_session {p : Ptr} (hi : i ∈ s.openFDs)
    (hp : ssSearch s.mem s.serverStore i = some p) :
    ∃ w t, s.handleMessage i res = some (w, t) ∧ s.Isolated i res w t := by
  have hses : s.session i = some (s.mem p) := by rw [session, hp, Option.map_some]
  have hfd : ((s.mem p).serve res).2.fd = (s.mem p).fd := SsData.serve_fd ..
  refine ⟨_, _, handleMessage_of_session hi hp res, ?_, ?_, fun j hj => ?_⟩
  · rw [hses]
    rfl
  · rw [hses]
    exact session_setMem_self hfd hp
  · exact session_setMem_of_ne hfd ((ssSearch_spec hp).2 ▸ hj)

theorem InStep.isolated_of_stored {stDetail : StDetail} (h : s.InStep) (hi : i ∈ s.openFDs)
    (hp : ssSearch s.mem s.serverStore i = none)
    (hst : stSearch s.studentStore (atoi res.buffer) = some stDetail) :
    ∃ w t, s.handleMessage i res = some (w, t) ∧ s.Isolated i res w t := by
  have hses : s.session i = none := session_eq_none.mpr hp
  have hfd : ((SsData.opened i (atoi res.buffer) stDetail).serve res).2.fd = i := by
    simp [SsData.opened, createSs]
  have hbrk : s.brk ∉ s.serverStore := fun hmem => lt_irrefl _ (h.allocated _ hmem)
  refine ⟨_, _, handleMessage_of_stored hi hp hst, ?_, ?_, fun j hj => ?_⟩
  · simp only [hses, connection, hst]
  · have hpush := s.session_push_self s.brk (s.brk + 1) s.brk
      ((SsData.opened i (atoi res.buffer) stDetail).serve res).2
    rw [hfd] at hpush
    simp only [hses, connection, hst, hpush]
  · exact session_push_of_ne hbrk (hfd.symm ▸ hj)

/-- In the branch for an unknown id the step is one of `connection` exactly
when it is contained. -/
theorem InStep.isolated_of_unknown_iff (h : s.InStep) (hi : i ∈ s.openFDs)
    (hu : s.Unknown i res) :
    ∃ w t, s.handleMessage i res = some (w, t) ∧
      (s.Isolated i res w t ↔ s.Contained (i, .data res)) := by
  obtain ⟨hp, hst⟩ := hu
  have hses : s.session i = none := session_eq_none.mpr hp
  have hconn : connection s.studentStore i (s.session i) res = ([.notFound], none) := by
    simp only [hses, connection, hst]
  refine ⟨_, _, handleMessage_of_unknown hi hp hst, ?_⟩
  have hfd : ((s.mem s.clientData).serve res).2.fd = (s.mem s.clientData).fd := SsData.serve_fd ..
  constructor
  · rintro ⟨hw, -, hother⟩ -
    rw [hconn, List.cons.injEq] at hw
    obtain ⟨howes, hasks⟩ := SsData.serve_eq_nil_iff.mp hw.2
    refine ⟨howes, hasks, fun hmem hb hty => ?_⟩
    -- the record belongs to another connection, whose session is as before
    have hown := h.ssSearch_of_mem hmem
    have hne : (s.mem s.clientData).fd ≠ i := ssSearch_none.mp hp _ hmem
    have hsame := hother _ hne
    rw [session_setMem_self hfd hown, session, hown, Option.map_some, Option.some.injEq,
      SsData.serve_of_not_asks howes hasks, if_pos ⟨hb, hty⟩] at hsame
    exact (congrArg SsData.tyFlag hsame).symm
  · intro hc
    obtain ⟨howes, hasks, hty⟩ := hc ⟨hp, hst⟩
    have hserve := SsData.serve_of_not_asks howes hasks
    have hsame : ∀ j, (s.setMem s.clientData ((s.mem s.clientData).serve res).2).session j =
        s.session j := by
      intro j
      by_cases hmem : s.clientData ∈ s.serverStore
      · have hrec : ((s.mem s.clientData).serve res).2 = s.mem s.clientData := by
          rw [hserve]
          dsimp only
          split
          · rename_i hth
            rw [← hty hmem hth.1 hth.2]
          · rfl
        rw [hrec, Server.setMem, Function.update_eq_self]
      · exact session_setMem_of_not_mem hfd hmem j
    refine ⟨?_, ?_, fun j _ => hsame j⟩
    · rw [hconn, hserve]
    · rw [hconn, hsame i, hses]

/-- A message is handled as `connection` does exactly when it is contained. -/
theorem InStep.isolated_iff (h : s.InStep) (hi : i ∈ s.masterFDs) (res : Message) :
    ∃ w t, s.handleMessage i res = some (w, t) ∧
      (s.Isolated i res w t ↔ s.Contained (i, .data res)) := by
  have hopen : i ∈ s.openFDs := h.registered ▸ hi
  by_cases hu : s.Unknown i res
  · exact h.isolated_of_unknown_iff hopen hu
  · suffices hiso : ∃ w t, s.handleMessage i res = some (w, t) ∧ s.Isolated i res w t by
      obtain ⟨w, t, hm, hiso⟩ := hiso
      exact ⟨w, t, hm, iff_of_true hiso fun hx => absurd hx hu⟩
    cases hp : ssSearch s.mem s.serverStore i with
    | some p => exact isolated_of_session hopen hp
    | none =>
      cases hst : stSearch s.studentStore (atoi res.buffer) with
      | some stDetail => exact h.isolated_of_stored hopen hp hst
      | none => exact absurd ⟨hp, hst⟩ hu

end Server

/-! ## §2 The conversation on one descriptor -/

/-- The messages read on descriptor `i` since it was last accepted. -/
def receive (i : Fd) (ms : List Message) : Event → List Message
  | (_, .accepted newFD) => if newFD = i then [] else ms
  | (j, .data res) => if j = i then ms ++ [res] else ms
  | _ => ms

def received (i : Fd) (es : List Event) : List Message := es.foldl (receive i) []

/-- The same messages, each with what was written while it was handled. -/
def converse (i : Fd) (c : List (Message × List Message)) :
    Event × List Message → List (Message × List Message)
  | ((_, .accepted newFD), _) => if newFD = i then [] else c
  | ((j, .data res), w) => if j = i then c ++ [(res, w)] else c
  | _ => c

def conversation (i : Fd) (tr : List (Event × List Message)) : List (Message × List Message) :=
  tr.foldl (converse i) []

/-- The events of a server whose only connection is `i`. -/
def alone (listenFD i : Fd) (ms : List Message) : List Event :=
  (listenFD, .accepted i) :: ms.map fun res => (i, .data res)

theorem conversation_snoc (i : Fd) (tr : List (Event × List Message)) (e : Event × List Message) :
    conversation i (tr ++ [e]) = converse i (conversation i tr) e := by
  rw [conversation, List.foldl_append]
  rfl

theorem conversation_fst (i : Fd) (tr : List (Event × List Message)) :
    (conversation i tr).map Prod.fst = received i (tr.map Prod.fst) := by
  induction tr using List.reverseRecOn with
  | nil => rfl
  | append_singleton tr e ih =>
    have hsnoc : received i ((tr ++ [e]).map Prod.fst) =
        receive i (received i (tr.map Prod.fst)) e.1 := by
      rw [received, List.map_append, List.foldl_append]
      rfl
    obtain ⟨⟨j, a⟩, w⟩ := e
    rw [conversation_snoc, hsnoc, ← ih]
    cases a with
    | accepted newFD => simp only [converse, receive]; split <;> rfl
    | data res => simp only [converse, receive]; split <;> simp
    | eof => rfl
    | error => rfl

theorem received_alone (listenFD i : Fd) (ms : List Message) :
    received i (alone listenFD i ms) = ms := by
  have hmap : ∀ ms acc : List Message,
      (ms.map fun res => (i, Answer.data res)).foldl (receive i) acc = acc ++ ms := by
    intro ms
    induction ms with
    | nil => simp
    | cons m ms ih =>
      intro acc
      simp only [List.map_cons, List.foldl_cons, receive, if_true]
      rw [ih, List.append_assoc, List.singleton_append]
  simp only [received, alone, List.foldl_cons, receive, if_true]
  exact hmap ms []

/-- Every message is contained, and no read fails. -/
def Server.Quiet (s : Server) (e : Event) : Prop := s.NoError e ∧ s.Contained e

instance (s : Server) (e : Event) : Decidable (s.Quiet e) := inferInstanceAs (Decidable (_ ∧ _))

section

variable {listenFD : Fd} {studentStore : List StDetail} {junk : SsData}
  {tr : List (Event × List Message)} {s : Server} {i : Fd}

/-- In a quiet run, what every connection is answered, and its session, are
what `connection` makes of the messages read on it. -/
theorem conversation_follows
    (h : Exec server.events Server.Quiet (Server.init listenFD studentStore junk) tr s)
    (hi : i ∈ s.masterFDs) (hne : i ≠ listenFD) :
    ((conversation i tr).map Prod.snd, s.session i) =
      (connection studentStore i).run none ((conversation i tr).map Prod.fst) := by
  induction h with
  | nil => exact absurd (Finset.mem_singleton.mp hi) hne
  | @snoc tr s t e w hrun hok hstep ih =>
    obtain ⟨hs, hl, hst⟩ := Server.InStep.run (fun _ _ h => h.1) hrun
    obtain ⟨j, a⟩ := e
    rw [conversation_snoc]
    obtain ⟨hj, hbody⟩ := Server.events_eq hstep
    rcases Server.body_cases hbody with ⟨newFD, -, rfl, -, hnew, -, rfl⟩ |
      ⟨res, hjl, rfl, hm⟩ | ⟨hjl, rfl, -, rfl⟩ | ⟨-, rfl, -⟩
    · simp only [converse]
      split
      · -- a descriptor that is accepted again starts anew
        rename_i hni
        have hsession : s.session i = none := hs.session_none (by rwa [hs.registered, ← hni])
        simp [hsession, Spec.run]
      · rename_i hni
        exact ih (Finset.mem_of_mem_insert_of_ne hi (Ne.symm hni))
    · obtain ⟨w', t', hm', hiso⟩ := hs.isolated_iff hj res
      rw [hm, Option.some.injEq, Prod.mk.injEq] at hm'
      obtain ⟨rfl, rfl⟩ := hm'
      obtain ⟨hw, hself, hother⟩ := hiso.mpr hok.2
      have hreg : t.masterFDs = s.masterFDs := by
        obtain ⟨_, _, _, _, rfl⟩ := Server.handleMessage_frame hm
        rfl
      have ih := ih (hreg ▸ hi)
      simp only [converse]
      split
      · rename_i hji
        subst hji
        rw [Prod.ext_iff] at ih
        dsimp only at ih
        rw [hst, ih.2] at hw hself
        simp only [List.map_append, List.map_cons, List.map_nil, Spec.run_snoc, ih.1, hw, hself]
      · rename_i hji
        rw [hother i (Ne.symm hji)]
        exact ih
    · obtain ⟨hij, hi⟩ := Finset.mem_erase.mp hi
      rw [Server.session_hangUp_of_ne hij]
      exact ih hi
    · exact absurd rfl hok.1

/-- A detail that `connection` writes, and the one its session holds, is the
copy of a record looked up for a message it was sent. -/
theorem connection_details (studentStore : List StDetail) (i : Fd) (ms : List Message) :
    (∀ d, ((connection studentStore i).run none ms).2 = some d →
      ∃ res ∈ ms, ∃ st, stSearch studentStore (atoi res.buffer) = some st ∧
        d.data = (createSs i (atoi res.buffer) st).data) ∧
    ∀ w ∈ ((connection studentStore i).run none ms).1, ∀ d, Message.ofDetail d ∈ w →
      ∃ res ∈ ms, ∃ st, stSearch studentStore (atoi res.buffer) = some st ∧
        d = (createSs i (atoi res.buffer) st).data := by
  induction ms using List.reverseRecOn with
  | nil => exact ⟨nofun, nofun⟩
  | append_singleton ms res ih =>
    obtain ⟨hses, hout⟩ := ih
    have hmono : ∀ {d}, (∃ m ∈ ms, ∃ st, stSearch studentStore (atoi m.buffer) = some st ∧
        d = (createSs i (atoi m.buffer) st).data) →
        ∃ m ∈ ms ++ [res], ∃ st, stSearch studentStore (atoi m.buffer) = some st ∧
          d = (createSs i (atoi m.buffer) st).data :=
      fun ⟨m, hm, h⟩ => ⟨m, List.mem_append_left _ hm, h⟩
    rw [Spec.run_snoc]
    cases hc : ((connection studentStore i).run none ms).2 with
    | some r =>
      refine ⟨fun d hd => ?_, fun w hw d hd => ?_⟩
      · simp only [connection, Option.some.injEq] at hd
        rw [← hd, SsData.serve_data]
        exact hmono (hses r hc)
      · rcases List.mem_append.mp hw with hw | hw
        · exact hmono (hout w hw d hd)
        · obtain rfl := List.mem_singleton.mp hw
          rw [SsData.eq_of_mem_serve hd]
          exact hmono (hses r hc)
    | none =>
      cases hst : stSearch studentStore (atoi res.buffer) with
      | none =>
        refine ⟨fun d hd => ?_, fun w hw d hd => ?_⟩
        · simp [connection, hst] at hd
        · rcases List.mem_append.mp hw with hw | hw
          · exact hmono (hout w hw d hd)
          · simp only [connection, hst, List.mem_singleton] at hw
            subst hw
            simp [Message.notFound, Message.ofDetail, Message.ofText, bytes] at hd
      | some st =>
        have hmem : res ∈ ms ++ [res] := by simp
        refine ⟨fun d hd => ?_, fun w hw d hd => ?_⟩
        · simp only [connection, hst, Option.some.injEq] at hd
          exact ⟨res, hmem, st, hst, by rw [← hd, SsData.serve_data]; rfl⟩
        · rcases List.mem_append.mp hw with hw | hw
          · exact hmono (hout w hw d hd)
          · simp only [connection, hst, List.mem_singleton] at hw
            subst hw
            exact ⟨res, hmem, st, hst, (SsData.eq_of_mem_serve hd).trans rfl⟩

/-- A server can serve messages on one connection, when each is allowed as
it comes. -/
theorem exec_alone (listenFD i : Fd) (studentStore : List StDetail) (junk : SsData)
    {ok : Server → Event → Prop} (hnoerr : ∀ s e, ok s e → Server.NoError s e)
    (hne : i ≠ listenFD) (h0 : 0 ≤ i)
    (hacc : ok (Server.init listenFD studentStore junk) (listenFD, .accepted i))
    (ms : List Message)
    (hok : ∀ ms' res, ms' ++ [res] <+: ms → ∀ tr s,
      Exec server.events ok (Server.init listenFD studentStore junk) tr s →
        tr.map Prod.fst = alone listenFD i ms' → i ∈ s.masterFDs → ok s (i, .data res)) :
    ∃ tr s, Exec server.events ok (Server.init listenFD studentStore junk) tr s ∧
      tr.map Prod.fst = alone listenFD i ms ∧ i ∈ s.masterFDs := by
  induction ms using List.reverseRecOn with
  | nil =>
    let s₀ := Server.init listenFD studentStore junk
    have hnew : i ∉ s₀.openFDs := fun h => hne (Finset.mem_singleton.mp h)
    have hstep : server.events s₀ (listenFD, .accepted i) = some ([], s₀.addClient i) :=
      Server.events_accepted (s := s₀) (Finset.mem_singleton_self _) h0 hnew
    exact ⟨_, _, .snoc .nil hacc hstep, rfl, Finset.mem_insert_self _ _⟩
  | append_singleton ms res ih =>
    obtain ⟨tr, s, hrun, hin, hreg⟩ := ih fun ms' res' hpre =>
      hok ms' res' (hpre.trans (List.prefix_append ..))
    obtain ⟨hs, hl, -⟩ := Server.InStep.run hnoerr hrun
    obtain ⟨w, t, hm⟩ := Server.handleMessage_answers (hs.registered ▸ hreg) res
    have hstep : server.events s (i, .data res) = some (w, t) :=
      (Server.events_client hreg (hl ▸ hne) _).trans hm
    have hallowed := hok ms res (List.prefix_refl _) tr s hrun hin hreg
    refine ⟨_, t, .snoc hrun hallowed hstep, ?_, ?_⟩
    · simp [hin, alone]
    · obtain ⟨_, _, _, _, rfl⟩ := Server.handleMessage_frame hm
      exact hreg

/-- Once there is a session, it stays. -/
theorem connection_isSome (studentStore : List StDetail) (i : Fd) (d : SsData) :
    ∀ ms : List Message,
    ((connection studentStore i).run (some d) ms).2.isSome
  | [] => rfl
  | m :: ms => connection_isSome studentStore i (d.serve m).2 ms

/-- A connection that begins with a stored id and is the only one never
comes to the branch for an unknown id, so it is served as `connection`
says. -/
theorem alone_follows (hne : i ≠ listenFD) (h0 : 0 ≤ i) {ms : List Message}
    (hst : ∀ m ∈ ms.head?, (stSearch studentStore (atoi m.buffer)).isSome)
    (h : Exec server.events Server.NoError (Server.init listenFD studentStore junk) tr s)
    (hin : tr.map Prod.fst = alone listenFD i ms) :
    ((conversation i tr).map Prod.snd, s.session i) =
      (connection studentStore i).run none ms := by
  have hacc : (Server.init listenFD studentStore junk).Quiet (listenFD, .accepted i) :=
    ⟨fun h => Answer.noConfusion h, trivial⟩
  obtain ⟨tr', s', hrun, hin', hreg⟩ := exec_alone listenFD i studentStore junk
    (fun _ _ (h : Server.Quiet _ _) => h.1) hne h0 hacc ms fun ms' res hpre tr s hrun hin hreg => by
      refine ⟨fun h => Answer.noConfusion h, fun hu => ?_⟩
      obtain ⟨-, -, hstore⟩ := Server.InStep.run (fun _ _ h => h.1) hrun
      have hfollow := (Prod.ext_iff.mp (conversation_follows hrun hreg hne)).2
      dsimp only at hfollow
      rw [Server.session_eq_none.mpr hu.1, conversation_fst, hin, received_alone] at hfollow
      cases ms' with
      | nil =>
        have hfirst : res ∈ ms.head? := by
          obtain ⟨rest, rfl⟩ := hpre
          rfl
        have := hst res hfirst
        rw [← hstore, hu.2] at this
        cases this
      | cons m ms' =>
        have hfirst : m ∈ ms.head? := by
          obtain ⟨rest, rfl⟩ := hpre
          rfl
        obtain ⟨st, hst⟩ := Option.isSome_iff_exists.mp (hst m hfirst)
        have hsome := connection_isSome studentStore i
          ((SsData.opened i (atoi m.buffer) st).serve m).2 ms'
        simp only [Spec.run, connection, hst] at hfollow
        rw [← hfollow] at hsome
        cases hsome
  obtain ⟨rfl, rfl⟩ := h.deterministic hrun (hin'.trans hin.symm)
  have hfollow := conversation_follows hrun hreg hne
  rwa [conversation_fst, hin', received_alone] at hfollow

end

/-- **Isolation.** Let every `malloc` give room for the struct in its block
(`CCodes.Assignment.Records`). In every run in which all messages are contained, what
each open connection was answered and its session are a function of the
messages read on it; a server that serves these messages on this connection
only, whatever its `clientData` starts as, answers the same and has the
same session, as long as they are contained there too; a contained message
changes no other session; and every detail written is the copy of a record
looked up for a message of the same connection. -/
theorem isolation (listenFD : Fd) (studentStore : List StDetail) (junk : SsData)
    (tr : List (Event × List Message)) (s : Server)
    (h : Exec server.events Server.Quiet (Server.init listenFD studentStore junk) tr s)
    (i : Fd) (hi : i ∈ s.masterFDs) (hne : i ≠ listenFD) :
    let ms := received i (tr.map Prod.fst)
    ((conversation i tr).map Prod.snd, s.session i) =
      (connection studentStore i).run none ms ∧
    (∀ junk', ∃ tr' s', Exec server.events Server.NoError
      (Server.init listenFD studentStore junk') tr' s' ∧
        tr'.map Prod.fst = alone listenFD i ms) ∧
    (∀ junk' tr' s', Exec server.events Server.Quiet
      (Server.init listenFD studentStore junk') tr' s' →
        tr'.map Prod.fst = alone listenFD i ms →
        conversation i tr' = conversation i tr ∧ s'.session i = s.session i) ∧
    (∀ res w t, s.Contained (i, .data res) → server.events s (i, .data res) = some (w, t) →
      ∀ j, j ≠ i → t.session j = s.session j) ∧
    ∀ c ∈ conversation i tr, ∀ d, Message.ofDetail d ∈ c.2 →
      ∃ res ∈ ms, ∃ st, stSearch studentStore (atoi res.buffer) = some st ∧
        d = (createSs i (atoi res.buffer) st).data := by
  intro ms
  obtain ⟨hs, hl, hst⟩ := Server.InStep.run (fun _ _ h => h.1) h
  have hfollow := conversation_follows h hi hne
  rw [conversation_fst] at hfollow
  have hexists : ∀ junk', ∃ tr' s', Exec server.events Server.NoError
      (Server.init listenFD studentStore junk') tr' s' ∧
      tr'.map Prod.fst = alone listenFD i ms ∧ i ∈ s'.masterFDs := fun junk' =>
    exec_alone listenFD i studentStore junk' (fun _ _ h => h) hne (hs.natural i hi (hl ▸ hne))
      (fun h => Answer.noConfusion h) ms fun _ _ _ _ _ _ _ _ h => Answer.noConfusion h
  refine ⟨hfollow, fun junk' => ?_, ?_, ?_, ?_⟩
  · obtain ⟨tr', s', hrun', hin', -⟩ := hexists junk'
    exact ⟨tr', s', hrun', hin'⟩
  · intro junk' tr' s' hrun' hin'
    obtain ⟨tr₁, s₁, hrun₁, hin₁, hreg₁⟩ := hexists junk'
    obtain ⟨rfl, rfl⟩ := hrun₁.deterministic hrun' (hin'.trans hin₁.symm)
    have hfollow' := conversation_follows hrun' hreg₁ hne
    have hms : (conversation i tr').map Prod.fst = ms := by
      rw [conversation_fst, hin', received_alone]
    rw [hms, ← hfollow, Prod.mk.injEq] at hfollow'
    refine ⟨?_, hfollow'.2⟩
    rw [List.zip_of_prod hms hfollow'.1, ← List.zip_of_prod (conversation_fst i tr) rfl]
  · intro res w t hc hstep j hj
    have hm := (Server.events_client hi (hl ▸ hne) _).symm.trans hstep
    obtain ⟨w', t', hm', hiso⟩ := hs.isolated_iff hi res
    obtain ⟨rfl, rfl⟩ : w' = w ∧ t' = t := by simpa using hm'.symm.trans hm
    exact (hiso.mpr hc).2.2 j hj
  · intro c hc d hd
    have hout := (connection_details studentStore i ms).2
    rw [← hfollow] at hout
    exact hout c.2 (List.mem_map_of_mem hc) d hd

/-- Two clients come and ask for one record each, and the second thanks. -/
def twoClients : List Event :=
  [(3, .accepted 4), (3, .accepted 5), (4, .data (.ofText (bytes "1"))),
    (5, .data (.ofText (bytes "2"))), (5, .data (.ofText (bytes "thank_you")))]

/-- The first client of `twoClients` is answered as if it were alone. -/
theorem isolation_two_clients : ∃ tr s,
    Exec server.events Server.Quiet (Server.init 3 stLlGet .zero) tr s ∧
      tr.map Prod.fst = twoClients ∧
      ((conversation 4 tr).map Prod.snd, s.session 4) =
        (connection stLlGet 4).run none (received 4 twoClients) := by
  obtain ⟨tr, s, h, hin, hreg⟩ := exec_such_that server.events Server.Quiet
    (Server.init 3 stLlGet .zero) twoClients (fun p => 4 ∈ p.2.masterFDs) (by decide)
  refine ⟨tr, s, h, hin, ?_⟩
  rw [← hin]
  exact (isolation 3 stLlGet .zero tr s h 4 hreg (by decide)).1

/-- A client gets its record; a second one, whose id is not stored, says
"thank_you"; the first says "again". -/
def strangersThanks : List Event :=
  [(3, .accepted 4), (3, .accepted 5), (4, .data (.ofText (bytes "1"))),
    (5, .data (.ofText (bytes "thank_you"))), (4, .data (.ofText (bytes "again")))]

/-- The first client of `strangersThanks` is sent its record twice; with the
same messages and nobody else, it is sent once. -/
theorem isolation_fails :
    let aashish := Message.ofDetail (stCreate 1 (bytes "Aashish") 171501)
    (∃ tr s, Exec server.events Server.NoError (Server.init 3 stLlGet .zero) tr s ∧
      tr.map Prod.fst = strangersThanks ∧
      (conversation 4 tr).map Prod.snd = [[aashish], [aashish]]) ∧
    ∃ tr s, Exec server.events Server.NoError (Server.init 3 stLlGet .zero) tr s ∧
      tr.map Prod.fst = alone 3 4 (received 4 strangersThanks) ∧
      (conversation 4 tr).map Prod.snd = [[aashish], []] :=
  ⟨exec_such_that _ _ _ _ (fun p => (conversation 4 p.1).map Prod.snd = _) (by decide),
    exec_such_that _ _ _ _ (fun p => (conversation 4 p.1).map Prod.snd = _) (by decide)⟩

end CCodes.Assignment
