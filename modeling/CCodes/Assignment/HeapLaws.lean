/-
CCodes.Assignment.HeapLaws — what the server over the heap does in whole runs.

§1: its answers are those of `CCodes.Assignment.Server`, wherever `malloc` puts
the blocks. §2: what it allocates and what of it is freed. §3: the pointer that
it follows without ever having stored it. All of it is about a `malloc` that
gives room for the struct stored in each block, as `CCodes.Assignment.HeapServer`
assumes.
-/
import CCodes.Assignment.HeapServerTheorems

namespace CCodes.Assignment.HeapServer

open CCodes.Lib Block

variable {m : StartMallocs} {loc : Ptr → Addr} {ns : List (Addr × Addr)} {s : Server}
  {t t₀ : HeapServer} {mm : Mallocs} {h₀ : Heap Block} {i : Fd} {res : Message}

/-! ## §1 Refinement -/

/-- An event without what `malloc` does in it. -/
def onServer (p : (Fd × Answer × Mallocs) × List Message) : Event × List Message :=
  ((p.1.1, p.1.2.1), p.2)

/-- The server that the heap starts with; the record behind the block of line
24 does not matter. -/
def serverStart (listenFD : Fd) (m : StartMallocs) : Server :=
  Server.init listenFD stLlGet (m.junk.record ⟨0, [], 0⟩)

/-- An allowed event goes as on the server, and the heap holds the sessions
again. -/
theorem events_keep (hplaces : m.places.length = StudentList.students.length) (s : Server)
    (t : HeapServer) (e : Fd × Answer × Mallocs) (hr : ∃ loc ns, Represents m loc ns s t)
    (hok : t.Allowed m e) :
    Agree (fun _ s t => ∃ loc ns, Represents m loc ns s t) (server.events s (e.1, e.2.1))
      (heapServer.events t e) := by
  obtain ⟨loc, ns, r⟩ := hr
  refine (r.events hplaces hok).mono fun w s' t' hf => ?_
  obtain ⟨_, _, _, ns', he⟩ := hf
  obtain ⟨loc', r'⟩ := he.represents
  exact ⟨loc', ns', r'⟩

/-- **The heap server is the server.** Let `malloc` give room for the struct
stored in each block. Whatever addresses it picks among those not live, and
whatever it finds there, `main` gets to its loop, and every run of events in
which nothing is sent from the block of line 24 is a run of the server of
`CCodes.Assignment.Server` with the same answers, whose sessions the heap holds.
In the state reached every such event is possible if and only if it is possible
for that server, so none faults, and has the same answer. -/
theorem heap_refines (h₀ : Heap Block) (m : StartMallocs) (hm : m.Ok h₀) (listenFD : Fd) :
    ∃ t₀, start listenFD m h₀ = some t₀ ∧ ∀ tr t, Exec heapServer.events (Allowed m) t₀ tr t →
      ∃ s loc ns,
        Exec server.events (fun _ _ => True) (serverStart listenFD m) (tr.map onServer) s ∧
        Represents m loc ns s t ∧
        ∀ e, t.Allowed m e → (heapServer.events t e).map Prod.fst =
          (server.events s (e.1, e.2.1)).map Prod.fst := by
  obtain ⟨t₀, hstart, r₀, -⟩ := start_spec listenFD hm
  refine ⟨t₀, hstart, fun tr t hexec => ?_⟩
  obtain ⟨s, hrun, loc, ns, r⟩ :=
    hexec.agrees (fun e => (e.1, e.2.1)) (fun s t => ∃ loc ns, Represents m loc ns s t)
      ⟨_, _, r₀⟩ (events_keep hm.1)
  exact ⟨s, loc, ns, hrun, r, fun e hok => (r.events hm.1 hok).map_fst⟩

/-- A `malloc` that never gives an address twice: what it does before the
loop, and in pass `k`. The block of line 24 holds `junk`. -/
def freshStart (junk : Session) : StartMallocs where
  serverStore := 8
  junkNext := 1
  ll := 16
  junkNext' := 1
  places := (List.range 6).map fun k => ⟨100 + 16 * k, .zero, 108 + 16 * k, 1⟩
  clientData := 24
  junk := junk
  req := 300
  res := 400

def freshPass (k : Nat) : Mallocs where
  fuel := 8
  stDetail := 1000 + 40 * k
  junkDetail := .zero
  temp := 1008 + 40 * k
  junk := ⟨7, 7, 7, 7, 7, 7⟩
  copy := 1016 + 40 * k
  junkCopy := .zero
  node := 1024 + 40 * k
  junkNext := 1

/-- A client sends the id of a student, and leaves; another one, with the same
descriptor, sends an id that is not stored. -/
def oneStudent : List (Fd × Answer × Mallocs) :=
  [(3, .accepted 4, freshPass 0), (4, .data (.ofText (bytes "2")), freshPass 1),
    (4, .eof, freshPass 2), (3, .accepted 4, freshPass 3),
    (4, .data (.ofText (bytes "9")), freshPass 4)]

/-- The block of line 24 with zeros in it. -/
def zeroStart : StartMallocs := freshStart ⟨0, 0, 0, 0, 0, 0⟩

theorem zeroStart_isSome : (start 3 zeroStart Heap.empty).isSome = true := by decide +kernel

/-- The run of `oneStudent`. -/
theorem oneStudent_exec {t₀ : HeapServer} (hstart : start 3 zeroStart Heap.empty = some t₀) :
    ∃ tr t, Exec heapServer.events (Allowed zeroStart) t₀ tr t ∧
      tr.map Prod.fst = oneStudent ∧
      (t.heap.freed = [1064] ∧ t.pushes = 1 ∧ (tr.flatMap Prod.snd).count .notFound = 1) := by
  obtain rfl : t₀ = (start 3 zeroStart Heap.empty).get zeroStart_isSome := by simp [hstart]
  exact exec_such_that heapServer.events (Allowed zeroStart) _ oneStudent
    (fun p => p.2.heap.freed = [1064] ∧ p.2.pushes = 1 ∧
      (p.1.flatMap Prod.snd).count .notFound = 1) (by decide +kernel)

/-- The refinement at `oneStudent`. -/
theorem heap_refines_one_student : ∃ t₀ tr t s loc ns,
    start 3 zeroStart Heap.empty = some t₀ ∧
      Exec heapServer.events (Allowed zeroStart) t₀ tr t ∧
      tr.map Prod.fst = oneStudent ∧
      Exec server.events (fun _ _ => True) (serverStart 3 zeroStart)
        (tr.map onServer) s ∧
      Represents zeroStart loc ns s t := by
  obtain ⟨t₀, hstart, hlaw⟩ :=
    heap_refines Heap.empty zeroStart (by decide) 3
  obtain ⟨tr, t, hexec, hin, -⟩ := oneStudent_exec hstart
  obtain ⟨s, loc, ns, hrun, r, -⟩ := hlaw tr t hexec
  exact ⟨t₀, tr, t, s, loc, ns, hstart, hexec, hin, hrun, r⟩

/-! ## §2 What is freed -/

/-- Of what is live now, `blocks` was allocated since the start, and `gone` was
freed. -/
structure Ledger (h₀ : Heap Block) (tr : List ((Fd × Answer × Mallocs) × List Message))
    (ns : List (Addr × Addr)) (t : HeapServer) (blocks gone : List Addr) : Prop where
  nodup : blocks.Nodup
  new : ∀ x ∈ blocks, ¬ h₀.Live x
  live : ∀ x, t.heap.Live x ↔ h₀.Live x ∨ x ∈ blocks
  freed : t.heap.freed = h₀.freed ++ gone
  nodes : ∀ x ∈ ns.map Prod.fst, x ∈ blocks
  hung_up : gone.length + ns.length = t.pushes
  count : blocks.length + gone.length =
    17 + 4 * t.pushes + (tr.flatMap Prod.snd).count .notFound

/-- **Step lemma.** -/
theorem Ledger.step {tr : List ((Fd × Answer × Mallocs) × List Message)} {blocks gone : List Addr}
    {e : Fd × Answer × Mallocs} {w : List Message} {s' : Server} {t' : HeapServer} {k : Nat}
    {news gone' : List Addr} {ns' : List (Addr × Addr)} (hl : Ledger h₀ tr ns t blocks gone)
    (he : Effect m ns t w s' t' k news gone' ns') :
    Ledger h₀ (tr ++ [(e, w)]) ns' t' (news ++ blocks.filter (· ∉ gone')) (gone ++ gone') := by
  have hsub : ∀ x ∈ gone', x ∈ blocks := fun x hx => hl.nodes x (he.gone_nodes x hx)
  have hmem : ∀ x, x ∈ blocks.filter (· ∉ gone') ↔ x ∈ blocks ∧ x ∉ gone' := by simp
  have hlen : (blocks.filter (· ∉ gone')).length + gone'.length = blocks.length := by
    have hperm : (gone' ++ blocks.filter (· ∉ gone')).Perm blocks := by
      refine (List.perm_ext_iff_of_nodup ?_ hl.nodup).mpr fun x => ?_
      · refine List.nodup_append.mpr ⟨he.gone_nodup, hl.nodup.filter _, ?_⟩
        rintro x hx _ hy rfl
        exact ((hmem x).mp hy).2 hx
      · rw [List.mem_append, hmem]
        have := hsub x
        tauto
    rw [← hperm.length_eq, List.length_append, Nat.add_comm]
  have hnew : ∀ x ∈ news, x ∉ blocks ∧ ¬ h₀.Live x := by
    intro x hx
    have hdead := he.delta.new x hx
    rw [hl.live, not_or] at hdead
    exact ⟨hdead.2, hdead.1⟩
  refine ⟨?_, fun x hx => ?_, fun x => ?_, ?_, fun x hx => ?_, ?_, ?_⟩
  · refine List.nodup_append.mpr ⟨he.delta.nodup, hl.nodup.filter _, ?_⟩
    rintro x hx _ hy rfl
    exact (hnew x hx).1 ((hmem x).mp hy).1
  · rcases List.mem_append.mp hx with hx | hx
    · exact (hnew x hx).2
    · exact hl.new x ((hmem x).mp hx).1
  · have hgone : h₀.Live x → x ∉ gone' := fun h hx => hl.new x (hsub x hx) h
    rw [he.delta.live, hl.live, List.mem_append, hmem]
    tauto
  · rw [he.delta.freed, hl.freed, List.append_assoc]
  · rcases he.new_nodes x hx with ⟨hold, hng⟩ | hx
    · exact List.mem_append_right _ ((hmem x).mpr ⟨hl.nodes x hold, hng⟩)
    · exact List.mem_append_left _ hx
  · have h₁ := hl.hung_up
    have h₂ := he.nodes
    rw [he.pushes, List.length_append]
    omega
  · have h₁ := hl.count
    have h₂ := he.count
    simp only [List.length_append, he.pushes, List.flatMap_append, List.flatMap_cons,
      List.flatMap_nil, List.append_nil, List.count_append]
    omega

/-- The detail would be sent from the block of line 24, and there is no
`struct ST_Detail` where its `data` points. -/
def Dangles (m : StartMallocs) (t : HeapServer) (mm : Mallocs) (i : Fd) (res : Message) : Prop :=
  ∃ u ∈ t.line143 mm i res, u.2.clientData = m.clientData ∧
    sFlagOf.peek u.2.heap u.2.clientData = some 1 ∧ structOf.peek u.2.heap m.junk.data = none

/-- The same for an event. -/
def EventDangles (m : StartMallocs) (t : HeapServer) (e : Fd × Answer × Mallocs) : Prop :=
  match e.2.1 with
  | .data res => Dangles m t e.2.2 e.1 res
  | .error => Dangles m (t.close e.1) e.2.2 e.1 .zero
  | _ => False

instance (m : StartMallocs) (t : HeapServer) (mm : Mallocs) (i : Fd) (res : Message) :
    Decidable (Dangles m t mm i res) :=
  inferInstanceAs (Decidable (∃ u ∈ _, _ ∧ _ ∧ _))

theorem sendsJunk_of_dangles {e : Fd × Answer × Mallocs} (h : EventDangles m t e) :
    t.SendsJunk m e := by
  obtain ⟨i, a, mm⟩ := e
  cases a with
  | data res =>
    obtain ⟨u, hu, hcd, hflag, -⟩ := h
    exact ⟨u, hu, hcd, hflag⟩
  | error =>
    obtain ⟨u, hu, hcd, hflag, -⟩ := h
    exact ⟨u, hu, hcd, hflag⟩
  | accepted newFD => exact h
  | eof => exact h

/-- Only the branch for an unknown id leaves `clientData` at the block of line
24; it has written before, and changed nothing. -/
theorem unknown_of_clientData_zero {w : List Message} {s₁ : Server}
    (hlisted : ∀ p ∈ s.serverStore, p ≠ 0) (hbrk : s.brk ≠ 0)
    (hfind : s.findSession i res = some (w, s₁)) (h0 : s₁.clientData = 0) :
    i ∈ s.openFDs ∧ s₁ = s := by
  cases hp : ssSearch s.mem s.serverStore i with
  | some p =>
    rw [Server.findSession_of_session hp] at hfind
    cases hfind
    exact absurd h0 (hlisted p (ssSearch_spec hp).1)
  | none =>
    cases hst : stSearch s.studentStore (atoi res.buffer) with
    | some st =>
      rw [Server.findSession_of_stored hp hst] at hfind
      cases hfind
      exact absurd h0 hbrk
    | none =>
      rw [Server.findSession_of_unknown hp hst] at hfind
      by_cases hi : i ∈ s.openFDs
      · rw [Server.write, if_pos hi, Option.map_some] at hfind
        cases hfind
        exact ⟨hi, rfl⟩
      · rw [Server.write, if_neg hi] at hfind
        cases hfind

theorem cell_of_struct {h : Heap Block} {a : Addr} {e : StudentList.Detail}
    (he : structOf.peek h a = some e) : h.cell a = some (.student (.detail e)) := by
  obtain ⟨b, hb, hget⟩ := Option.bind_eq_some_iff.mp he
  cases b with
  | student b =>
    cases b with
    | node d n => cases hget
    | detail e' =>
      cases hget
      exact hb
  | node d n => cases hget
  | session d => cases hget
  | message => cases hget

/-- Such a message is a fault exactly when the pointer dangles. The server of
`CCodes.Assignment.Server` answers it. -/
theorem handleMessage_onJunk (hplaces : m.places.length = StudentList.students.length)
    (r : Represents m loc ns s t) (hmm : t.MallocsOk mm) (hjunk : t.OnJunk m mm i res) :
    (t.handleMessage mm i res = none ↔ Dangles m t mm i res) ∧
      s.handleMessage i res ≠ none := by
  obtain ⟨u, hu, hcd, hflag⟩ := hjunk
  have hline : t.line143 mm i res = some u := hu
  have hfind := r.findSession hplaces hmm i res
  obtain ⟨p, hp, hrest⟩ := Option.bind_eq_some_iff.mp hline
  obtain ⟨w₁, t₁⟩ := p
  rw [hp] at hfind
  obtain ⟨s₁, hs₁, _, _, _, ns₁, he⟩ := hfind.of_some
  obtain ⟨loc₁, r₁⟩ := he.represents
  obtain ⟨h₂, hrun, r₂, -⟩ := r₁.setFlags res
  obtain rfl : u = (w₁, { t₁ with heap := h₂ }) := by
    simpa [hrun, eq_comm] using hrest
  have hpos : 0 < (s₁.setFlags res).brk := (Nat.zero_le _).trans_lt r₂.current
  have h0 : (s₁.setFlags res).clientData = 0 := by
    refine r₂.inj _ _ r₂.current hpos ?_
    rw [← r₂.clientData, r₂.start]
    exact hcd
  obtain ⟨hi, rfl⟩ := unknown_of_clientData_zero (fun p hp => (r.listed p hp).1)
    ((Nat.zero_le _).trans_lt r.current).ne' hs₁ h0
  obtain ⟨d, hc, -, hdata, -⟩ := r₂.record 0 hpos
  have hc' : h₂.cell t₁.clientData = some (.session d) := by
    have hloc := r₂.clientData
    rw [h0] at hloc
    exact (congrArg h₂.cell hloc).trans hc
  have hs : d.sFlag = 1 := by
    rw [Field.peek, hc'] at hflag
    exact Option.some.inj hflag
  have hopen : i ∈ t₁.openFDs := by
    rw [r₁.openFDs]
    exact hi
  refine ⟨?_, ?_⟩
  · rw [handleMessage_eq, hline, Option.bind_some, Option.map_eq_none_iff]
    constructor
    · intro hnone
      refine ⟨_, hu, hcd, hflag, ?_⟩
      by_contra hsome
      obtain ⟨e, he⟩ := Option.ne_none_iff_exists'.mp hsome
      have hcell : h₂.cell d.data = some (.student (.detail e)) :=
        cell_of_struct (hdata rfl ▸ he)
      have hsent : sendDetail t₁.openFDs t₁.clientData i h₂ = _ := sendDetail_owed hc' hs hcell
      rw [if_pos hopen] at hsent
      exact Option.some_ne_none _ (hsent.symm.trans hnone)
    · rintro ⟨u', hu', -, -, hdead⟩
      obtain rfl := Option.some.inj (hline.symm.trans hu')
      exact sendDetail_dangling hc' hs ((hdata rfl).symm ▸ hdead)
  · obtain ⟨w, s', hans⟩ := Server.handleMessage_answers hi res
    rw [hans]
    intro hnone
    cases hnone

theorem events_data {e : Fd × Answer × Mallocs} (r : Represents m loc ns s t)
    (hmm : t.MallocsOk e.2.2) (hplaces : m.places.length = StudentList.students.length)
    (hjunk : t.SendsJunk m e) :
    heapServer.events t e = none ↔ server.events s (e.1, e.2.1) = none ∨ EventDangles m t e := by
  obtain ⟨i, a, mm⟩ := e
  show (if i ∈ t.masterFDs then t.body i (a, mm) else none) = none ↔
    (if i ∈ s.masterFDs then s.body i a else none) = none ∨ _
  rw [r.masterFDs]
  by_cases hi : i ∈ s.masterFDs
  · rw [if_pos hi, if_pos hi, HeapServer.body, Server.body, r.listenFD]
    by_cases hl : i = s.listenFD
    · rw [if_pos hl, if_pos hl]
      cases a with
      | data res => exact iff_of_true rfl (.inl rfl)
      | error => exact iff_of_true rfl (.inl rfl)
      | accepted newFD => exact absurd hjunk id
      | eof => exact absurd hjunk id
    · rw [if_neg hl, if_neg hl]
      cases a with
      | data res =>
        obtain ⟨hiff, hans⟩ := handleMessage_onJunk hplaces r hmm hjunk
        exact hiff.trans (or_iff_right hans).symm
      | error =>
        obtain ⟨hiff, hans⟩ := handleMessage_onJunk hplaces (r.close i) hmm hjunk
        exact hiff.trans (or_iff_right hans).symm
      | accepted newFD => exact absurd hjunk id
      | eof => exact absurd hjunk id
  · rw [if_neg hi, if_neg hi]
    exact iff_of_true rfl (.inl rfl)

/-- **The fault.** Let `malloc` give that room. In every state reached as above,
an event that is possible for the server of `CCodes.Assignment.Server` faults on
the heap if and only if a client without a session sent an id that is not stored,
`clientData` is still the block of line 24, its `s_flag` is set when line 143
tests it, and its `data`, which nothing was ever stored in, does not happen to
point to a `struct ST_Detail`. -/
theorem faults_iff (h₀ : Heap Block) (m : StartMallocs) (hm : m.Ok h₀) (listenFD : Fd) :
    ∃ t₀, start listenFD m h₀ = some t₀ ∧ ∀ tr t, Exec heapServer.events (Allowed m) t₀ tr t →
      ∃ s, Exec server.events (fun _ _ => True) (serverStart listenFD m) (tr.map onServer) s ∧
        ∀ e, t.MallocsOk e.2.2 → (heapServer.events t e = none ↔
          server.events s (e.1, e.2.1) = none ∨ EventDangles m t e) := by
  obtain ⟨t₀, hstart, r₀, -⟩ := start_spec listenFD hm
  refine ⟨t₀, hstart, fun tr t hexec => ?_⟩
  obtain ⟨s, hrun, loc, ns, r⟩ :=
    hexec.agrees (fun e => (e.1, e.2.1)) (fun s t => ∃ loc ns, Represents m loc ns s t)
      ⟨_, _, r₀⟩ (events_keep hm.1)
  refine ⟨s, hrun, fun e hmm => ?_⟩
  by_cases hjunk : t.SendsJunk m e
  · exact events_data r hmm hm.1 hjunk
  · have hagree := r.events hm.1 ⟨hmm, hjunk⟩
    rw [hagree.eq_none_iff]
    exact (or_iff_left (mt sendsJunk_of_dangles hjunk)).symm

/-- The block of line 24 with its `s_flag` set, and a `data` that points
nowhere. -/
def owingStart : StartMallocs := freshStart ⟨0, 0, 0, 1, 0, 4⟩

theorem owingStart_isSome : (start 3 owingStart Heap.empty).isSome = true := by decide +kernel

/-- The first message that the server gets is an id that is not stored. -/
theorem faults_unknown_first : ∃ t₀ tr t s, start 3 owingStart Heap.empty = some t₀ ∧
    Exec heapServer.events (Allowed owingStart) t₀ tr t ∧
    tr.map Prod.fst = [(3, .accepted 4, freshPass 0)] ∧
    Exec server.events (fun _ _ => True) (serverStart 3 owingStart) (tr.map onServer) s ∧
    heapServer.events t (4, .data (.ofText (bytes "9")), freshPass 1) = none := by
  obtain ⟨t₀, hstart, hlaw⟩ := faults_iff Heap.empty owingStart (by decide) 3
  obtain rfl : t₀ = (start 3 owingStart Heap.empty).get owingStart_isSome := by simp [hstart]
  obtain ⟨tr, t, hexec, hin, hmm, hdangles⟩ := exec_such_that heapServer.events
    (Allowed owingStart) ((start 3 owingStart Heap.empty).get owingStart_isSome)
    [(3, .accepted 4, freshPass 0)] (fun p => p.2.MallocsOk (freshPass 1) ∧
      Dangles owingStart p.2 (freshPass 1) 4 (.ofText (bytes "9"))) (by decide +kernel)
  obtain ⟨s, hrun, hiff⟩ := hlaw tr t hexec
  exact ⟨_, tr, t, s, hstart, hexec, hin, hrun, (hiff _ hmm).mpr (.inr hdangles)⟩

end CCodes.Assignment.HeapServer
