/-
CCodes.Assignment.Copy — is the record that a session holds, and that the
client is sent, the student's?

`create_ss` hands the record to `st_create`, whose parameters `id` and
`regNo` are `int`s. The id comes back (`unsigned int` to `int` and back);
the registration number, an `unsigned long`, keeps its low 32 bits, with
the sign extended (`through_int_iff`). The name is copied whole, where
`malloc(sizeof(temp))` gives room for a `struct ST_Detail`.
-/
import CCodes.Assignment.Isolation

namespace CCodes.Assignment

open CCodes.Lib

/-- An `unsigned long` that went through an `int` is the same when it, or
its complement, fits into 31 bits. -/
theorem through_int_iff (n : UInt64) :
    n.toUInt32.toInt32.toInt64.toUInt64 = n ↔ n < 2147483648 ∨ 18446744071562067968 ≤ n := by
  rw [← UInt64.toBitVec_inj, UInt64.lt_iff_toBitVec_lt, UInt64.le_iff_toBitVec_le]
  change BitVec.signExtend 64 (n.toBitVec.setWidth 32) = n.toBitVec ↔
    n.toBitVec < 2147483648#64 ∨ 18446744071562067968#64 ≤ n.toBitVec
  generalize n.toBitVec = x
  have hx := x.isLt
  rw [BitVec.lt_def, BitVec.le_def, ← BitVec.toNat_inj, BitVec.toNat_signExtend]
  simp only [BitVec.msb_eq_decide, BitVec.toNat_setWidth, BitVec.toNat_ofNat, decide_eq_true_eq]
  split <;> omega

theorem createSs_data_iff (i : Fd) (clientId : Int32) (st : StDetail) :
    (createSs i clientId st).data = st ↔
      st.regNo < 2147483648 ∨ 18446744071562067968 ≤ st.regNo := by
  rw [createSs_data, ← through_int_iff]
  obtain ⟨id, name, regNo⟩ := st
  simp

namespace Server

variable {s t : Server} {i : Fd} {p : Ptr}

/-- Writing flags to a record leaves the records of all sessions. -/
theorem session_data_setMem {d : SsData} (hd : d.fd = (s.mem p).fd)
    (hdata : d.data = (s.mem p).data) (i : Fd) :
    ((s.setMem p d).session i).map SsData.data = (s.session i).map SsData.data := by
  have hss : ssSearch (Function.update s.mem p d) s.serverStore i =
      ssSearch s.mem s.serverStore i := ssSearch_congr i fun q _ => update_fd hd q
  simp only [session, setMem, hss, Option.map_map]
  refine Option.map_congr fun q _ => ?_
  by_cases hq : q = p
  · simp only [Function.comp, hq, Function.update_self, hdata]
  · simp only [Function.comp, Function.update_of_ne hq]

/-- A message that does not take the branch for an unknown id is isolated. -/
theorem InStep.isolated_of_known {res : Message} {w : List Message} (h : s.InStep)
    (hi : i ∈ s.masterFDs) (hm : s.handleMessage i res = some (w, t)) (hu : ¬ s.Unknown i res) :
    s.Isolated i res w t := by
  obtain ⟨w', t', hm', hiso⟩ := h.isolated_iff hi res
  rw [hm, Option.some.injEq, Prod.mk.injEq] at hm'
  obtain ⟨rfl, rfl⟩ := hm'
  exact hiso.mpr fun hx => absurd hx hu

/-- A message of another connection leaves a session its record. -/
theorem InStep.session_data_other {j : Fd} {res : Message} {w : List Message} (h : s.InStep)
    (hj : j ∈ s.masterFDs) (hm : s.handleMessage j res = some (w, t)) (hij : i ≠ j) :
    (t.session i).map SsData.data = (s.session i).map SsData.data := by
  by_cases hu : s.Unknown j res
  · -- the flags of some session may change here, its record does not
    have hopen : j ∈ s.openFDs := h.registered ▸ hj
    rw [handleMessage_of_unknown hopen hu.1 hu.2, Option.some.injEq, Prod.mk.injEq] at hm
    obtain ⟨-, rfl⟩ := hm
    exact session_data_setMem (by simp) (by simp) i
  · obtain ⟨-, -, hother⟩ := h.isolated_of_known hj hm hu
    rw [hother i hij]

/-- An event other than its hang-up leaves a session its record, and the
details written in it are that record. -/
theorem InStep.session_data {e : Event} {w : List Message} {data : StDetail} (h : s.InStep)
    (hok : s.NoError e) (heof : e ≠ (i, .eof)) (hses : (s.session i).map SsData.data = some data)
    (hstep : server.events s e = some (w, t)) :
    (t.session i).map SsData.data = some data ∧
      ∀ res, e = (i, .data res) → ∀ d, .ofDetail d ∈ w → d = data := by
  obtain ⟨j, a⟩ := e
  obtain ⟨hj, hbody⟩ := events_eq hstep
  rcases body_cases hbody with ⟨newFD, -, rfl, -, -, -, rfl⟩ | ⟨res, -, rfl, hm⟩ |
    ⟨-, rfl, -, rfl⟩ | ⟨-, rfl, -⟩
  · exact ⟨hses, fun res heq => by cases heq⟩
  · by_cases hji : j = i
    · subst hji
      obtain ⟨d, hd, hdata⟩ := Option.map_eq_some_iff.mp hses
      obtain ⟨hw, hself, -⟩ := h.isolated_of_known hj hm fun hu => by
        rw [session_eq_none.mpr hu.1] at hd
        cases hd
      rw [hd] at hw hself
      refine ⟨?_, fun _ _ d' hd' => ?_⟩
      · rw [hself]
        exact congrArg some ((SsData.serve_data d res).trans hdata)
      · rw [hw] at hd'
        exact (SsData.eq_of_mem_serve hd').trans hdata
    · refine ⟨?_, fun res' heq => absurd (congrArg Prod.fst heq) hji⟩
      rw [h.session_data_other hj hm (Ne.symm hji), hses]
  · have hji : j ≠ i := fun hji => heof (by rw [hji])
    exact ⟨by rw [session_hangUp_of_ne hji.symm, hses], fun res heq => by cases heq⟩
  · exact absurd rfl hok

/-- The same over a run. -/
theorem InStep.session_data_run {data : StDetail} {tr : List (Event × List Message)}
    (h : s.InStep) (hses : (s.session i).map SsData.data = some data)
    (hrun : Exec server.events (fun s e => s.NoError e ∧ e ≠ (i, .eof)) s tr t) :
    t.InStep ∧ (t.session i).map SsData.data = some data ∧
      ∀ res w, ((i, .data res), w) ∈ tr → ∀ d, .ofDetail d ∈ w → d = data := by
  induction hrun with
  | nil => exact ⟨h, hses, nofun⟩
  | @snoc tr s' t e w _ hok hstep ih =>
    obtain ⟨hs', hses', hsent⟩ := ih
    obtain ⟨hses', hw⟩ := hs'.session_data hok.1 hok.2 hses' hstep
    refine ⟨hs'.event hok.1 hstep, hses', fun res w' hmem => ?_⟩
    rcases List.mem_append.mp hmem with hmem | hmem
    · exact hsent res w' hmem
    · obtain ⟨rfl, rfl⟩ := Prod.mk.inj (List.mem_singleton.mp hmem)
      exact hw res rfl

/-- The messages of a session that `res` opens, up to its hang-up: the
first is `res`, and any events of other connections come in between. -/
def Session (s : Server) (i : Fd) (res : Message) (tr : List (Event × List Message))
    (t : Server) : Prop :=
  ∃ w tr' s', tr = ((i, .data res), w) :: tr' ∧
    server.events s (i, .data res) = some (w, s') ∧
    Exec server.events (fun s e => s.NoError e ∧ e ≠ (i, .eof)) s' tr' t

/-- What a session holds and sends is the copy of the record. -/
theorem InStep.session_copy {res : Message} {st : StDetail} {tr : List (Event × List Message)}
    (h : s.InStep) (hi : i ∈ s.masterFDs) (hne : i ≠ s.listenFD) (hnone : s.session i = none)
    (hst : stSearch s.studentStore (atoi res.buffer) = some st) (hses : s.Session i res tr t) :
    (t.session i).map SsData.data = some (createSs i (atoi res.buffer) st).data ∧
      (∃ w, tr.head? = some ((i, .data res), w) ∧
        w = [.ofDetail (createSs i (atoi res.buffer) st).data]) ∧
      ∀ res' w, ((i, .data res'), w) ∈ tr → ∀ d, .ofDetail d ∈ w →
        d = (createSs i (atoi res.buffer) st).data := by
  obtain ⟨w, tr', s', rfl, hstep, hrun⟩ := hses
  have hm := hstep
  rw [events_client hi hne] at hm
  change s.handleMessage i res = _ at hm
  obtain ⟨hw, hself, -⟩ := h.isolated_of_known hi hm fun hu => by
    rw [hu.2] at hst
    cases hst
  rw [hnone] at hw hself
  simp only [connection, hst] at hw hself
  have hsent : w = [.ofDetail (createSs i (atoi res.buffer) st).data] :=
    hw.trans (SsData.serve_of_owes rfl)
  have hdata : (s'.session i).map SsData.data =
      some (createSs i (atoi res.buffer) st).data := by
    rw [hself, Option.map_some, SsData.serve_data]
    rfl
  have hs' := h.event (fun heq => Answer.noConfusion heq) hstep
  obtain ⟨-, hses, hall⟩ := hs'.session_data_run hdata hrun
  refine ⟨hses, ⟨w, rfl, hsent⟩, fun res' w' hmem d hd => ?_⟩
  rcases List.mem_cons.mp hmem with heq | hmem
  · obtain ⟨-, rfl⟩ := Prod.mk.inj heq
    rw [hsent, List.mem_singleton] at hd
    exact Message.ofDetail_inj hd
  · exact hall res' w' hmem d hd

end Server

/-- **The copy.** Let every `malloc` give room for the struct in its block
(`CCodes.Assignment.Records`); else a name of more bytes than the block has can end the
program. The record that `create_ss` makes, for any descriptor and
client id, is the student's; and in every session that the record was found
for, in any run of the server and until the connection hangs up, the
session holds the student's record and is sent no other: exactly when the
registration number is less than 2^31, or at least 2^64 - 2^31. -/
theorem faithful_copy (st : StDetail) :
    ((∀ i clientId, (createSs i clientId st).data = st) ∧
      ∀ listenFD studentStore junk tr₀ s i res tr t,
        Exec server.events Server.NoError (Server.init listenFD studentStore junk) tr₀ s →
        i ∈ s.masterFDs → i ≠ listenFD → s.session i = none →
        stSearch studentStore (atoi res.buffer) = some st → s.Session i res tr t →
        (∃ d, t.session i = some d ∧ d.data = st) ∧
        ∀ res' w, ((i, .data res'), w) ∈ tr → ∀ d, .ofDetail d ∈ w → d = st) ↔
      st.regNo < 2147483648 ∨ 18446744071562067968 ≤ st.regNo := by
  constructor
  · exact fun h => (createSs_data_iff 0 0 st).mp (h.1 0 0)
  · intro hreg
    refine ⟨fun i clientId => (createSs_data_iff i clientId st).mpr hreg, ?_⟩
    intro listenFD studentStore junk tr₀ s i res tr t hrun hi hne hnone hst hses
    obtain ⟨hs, rfl, rfl⟩ := Server.InStep.run (fun _ _ h => h) hrun
    obtain ⟨hd, -, hall⟩ := hs.session_copy hi hne hnone hst hses
    rw [(createSs_data_iff i _ st).mpr hreg] at hd hall
    exact ⟨Option.map_eq_some_iff.mp hd, hall⟩

/-- The record of a student with the registration number 2^32 is copied,
and sent, with the number 0. -/
theorem copy_loses_regNo :
    let st : StDetail := ⟨1, bytes "Aashish", 4294967296⟩
    (createSs 4 1 st).data = { st with regNo := 0 } ∧ (createSs 4 1 st).data ≠ st ∧
      ∃ tr s, Exec server.events Server.NoError (Server.init 3 [st] .zero) tr s ∧
        tr = [((3, .accepted 4), []),
          ((4, .data (.ofText (bytes "1"))), [.ofDetail { st with regNo := 0 }])] :=
  ⟨by decide, by decide, _, _, exec_of_run (rfl : run server.events Server.NoError
    (Server.init 3 [⟨1, bytes "Aashish", 4294967296⟩] .zero)
    [(3, .accepted 4), (4, .data (.ofText (bytes "1")))] = some _), rfl⟩

end CCodes.Assignment
