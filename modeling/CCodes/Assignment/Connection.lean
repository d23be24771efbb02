/-
CCodes.Assignment.Connection — one connection of the assignment server on
its own.

`connection` is what the server is meant to be for each client: a machine
whose only state is the session, and whose only input is the next message
of that client. The server of `CCodes.Assignment.Server` keeps one for
every descriptor, in one list and with one shared pointer; how far it is
this machine for each of its connections is the subject of
`CCodes.Assignment.Isolation`.
-/
import CCodes.Assignment.Server
import Mathlib.Tactic.SplitIfs

namespace CCodes.Assignment

open CCodes.Lib

/-- Lines 127-150 on one record: what is written, and the record after it. -/
def SsData.serve (d : SsData) (res : Message) : List Message × SsData :=
  if (d.setFlags res).sFlag = 1 then
    ([.ofDetail (d.setFlags res).data], { d.setFlags res with sFlag := 0 })
  else ([], d.setFlags res)

/-- The session that `createSs` makes for a stored id, with a detail owed. -/
def SsData.opened (i : Fd) (id : Int32) (stDetail : StDetail) : SsData :=
  { createSs i id stDetail with sFlag := 1 }

/-- One connection: the session, if there is one, and the next message. -/
def connection (studentStore : List StDetail) (i : Fd) :
    Spec (Option SsData) Message (List Message)
  | some d, res => ((d.serve res).1, some (d.serve res).2)
  | none, res =>
      match stSearch studentStore (atoi res.buffer) with
      | none => ([.notFound], none)
      | some stDetail =>
          let p := (SsData.opened i (atoi res.buffer) stDetail).serve res
          (p.1, some p.2)

/-! ## §1 One record -/

namespace SsData

variable {d : SsData} {res : Message}

/-- The flags are all that lines 127-141 change. -/
theorem setFlags_eq (d : SsData) (res : Message) :
    ∃ tyFlag sFlag, d.setFlags res = { d with tyFlag := tyFlag, sFlag := sFlag } := by
  unfold setFlags
  dsimp only
  split_ifs <;> exact ⟨_, _, rfl⟩

@[simp] theorem setFlags_fd (d : SsData) (res : Message) : (d.setFlags res).fd = d.fd := by
  obtain ⟨_, _, h⟩ := d.setFlags_eq res
  rw [h]

@[simp] theorem setFlags_clientId (d : SsData) (res : Message) :
    (d.setFlags res).clientId = d.clientId := by
  obtain ⟨_, _, h⟩ := d.setFlags_eq res
  rw [h]

@[simp] theorem setFlags_data (d : SsData) (res : Message) :
    (d.setFlags res).data = d.data := by
  obtain ⟨_, _, h⟩ := d.setFlags_eq res
  rw [h]

@[simp] theorem serve_fd (d : SsData) (res : Message) : (d.serve res).2.fd = d.fd := by
  unfold serve
  split <;> simp

@[simp] theorem serve_clientId (d : SsData) (res : Message) :
    (d.serve res).2.clientId = d.clientId := by
  unfold serve
  split <;> simp

@[simp] theorem serve_data (d : SsData) (res : Message) : (d.serve res).2.data = d.data := by
  unfold serve
  split <;> simp

/-- What is written is the record's own detail, once at most. -/
theorem serve_writes (d : SsData) (res : Message) :
    (d.serve res).1 = [] ∨ (d.serve res).1 = [.ofDetail d.data] := by
  unfold serve
  split <;> simp

theorem eq_of_mem_serve {d : SsData} {data : StDetail}
    (h : .ofDetail data ∈ (d.serve res).1) : data = d.data := by
  rcases d.serve_writes res with hw | hw
  · simp [hw] at h
  · rw [hw, List.mem_singleton] at h
    exact Message.ofDetail_inj h

/-- A message asks for a detail when it is an "again" that comes after a
"thank_you". -/
def Asks (d : SsData) (res : Message) : Prop :=
  res.isBuffer = true ∧ res.saysAgain = true ∧ d.tyFlag = 1

instance : Decidable (d.Asks res) := inferInstanceAs (Decidable (_ ∧ _ ∧ _))

/-- The record after an "again" that is answered. -/
theorem serve_of_asks (h : d.Asks res) :
    d.serve res = ([.ofDetail d.data], { d with tyFlag := 0, sFlag := 0 }) := by
  obtain ⟨hb, ha, ht⟩ := h
  have hty : res.saysThankYou = false := by
    by_contra hty
    rw [Message.not_saysAgain_of_saysThankYou (by simpa using hty)] at ha
    cases ha
  have hflags : d.setFlags res = { d with tyFlag := 0, sFlag := 1 } := by
    simp [setFlags, hb, ha, ht, hty]
  simp [serve, hflags]

/-- A record that owes nothing, and is asked for nothing, only takes note
of a "thank_you". -/
theorem serve_of_not_asks (hs : d.sFlag ≠ 1) (h : ¬ d.Asks res) :
    d.serve res = ([], if res.isBuffer ∧ res.saysThankYou then { d with tyFlag := 1 } else d) := by
  have hflags : d.setFlags res =
      if res.isBuffer ∧ res.saysThankYou then { d with tyFlag := 1 } else d := by
    by_cases hb : res.isBuffer = true
    · by_cases ht : res.saysThankYou = true
      · simp [setFlags, hb, ht, Message.not_saysAgain_of_saysThankYou ht]
      · have : ¬ (d.tyFlag = 1 ∧ res.saysAgain = true) := fun hx => h ⟨hb, hx.2, hx.1⟩
        simp [setFlags, hb, ht, this]
    · simp [setFlags, hb]
  have howes : (d.setFlags res).sFlag ≠ 1 := by
    rw [hflags]
    split <;> exact hs
  rw [serve, if_neg howes, hflags]

/-- A detail that is owed is sent, whatever the message is. -/
theorem serve_of_owes (h : d.sFlag = 1) : (d.serve res).1 = [.ofDetail d.data] := by
  have howes : (d.setFlags res).sFlag = 1 := by
    unfold setFlags
    dsimp only
    split_ifs <;> first | rfl | exact h
  rw [serve, if_pos howes, setFlags_data]

/-- Nothing is written exactly when nothing is owed or asked for. -/
theorem serve_eq_nil_iff : (d.serve res).1 = [] ↔ d.sFlag ≠ 1 ∧ ¬ d.Asks res := by
  constructor
  · intro h
    refine ⟨fun hs => ?_, fun ha => ?_⟩
    · rw [serve_of_owes hs] at h
      cases h
    · rw [serve_of_asks ha] at h
      cases h
  · intro ⟨hs, ha⟩
    rw [serve_of_not_asks hs ha]

/-- The session that a stored id opens has its detail sent at once. -/
theorem serve_opened {i : Fd} {st : StDetail} (h : atoi res.buffer ≠ 0) :
    (opened i (atoi res.buffer) st).serve res =
      ([.ofDetail (createSs i (atoi res.buffer) st).data], createSs i (atoi res.buffer) st) := by
  obtain ⟨hty, hag⟩ := Message.says_nothing_of_atoi h
  have hflags : (opened i (atoi res.buffer) st).setFlags res = opened i (atoi res.buffer) st := by
    simp [setFlags, hty, hag]
  rw [serve, hflags]
  simp [opened, createSs]

end SsData

/-! ## §2 The copy of the student's record -/

/-- `create_ss` copies the id and the name; the registration number goes
through an `int`. -/
theorem createSs_data (i : Fd) (id : Int32) (d : StDetail) :
    (createSs i id d).data = { d with regNo := d.regNo.toUInt32.toInt32.toInt64.toUInt64 } := by
  simp [createSs, stCreate]

/-- An `int` survives the way through an `unsigned long`. -/
theorem toInt32_of_unsigned_long (n : Int32) :
    n.toInt64.toUInt64.toUInt32.toInt32 = n := by
  rw [← Int32.toBitVec_inj]
  change (BitVec.signExtend 64 n.toBitVec).setWidth 32 = n.toBitVec
  ext k hk
  simp only [BitVec.getElem_setWidth, BitVec.getLsbD_signExtend, hk, if_true]
  simp only [show k < 64 by omega, decide_true, Bool.true_and, BitVec.getLsbD_eq_getElem hk]

/-- A record made by `st_create` is copied as it is. -/
theorem createSs_data_stCreate (i : Fd) (id k : Int32) (name : List UInt8) (regNo : Int32) :
    (createSs i id (stCreate k name regNo)).data = stCreate k name regNo := by
  rw [createSs_data]
  simp only [stCreate, toInt32_of_unsigned_long]

theorem stSearch_id {store : List StDetail} {id : Int32} {d : StDetail}
    (h : stSearch store id = some d) : d ∈ store ∧ d.id = id.toUInt32 :=
  ⟨List.mem_of_find?_eq_some h, by simpa using List.find?_some h⟩

/-- With no stored id 0, a stored id is not 0. -/
theorem atoi_ne_zero_of_stored {store : List StDetail} {text : List UInt8}
    (hids : ∀ d ∈ store, d.id ≠ 0) (hst : (stSearch store (atoi text)).isSome) :
    atoi text ≠ 0 := by
  intro h0
  obtain ⟨st, hst⟩ := Option.isSome_iff_exists.mp hst
  obtain ⟨hmem, hid⟩ := stSearch_id hst
  exact hids st hmem (by rw [hid, h0]; rfl)

end CCodes.Assignment
