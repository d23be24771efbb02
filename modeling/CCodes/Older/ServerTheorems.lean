/-
CCodes.Older.ServerTheorems — what one event of the older select server
does to the records of its map.

Every message is handled with the record of its own descriptor: the one the
map has, or a new one that is pushed. So there is no way from one connection
to another but the descriptor: a connection that gets the descriptor of one
that is gone gets its record too.
-/
import CCodes.Older.Server

namespace CCodes.Older

open CCodes.Lib

variable {StudentDetail : Type} {H : Headers StudentDetail}

/-! ## §1 One record -/

/-- The text begins with "thank_you". -/
def saysThankYou (m : List UInt8) : Prop := bytes "thank_you" <+: m

/-- The text begins with "again". -/
def saysAgain (m : List UInt8) : Prop := bytes "again" <+: m

instance (m : List UInt8) : Decidable (saysThankYou m) := inferInstanceAs (Decidable (_ <+: _))
instance (m : List UInt8) : Decidable (saysAgain m) := inferInstanceAs (Decidable (_ <+: _))

theorem strncmp_thank_you (m : List UInt8) :
    strncmp m (bytes "thank_you") 9 = 0 ↔ saysThankYou m :=
  strncmp_eq_zero_iff m (by decide)

theorem strncmp_again (m : List UInt8) : strncmp m (bytes "again") 5 = 0 ↔ saysAgain m :=
  strncmp_eq_zero_iff m (by decide)

/-- No text begins with both. -/
theorem not_saysAgain_of_saysThankYou {m : List UInt8} (h : saysThankYou m) : ¬ saysAgain m := by
  rintro ⟨r, hr⟩
  obtain ⟨r', rfl⟩ := h
  simp [bytes] at hr

/-- A text that `atoi` reads as a number other than 0 begins with neither. -/
theorem says_nothing_of_atoi {m : List UInt8} (h : atoi m ≠ 0) :
    ¬ saysThankYou m ∧ ¬ saysAgain m :=
  ⟨not_prefix_of_atoi (by decide) h, not_prefix_of_atoi (by decide) h⟩

namespace ServerData

/-- Lines 152-162 on one record: what is written, and the record after it. -/
def sendData (d : ServerData StudentDetail) :
    List (Sent StudentDetail) × ServerData StudentDetail :=
  if d.sendDataFlag = 1 then
    ([.detail d.data], { d with sendDataFlag := 0, requestCount := d.requestCount + 1 })
  else ([], d)

/-- Lines 164-170. -/
def ackThankYou (d : ServerData StudentDetail) (m : List UInt8) :
    List (Sent StudentDetail) × ServerData StudentDetail :=
  if saysThankYou m then ([.ackTy], { d with thankYouFlag := 1 }) else ([], d)

/-- Lines 172-176. -/
def takeAgain (d : ServerData StudentDetail) (m : List UInt8) : ServerData StudentDetail :=
  if d.thankYouFlag = 1 ∧ saysAgain m then { d with sendDataFlag := 1, thankYouFlag := 0 } else d

/-- Lines 152-176. -/
def serve (d : ServerData StudentDetail) (m : List UInt8) :
    List (Sent StudentDetail) × ServerData StudentDetail :=
  (d.sendData.1 ++ (d.sendData.2.ackThankYou m).1, (d.sendData.2.ackThankYou m).2.takeAgain m)

variable (d : ServerData StudentDetail) (m : List UInt8)

/-- The record after a message, field by field. -/
theorem serve_snd : (d.serve m).2 =
    { d with
      requestCount := if d.sendDataFlag = 1 then d.requestCount + 1 else d.requestCount
      sendDataFlag := if d.thankYouFlag = 1 ∧ saysAgain m then 1
        else if d.sendDataFlag = 1 then 0 else d.sendDataFlag
      thankYouFlag := if saysThankYou m then 1
        else if d.thankYouFlag = 1 ∧ saysAgain m then 0 else d.thankYouFlag } := by
  have hnot := not_saysAgain_of_saysThankYou (m := m)
  obtain ⟨fd, clientId, requestCount, data, sendDataFlag, thankYouFlag⟩ := d
  unfold serve sendData ackThankYou takeAgain
  by_cases hs : sendDataFlag = 1 <;> by_cases ht : saysThankYou m <;>
    by_cases ha : saysAgain m <;> by_cases hf : thankYouFlag = 1 <;>
    simp_all

/-- What is written. -/
theorem serve_fst : (d.serve m).1 =
    (if d.sendDataFlag = 1 then [.detail d.data] else []) ++
      (if saysThankYou m then [.ackTy] else []) := by
  unfold serve sendData ackThankYou
  split <;> split <;> rfl

@[simp] theorem serve_fd : (d.serve m).2.fd = d.fd := by rw [serve_snd]

@[simp] theorem serve_clientId : (d.serve m).2.clientId = d.clientId := by rw [serve_snd]

@[simp] theorem serve_data : (d.serve m).2.data = d.data := by rw [serve_snd]

/-- A detail is written exactly when one is owed, and it is the record's. -/
theorem detail_mem_serve (st : StudentDetail) :
    .detail st ∈ (d.serve m).1 ↔ d.sendDataFlag = 1 ∧ st = d.data := by
  have hack : .detail st ∉ (d.sendData.2.ackThankYou m).1 := by
    unfold ackThankYou
    split <;> simp
  simp only [serve, List.mem_append, hack, or_false]
  unfold sendData
  split
  next h => simp [h]
  next h => simp [h]

end ServerData

/-! ## §2 One message -/

namespace Server

variable {s t : Server H} {i j : Fd} {m : List UInt8} {w : List (Sent StudentDetail)} {p : Ptr}

/-- The record that a message is handled with. -/
def recordFor (s : Server H) (i : Fd) (m : List UInt8) : ServerData StudentDetail :=
  (s.entry i).getD (s.newServData i m)

/-- The message is the first of a client whose id is not stored. -/
def Unknown (s : Server H) (i : Fd) (m : List UInt8) : Prop :=
  s.entry i = none ∧ H.search (atoi m) = none

/-- What some `Write`s come to: on a descriptor that is not open they exit,
or nothing is written. -/
def deliver (s : Server H) (i : Fd) (ws : List (Sent StudentDetail)) :
    Option (List (Sent StudentDetail)) :=
  if i ∈ s.openFDs ∨ ws = [] then some ws else if H.writeExits then none else some []

theorem deliver_append (s : Server H) (i : Fd) (ws ws' : List (Sent StudentDetail)) :
    s.deliver i (ws ++ ws') =
      (s.deliver i ws).bind fun w => (s.deliver i ws').map fun w' => w ++ w' := by
  by_cases hi : i ∈ s.openFDs
  · simp [deliver, hi]
  · by_cases hw : ws = []
    · simp [deliver, hi, hw]
    · by_cases hw' : ws' = [] <;> cases hx : H.writeExits <;> simp [deliver, hi, hw, hw', hx]

/-- The record `currentServData` points to, written over. -/
def putRecord (s : Server H) (d : ServerData StudentDetail) : Server H :=
  s.setMem s.currentServData d

@[simp] theorem mem_putRecord (s : Server H) (d : ServerData StudentDetail) :
    (s.putRecord d).mem (s.putRecord d).currentServData = d := Function.update_self ..

theorem putRecord_self (s : Server H) : s.putRecord (s.mem s.currentServData) = s := by
  simp [putRecord, setMem]

theorem putRecord_putRecord (s : Server H) (d d' : ServerData StudentDetail) :
    (s.putRecord d).putRecord d' = s.putRecord d' := by
  simp [putRecord, setMem, Function.update_idem]

theorem deliver_putRecord (s : Server H) (d : ServerData StudentDetail) (i : Fd)
    (ws : List (Sent StudentDetail)) : (s.putRecord d).deliver i ws = s.deliver i ws := rfl

theorem sendData_eq (s : Server H) (i : Fd) :
    s.sendData i = (s.deliver i (s.mem s.currentServData).sendData.1).map
      fun w => (w, s.putRecord (s.mem s.currentServData).sendData.2) := by
  unfold sendData ServerData.sendData
  dsimp only
  split
  · rw [deliver, write]
    by_cases hi : i ∈ s.openFDs
    · simp only [hi, if_true, true_or]
      rfl
    · cases hx : H.writeExits <;> simp [hi, putRecord]
  · rw [putRecord_self]
    simp [deliver]

theorem ackThankYou_eq (s : Server H) (i : Fd) (m : List UInt8) :
    s.ackThankYou i m = (s.deliver i ((s.mem s.currentServData).ackThankYou m).1).map
      fun w => (w, s.putRecord ((s.mem s.currentServData).ackThankYou m).2) := by
  unfold ackThankYou ServerData.ackThankYou
  simp only [strncmp_thank_you]
  split
  · simp only [write, deliver, setMem]
    by_cases hi : i ∈ s.openFDs
    · simp only [hi, if_true, true_or]
      rfl
    · cases hx : H.writeExits <;> simp [hi, putRecord, setMem]
  · rw [putRecord_self]
    simp [deliver]

theorem takeAgain_eq (s : Server H) (m : List UInt8) :
    s.takeAgain m = s.putRecord ((s.mem s.currentServData).takeAgain m) := by
  unfold takeAgain ServerData.takeAgain
  simp only [strncmp_again]
  split
  · rfl
  · rw [putRecord_self]

/-- Lines 152-176 serve the record `currentServData` points to. -/
theorem handleMessage_eq (s : Server H) (i : Fd) (m : List UInt8) :
    let s₁ := s.findServData i m
    let p := (s₁.mem s₁.currentServData).serve m
    s.handleMessage i m = (s₁.deliver i p.1).map fun w => (w, s₁.putRecord p.2) := by
  intro s₁ p
  have hs₁ : s.findServData i m = s₁ := rfl
  simp only [handleMessage, hs₁, sendData_eq, p, ServerData.serve, deliver_append]
  cases s₁.deliver i (s₁.mem s₁.currentServData).sendData.1 with
  | none => rfl
  | some w =>
    simp only [Option.map_some, Option.bind_eq_bind, Option.bind_some, ackThankYou_eq,
      mem_putRecord, deliver_putRecord, putRecord_putRecord]
    cases s₁.deliver i
        ((s₁.mem s₁.currentServData).sendData.2.ackThankYou m).1 with
    | none => rfl
    | some w' =>
      simp only [Option.map_some, Option.bind_some, takeAgain_eq, mem_putRecord,
        putRecord_putRecord]
      rfl

/-! ## §3 The map -/

/-- What holds between events: exactly the open descriptors are registered,
none above `fdMax`, and each entry is an allocated record with the
descriptor it is found for. -/
structure InStep (s : Server H) : Prop where
  registered : s.openFDs = s.masterFDs
  bounded : ∀ j ∈ s.masterFDs, j ≤ s.fdMax
  allocated : ∀ j p, H.ssSearch s.sll j = some p → p < s.brk ∧ (s.mem p).fd = j

theorem entry_eq_some {p : Ptr} (hp : H.ssSearch s.sll i = some p) :
    s.entry i = some (s.mem p) := by
  rw [entry, hp, Option.map_some]

theorem entry_eq_none : s.entry i = none ↔ H.ssSearch s.sll i = none := Option.map_eq_none_iff

/-- Writing over the record of one descriptor leaves the others. -/
theorem InStep.entry_setMem (h : s.InStep) {p : Ptr} {d : ServerData StudentDetail}
    (hp : H.ssSearch s.sll i = some p) (j : Fd) :
    (s.setMem p d).entry j = if j = i then some d else s.entry j := by
  have hsll : (s.setMem p d).sll = s.sll := rfl
  by_cases hj : j = i
  · rw [if_pos hj, hj, entry, hsll, hp, Option.map_some]
    exact congrArg some (Function.update_self ..)
  · rw [if_neg hj, entry, entry, hsll]
    refine Option.map_congr fun q hq => ?_
    have hne : q ≠ p := by
      rintro rfl
      exact hj ((h.allocated j q hq).2.symm.trans (h.allocated i q hp).2)
    exact Function.update_of_ne hne ..

theorem InStep.setMem (h : s.InStep) {p : Ptr} {d : ServerData StudentDetail}
    (hd : d.fd = (s.mem p).fd) : (s.setMem p d).InStep where
  registered := h.registered
  bounded := h.bounded
  allocated j q hq := by
    obtain ⟨hlt, hfd⟩ := h.allocated j q hq
    refine ⟨hlt, ?_⟩
    by_cases hqp : q = p
    · rw [← hfd, hqp, ← hd]
      exact congrArg ServerData.fd (Function.update_self ..)
    · exact (congrArg ServerData.fd (Function.update_of_ne hqp ..)).trans hfd

/-- A new record, but for its `data`. -/
theorem newServData_spec (s : Server H) (i : Fd) (m : List UInt8) :
    (s.newServData i m).fd = i ∧ (s.newServData i m).clientId = atoi m ∧
      (s.newServData i m).sendDataFlag = 1 ∧ (s.newServData i m).thankYouFlag = 0 := by
  unfold newServData
  dsimp only
  split <;> exact ⟨rfl, rfl, rfl, rfl⟩

theorem newServData_data {st : StudentDetail} (hst : H.search (atoi m) = some st) (s : Server H)
    (i : Fd) : (s.newServData i m).data = st := by
  simp [newServData, hst]

theorem newServData_fd (s : Server H) (i : Fd) (m : List UInt8) : (s.newServData i m).fd = i :=
  (newServData_spec s i m).1

/-- The server with a new record in its map. -/
def pushed (s : Server H) (i : Fd) (d : ServerData StudentDetail) : Server H :=
  { s with
    mem := Function.update s.mem s.brk d
    brk := s.brk + 1
    sll := H.ssPush s.sll i s.brk
    currentServData := s.brk }

/-- Lines 133-149 for a descriptor that is not in the map. -/
theorem findServData_new (hp : H.ssSearch s.sll i = none) (m : List UInt8) :
    s.findServData i m =
      (if H.search (atoi m) = none then s.closeConnection i else s).pushed i
        (s.newServData i m) := by
  simp only [findServData, hp, (newServData_spec s i m).2.1, newServData_fd]
  cases H.search (atoi m) <;> rfl

/-- A new record takes a new place, and the entry of its descriptor. -/
theorem InStep.pushed (h : s.InStep) (hp : H.ssSearch s.sll i = none)
    {d : ServerData StudentDetail} (hd : d.fd = i) :
    (s.pushed i d).InStep ∧ H.ssSearch (s.pushed i d).sll i = some s.brk ∧
      (s.pushed i d).mem s.brk = d ∧ ∀ j, j ≠ i → (s.pushed i d).entry j = s.entry j := by
  have hmap := H.ssSearch_ssPush s.sll i s.brk hp
  refine ⟨⟨h.registered, h.bounded, fun j q hq => ?_⟩, (hmap i).trans (if_pos rfl),
    Function.update_self .., fun j hj => ?_⟩
  · dsimp only [Server.pushed] at hq ⊢
    rw [hmap j] at hq
    by_cases hj : j = i
    · rw [if_pos hj, Option.some.injEq] at hq
      rw [← hq, Function.update_self, hj]
      exact ⟨Nat.lt_succ_self _, hd⟩
    · rw [if_neg hj] at hq
      obtain ⟨hlt, hfd⟩ := h.allocated j q hq
      rw [Function.update_of_ne hlt.ne]
      exact ⟨Nat.lt_succ_of_lt hlt, hfd⟩
  · have hsll : H.ssSearch (s.pushed i d).sll j = H.ssSearch s.sll j :=
      (hmap j).trans (if_neg hj)
    rw [entry, entry, hsll]
    exact Option.map_congr fun q hq => Function.update_of_ne (h.allocated j q hq).1.ne ..

theorem InStep.closeConnection (h : s.InStep) (i : Fd) : (s.closeConnection i).InStep where
  registered := congrArg (Finset.erase · i) h.registered
  bounded j hj := h.bounded j (Finset.mem_of_mem_erase hj)
  allocated := h.allocated

/-- After lines 131-150 the record of the message is in the map, and
`currentServData` points to it; the descriptor was closed if the message is
the first of a client whose id is not stored. -/
theorem InStep.findServData (h : s.InStep) (i : Fd) (m : List UInt8) :
    let s₁ := s.findServData i m
    s₁.InStep ∧ H.ssSearch s₁.sll i = some s₁.currentServData ∧
      s₁.mem s₁.currentServData = s.recordFor i m ∧ (∀ j, j ≠ i → s₁.entry j = s.entry j) ∧
      s₁.listenFD = s.listenFD ∧
      (s.Unknown i m → s₁.masterFDs = s.masterFDs.erase i) ∧
      (¬ s.Unknown i m → s₁.masterFDs = s.masterFDs) := by
  intro s₁
  cases hp : H.ssSearch s.sll i with
  | some p =>
    have hs₁ : s₁ = { s with currentServData := p } := by
      simp only [s₁, Server.findServData, hp]
    have hentry : s.entry i = some (s.mem p) := entry_eq_some hp
    have hknown : ¬ s.Unknown i m := fun hu => by simp [hu.1] at hentry
    rw [hs₁]
    refine ⟨⟨h.registered, h.bounded, h.allocated⟩, hp, ?_, fun j _ => rfl, rfl,
      fun hu => absurd hu hknown, fun _ => rfl⟩
    rw [recordFor, hentry, Option.getD_some]
  | none =>
    have hs₁ : s₁ = _ := findServData_new hp m
    have hnone : s.entry i = none := entry_eq_none.mpr hp
    have hunknown : s.Unknown i m ↔ H.search (atoi m) = none := and_iff_right hnone
    have hrec : s.recordFor i m = s.newServData i m := by rw [recordFor, hnone, Option.getD_none]
    have hfd := newServData_fd s i m
    rw [hs₁, hrec, hunknown]
    split
    next hst =>
      obtain ⟨h₁, hp₁, hmem, hother⟩ := (h.closeConnection i).pushed hp hfd
      exact ⟨h₁, hp₁, hmem, hother, rfl, fun _ => rfl, fun hno => absurd hst hno⟩
    next hst =>
      obtain ⟨h₁, hp₁, hmem, hother⟩ := h.pushed hp hfd
      exact ⟨h₁, hp₁, hmem, hother, rfl, fun hyes => absurd hyes hst, fun _ => rfl⟩

/-- **Step lemma.** A message is served with the record of its descriptor,
and changes no other; only a first message with an id that is not stored
closes the connection, and then nothing of what is written goes out. -/
theorem InStep.message (h : s.InStep) (hi : i ∈ s.masterFDs)
    (hm : s.handleMessage i m = some (w, t)) :
    t.InStep ∧ t.listenFD = s.listenFD ∧
      t.entry i = some ((s.recordFor i m).serve m).2 ∧ (∀ j, j ≠ i → t.entry j = s.entry j) ∧
      (s.Unknown i m → w = [] ∧ t.masterFDs = s.masterFDs.erase i) ∧
      (¬ s.Unknown i m → w = ((s.recordFor i m).serve m).1 ∧ t.masterFDs = s.masterFDs) := by
  obtain ⟨h₁, hp, hrec, hother, hl, hgone, hstays⟩ := h.findServData i m
  have heq := handleMessage_eq s i m
  dsimp only at heq
  rw [hm, hrec] at heq
  obtain ⟨w', hw, hpair⟩ := Option.map_eq_some_iff.mp heq.symm
  obtain ⟨rfl, rfl⟩ := Prod.mk.inj hpair
  have hentry := h₁.entry_setMem (d := ((s.recordFor i m).serve m).2) hp
  have hfd : ((s.recordFor i m).serve m).2.fd =
      ((s.findServData i m).mem (s.findServData i m).currentServData).fd := by
    rw [ServerData.serve_fd, hrec]
  refine ⟨h₁.setMem hfd, hl, (hentry i).trans (if_pos rfl), fun j hj => ?_, fun hu => ?_,
    fun hu => ?_⟩
  · exact (hentry j).trans ((if_neg hj).trans (hother j hj))
  · refine ⟨?_, hgone hu⟩
    have hclosed : i ∉ (s.findServData i m).openFDs := by
      rw [h₁.registered, hgone hu]
      exact Finset.notMem_erase i _
    rw [deliver] at hw
    split at hw
    next ho => exact (Option.some.inj hw).symm.trans (ho.resolve_left hclosed)
    next =>
      split at hw
      · cases hw
      · exact (Option.some.inj hw).symm
  · refine ⟨?_, hstays hu⟩
    have hopen : i ∈ (s.findServData i m).openFDs := by
      rw [h₁.registered, hstays hu]
      exact hi
    rw [deliver, if_pos (.inl hopen)] at hw
    exact (Option.some.inj hw).symm

/-- A message on a connection that is known, or whose id is stored, is
always handled. -/
theorem InStep.message_answers (h : s.InStep) (hi : i ∈ s.masterFDs) (hu : ¬ s.Unknown i m) :
    ∃ w t, s.handleMessage i m = some (w, t) := by
  obtain ⟨h₁, -, -, -, -, -, hstays⟩ := h.findServData i m
  have hopen : i ∈ (s.findServData i m).openFDs := by
    rw [h₁.registered, hstays hu]
    exact hi
  rw [handleMessage_eq, deliver, if_pos (.inl hopen)]
  exact ⟨_, _, rfl⟩

/-! ## §4 Events -/

/-- What a body does. -/
theorem body_cases {a : Answer} (h : s.body i a = some (w, t)) :
    (∃ newFD, i = s.listenFD ∧ a = .accepted newFD ∧ 0 ≤ newFD ∧ newFD ∉ s.openFDs ∧ w = [] ∧
        t = s.addClient newFD) ∨
      (i ≠ s.listenFD ∧ a = .read [] ∧ w = [] ∧ t = s.closeConnection i) ∨
      ∃ m, i ≠ s.listenFD ∧ a = .read m ∧ m ≠ [] ∧ s.handleMessage i m = some (w, t) := by
  rw [body] at h
  split at h
  next hil =>
    cases a with
    | read m => cases h
    | accepted newFD =>
      simp only [handleAccept] at h
      split at h
      next hnew =>
        cases h
        exact .inl ⟨newFD, hil, rfl, hnew.1, hnew.2, rfl, rfl⟩
      next => cases h
  next hil =>
    cases a with
    | accepted newFD => cases h
    | read m =>
      simp only [handleClient] at h
      split at h
      next hm =>
        cases h
        exact .inr (.inl ⟨hil, by rw [hm], rfl, rfl⟩)
      next hm => exact .inr (.inr ⟨m, hil, rfl, hm, h⟩)

/-- What an event does. -/
theorem event_cases {e : Event} (h : (older H).events s e = some (w, t)) :
    e.1 ∈ s.masterFDs ∧
      ((∃ newFD, e = (s.listenFD, .accepted newFD) ∧ 0 ≤ newFD ∧ newFD ∉ s.openFDs ∧ w = [] ∧
          t = s.addClient newFD) ∨
        (e.1 ≠ s.listenFD ∧ e.2 = .read [] ∧ w = [] ∧ t = s.closeConnection e.1) ∨
        ∃ m, e.1 ≠ s.listenFD ∧ e.2 = .read m ∧ m ≠ [] ∧ s.handleMessage e.1 m = some (w, t)) := by
  obtain ⟨i, a⟩ := e
  simp only [SelectLoop.events] at h
  split at h
  next hi =>
    refine ⟨hi, ?_⟩
    obtain ⟨newFD, rfl, rfl, hnew⟩ | hread := body_cases h
    · exact .inl ⟨newFD, rfl, hnew⟩
    · exact .inr hread
  next => cases h

/-- An event that is a message. -/
theorem event_message (hm : m ≠ []) (h : (older H).events s (i, .read m) = some (w, t)) :
    i ∈ s.masterFDs ∧ s.handleMessage i m = some (w, t) := by
  obtain ⟨hi, ⟨newFD, he, -⟩ | ⟨-, hread, -⟩ | ⟨m', -, hread, -, hmsg⟩⟩ := event_cases h
  · cases he
  · cases hread
    exact absurd rfl hm
  · cases hread
    exact ⟨hi, hmsg⟩

/-- An entry of the map changes with the messages on its descriptor only. -/
theorem InStep.entry_of_no_message {e : Event} (h : s.InStep)
    (hstep : (older H).events s e = some (w, t)) (he : ∀ m, e = (i, .read m) → m = []) :
    t.entry i = s.entry i := by
  obtain ⟨hi, ⟨newFD, -, -, -, -, rfl⟩ | ⟨-, -, -, rfl⟩ | ⟨m, -, hread, hm, hmsg⟩⟩ :=
    event_cases hstep
  · rfl
  · rfl
  · obtain ⟨-, -, -, hother, -, -⟩ := h.message hi hmsg
    refine hother i fun hie => hm (he m ?_)
    rw [hie, ← hread]

theorem InStep.init (listenFD : Fd) (junk : Ptr → ServerData StudentDetail) :
    (Server.init H listenFD junk).InStep where
  registered := rfl
  bounded j hj := (Finset.mem_singleton.mp hj).le
  allocated j p hp := by
    change H.ssSearch H.sll j = some p at hp
    rw [H.ssSearch_sll] at hp
    cases hp

theorem InStep.addClient (h : s.InStep) (newFD : Fd) : (s.addClient newFD).InStep where
  registered := congrArg (insert newFD) h.registered
  bounded := le_fdMax_insert h.bounded
  allocated := h.allocated

/-- **Run lemma.** -/
theorem InStep.run {ok : Server H → Event → Prop} {s₀ : Server H}
    {tr : List (Event × List (Sent StudentDetail))} (h₀ : s₀.InStep)
    (h : Exec (older H).events ok s₀ tr s) : s.InStep ∧ s.listenFD = s₀.listenFD := by
  refine h.invariant (fun s => s.InStep ∧ s.listenFD = s₀.listenFD) ⟨h₀, rfl⟩ ?_
  rintro s e w t ⟨hs, hl⟩ - hstep
  obtain ⟨hi, ⟨newFD, -, -, -, -, rfl⟩ | ⟨-, -, -, rfl⟩ | ⟨m, -, -, -, hm⟩⟩ := event_cases hstep
  · exact ⟨hs.addClient newFD, hl⟩
  · exact ⟨hs.closeConnection _, hl⟩
  · obtain ⟨ht, hlt, -⟩ := hs.message hi hm
    exact ⟨ht, hlt.trans hl⟩

/-- A body takes only its own descriptor out of the set. -/
theorem keepsOthers : (older H).KeepsOthers := by
  intro s i a w t h j hj hne
  change s.body i a = some (w, t) at h
  change j ∈ s.masterFDs at hj
  change j ∈ t.masterFDs
  obtain ⟨newFD, -, -, -, -, -, rfl⟩ | ⟨-, -, -, rfl⟩ | ⟨m, -, -, -, hm⟩ := body_cases h
  · exact Finset.mem_insert_of_mem hj
  · exact Finset.mem_erase.mpr ⟨hne, hj⟩
  · rw [handleMessage_eq] at hm
    obtain ⟨w', -, hpair⟩ := Option.map_eq_some_iff.mp hm
    obtain ⟨-, rfl⟩ := Prod.mk.inj hpair
    change j ∈ (s.findServData i m).masterFDs
    cases hp : H.ssSearch s.sll i with
    | some p =>
      simp only [findServData, hp]
      exact hj
    | none =>
      rw [findServData_new hp]
      split
      · exact Finset.mem_erase.mpr ⟨hne, hj⟩
      · exact hj

end Server

end CCodes.Older
