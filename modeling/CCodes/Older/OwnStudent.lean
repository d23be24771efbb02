/-
CCodes.Older.OwnStudent — whose record a connection of the older select
server is served.

An entry stays in the map when its connection is gone, and the next
connection on the descriptor is served its record. The branch for an id
that is not stored leaves such an entry too, after it closed the connection.
`own_student_iff`: in a run of the loop everyone is served their own record
exactly when the first messages are all stored ids, and no record is sent
that was looked up for another student.
-/
import CCodes.Older.Answers

namespace CCodes.Older

open CCodes.Lib

variable {StudentDetail : Type} {H : Headers StudentDetail}

/-! ## §1 One message -/

/-- The first message received on descriptor `i` since it was last accepted. -/
def hear (i : Fd) (first : Option (List UInt8)) : Event → Option (List UInt8)
  | (_, .accepted newFD) => if newFD = i then none else first
  | (j, .read m) => if j = i ∧ m ≠ [] then some (first.getD m) else first

def firstMessage (i : Fd) (es : List Event) : Option (List UInt8) := es.foldl (hear i) none

theorem firstMessage_snoc (i : Fd) (es : List Event) (e : Event) :
    firstMessage i (es ++ [e]) = hear i (firstMessage i es) e := by
  rw [firstMessage, List.foldl_append]
  rfl

namespace Server

variable {s t : Server H} {i : Fd} {m m₁ : List UInt8} {w : List (Sent StudentDetail)}

/-- What is written on `i` and what is left of it are right for a client
whose first message is `m₁`. -/
def ServedOwn (t : Server H) (i : Fd) (m₁ : List UInt8) (w : List (Sent StudentDetail)) : Prop :=
  (∀ d, .detail d ∈ w → H.search (atoi m₁) = some d) ∧
    (H.search (atoi m₁) = none → w = [] ∧ i ∉ t.openFDs ∧ t.entry i = none)

/-- The id in `m₁` is stored, and the entry of `i`, if it owes a detail, was
made for that student. -/
def MeetsOwn (s : Server H) (i : Fd) (m₁ : List UInt8) : Prop :=
  (H.search (atoi m₁)).isSome ∧
    ∀ d, s.entry i = some d → d.sendDataFlag = 1 → H.search d.clientId = H.search (atoi m₁)

/-- Every entry holds the record of its client's id. -/
def Truthful (s : Server H) : Prop :=
  ∀ j d, s.entry j = some d → H.search d.clientId = some d.data

/-- A message with an entry that is there is answered with its record. -/
theorem InStep.servedOwn_iff_of_entry {d : ServerData StudentDetail} (h : s.InStep)
    (hi : i ∈ s.masterFDs) (hm : s.handleMessage i m = some (w, t)) (htrue : s.Truthful)
    (hd : s.entry i = some d) : t.ServedOwn i m₁ w ↔ s.MeetsOwn i m₁ := by
  obtain ⟨-, -, hentry, -, -, hserve⟩ := h.message hi hm
  have hrec : s.recordFor i m = d := by rw [recordFor, hd, Option.getD_some]
  obtain ⟨rfl, -⟩ := hserve fun hu => by simp [hu.1] at hd
  rw [hrec] at hentry ⊢
  have hdata := htrue i d hd
  constructor
  · rintro ⟨hown, hgone⟩
    refine ⟨Option.isSome_iff_ne_none.mpr fun hnone => ?_, fun d' hd' howes => ?_⟩
    · have := (hgone hnone).2.2
      rw [hentry] at this
      cases this
    · obtain rfl : d = d' := Option.some.inj (hd.symm.trans hd')
      rw [hdata, hown d.data ((d.detail_mem_serve m _).mpr ⟨howes, rfl⟩)]
  · rintro ⟨hst, hown⟩
    refine ⟨fun st hmem => ?_, fun hnone => by simp [hnone] at hst⟩
    obtain ⟨howes, rfl⟩ := (d.detail_mem_serve m st).mp hmem
    rw [← hown d hd howes, hdata]

/-- A first message on a descriptor that was never used is answered with the
record of its id. -/
theorem InStep.servedOwn_iff_of_fresh (h : s.InStep) (hi : i ∈ s.masterFDs)
    (hm : s.handleMessage i m = some (w, t)) (hnone : s.entry i = none) :
    t.ServedOwn i m w ↔ s.MeetsOwn i m := by
  obtain ⟨-, -, hentry, -, -, hserve⟩ := h.message hi hm
  have hrec : s.recordFor i m = s.newServData i m := by rw [recordFor, hnone, Option.getD_none]
  cases hst : H.search (atoi m) with
  | none =>
    refine iff_of_false (fun hown => ?_) fun hmeets => by simp [MeetsOwn, hst] at hmeets
    have := (hown.2 hst).2.2
    rw [hentry] at this
    cases this
  | some st =>
    refine iff_of_true ⟨fun st' hmem => ?_, fun hno => ?_⟩ ⟨?_, fun d hd => ?_⟩
    · obtain ⟨rfl, -⟩ := hserve fun hu => by simp [hu.2] at hst
      rw [hrec] at hmem
      obtain ⟨-, rfl⟩ := ((s.newServData i m).detail_mem_serve m st').mp hmem
      rw [newServData_data hst, hst]
    · rw [hst] at hno
      cases hno
    · rw [hst, Option.isSome_some]
    · rw [hnone] at hd
      cases hd

/-- **Step lemma.** -/
theorem InStep.truthful_message (h : s.InStep) (hi : i ∈ s.masterFDs)
    (hm : s.handleMessage i m = some (w, t)) (htrue : s.Truthful)
    (hst : s.entry i = none → (H.search (atoi m)).isSome) : t.Truthful := by
  obtain ⟨-, -, hentry, hother, -, -⟩ := h.message hi hm
  intro j d hd
  by_cases hj : j = i
  · rw [hj, hentry, Option.some.injEq] at hd
    rw [← hd, ServerData.serve_clientId, ServerData.serve_data]
    cases hi : s.entry i with
    | some d' =>
      rw [recordFor, hi, Option.getD_some]
      exact htrue i d' hi
    | none =>
      obtain ⟨st, hst⟩ := Option.isSome_iff_exists.mp (hst hi)
      rw [recordFor, hi, Option.getD_none, (newServData_spec s i m).2.1, newServData_data hst, hst]
  · rw [hother j hj] at hd
    exact htrue j d hd

end Server

/-! ## §2 Runs -/

section

variable {listenFD : Fd} {junk : Ptr → ServerData StudentDetail}
  {tr : List (Event × List (Sent StudentDetail))} {s : Server H}

/-- A connection that has sent a message has an entry. -/
theorem entry_of_firstMessage
    (h : Exec (older H).events (fun _ _ => True) (Server.init H listenFD junk) tr s) {i : Fd}
    (hfirst : (firstMessage i (tr.map Prod.fst)).isSome) : (s.entry i).isSome := by
  induction h with
  | nil => cases hfirst
  | @snoc tr s t e w hrun _ hstep ih =>
    obtain ⟨hs, -⟩ := (Server.InStep.init listenFD junk).run hrun
    rw [List.map_append, List.map_singleton, firstMessage_snoc] at hfirst
    by_cases he : ∃ m, e = (i, .read m) ∧ m ≠ []
    · obtain ⟨m, rfl, hm⟩ := he
      obtain ⟨hi, hmsg⟩ := Server.event_message hm hstep
      obtain ⟨-, -, hentry, -⟩ := hs.message hi hmsg
      rw [hentry]
      rfl
    · have hother : ∀ m, e = (i, .read m) → m = [] :=
        fun m hem => by_contra fun hm => he ⟨m, hem, hm⟩
      rw [hs.entry_of_no_message hstep hother]
      refine ih ?_
      obtain ⟨j, a⟩ := e
      cases a with
      | accepted newFD =>
        simp only [hear] at hfirst
        split at hfirst
        · cases hfirst
        · exact hfirst
      | read m =>
        have hnot : ¬ (j = i ∧ m ≠ []) := by
          rintro ⟨rfl, hm⟩
          exact hm (hother m rfl)
        rwa [hear, if_neg hnot] at hfirst

theorem firstMessage_of_fresh
    (h : Exec (older H).events (fun _ _ => True) (Server.init H listenFD junk) tr s) {i : Fd}
    (hnone : s.entry i = none) : firstMessage i (tr.map Prod.fst) = none := by
  rw [← Option.not_isSome_iff_eq_none]
  intro hfirst
  have hsome := entry_of_firstMessage h hfirst
  rw [hnone] at hsome
  cases hsome

/-- Every detail is written on the connection it was asked for on, and a
connection whose id is not found is closed with nothing left of it. -/
def OwnStudent (tr : List (Event × List (Sent StudentDetail))) (_ : Server H) (e : Event)
    (w : List (Sent StudentDetail)) (t : Server H) : Prop :=
  match e with
  | (_, .accepted _) => w = []
  | (i, .read m) =>
      if m = [] then w = [] else t.ServedOwn i ((firstMessage i (tr.map Prod.fst)).getD m) w

/-- The condition on one event. -/
def OwnEntry (tr : List (Event × List (Sent StudentDetail))) (s : Server H) (e : Event)
    (_ : List (Sent StudentDetail)) (_ : Server H) : Prop :=
  match e with
  | (_, .accepted _) => True
  | (i, .read m) => m ≠ [] → s.MeetsOwn i ((firstMessage i (tr.map Prod.fst)).getD m)

/-- **Run lemma.** -/
theorem eachStep_ownStudent
    (h : Exec (older H).events (fun _ _ => True) (Server.init H listenFD junk) tr s) :
    (EachStep (older H).events (Server.init H listenFD junk) OwnStudent tr ↔
        EachStep (older H).events (Server.init H listenFD junk) OwnEntry tr) ∧
      (EachStep (older H).events (Server.init H listenFD junk) OwnEntry tr → s.Truthful) := by
  induction h with
  | nil =>
    refine ⟨iff_of_true eachStep_nil eachStep_nil, fun _ j d hd => ?_⟩
    have hnone : H.ssSearch H.sll j = none := H.ssSearch_sll j
    rw [Server.entry_eq_none.mpr hnone] at hd
    cases hd
  | @snoc tr s t e w hrun _ hstep ih =>
    obtain ⟨hiff, htrue⟩ := ih
    obtain ⟨hs, -⟩ := (Server.InStep.init listenFD junk).run hrun
    rw [eachStep_snoc hrun hstep, eachStep_snoc hrun hstep, hiff]
    obtain ⟨hi, ⟨newFD, rfl, -, -, rfl, rfl⟩ | ⟨-, hread, rfl, rfl⟩ | ⟨m, -, hread, hm, hmsg⟩⟩ :=
      Server.event_cases hstep
    · exact ⟨and_congr_right fun _ => iff_of_true rfl trivial, fun hall => htrue hall.1⟩
    · obtain ⟨i, a⟩ := e
      obtain rfl : a = .read [] := hread
      refine ⟨and_congr_right fun _ => iff_of_true ?_ fun h => absurd rfl h,
        fun hall => htrue hall.1⟩
      rw [OwnStudent, if_pos rfl]
    · obtain ⟨i, a⟩ := e
      obtain rfl : a = .read m := hread
      have hfresh : s.entry i = none → (firstMessage i (tr.map Prod.fst)).getD m = m := by
        intro hnone
        rw [firstMessage_of_fresh hrun hnone, Option.getD_none]
      refine ⟨and_congr_right fun hall => ?_, fun hall => ?_⟩
      · simp only [OwnStudent, OwnEntry, ne_eq, hm, not_false_eq_true, forall_const, if_false]
        cases hd : s.entry i with
        | none =>
          rw [hfresh hd]
          exact hs.servedOwn_iff_of_fresh hi hmsg hd
        | some d => exact hs.servedOwn_iff_of_entry hi hmsg (htrue hall) hd
      · refine hs.truthful_message hi hmsg (htrue hall.1) fun hnone => ?_
        have := (hall.2 hm).1
        rwa [hfresh hnone] at this

end

/-- The events of a run of the loop are a run. -/
theorem Server.exec_visits {s₀ s : Server H} {ph : Phase}
    {tr : List (Input Answer × Option (Fd × List (Sent StudentDetail)))}
    (h : Exec (older H).machine (fun _ _ => True) (.top, s₀) tr (ph, s)) :
    Exec (older H).events (fun _ _ => True) s₀ (SelectLoop.visits tr) s := by
  have hloop :
      Exec (older H).machine (SelectLoop.InputOk fun _ _ => True) (.top, s₀) tr (ph, s) := by
    refine h.mono fun c inp _ => ?_
    obtain ⟨ph, s⟩ := c
    cases ph <;> cases inp <;> trivial
  exact (SelectLoop.exec_events Server.keepsOthers hloop).1

/-- **Whose record.** Every run of the loop, whatever `select` reports and
`accept` gives, is a run of events; and in it everyone is served their own
record, and an id that is not found leaves nothing behind, if and only if
every message comes on a connection whose first message is a stored id, and
meets no detail that is owed to another student. -/
theorem own_student_iff (H : Headers StudentDetail) (listenFD : Fd)
    (junk : Ptr → ServerData StudentDetail) (ph : Phase) (s : Server H)
    (tr : List (Input Answer × Option (Fd × List (Sent StudentDetail))))
    (h : Exec (older H).machine (fun _ _ => True) (.top, Server.init H listenFD junk) tr (ph, s)) :
    Exec (older H).events (fun _ _ => True) (Server.init H listenFD junk)
        (SelectLoop.visits tr) s ∧
      (EachStep (older H).events (Server.init H listenFD junk) OwnStudent (SelectLoop.visits tr) ↔
        EachStep (older H).events (Server.init H listenFD junk) OwnEntry
          (SelectLoop.visits tr)) := by
  have hrun := Server.exec_visits h
  exact ⟨hrun, (eachStep_ownStudent hrun).1⟩

/-- A store with two students. -/
def twoStudents : Int32 → Option Nat := fun id =>
  if id = 1 then some 7 else if id = 2 then some 8 else none

/-- One round of the loop, in which the only descriptor that is ready is 3 or
4 and gets the answer `a`. -/
def round (i : Nat) (a : Answer) : List (Input Answer) :=
  [.select {(i : Fd)}] ++ List.replicate i .next ++ [.ready a] ++ List.replicate (5 - i) .next

/-- A student asks for the record, hangs up, and comes again. -/
def comesAgain : List (Input Answer) :=
  round 3 (.accepted 4) ++ round 4 (.read (bytes "1")) ++ round 4 (.read []) ++
    round 3 (.accepted 4) ++ round 4 (.read (bytes "1"))

/-- The student that comes again is not answered, but not served another's
record either. -/
theorem own_student_comes_again : ∃ tr ph s,
    Exec (older _).machine (fun _ _ => True) (.top, start twoStudents false) tr (ph, s) ∧
      (SelectLoop.visits tr).map Prod.snd = [[], [.detail 7], [], [], []] ∧
      (EachStep (older _).events (start twoStudents false) OwnStudent (SelectLoop.visits tr) ↔
        EachStep (older _).events (start twoStudents false) OwnEntry (SelectLoop.visits tr)) := by
  obtain ⟨tr, ⟨ph, s⟩, h, -, hout⟩ := exec_such_that (older _).machine (fun _ _ => True)
    (.top, start twoStudents false) comesAgain
    (fun p => (SelectLoop.visits p.1).map Prod.snd = [[], [.detail 7], [], [], []]) (by decide)
  exact ⟨tr, ph, s, h, hout, (own_student_iff _ 3 _ ph s tr h).2⟩

/-- A student asks for the record and hangs up, and another one gets the
descriptor. -/
def takesOver : List (Input Answer) :=
  round 3 (.accepted 4) ++ round 4 (.read (bytes "1")) ++ round 4 (.read []) ++
    round 3 (.accepted 4) ++ round 4 (.read (bytes "2")) ++ round 4 (.read (bytes "thank_you")) ++
    round 4 (.read (bytes "again")) ++ round 4 (.read (bytes "ok"))

/-- The other one is served the record of the first. -/
theorem served_another : ∃ tr ph s,
    Exec (older _).machine (fun _ _ => True) (.top, start twoStudents true) tr (ph, s) ∧
      tr.map Prod.fst = takesOver ∧
      firstMessage 4 ((SelectLoop.visits tr).map Prod.fst) = some (bytes "2") ∧
      (SelectLoop.visits tr).getLast? = some ((4, .read (bytes "ok")), [.detail 7]) ∧
      ¬ EachStep (older _).events (start twoStudents true) OwnStudent
        (SelectLoop.visits tr) := by
  obtain ⟨tr, ⟨ph, s⟩, h, hin, hfirst, hlast⟩ := exec_such_that (older _).machine
    (fun _ _ => True) (.top, start twoStudents true) takesOver
    (fun p => firstMessage 4 ((SelectLoop.visits p.1).map Prod.fst) = some (bytes "2") ∧
      (SelectLoop.visits p.1).getLast? = some ((4, .read (bytes "ok")), [.detail 7]))
    (by decide +kernel)
  refine ⟨tr, ph, s, h, hin, hfirst, hlast, fun hown => ?_⟩
  have hrun := Server.exec_visits h
  obtain ⟨pre, hpre⟩ := List.getLast?_eq_some_iff.mp hlast
  rw [hpre] at hrun hown hfirst
  obtain ⟨hnil, -⟩ | ⟨pre', u, e, w, heq, hu, -, hstep⟩ := hrun.cases_snoc
  · simp at hnil
  · obtain ⟨rfl, hlast⟩ := List.append_inj' heq rfl
    rw [List.singleton_inj, Prod.mk.injEq] at hlast
    obtain ⟨rfl, rfl⟩ := hlast
    rw [List.map_append, List.map_singleton, firstMessage_snoc, hear, if_pos (by decide),
      Option.some.injEq] at hfirst
    have hserved := hown pre u _ _ s (List.prefix_refl _) hu hstep
    rw [OwnStudent, if_neg (by decide), hfirst] at hserved
    have h7 := hserved.1 7 (by decide)
    revert h7
    decide

end CCodes.Older
