/-
CCodes.Fork.ChildTheorems — the forking server and the select server
answer a client alike.

The select server's `ty_flag` is 1 when the child's `thank_you_flag` is 0:
both are set by a "thank_you". The child resets its flag after it wrote a
record, the select server when it accepts an "again"; a record is written
for nothing else but the first message, and that sets neither flag, since a
text with a number in it does not begin with a word.
-/
import CCodes.Fork.Child
import CCodes.Assignment.Isolation

namespace CCodes.Fork

open CCodes.Lib CCodes.Assignment

variable {StudentDetail : Type}

/-- Two answers to one message: none, or a record of the same student. -/
def SameAnswer (idOf : StudentDetail → UInt32) (a : List StudentDetail) (b : List Message) : Prop :=
  (a = [] ∧ b = []) ∨ ∃ st d, a = [st] ∧ b = [.ofDetail d] ∧ idOf st = d.id

/-- What the child's variables are after `n` records, when the session of
the select server is `d`. -/
structure Related (idOf : StudentDetail → UInt32) (d : SsData) (n : Nat)
    (c : Child StudentDetail) : Prop where
  some_sent : 0 < n
  count : c.clientRequestCount = Int32.ofNat n
  written : c.writeFlag = 1
  owes : d.sFlag ≠ 1
  thanked : d.tyFlag = 1 ↔ c.thankYouFlag = 0
  student : idOf c.clientStudentDetail = d.data.id

theorem count_ne_zero {n : Nat} (h0 : 0 < n) (hn : n < intMax) : Int32.ofNat n ≠ 0 := by
  intro h
  have hlt : n < 2147483648 := Nat.lt_succ_of_lt hn
  have hval : (Int32.ofNat n).toInt = (0 : Int32).toInt := congrArg Int32.toInt h
  rw [Int32.toInt_ofNat_of_lt hlt] at hval
  simp at hval
  omega

theorem count_succ (n : Nat) : Int32.ofNat n + 1 = Int32.ofNat (n + 1) := by
  rw [Int32.ofNat_add]
  rfl

/-! ## §1 One text -/

section

variable {idOf : StudentDetail → UInt32} {search : Int32 → Option StudentDetail}
  {store : List StDetail} {i : Fd} {m : List UInt8} {w : List StudentDetail}
  {c c' : Child StudentDetail}

/-- A pass of the loop, once the record is known. -/
theorem step_of_lookUp {c₁ : Child StudentDetail} (hl : c.lookUp search m = some c₁)
    (h : Child.step search c m = some (w, c')) :
    w = (c₁.setFlags m).writeDetail.1 ∧
      c' = { (c₁.setFlags m).writeDetail.2 with running := strncmp m (bytes "quit") 4 ≠ 0 } := by
  simp only [Child.step, hl] at h
  split at h
  · cases h
    exact ⟨rfl, rfl⟩
  · cases h

theorem running_iff (m : List UInt8) :
    decide (strncmp m (bytes "quit") 4 ≠ 0) = true ↔ ¬ bytes "quit" <+: m := by
  rw [decide_eq_true_eq, Ne, ← strncmp_eq_zero_iff m (by decide)]
  rfl

/-- Both servers answer the first text, a stored id, with the record. -/
theorem first_answer (hsearch : ∀ id, (search id).isSome ↔ (stSearch store id).isSome)
    (hid : ∀ id st, search id = some st → idOf st = id.toUInt32)
    (hids : ∀ d ∈ store, d.id ≠ 0) (hst : (stSearch store (atoi m)).isSome) (junk : StudentDetail)
    (h : Child.step search (Child.start junk) m = some (w, c')) :
    SameAnswer idOf w (connection store i none (.ofText m)).1 ∧
      (∃ d, (connection store i none (.ofText m)).2 = some d ∧ Related idOf d w.length c') ∧
      (c'.running = true ↔ ¬ bytes "quit" <+: m) := by
  have hne : atoi (Message.ofText m).buffer ≠ 0 := atoi_ne_zero_of_stored hids hst
  obtain ⟨hty, hag⟩ := Message.says_nothing_of_atoi hne
  have hty' : strncmp m (bytes "thank_you") 9 ≠ 0 := by
    simpa [Message.saysThankYou, Message.ofText] using hty
  obtain ⟨st, hs⟩ := Option.isSome_iff_exists.mp ((hsearch _).mpr hst)
  obtain ⟨sd, hsd⟩ := Option.isSome_iff_exists.mp hst
  have hlook : (Child.start junk).lookUp search m =
      some { Child.start junk with clientStudentDetail := st } := by
    simp [Child.lookUp, Child.start, hs]
  obtain ⟨rfl, rfl⟩ := step_of_lookUp hlook h
  have hconn : connection store i none (.ofText m) =
      ([.ofDetail (createSs i (atoi m) sd).data], some (createSs i (atoi m) sd)) := by
    have hsd' : stSearch store (atoi (Message.ofText m).buffer) = some sd := hsd
    simp only [connection, hsd', SsData.serve_opened hne]
    rfl
  have hsame : idOf st = (createSs i (atoi m) sd).data.id := by
    rw [createSs_data, hid _ _ hs]
    exact (stSearch_id hsd).2.symm
  have hchild : (({ Child.start junk with clientStudentDetail := st }).setFlags m).writeDetail =
      ([st], { Child.start junk with clientStudentDetail := st, clientRequestCount := 1 }) := by
    simp [Child.setFlags, Child.writeDetail, Child.start, hty']
  rw [hchild, hconn]
  exact ⟨.inr ⟨st, _, rfl, rfl, hsame⟩, ⟨_, rfl, Nat.one_pos, rfl, rfl,
    by simp [createSs], by simp [createSs, Child.start], hsame⟩, running_iff m⟩

theorem saysThankYou_ofText :
    (Message.ofText m).saysThankYou = true ↔ strncmp m (bytes "thank_you") 9 = 0 := by
  rw [Message.saysThankYou, beq_iff_eq]
  rfl

theorem saysAgain_ofText :
    (Message.ofText m).saysAgain = true ↔ strncmp m (bytes "again") 5 = 0 := by
  rw [Message.saysAgain, beq_iff_eq]
  rfl

/-- A pass over a text that the select server takes for an "again" after a
"thank_you". -/
theorem pass_of_asks {d : SsData} {n : Nat} (hR : Related idOf d n c)
    (hcount : c.clientRequestCount ≠ 0) (hask : d.Asks (.ofText m)) :
    (c.setFlags m).writeDetail = ([c.clientStudentDetail],
      { c with
        writeFlag := 1
        thankYouFlag := 1
        clientRequestCount := c.clientRequestCount + 1 }) := by
  obtain ⟨-, hagain, hflag⟩ := hask
  have hthank : strncmp m (bytes "thank_you") 9 ≠ 0 := by
    intro hthank
    rw [Message.not_saysAgain_of_saysThankYou (saysThankYou_ofText.mpr hthank)] at hagain
    cases hagain
  simp [Child.setFlags, Child.writeDetail, hcount, hthank, hR.thanked.mp hflag,
    saysAgain_ofText.mp hagain]

/-- A pass over any other text writes nothing. -/
theorem pass_of_not_asks {d : SsData} {n : Nat} (hR : Related idOf d n c)
    (hcount : c.clientRequestCount ≠ 0) (hask : ¬ d.Asks (.ofText m)) :
    (c.setFlags m).writeDetail = ([],
      if strncmp m (bytes "thank_you") 9 = 0 then { c with thankYouFlag := 0 } else c) := by
  by_cases hthank : strncmp m (bytes "thank_you") 9 = 0
  · have hnot : strncmp m (bytes "again") 5 ≠ 0 := by
      intro hagain
      have := Message.not_saysAgain_of_saysThankYou (saysThankYou_ofText.mpr hthank)
      rw [saysAgain_ofText.mpr hagain] at this
      cases this
    simp [Child.setFlags, Child.writeDetail, hcount, hthank, hnot, hR.written]
  · have hnot : ¬ (c.thankYouFlag = 0 ∧ strncmp m (bytes "again") 5 = 0) := fun hx =>
      hask ⟨rfl, saysAgain_ofText.mpr hx.2, hR.thanked.mpr hx.1⟩
    simp [Child.setFlags, Child.writeDetail, hcount, hthank, hnot, hR.written]

/-- And every later text alike. -/
theorem next_answer (store : List StDetail) (i : Fd) {d : SsData} {n : Nat}
    (hR : Related idOf d n c) (hn : n < intMax)
    (h : Child.step search c m = some (w, c')) :
    SameAnswer idOf w (connection store i (some d) (.ofText m)).1 ∧
      (∃ d', (connection store i (some d) (.ofText m)).2 = some d' ∧
        Related idOf d' (n + w.length) c') ∧
      (c'.running = true ↔ ¬ bytes "quit" <+: m) := by
  have hcount : c.clientRequestCount ≠ 0 := by
    rw [hR.count]
    exact count_ne_zero hR.some_sent hn
  have hlook : c.lookUp search m = some c := by
    rw [Child.lookUp, if_neg hcount]
  obtain ⟨rfl, rfl⟩ := step_of_lookUp hlook h
  by_cases hask : d.Asks (.ofText m)
  · have hserve : connection store i (some d) (.ofText m) =
        ([.ofDetail d.data], some { d with tyFlag := 0, sFlag := 0 }) := by
      simp only [connection, SsData.serve_of_asks hask]
    rw [pass_of_asks hR hcount hask, hserve]
    refine ⟨.inr ⟨_, _, rfl, rfl, hR.student⟩, ⟨_, rfl, Nat.succ_pos _, ?_, rfl, by simp,
      by simp, hR.student⟩, running_iff m⟩
    simp only [hR.count, List.length_singleton]
    exact count_succ n
  · have hserve : connection store i (some d) (.ofText m) = ([],
        some (if strncmp m (bytes "thank_you") 9 = 0 then { d with tyFlag := 1 } else d)) := by
      simp only [connection, SsData.serve_of_not_asks hR.owes hask, Message.isBuffer_ofText,
        true_and, saysThankYou_ofText]
    rw [pass_of_not_asks hR hcount hask, hserve]
    refine ⟨.inl ⟨rfl, rfl⟩, ⟨_, rfl, ?_⟩, running_iff m⟩
    split
    · exact ⟨hR.some_sent, hR.count, hR.written, hR.owes, by simp, hR.student⟩
    · exact ⟨hR.some_sent, hR.count, hR.written, hR.owes, hR.thanked, hR.student⟩

end

/-! ## §2 Whole conversations -/

section

variable {idOf : StudentDetail → UInt32} {search : Int32 → Option StudentDetail}
  {store : List StDetail} {i : Fd} {junk : StudentDetail} {c : Child StudentDetail}
  {tr : List (List UInt8 × List StudentDetail)}

/-- The child's answers are those of `connection`, and it goes on as long
as no text begins with "quit". -/
theorem child_follows (hsearch : ∀ id, (search id).isSome ↔ (stSearch store id).isSome)
    (hid : ∀ id st, search id = some st → idOf st = id.toUInt32)
    (hids : ∀ d ∈ store, d.id ≠ 0)
    (h : Exec (Child.step search) (fun _ _ => True) (Child.start junk) tr c)
    (hst : ∀ m ∈ (tr.map Prod.fst).head?, (stSearch store (atoi m)).isSome)
    (hn : (tr.map Prod.snd).flatten.length < intMax) :
    let spec := (connection store i).run none ((tr.map Prod.fst).map .ofText)
    List.Forall₂ (SameAnswer idOf) (tr.map Prod.snd) spec.1 ∧
      ((∀ m ∈ tr.map Prod.fst, ¬ bytes "quit" <+: m) → c.running = true) ∧
      ((tr = [] ∧ c = Child.start junk ∧ spec.2 = none) ∨
        ∃ d, spec.2 = some d ∧ Related idOf d (tr.map Prod.snd).flatten.length c) := by
  induction h with
  | nil => exact ⟨.nil, fun _ => rfl, .inl ⟨rfl, rfl, rfl⟩⟩
  | @snoc tr c c' m w hrun _ hstep ih =>
    simp only [List.map_append, List.map_cons, List.map_nil, List.flatten_append,
      List.flatten_singleton, List.length_append, Spec.run_snoc] at hst hn ⊢
    have hst' : ∀ x ∈ (tr.map Prod.fst).head?, (stSearch store (atoi x)).isSome := by
      intro x hx
      refine hst x ?_
      rw [List.head?_append, Option.mem_def.mp hx]
      rfl
    obtain ⟨hout, -, hR⟩ := ih hst' (by omega)
    have hlast : (∀ x ∈ tr.map Prod.fst ++ [m], ¬ bytes "quit" <+: x) → ¬ bytes "quit" <+: m :=
      fun hquit => hquit m (by simp)
    rcases hR with ⟨rfl, rfl, hnone⟩ | ⟨d, hd, hR⟩
    · obtain ⟨hsame, ⟨d, hd, hR⟩, hrunning⟩ :=
        first_answer (i := i) hsearch hid hids (hst m rfl) junk hstep
      rw [hnone]
      refine ⟨List.rel_append hout (.cons hsame .nil), fun h => hrunning.mpr (hlast h),
        .inr ⟨d, hd, ?_⟩⟩
      simpa using hR
    · obtain ⟨hsame, ⟨d', hd', hR'⟩, hrunning⟩ := next_answer store i hR (by omega) hstep
      rw [hd]
      exact ⟨List.rel_append hout (.cons hsame .nil), fun h => hrunning.mpr (hlast h),
        .inr ⟨d', hd', hR'⟩⟩

end

/-- **The two servers answer a client alike.** The child of the forking
server is given some texts, the first of them a stored id; the select
server is given the same texts as "buffer" messages on its only connection.
As long as the request counter does not overflow, each text is answered by
both with a record of the same student, or by neither; and until a text
begins with "quit" the child goes on to the next one. -/
theorem answers_alike (idOf : StudentDetail → UInt32) (search : Int32 → Option StudentDetail)
    (store : List StDetail) (hids : ∀ d ∈ store, d.id ≠ 0)
    (hsearch : ∀ id, (search id).isSome ↔ (stSearch store id).isSome)
    (hid : ∀ id st, search id = some st → idOf st = id.toUInt32)
    (junk : StudentDetail) (tr : List (List UInt8 × List StudentDetail))
    (c : Child StudentDetail)
    (h : Exec (Child.step search) (fun _ _ => True) (Child.start junk) tr c)
    (hst : ∀ m ∈ (tr.map Prod.fst).head?, (stSearch store (atoi m)).isSome)
    (hn : (tr.map Prod.snd).flatten.length < intMax)
    (listenFD i : Fd) (hne : i ≠ listenFD) (h0 : 0 ≤ i) (clientData : SsData) :
    let ms := (tr.map Prod.fst).map Message.ofText
    (∃ tr' s, Exec server.events Server.NoError (Server.init listenFD store clientData) tr' s ∧
      tr'.map Prod.fst = alone listenFD i ms) ∧
    (∀ tr' s, Exec server.events Server.NoError (Server.init listenFD store clientData) tr' s →
      tr'.map Prod.fst = alone listenFD i ms →
      List.Forall₂ (SameAnswer idOf) (tr.map Prod.snd) ((conversation i tr').map Prod.snd)) ∧
    ((∀ m ∈ tr.map Prod.fst, ¬ bytes "quit" <+: m) →
      ∀ m, ∃ w c', Child.step search c m = some (w, c')) := by
  intro ms
  obtain ⟨hsame, hrunning, -⟩ := child_follows (i := i) hsearch hid hids h hst hn
  have hst' : ∀ m ∈ ms.head?, (stSearch store (atoi m.buffer)).isSome := by
    intro m hm
    rw [Option.mem_def, List.head?_map, Option.map_eq_some_iff] at hm
    obtain ⟨text, htext, rfl⟩ := hm
    exact hst text htext
  refine ⟨?_, fun tr' s hrun hin => ?_, fun hquit m => ?_⟩
  · obtain ⟨tr', s, hrun, hin, -⟩ := exec_alone listenFD i store clientData
      (fun _ _ h => h) hne h0 (fun h => Answer.noConfusion h) ms
      fun _ _ _ _ _ _ _ _ h => Answer.noConfusion h
    exact ⟨tr', s, hrun, hin⟩
  · have hfollow := alone_follows hne h0 hst' hrun hin
    have hout : (conversation i tr').map Prod.snd = _ := congrArg Prod.fst hfollow
    rw [hout]
    exact hsame
  · rw [Child.step, if_pos (hrunning hquit)]
    split <;> exact ⟨_, _, rfl⟩

/-- A client that gets its record twice. -/
def twice : List (List UInt8) := [bytes "6", bytes "again", bytes "thank_you", bytes "again"]

/-- Both servers with the store of `st_ll_get`, for that client. -/
theorem answers_alike_twice : ∃ tr c tr' s,
    Exec (Child.step (stSearch stLlGet)) (fun _ _ => True) (Child.start ⟨0, [], 0⟩) tr c ∧
      tr.map Prod.fst = twice ∧ (tr.map fun e => e.2.length) = [1, 0, 0, 1] ∧
      Exec server.events Server.NoError (Server.init 3 stLlGet .zero) tr' s ∧
      List.Forall₂ (SameAnswer StDetail.id) (tr.map Prod.snd)
        ((conversation 4 tr').map Prod.snd) := by
  obtain ⟨tr, c, h, hin, hlen⟩ := exec_such_that (Child.step (stSearch stLlGet))
    (fun _ _ => True) (Child.start ⟨0, [], 0⟩) twice
    (fun p => (p.1.map fun e => e.2.length) = [1, 0, 0, 1]) (by decide)
  have hst : ∀ m ∈ (tr.map Prod.fst).head?, (stSearch stLlGet (atoi m)).isSome := by
    rw [hin]
    decide
  have hn : (tr.map Prod.snd).flatten.length < intMax := by
    have hlen' : (tr.map Prod.snd).map List.length = [1, 0, 0, 1] := by
      rw [List.map_map]
      exact hlen
    rw [List.length_flatten, hlen']
    decide
  obtain ⟨⟨tr', s, hrun, hin'⟩, halike, -⟩ := answers_alike StDetail.id (stSearch stLlGet)
    stLlGet (by decide) (fun _ => Iff.rfl) (fun _ _ hs => (stSearch_id hs).2) ⟨0, [], 0⟩ tr c h
    hst hn 3 4 (by decide) (by decide) .zero
  exact ⟨tr, c, tr', s, h, hin, hlen, hrun, halike tr' s hrun hin'⟩

end CCodes.Fork
