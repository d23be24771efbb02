/-
CCodes.Assignment.Opening — where the sessions that are in the list came from.

An `SS_Data` gets its `fd`, its `clientId` and its copy of a record in
`create_ss`, and nothing stores in them again. So each session has, as long as
it is in the list, what the message that opened it gave it.
-/
import CCodes.Assignment.FailedRead

namespace CCodes.Assignment

open CCodes.Lib

/-- The fields that only `create_ss` stores in. -/
def SsData.made (d : SsData) : Fd × Int32 × StDetail := (d.fd, d.clientId, d.data)

/-- The step that opens the session `d` at `p`: a connection without one sends
the id of a student, and `create_ss` copies the record. -/
def Server.Opens (p : Ptr) (d : SsData) (s : Server) (e : Event) (t : Server) : Prop :=
  ∃ res st, e = (d.fd, .data res) ∧ s.session d.fd = none ∧
    stSearch s.studentStore (atoi res.buffer) = some st ∧
    s.brk = p ∧ t.serverStore = ssPush s.serverStore p ∧
    d.made = (createSs d.fd (atoi res.buffer) st).made

namespace Server

variable {s t : Server} {i : Fd} {res : Message} {w : List Message} {p : Ptr} {e : Event}

/-! ## §1 One message -/

theorem made_setFlags (d : SsData) (res : Message) : (d.setFlags res).made = d.made := by
  unfold SsData.setFlags
  dsimp only
  split
  · split <;> split <;> rfl
  · rfl

/-- The same sessions in the list, and what `create_ss` stored in them. -/
structure SameMade (s t : Server) : Prop where
  serverStore : t.serverStore = s.serverStore
  brk : t.brk = s.brk
  made : ∀ q, (t.mem q).made = (s.mem q).made

theorem SameMade.trans {u : Server} (h : s.SameMade t) (h' : t.SameMade u) : s.SameMade u :=
  ⟨h'.serverStore.trans h.serverStore, h'.brk.trans h.brk,
    fun q => (h'.made q).trans (h.made q)⟩

theorem sameMade_setMem {d : SsData} (hd : d.made = (s.mem p).made) :
    s.SameMade (s.setMem p d) := by
  refine ⟨rfl, rfl, fun q => ?_⟩
  by_cases hq : q = p
  · rw [hq, setMem_mem_self, hd]
  · rw [setMem_mem_of_ne hq]

/-- Lines 127-150. -/
theorem sameMade_sendDetail (h : (s.setFlags res).sendDetail i = some (w, t)) : s.SameMade t := by
  have hflags : s.SameMade (s.setFlags res) := sameMade_setMem (made_setFlags ..)
  simp only [sendDetail] at h
  split at h
  · obtain ⟨w', -, hw⟩ := Option.bind_eq_some_iff.mp h
    cases hw
    exact hflags.trans (sameMade_setMem rfl)
  · cases h
    exact hflags

/-- A new session `d` at `s.brk`. -/
structure Opened (d : SsData) (s t : Server) : Prop where
  serverStore : t.serverStore = ssPush s.serverStore s.brk
  brk : t.brk = s.brk + 1
  made : (t.mem s.brk).made = d.made
  others : ∀ q ≠ s.brk, (t.mem q).made = (s.mem q).made

/-- A message opens a session, or it changes none of these fields. -/
theorem handleMessage_made (h : s.handleMessage i res = some (w, t)) :
    s.SameMade t ∨ ∃ st, s.session i = none ∧
      stSearch s.studentStore (atoi res.buffer) = some st ∧
      Opened (createSs i (atoi res.buffer) st) s t := by
  unfold handleMessage at h
  obtain ⟨⟨w₁, s₁⟩, hfind, h⟩ := Option.bind_eq_some_iff.mp h
  obtain ⟨⟨w₂, s₂⟩, hsend, h⟩ := Option.bind_eq_some_iff.mp h
  cases h
  have hsame : s₁.SameMade t := sameMade_sendDetail hsend
  cases hp : ssSearch s.mem s.serverStore i with
  | some p =>
    rw [findSession_of_session hp] at hfind
    cases hfind
    exact .inl ⟨hsame.serverStore, hsame.brk, hsame.made⟩
  | none =>
    cases hst : stSearch s.studentStore (atoi res.buffer) with
    | none =>
      rw [findSession_of_unknown hp hst] at hfind
      obtain ⟨_, -, heq⟩ := Option.map_eq_some_iff.mp hfind
      cases heq
      exact .inl hsame
    | some st =>
      rw [findSession_of_stored hp hst] at hfind
      cases hfind
      refine .inr ⟨st, session_eq_none.mpr hp, rfl, hsame.serverStore, hsame.brk, ?_, ?_⟩
      · show _ = (SsData.opened i (atoi res.buffer) st).made
        exact (hsame.made s.brk).trans (congrArg SsData.made (setMem_mem_self ..))
      · exact fun q hq => (hsame.made q).trans (congrArg SsData.made (setMem_mem_of_ne hq _))

/-! ## §2 One event -/

/-- An event opens a session, or at most takes some out of the list. -/
theorem events_made (h : server.events s e = some (w, t)) :
    (t.serverStore.Sublist s.serverStore ∧ t.brk = s.brk ∧
      ∀ q, (t.mem q).made = (s.mem q).made) ∨
      ∃ i res st, e = (i, .data res) ∧ s.session i = none ∧
        stSearch s.studentStore (atoi res.buffer) = some st ∧
        Opened (createSs i (atoi res.buffer) st) s t := by
  obtain ⟨i, a⟩ := e
  rcases body_cases (events_eq h).2 with ⟨newFD, -, -, -, -, -, rfl⟩ | ⟨res, -, rfl, hm⟩ |
    ⟨-, -, -, rfl⟩ | ⟨hne, rfl, -⟩
  · exact .inl ⟨List.Sublist.refl _, rfl, fun _ => rfl⟩
  · rcases handleMessage_made hm with hsame | ⟨st, hnone, hst, hopened⟩
    · exact .inl ⟨hsame.serverStore ▸ List.Sublist.refl _, hsame.brk, hsame.made⟩
    · exact .inr ⟨i, res, st, rfl, hnone, hst, hopened⟩
  · exact .inl ⟨List.eraseP_sublist, rfl, fun _ => rfl⟩
  · -- a failed read opens nothing
    have hbody : s.body i .error = some (w, t) := (events_eq h).2
    rw [body_error hne] at hbody
    split at hbody
    · split at hbody
      · cases hbody
      · cases hbody
        exact .inl ⟨List.Sublist.refl _, rfl, fun _ => rfl⟩
    · cases hbody

/-! ## §3 Runs -/

/-- The sessions in the list after `tr`: the newest first, each with what
`create_ss` stored when it was opened. -/
structure Origins (s₀ : Server) (tr : List (Event × List Message)) (s : Server) : Prop where
  newest : s.serverStore.Pairwise (· > ·)
  allocated : ∀ p ∈ s.serverStore, p < s.brk
  opened : ∀ p ∈ s.serverStore, SomeStep server.events s₀ (Opens p (s.mem p)) tr

/-- `Opens` does not depend on the flags. -/
theorem Opens.congr {d d' : SsData} (hd : d'.made = d.made) (h : Opens p d s e t) :
    Opens p d' s e t := by
  obtain ⟨res, st, he, hnone, hst, hbrk, hstore, hmade⟩ := h
  have hfd : d'.fd = d.fd := congrArg Prod.fst hd
  exact ⟨res, st, hfd ▸ he, hfd ▸ hnone, hst, hbrk, hstore, hfd ▸ hd.trans hmade⟩

/-- **Where the sessions came from**, after any run from no sessions. -/
theorem Origins.run {ok : Server → Event → Prop} {s₀ : Server}
    {tr : List (Event × List Message)} (h₀ : s₀.serverStore = [])
    (h : Exec server.events ok s₀ tr s) : Origins s₀ tr s := by
  induction h with
  | nil => exact ⟨by simp [h₀], by simp [h₀], by simp [h₀]⟩
  | @snoc tr s t e w hrun hok hstep ih =>
    have hearlier : ∀ p ∈ s.serverStore, (t.mem p).made = (s.mem p).made →
        SomeStep server.events s₀ (Opens p (t.mem p)) (tr ++ [(e, w)]) := by
      intro p hp hmade
      obtain ⟨tr', s', e', w', t', hpre, hrun', hstep', hopens⟩ := (ih.opened p hp).earlier (e, w)
      exact ⟨tr', s', e', w', t', hpre, hrun', hstep', hopens.congr hmade⟩
    rcases events_made hstep with ⟨hsub, hbrk, hmade⟩ | ⟨i, res, st, rfl, hnone, hst, hopened⟩
    · refine ⟨ih.newest.sublist hsub, fun p hp => ?_, fun p hp => ?_⟩
      · exact hbrk ▸ ih.allocated p (hsub.subset hp)
      · exact hearlier p (hsub.subset hp) (hmade p)
    · refine ⟨?_, fun p hp => ?_, fun p hp => ?_⟩
      · rw [hopened.serverStore]
        exact List.pairwise_cons.mpr ⟨ih.allocated, ih.newest⟩
      · rw [hopened.brk]
        rw [hopened.serverStore] at hp
        rcases List.mem_cons.mp hp with rfl | hp
        · exact Nat.lt_succ_self _
        · exact Nat.lt_succ_of_lt (ih.allocated p hp)
      · rw [hopened.serverStore] at hp
        rcases List.mem_cons.mp hp with rfl | hp
        · have hfd : (t.mem s.brk).fd = i := congrArg Prod.fst hopened.made
          exact .last hrun hstep ⟨res, st, by rw [hfd], hfd ▸ hnone, hst, rfl,
            hopened.serverStore, hfd ▸ hopened.made⟩
        · exact hearlier p hp (hopened.others p (ih.allocated p hp).ne)

end Server

end CCodes.Assignment
