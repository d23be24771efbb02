/-
CCodes.Fork.ParentTheorems — what the forking server keeps apart, and what it keeps.

Each child works on its own copy of the variables, as the parent had them at the
start, and on the connection of its own client: so a client's answers depend on its
own texts only. But the parent keeps a descriptor for every connection, and every
child has all those of the clients before its own: so no connection is ever closed
while the parent is there, and the parent runs out of descriptors.
-/
import Mathlib.Tactic.SplitIfs
import CCodes.Fork.Parent

namespace CCodes.Fork

open CCodes.Lib

variable {StudentDetail : Type}

/-- A child of client `k`: it has its own connection until it closes it, those of
all clients before, and no other; and its variables are what its texts made of
them. -/
structure ChildProcess.Ok (search : Int32 → Option StudentDetail) (junk : StudentDetail)
    (sockFD k : Nat) (log : List (List UInt8 × List StudentDetail))
    (c : ChildProcess StudentDetail) : Prop where
  listening : c.pc = .closeSock → c.fds sockFD = some .listening
  own : c.pc ≠ .exit → c.fds c.clientFD = some (.client k)
  earlier : ∀ j, j < k → c.fds.Holds (.client j)
  last : ∀ j, c.fds.Holds (.client j) → j ≤ k
  session : Exec (Child.step search) (fun _ _ => True) (.start junk) log c.vars

namespace ForkServer

variable {search : Int32 → Option StudentDetail} {junk : StudentDetail} {limit n₀ : Nat}
  {s s' : ForkServer StudentDetail} {e : ForkEvent} {o : Unit}

/-! ## §1 Steps -/

theorem children_setChild_self (s : ForkServer StudentDetail) (k : Nat)
    (c : Option (ChildProcess StudentDetail)) : (s.setChild k c).children k = c :=
  Function.update_self ..

theorem children_setChild_of_ne {j k : Nat} (h : j ≠ k) (s : ForkServer StudentDetail)
    (c : Option (ChildProcess StudentDetail)) : (s.setChild k c).children j = s.children j :=
  Function.update_of_ne h ..

/-- What each call does. -/
inductive Does (search : Int32 → Option StudentDetail) (limit : Nat)
    (s : ForkServer StudentDetail) : ForkEvent → ForkServer StudentDetail → Prop
  | accept {clientFD : Nat} {fds : Descriptors File} : s.pc = .accept →
      s.fds.alloc limit (.client s.accepted) = some (clientFD, fds) →
      Does search limit s .accept
        { s with pc := .fork (some clientFD), fds, accepted := s.accepted + 1 }
  | full : s.pc = .accept → s.fds.alloc limit (.client s.accepted) = none →
      Does search limit s .accept { s with pc := .fork none }
  | acceptFails : s.pc = .accept → Does search limit s .acceptFails { s with pc := .fork none }
  | fork {clientFD : Nat} : s.pc = .fork (some clientFD) →
      Does search limit s .fork
        { s.setChild (s.accepted - 1) (some ⟨clientFD, s.fds, .closeSock, s.vars⟩) with
          pc := .accept }
  | stray : s.pc = .fork none →
      Does search limit s .fork { s with pc := .accept, strays := s.strays + 1 }
  | forkFails {clientFD : Option Nat} : s.pc = .fork clientFD →
      Does search limit s .forkFails { s with pc := .gone, fds := fun _ => none }
  | closeSock {k : Nat} {c : ChildProcess StudentDetail} : s.children k = some c →
      c.pc = .closeSock →
      Does search limit s (.child k)
        (s.setChild k (some { c with fds := c.fds.close s.sockFD, pc := .loop }))
  | closeClient {k : Nat} {c : ChildProcess StudentDetail} : s.children k = some c →
      c.pc = .closeClient →
      Does search limit s (.child k)
        (s.setChild k (some { c with fds := c.fds.close c.clientFD, pc := .exit }))
  | exit {k : Nat} {c : ChildProcess StudentDetail} : s.children k = some c → c.pc = .exit →
      Does search limit s (.child k) (s.setChild k none)
  | text {k j : Nat} {c : ChildProcess StudentDetail} {recvBuffer : List UInt8}
      {w : List StudentDetail} {vars : Child StudentDetail} {pc : ChildPc} :
      s.children k = some c → c.pc = .loop → c.fds c.clientFD = some (.client j) →
      Child.step search c.vars recvBuffer = some (w, vars) → pc = .loop ∨ pc = .closeClient →
      Does search limit s (.text k recvBuffer) { s.setChild k (some { c with vars, pc }) with
        log := Function.update s.log j (s.log j ++ [(recvBuffer, w)]) }
  | die {k : Nat} {c : ChildProcess StudentDetail} : s.children k = some c →
      Does search limit s (.die k) (s.setChild k none)

theorem does_of_childStep {k : Nat} {c : ChildProcess StudentDetail} (hc : s.children k = some c)
    (h : s.childStep k c = some s') : Does search limit s (.child k) s' := by
  unfold childStep at h
  split at h
  · cases h
    exact .closeSock hc ‹_›
  · cases h
  · cases h
    exact .closeClient hc ‹_›
  · cases h
    exact .exit hc ‹_›

theorem does_of_textStep {k : Nat} {c : ChildProcess StudentDetail} {recvBuffer : List UInt8}
    (hc : s.children k = some c) (h : s.textStep search k recvBuffer c = some s') :
    Does search limit s (.text k recvBuffer) s' := by
  unfold textStep at h
  split at h
  · rename_i j hpc hfd
    obtain ⟨⟨w, vars⟩, hstep, h⟩ := Option.bind_eq_some_iff.mp h
    cases h
    refine .text hc hpc hfd hstep ?_
    split
    · exact .inl rfl
    · exact .inr rfl
  · cases h

theorem does_of_step (h : step search limit s e = some (o, s')) : Does search limit s e s' := by
  unfold step at h
  split at h
  · split at h
    · cases h
      exact .accept ‹_› ‹_›
    · cases h
      exact .full ‹_› ‹_›
  · cases h
    exact .acceptFails ‹_›
  · cases h
    exact .fork ‹_›
  · cases h
    exact .stray ‹_›
  · cases h
    exact .forkFails ‹_›
  · obtain ⟨c, hc, h⟩ := Option.bind_eq_some_iff.mp h
    obtain ⟨_, hstep, heq⟩ := Option.map_eq_some_iff.mp h
    cases heq
    exact does_of_childStep hc hstep
  · obtain ⟨c, hc, h⟩ := Option.bind_eq_some_iff.mp h
    obtain ⟨_, hstep, heq⟩ := Option.map_eq_some_iff.mp h
    cases heq
    exact does_of_textStep hc hstep
  · obtain ⟨c, hc, heq⟩ := Option.map_eq_some_iff.mp h
    cases heq
    exact .die hc
  · cases h

/-! ## §2 The invariant -/

/-- `n₀` descriptors were in use before the first client. -/
structure Inv (search : Int32 → Option StudentDetail) (junk : StudentDetail) (limit n₀ : Nat)
    (s : ForkServer StudentDetail) : Prop where
  vars : s.vars = .start junk
  listening : s.pc ≠ .gone → s.fds s.sockFD = some .listening
  used : s.pc ≠ .gone → s.fds.used limit = n₀ + s.accepted
  clients : s.pc ≠ .gone → ∀ k, s.fds.Holds (.client k) ↔ k < s.accepted
  room : n₀ + s.accepted ≤ limit
  forking : ∀ clientFD, s.pc = .fork (some clientFD) → ∃ k, s.accepted = k + 1 ∧
    s.fds clientFD = some (.client k) ∧ s.children k = none ∧ s.log k = []
  child : ∀ k c, s.children k = some c → k < s.accepted ∧ c.Ok search junk s.sockFD k (s.log k)
  log : ∀ k, ∃ vars, Exec (Child.step search) (fun _ _ => True) (.start junk) (s.log k) vars
  fresh : ∀ k, s.accepted ≤ k → s.log k = []

/-- A child makes a step, or goes away. -/
theorem Inv.change {k : Nat} {c : ChildProcess StudentDetail} (h : s.Inv search junk limit n₀)
    (hk : s.children k = some c) (c' : Option (ChildProcess StudentDetail))
    {log : List (List UInt8 × List StudentDetail)}
    (hlog : ∃ vars, Exec (Child.step search) (fun _ _ => True) (.start junk) log vars)
    (hc' : ∀ x, c' = some x → x.Ok search junk s.sockFD k log) :
    Inv search junk limit n₀ { s.setChild k c' with log := Function.update s.log k log } := by
  have hlt := (h.child k c hk).1
  refine ⟨h.vars, h.listening, h.used, h.clients, h.room, fun clientFD hpc => ?_, fun j x hx => ?_,
    fun j => ?_, fun j hj => ?_⟩
  · -- the last client has no child yet
    obtain ⟨i, hi, hfd, hnone, hnil⟩ := h.forking clientFD hpc
    have hik : i ≠ k := by
      rintro rfl
      rw [hnone] at hk
      cases hk
    exact ⟨i, hi, hfd, (children_setChild_of_ne hik ..).trans hnone,
      (Function.update_of_ne hik ..).trans hnil⟩
  · by_cases hj : j = k
    · subst hj
      have hx' : c' = some x := (children_setChild_self s j c').symm.trans hx
      refine ⟨hlt, ?_⟩
      show x.Ok search junk s.sockFD j (Function.update s.log j log j)
      rw [Function.update_self]
      exact hc' x hx'
    · obtain ⟨hlt', hok⟩ := h.child j x ((children_setChild_of_ne hj ..).symm.trans hx)
      refine ⟨hlt', ?_⟩
      show x.Ok search junk s.sockFD j (Function.update s.log k log j)
      rwa [Function.update_of_ne hj]
  · show ∃ vars, Exec _ _ _ (Function.update s.log k log j) vars
    by_cases hj : j = k
    · rw [hj, Function.update_self]
      exact hlog
    · rw [Function.update_of_ne hj]
      exact h.log j
  · have hjk : j ≠ k := by
      rintro rfl
      exact absurd hlt (Nat.not_lt.mpr hj)
    exact (Function.update_of_ne hjk ..).trans (h.fresh j hj)

/-- The same, when nothing is read. -/
theorem Inv.setChild {k : Nat} {c : ChildProcess StudentDetail} (h : s.Inv search junk limit n₀)
    (hk : s.children k = some c) (c' : Option (ChildProcess StudentDetail))
    (hc' : ∀ x, c' = some x → x.Ok search junk s.sockFD k (s.log k)) :
    (s.setChild k c').Inv search junk limit n₀ := by
  have h' := h.change hk c' (h.log k) hc'
  rwa [Function.update_eq_self] at h'

/-- The parent goes on without a client. -/
theorem Inv.goOn (h : s.Inv search junk limit n₀) (halive : s.pc ≠ .gone) {pc : ParentPc}
    (hpc : ∀ clientFD, pc ≠ .fork (some clientFD)) (strays : Nat) :
    Inv search junk limit n₀ { s with pc := pc, strays := strays } :=
  ⟨h.vars, fun _ => h.listening halive, fun _ => h.used halive, fun _ => h.clients halive,
    h.room, fun clientFD heq => absurd heq (hpc clientFD), h.child, h.log, h.fresh⟩

/-- **Step lemma.** -/
theorem Inv.does (h : s.Inv search junk limit n₀) (hd : Does search limit s e s') :
    s'.Inv search junk limit n₀ := by
  cases hd with
  | @accept clientFD fds hpc hal =>
    have halive : s.pc ≠ .gone := by rw [hpc]; nofun
    have hsock := h.listening halive
    have hused : fds.used limit = n₀ + (s.accepted + 1) := by
      rw [Descriptors.used_alloc hal, h.used halive, Nat.add_assoc]
    have hnone : s.children s.accepted = none := by
      by_contra hsome
      obtain ⟨c, hc⟩ := Option.ne_none_iff_exists'.mp hsome
      exact lt_irrefl _ (h.child _ c hc).1
    refine ⟨h.vars, fun _ => ?_, fun _ => hused, fun _ k => ?_, hused ▸ Descriptors.used_le ..,
      ?_, fun k c hc => ?_, h.log, fun k hk => h.fresh k (Nat.le_of_succ_le hk)⟩
    · exact (Descriptors.alloc_of_ne hal (newFD_ne_sockFD hsock hal).symm).trans hsock
    · show fds.Holds (.client k) ↔ k < s.accepted + 1
      rw [Descriptors.holds_alloc hal, h.clients halive, File.client.injEq]
      omega
    · rintro _ ⟨⟩
      exact ⟨s.accepted, rfl, Descriptors.alloc_self hal, hnone, h.fresh _ le_rfl⟩
    · obtain ⟨hlt, hok⟩ := h.child k c hc
      exact ⟨Nat.lt_succ_of_lt hlt, hok⟩
  | full hpc _ => exact h.goOn (by rw [hpc]; nofun) (by rintro _ ⟨⟩) s.strays
  | acceptFails hpc => exact h.goOn (by rw [hpc]; nofun) (by rintro _ ⟨⟩) s.strays
  | @fork clientFD hpc =>
    have halive : s.pc ≠ .gone := by rw [hpc]; nofun
    obtain ⟨i, hi, hfd, -, hnil⟩ := h.forking clientFD hpc
    rw [hi, Nat.add_sub_cancel]
    refine ⟨h.vars, fun _ => h.listening halive, fun _ => h.used halive,
      fun _ => h.clients halive, h.room, nofun, fun k c hc => ?_, h.log, h.fresh⟩
    by_cases hk : k = i
    · subst hk
      obtain rfl : c = ⟨clientFD, s.fds, .closeSock, s.vars⟩ :=
        (Option.some.inj ((children_setChild_self s k _).symm.trans hc)).symm
      refine ⟨by show k < s.accepted; omega, fun _ => h.listening halive, fun _ => hfd,
        fun j hj => (h.clients halive j).mpr (by omega), fun j hj => ?_, ?_⟩
      · have := (h.clients halive j).mp hj
        omega
      · show Exec _ _ _ (s.log k) s.vars
        rw [hnil, h.vars]
        exact .nil
    · exact h.child k c ((children_setChild_of_ne hk ..).symm.trans hc)
  | stray hpc => exact h.goOn (by rw [hpc]; nofun) (by rintro _ ⟨⟩) (s.strays + 1)
  | forkFails _ =>
    exact ⟨h.vars, fun hpc => absurd rfl hpc, fun hpc => absurd rfl hpc,
      fun hpc => absurd rfl hpc, h.room, nofun, h.child, h.log, h.fresh⟩
  | @closeSock k c hc hpc =>
    refine h.setChild hc _ ?_
    rintro _ ⟨⟩
    obtain ⟨-, hok⟩ := h.child k c hc
    have hsock := hok.listening hpc
    have hown := hok.own (by rw [hpc]; nofun)
    have hne : c.clientFD ≠ s.sockFD := by
      intro heq
      rw [heq, hsock] at hown
      cases hown
    refine ⟨nofun, fun _ => (Descriptors.close_of_ne hne).trans hown, fun j hj => ?_,
      fun j hj => hok.last j hj.of_close, hok.session⟩
    refine (hok.earlier j hj).close ?_
    rw [hsock]
    nofun
  | @closeClient k c hc hpc =>
    refine h.setChild hc _ ?_
    rintro _ ⟨⟩
    obtain ⟨-, hok⟩ := h.child k c hc
    have hown := hok.own (by rw [hpc]; nofun)
    refine ⟨nofun, fun hne => absurd rfl hne, fun j hj => ?_,
      fun j hj => hok.last j hj.of_close, hok.session⟩
    refine (hok.earlier j hj).close ?_
    rw [hown, ne_eq, Option.some.injEq, File.client.injEq]
    omega
  | exit hc _ => exact h.setChild hc none nofun
  | @text k j c recvBuffer w vars pc hc hpc hfd hstep hnext =>
    obtain ⟨-, hok⟩ := h.child k c hc
    -- its descriptor refers to its own client
    obtain rfl : j = k := by
      rw [hok.own (by rw [hpc]; nofun)] at hfd
      cases hfd
      rfl
    have hsession := hok.session.snoc trivial hstep
    refine h.change hc (some { c with vars, pc }) ⟨vars, hsession⟩ ?_
    rintro _ ⟨⟩
    refine ⟨fun hpc' => ?_, fun _ => hfd, hok.earlier, hok.last, hsession⟩
    rcases hnext with rfl | rfl <;> cases hpc'
  | die hc => exact h.setChild hc none nofun

theorem Inv.start {inUse : Nat → Bool} (search : Int32 → Option StudentDetail)
    (h : start limit inUse junk = some s) :
    s.Inv search junk limit (s.fds.used limit) ∧ s.accepted = 0 ∧ ∀ k, s.log k = [] := by
  obtain ⟨⟨sockFD, fds⟩, hal, rfl⟩ := Option.map_eq_some_iff.mp h
  refine ⟨⟨rfl, fun _ => Descriptors.alloc_self hal, fun _ => rfl, fun _ k => ?_,
    Descriptors.used_le .., nofun, nofun, fun _ => ⟨_, .nil⟩, fun _ _ => rfl⟩, rfl, fun _ => rfl⟩
  exact iff_of_false (no_client_of_start hal k) (Nat.not_lt_zero k)

/-- The invariant in every state reached. -/
theorem Inv.run {s₀ : ForkServer StudentDetail} {ok : ForkServer StudentDetail → ForkEvent → Prop}
    {tr : List (ForkEvent × Unit)} (h₀ : s₀.Inv search junk limit n₀)
    (h : Exec (step search limit) ok s₀ tr s) : s.Inv search junk limit n₀ :=
  h.invariant (Inv search junk limit n₀) h₀ fun _ _ _ _ hinv _ hstep =>
    hinv.does (does_of_step hstep)

/-! ## §3 Texts -/

/-- The texts that the child of client `k` read. -/
def textsOf (k : Nat) (tr : List (ForkEvent × Unit)) : List (List UInt8) :=
  tr.filterMap fun
    | (.text j recvBuffer, _) => if j = k then some recvBuffer else none
    | _ => none

/-- A call adds to the log of a client what its child read in it. -/
theorem Inv.log_does (h : s.Inv search junk limit n₀) (hd : Does search limit s e s') (k : Nat) :
    (s'.log k).map Prod.fst = (s.log k).map Prod.fst ++ textsOf k [(e, o)] := by
  cases hd with
  | @text i j c recvBuffer w vars pc hc hpc hfd hstep hnext =>
    obtain rfl : j = i := by
      rw [(h.child i c hc).2.own (by rw [hpc]; nofun)] at hfd
      cases hfd
      rfl
    show (Function.update s.log j _ k).map Prod.fst = _
    by_cases hjk : j = k
    · rw [hjk, Function.update_self, List.map_append]
      simp [textsOf]
    · rw [Function.update_of_ne (Ne.symm hjk)]
      simp [textsOf, hjk]
  | _ => exact (List.append_nil _).symm

/-- The log of a client is of the texts that its child read. -/
theorem log_texts {s₀ : ForkServer StudentDetail} {ok : ForkServer StudentDetail → ForkEvent → Prop}
    {tr : List (ForkEvent × Unit)} (h₀ : s₀.Inv search junk limit n₀) (hlog : ∀ k, s₀.log k = [])
    (h : Exec (step search limit) ok s₀ tr s) (k : Nat) :
    (s.log k).map Prod.fst = textsOf k tr := by
  induction h with
  | nil =>
    rw [hlog k]
    rfl
  | @snoc tr s t e o hrun _ hstep ih =>
    rw [(h₀.run hrun).log_does (o := o) (does_of_step hstep), ih]
    exact (List.filterMap_append ..).symm

/-! ## §4 The server -/

/-- A list with one student, and room for two clients. -/
def oneStudent (id : Int32) : Option Nat := if id = 6 then some 171506 else none

def roomForTwo : Option (ForkServer Nat) := start 6 (· < 3) 0

theorem roomForTwo_isSome : roomForTwo.isSome = true := by decide

/-- Two clients ask for the student, and the first one quits; a third one comes. -/
def threeCome : List ForkEvent :=
  [.accept, .fork, .child 0, .accept, .fork, .text 0 (bytes "6"), .child 1, .text 0 (bytes "quit"),
    .text 1 (bytes "6"), .child 0, .text 1 (bytes "quit"), .child 0, .accept, .fork]

/-- The run of `threeCome`. -/
theorem threeCome_exec {s₀ : ForkServer Nat} (h₀ : roomForTwo = some s₀) : ∃ tr s,
    Exec (step oneStudent 6) (fun _ _ => True) s₀ tr s ∧ tr.map Prod.fst = threeCome ∧
      s.pc = .accept ∧ s.accepted = 2 ∧ s.strays = 1 ∧ (s.children 0).isNone = true ∧
      textsOf 1 tr = textsOf 0 tr := by
  obtain rfl : s₀ = roomForTwo.get roomForTwo_isSome := by simp [h₀]
  exact exec_such_that (step oneStudent 6) (fun _ _ => True) (roomForTwo.get roomForTwo_isSome)
    threeCome (fun p => p.2.pc = .accept ∧ p.2.accepted = 2 ∧ p.2.strays = 1 ∧
      (p.2.children 0).isNone = true ∧ textsOf 1 p.1 = textsOf 0 p.1) (by decide +kernel)

/-- **Clients are served apart.** In every order of the processes' calls, a client's
answers are those of a child that starts with the variables of `main` and reads the
texts of this client (no `read` of a child fails): the others do not matter, neither
who they are nor what they send nor when. So in two runs a client that sent the same
texts was sent the same records. -/
theorem serves_apart (search : Int32 → Option StudentDetail) (junk : StudentDetail)
    (limit : Nat) (inUse : Nat → Bool) (s₀ : ForkServer StudentDetail)
    (h₀ : start limit inUse junk = some s₀) (tr : List (ForkEvent × Unit))
    (s : ForkServer StudentDetail) (h : Exec (step search limit) (fun _ _ => True) s₀ tr s)
    (k : Nat) :
    (∃ vars, Exec (Child.step search) (fun _ _ => True) (.start junk) (s.log k) vars) ∧
    (∀ c, s.children k = some c →
      Exec (Child.step search) (fun _ _ => True) (.start junk) (s.log k) c.vars) ∧
    (s.log k).map Prod.fst = textsOf k tr ∧
    ∀ tr' s' k', Exec (step search limit) (fun _ _ => True) s₀ tr' s' →
      textsOf k' tr' = textsOf k tr → s'.log k' = s.log k := by
  obtain ⟨hinv₀, -, hlog₀⟩ := Inv.start search h₀
  have hinv := hinv₀.run h
  have htexts := log_texts hinv₀ hlog₀ h k
  refine ⟨hinv.log k, fun c hc => (hinv.child k c hc).2.session, htexts,
    fun tr' s' k' h' hsame => ?_⟩
  obtain ⟨_, hexec⟩ := hinv.log k
  obtain ⟨_, hexec'⟩ := (hinv₀.run h').log k'
  have htexts' := log_texts hinv₀ hlog₀ h' k'
  exact (hexec.deterministic hexec' (by rw [htexts', hsame, htexts])).1

/-- The two clients of `threeCome` were sent the same. -/
theorem serves_apart_three_come : ∃ s₀ tr s, roomForTwo = some s₀ ∧
    Exec (step oneStudent 6) (fun _ _ => True) s₀ tr s ∧ tr.map Prod.fst = threeCome ∧
      s.log 1 = s.log 0 := by
  obtain ⟨s₀, h₀⟩ := Option.isSome_iff_exists.mp roomForTwo_isSome
  obtain ⟨tr, s, h, hin, -, -, -, -, hsame⟩ := threeCome_exec h₀
  obtain ⟨-, -, -, hlog⟩ := serves_apart oneStudent 0 6 (· < 3) s₀ h₀ tr s h 0
  exact ⟨s₀, tr, s, h₀, h, hin, hlog tr s 1 h hsame⟩

/-- **The parent keeps every connection.** As long as the parent is there, it has a
descriptor for every client it ever accepted: so each of these connections is open,
whatever became of its child, and the client never sees the end of it; and every
client takes a descriptor for good. A new client is accepted if and only if the
clients so far and the descriptors of the start are fewer than the limit, so never
more clients than that are accepted. A child has the connections of all clients
before its own. -/
theorem leaks (search : Int32 → Option StudentDetail) (junk : StudentDetail)
    (limit : Nat) (inUse : Nat → Bool) (s₀ : ForkServer StudentDetail)
    (h₀ : start limit inUse junk = some s₀) (tr : List (ForkEvent × Unit))
    (s : ForkServer StudentDetail) (h : Exec (step search limit) (fun _ _ => True) s₀ tr s) :
    s₀.fds.used limit + s.accepted ≤ limit ∧
    (∀ k c, s.children k = some c → ∀ j, j < k → c.fds.Holds (.client j)) ∧
    (s.pc ≠ .gone →
      s.fds.used limit = s₀.fds.used limit + s.accepted ∧
      (∀ k, s.Open (.client k) ↔ k < s.accepted) ∧
      (s.pc = .accept → ((∃ s', step search limit s .accept = some ((), s') ∧
        s'.accepted = s.accepted + 1) ↔ s₀.fds.used limit + s.accepted < limit))) := by
  obtain ⟨hinv₀, -, -⟩ := Inv.start search h₀
  have hinv := hinv₀.run h
  refine ⟨hinv.room, fun k c hc => (hinv.child k c hc).2.earlier, fun halive =>
    ⟨hinv.used halive, fun k => ?_, fun hpc => ?_⟩⟩
  · constructor
    · rintro (hheld | ⟨j, c, hc, hheld⟩)
      · exact (hinv.clients halive k).mp hheld
      · obtain ⟨hlt, hok⟩ := hinv.child j c hc
        exact (hok.last k hheld).trans_lt hlt
    · exact fun hk => .inl ((hinv.clients halive k).mpr hk)
  · rw [← hinv.used halive, ← Descriptors.alloc_isSome_iff (d := File.client s.accepted)]
    cases hal : s.fds.alloc limit (.client s.accepted) with
    | none => simp [step, hpc, hal]
    | some p => simp [step, hpc, hal]

/-- After `threeCome` the connection of the client that quit is open, and no other
client is accepted. -/
theorem leaks_three_come : ∃ s₀ tr s, roomForTwo = some s₀ ∧
    Exec (step oneStudent 6) (fun _ _ => True) s₀ tr s ∧ tr.map Prod.fst = threeCome ∧
      (s.children 0).isNone = true ∧ s.Open (.client 0) ∧
      ¬ ∃ s', step oneStudent 6 s .accept = some ((), s') ∧ s'.accepted = s.accepted + 1 := by
  obtain ⟨s₀, h₀⟩ := Option.isSome_iff_exists.mp roomForTwo_isSome
  obtain ⟨tr, s, h, hin, hpc, haccepted, -, hgone, -⟩ := threeCome_exec h₀
  obtain ⟨-, -, hleaks⟩ := leaks oneStudent 0 6 (· < 3) s₀ h₀ tr s h
  obtain ⟨-, hopen, hroom⟩ := hleaks (by rw [hpc]; nofun)
  have hused : s₀.fds.used 6 = 4 := by
    obtain rfl : s₀ = roomForTwo.get roomForTwo_isSome := by simp [h₀]
    decide +kernel
  refine ⟨s₀, tr, s, h₀, h, hin, hgone, (hopen 0).mpr (by omega), fun hmore => ?_⟩
  have hlt := (hroom hpc).mp hmore
  omega

end ForkServer

end CCodes.Fork
