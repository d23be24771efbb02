/-
CCodes.Stream.StreamServerTheorems — every client of `other/streamserver/server.c`
gets the greeting and then the end of its connection.

§1 says once what a step does. §2 is the invariant: between two passes of its loop
the parent has the descriptors that it had before the first one, and a child has
these and its own connection. §3 follows the connections: as long as one is open, a
process that has it is on its way to close it.
-/
import Mathlib.Tactic.SplitIfs
import CCodes.Lib.Weights
import CCodes.Stream.StreamServer

namespace CCodes.Stream

open CCodes.Lib

/-- A child that was forked with the descriptors `u`, and what its client got. -/
def Child.Ok (c : Child) (sockFD : Nat) (u : Descriptors File) (got : List UInt8) : Prop :=
  match c.pc with
  | .closeSock => c.fds = u ∧ got = []
  | .send => c.fds = u.close sockFD ∧ got = []
  | .closeNew => c.fds = u.close sockFD ∧ got = greeting
  | .exit => c.fds = (u.close sockFD).close c.newFD ∧ got = greeting

/-- The calls that the parent and the child it forks still make in the pass. -/
def ParentPc.weight : ParentPc → Nat
  | .accept => 0
  | .fork _ => 6
  | .close _ => 1

/-- The calls that a child still makes. -/
def Child.weight (c : Child) : Nat :=
  match c.pc with
  | .closeSock => 4
  | .send => 3
  | .closeNew => 2
  | .exit => 1

namespace StreamServer

variable {s s' : StreamServer} {limit : Nat} {t u : Descriptors File} {e : Event} {o : Unit}

/-! ## §1 Steps -/

/-- The child of client `k` after its step. -/
def setChild (s : StreamServer) (k : Nat) (c : Option Child) : StreamServer :=
  { s with children := Function.update s.children k c }

theorem children_setChild_self (s : StreamServer) (k : Nat) (c : Option Child) :
    (s.setChild k c).children k = c := Function.update_self ..

theorem children_setChild_of_ne {j k : Nat} (h : j ≠ k) (s : StreamServer) (c : Option Child) :
    (s.setChild k c).children j = s.children j := Function.update_of_ne h ..

/-- What each call does. -/
inductive Does (limit : Nat) (s : StreamServer) : Event → StreamServer → Prop
  | full : s.pc = .accept → s.fds.alloc limit (.client s.accepted) = none → Does limit s .accept s
  | accept {newFD : Nat} {fds : Descriptors File} : s.pc = .accept →
      s.fds.alloc limit (.client s.accepted) = some (newFD, fds) →
      Does limit s .accept { s with pc := .fork newFD, fds, accepted := s.accepted + 1 }
  | acceptFails : s.pc = .accept → Does limit s .acceptFails s
  | fork {newFD : Nat} : s.pc = .fork newFD →
      Does limit s .fork { s.setChild (s.accepted - 1) (some ⟨newFD, s.fds, .closeSock⟩) with
        pc := .close newFD }
  | forkFails {newFD : Nat} : s.pc = .fork newFD →
      Does limit s .forkFails { s with pc := .close newFD }
  | close {newFD : Nat} : s.pc = .close newFD →
      Does limit s .close { s with pc := .accept, fds := s.fds.close newFD }
  | closeSock {k : Nat} {c : Child} : s.children k = some c → c.pc = .closeSock →
      Does limit s (.child k)
        (s.setChild k (some { c with fds := c.fds.close s.sockFD, pc := .send }))
  | send {k j : Nat} {c : Child} : s.children k = some c → c.pc = .send →
      c.fds c.newFD = some (.client j) →
      Does limit s (.child k) { s.setChild k (some { c with pc := .closeNew }) with
        received := Function.update s.received j (s.received j ++ greeting) }
  | closeNew {k : Nat} {c : Child} : s.children k = some c → c.pc = .closeNew →
      Does limit s (.child k)
        (s.setChild k (some { c with fds := c.fds.close c.newFD, pc := .exit }))
  | exit {k : Nat} {c : Child} : s.children k = some c → c.pc = .exit →
      Does limit s (.child k) (s.setChild k none)
  | die {k : Nat} {c : Child} : s.children k = some c → Does limit s (.die k) (s.setChild k none)

theorem does_of_childStep {k : Nat} {c : Child} (hc : s.children k = some c)
    (h : s.childStep k c = some s') : Does limit s (.child k) s' := by
  unfold childStep at h
  split at h
  · cases h
    exact .closeSock hc ‹_›
  · split at h
    · cases h
      exact .send hc ‹_› ‹_›
    · cases h
  · cases h
    exact .closeNew hc ‹_›
  · cases h
    exact .exit hc ‹_›

theorem does_of_step (h : step limit s e = some (o, s')) : Does limit s e s' := by
  unfold step at h
  split at h
  · split at h
    · cases h
      exact .accept ‹_› ‹_›
    · cases h
      exact .full ‹_› ‹_›
  · cases h
    exact .acceptFails ‹_›
  · cases h
    exact .fork ‹_›
  · cases h
    exact .forkFails ‹_›
  · cases h
    exact .close ‹_›
  · obtain ⟨c, hc, h⟩ := Option.bind_eq_some_iff.mp h
    obtain ⟨_, hstep, heq⟩ := Option.map_eq_some_iff.mp h
    cases heq
    exact does_of_childStep hc hstep
  · obtain ⟨c, hc, heq⟩ := Option.map_eq_some_iff.mp h
    cases heq
    exact .die hc
  · cases h

/-! ## §2 Descriptors -/

/-- The parent has the descriptors `t` between two passes, and those and the
connection of the last client in a pass. -/
def ParentOk (limit : Nat) (t : Descriptors File) (s : StreamServer) : ParentPc → Prop
  | .accept => s.fds = t
  | .fork newFD => ∃ k, s.accepted = k + 1 ∧ t.alloc limit (.client k) = some (newFD, s.fds) ∧
      s.children k = none ∧ s.received k = []
  | .close newFD => ∃ k, s.accepted = k + 1 ∧ t.alloc limit (.client k) = some (newFD, s.fds)

structure Inv (limit : Nat) (t : Descriptors File) (s : StreamServer) : Prop where
  listening : t s.sockFD = some .listening
  noClient : ∀ k, ¬ t.Holds (.client k)
  parent : s.ParentOk limit t s.pc
  child : ∀ k c, s.children k = some c → k < s.accepted ∧
    ∃ u, t.alloc limit (.client k) = some (c.newFD, u) ∧ c.Ok s.sockFD u (s.received k)
  got : ∀ k, s.received k = [] ∨ s.received k = greeting
  fresh : ∀ k, s.accepted ≤ k → s.received k = []

/-- A child has its own connection until it closed it, and no other. -/
theorem holds_child {c : Child} {k j sockFD : Nat} {got : List UInt8}
    (hsock : t sockFD = some .listening) (hno : ∀ k, ¬ t.Holds (.client k))
    (hal : t.alloc limit (.client k) = some (c.newFD, u)) (hok : c.Ok sockFD u got) :
    c.fds.Holds (.client j) ↔ j = k ∧ c.pc ≠ .exit := by
  have hu : u.Holds (.client j) ↔ j = k := by
    rw [Descriptors.holds_alloc hal, or_iff_left (hno j), File.client.injEq]
  have hsend : (u.close sockFD).Holds (.client j) ↔ j = k := by
    rw [← hu]
    refine ⟨Descriptors.Holds.of_close, fun h => h.close ?_⟩
    rw [Descriptors.alloc_of_ne hal (newFD_ne_sockFD hsock hal).symm, hsock]
    nofun
  rw [Child.Ok] at hok
  cases hpc : c.pc with
  | closeSock =>
    rw [hpc] at hok
    rw [hok.1, hu]
    simp
  | send =>
    rw [hpc] at hok
    rw [hok.1, hsend]
    simp
  | closeNew =>
    rw [hpc] at hok
    rw [hok.1, hsend]
    simp
  | exit =>
    rw [hpc] at hok
    rw [hok.1, Descriptors.close_comm, Descriptors.close_alloc hal]
    simp only [ne_eq, not_true_eq_false, and_false, iff_false]
    exact fun h => hno j h.of_close

/-- Until it closed it, a child has its connection at `newFD`. -/
theorem newFD_child {c : Child} {k sockFD : Nat} {got : List UInt8}
    (hsock : t sockFD = some .listening)
    (hal : t.alloc limit (.client k) = some (c.newFD, u)) (hok : c.Ok sockFD u got)
    (hpc : c.pc ≠ .exit) : c.fds c.newFD = some (.client k) := by
  have hself : u c.newFD = some (.client k) := Descriptors.alloc_self hal
  have hsend : (u.close sockFD) c.newFD = some (.client k) := by
    rw [Descriptors.close_of_ne (newFD_ne_sockFD hsock hal), hself]
  rw [Child.Ok] at hok
  cases hat : c.pc with
  | closeSock =>
    rw [hat] at hok
    rw [hok.1, hself]
  | send =>
    rw [hat] at hok
    rw [hok.1, hsend]
  | closeNew =>
    rw [hat] at hok
    rw [hok.1, hsend]
  | exit => exact absurd hat hpc

/-- A child makes a step, or goes away. -/
theorem Inv.change {k : Nat} {c : Child} (h : s.Inv limit t) (hk : s.children k = some c)
    (c' : Option Child) {got : List UInt8} (hgot : got = [] ∨ got = greeting)
    (hc' : ∀ x, c' = some x → ∃ u,
      t.alloc limit (.client k) = some (x.newFD, u) ∧ x.Ok s.sockFD u got) :
    Inv limit t { s.setChild k c' with received := Function.update s.received k got } := by
  have hlt := (h.child k c hk).1
  refine ⟨h.listening, h.noClient, ?_, fun j x hx => ?_, fun j => ?_, fun j hj => ?_⟩
  · have hparent := h.parent
    show ParentOk limit t _ s.pc
    cases hpc : s.pc with
    | accept =>
      rw [hpc] at hparent
      exact hparent
    | fork newFD =>
      -- the last client has no child yet
      rw [hpc] at hparent
      obtain ⟨i, hi, hal, hnone, hnil⟩ := hparent
      have hik : i ≠ k := by
        rintro rfl
        rw [hnone] at hk
        cases hk
      exact ⟨i, hi, hal, (children_setChild_of_ne hik ..).trans hnone,
        (Function.update_of_ne hik ..).trans hnil⟩
    | close newFD =>
      rw [hpc] at hparent
      exact hparent
  · by_cases hj : j = k
    · subst hj
      have hx' : c' = some x := (children_setChild_self s j c').symm.trans hx
      obtain ⟨u, hal, hok⟩ := hc' x hx'
      refine ⟨hlt, u, hal, ?_⟩
      show x.Ok s.sockFD u (Function.update s.received j got j)
      rwa [Function.update_self]
    · obtain ⟨hlt', u, hal, hok⟩ := h.child j x ((children_setChild_of_ne hj ..).symm.trans hx)
      refine ⟨hlt', u, hal, ?_⟩
      show x.Ok s.sockFD u (Function.update s.received k got j)
      rwa [Function.update_of_ne hj]
  · show Function.update s.received k got j = [] ∨ Function.update s.received k got j = greeting
    by_cases hj : j = k
    · rw [hj, Function.update_self]
      exact hgot
    · rw [Function.update_of_ne hj]
      exact h.got j
  · have hjk : j ≠ k := by
      rintro rfl
      exact absurd hlt (Nat.not_lt.mpr hj)
    exact (Function.update_of_ne hjk ..).trans (h.fresh j hj)

/-- The same, when nothing is sent. -/
theorem Inv.setChild {k : Nat} {c : Child} (h : s.Inv limit t) (hk : s.children k = some c)
    (c' : Option Child) (hc' : ∀ x, c' = some x → ∃ u,
      t.alloc limit (.client k) = some (x.newFD, u) ∧ x.Ok s.sockFD u (s.received k)) :
    (s.setChild k c').Inv limit t := by
  have h' := h.change hk c' (h.got k) hc'
  rwa [Function.update_eq_self] at h'

/-- **Step lemma.** -/
theorem Inv.does (h : s.Inv limit t) (hd : Does limit s e s') : s'.Inv limit t := by
  cases hd with
  | full _ _ => exact h
  | acceptFails _ => exact h
  | @accept newFD fds hpc hal =>
    have hparent := h.parent
    rw [hpc] at hparent
    rw [show s.fds = t from hparent] at hal
    have hnone : s.children s.accepted = none := by
      by_contra hsome
      obtain ⟨c, hc⟩ := Option.ne_none_iff_exists'.mp hsome
      exact lt_irrefl _ (h.child _ c hc).1
    refine ⟨h.listening, h.noClient, ⟨s.accepted, rfl, hal, hnone, h.fresh _ le_rfl⟩,
      fun k c hc => ?_, h.got, fun k hk => h.fresh k (Nat.le_of_succ_le hk)⟩
    obtain ⟨hlt, hok⟩ := h.child k c hc
    exact ⟨Nat.lt_succ_of_lt hlt, hok⟩
  | @fork newFD hpc =>
    have hparent := h.parent
    rw [hpc] at hparent
    obtain ⟨i, hi, hal, -, hnil⟩ := hparent
    rw [hi, Nat.add_sub_cancel]
    refine ⟨h.listening, h.noClient, ⟨i, hi, hal⟩, fun k c hc => ?_, h.got, h.fresh⟩
    by_cases hk : k = i
    · subst hk
      obtain rfl : c = ⟨newFD, s.fds, .closeSock⟩ :=
        (Option.some.inj ((children_setChild_self s k _).symm.trans hc)).symm
      exact ⟨by show k < s.accepted; omega, s.fds, hal, rfl, hnil⟩
    · exact h.child k c ((children_setChild_of_ne hk ..).symm.trans hc)
  | @forkFails newFD hpc =>
    have hparent := h.parent
    rw [hpc] at hparent
    obtain ⟨i, hi, hal, -, -⟩ := hparent
    exact ⟨h.listening, h.noClient, ⟨i, hi, hal⟩, h.child, h.got, h.fresh⟩
  | @close newFD hpc =>
    have hparent := h.parent
    rw [hpc] at hparent
    obtain ⟨i, hi, hal⟩ := hparent
    exact ⟨h.listening, h.noClient, Descriptors.close_alloc hal, h.child, h.got, h.fresh⟩
  | @closeSock k c hc hpc =>
    refine h.setChild hc _ ?_
    rintro _ ⟨⟩
    obtain ⟨-, u, hal, hok⟩ := h.child k c hc
    rw [Child.Ok, hpc] at hok
    exact ⟨u, hal, by rw [hok.1], hok.2⟩
  | @send k j c hc hpc hfd =>
    obtain ⟨-, u, hal, hok⟩ := h.child k c hc
    -- its descriptor refers to its own client
    obtain rfl : j = k :=
      ((holds_child h.listening h.noClient hal hok).mp ⟨c.newFD, hfd⟩).1
    rw [Child.Ok, hpc] at hok
    obtain ⟨hfds, hnil⟩ := hok
    have h' := h.change hc (some { c with pc := .closeNew }) (.inr rfl) (by
      rintro _ ⟨⟩
      exact ⟨u, hal, hfds, rfl⟩)
    rw [hnil, List.nil_append]
    exact h'
  | @closeNew k c hc hpc =>
    refine h.setChild hc _ ?_
    rintro _ ⟨⟩
    obtain ⟨-, u, hal, hok⟩ := h.child k c hc
    rw [Child.Ok, hpc] at hok
    exact ⟨u, hal, by rw [hok.1], hok.2⟩
  | exit hc _ => exact h.setChild hc none nofun
  | die hc => exact h.setChild hc none nofun

/-! ## §3 Connections -/

/-- The connection of a client is open while the parent is in its pass, and while
its child has not closed it. -/
theorem Inv.open_iff (h : s.Inv limit t) (k : Nat) :
    s.Open (.client k) ↔ (s.pc ≠ .accept ∧ s.accepted = k + 1) ∨
      ∃ c, s.children k = some c ∧ c.pc ≠ .exit := by
  have hparent : s.fds.Holds (.client k) ↔ s.pc ≠ .accept ∧ s.accepted = k + 1 := by
    have hparent := h.parent
    cases hpc : s.pc with
    | accept =>
      rw [hpc] at hparent
      rw [show s.fds = t from hparent]
      simp only [ne_eq, not_true_eq_false, false_and, iff_false]
      exact h.noClient k
    | fork newFD =>
      rw [hpc] at hparent
      obtain ⟨i, hi, hal, -, -⟩ := hparent
      rw [Descriptors.holds_alloc hal, or_iff_left (h.noClient k), File.client.injEq]
      simp only [ne_eq, reduceCtorEq, not_false_eq_true, true_and]
      omega
    | close newFD =>
      rw [hpc] at hparent
      obtain ⟨i, hi, hal⟩ := hparent
      rw [Descriptors.holds_alloc hal, or_iff_left (h.noClient k), File.client.injEq]
      simp only [ne_eq, reduceCtorEq, not_false_eq_true, true_and]
      omega
  rw [Open, hparent]
  refine or_congr_right ⟨?_, ?_⟩
  · rintro ⟨j, c, hc, hholds⟩
    obtain ⟨-, u, hal, hok⟩ := h.child j c hc
    obtain ⟨rfl, hpc⟩ := (holds_child h.listening h.noClient hal hok).mp hholds
    exact ⟨c, hc, hpc⟩
  · rintro ⟨c, hc, hpc⟩
    obtain ⟨-, u, hal, hok⟩ := h.child k c hc
    exact ⟨k, c, hc, (holds_child h.listening h.noClient hal hok).mpr ⟨rfl, hpc⟩⟩

/-- A client that got nothing yet has somebody who will send. -/
def Served (s : StreamServer) : Prop :=
  ∀ k, k < s.accepted → s.received k = [] →
    (∃ newFD, s.pc = .fork newFD ∧ s.accepted = k + 1) ∨
      ∃ c, s.children k = some c ∧ (c.pc = .closeSock ∨ c.pc = .send)

/-- No `fork` fails, and no child is killed. -/
def Graceful : Event → Prop
  | .forkFails => False
  | .die _ => False
  | _ => True

instance : DecidablePred Graceful
  | .forkFails => isFalse id
  | .die _ => isFalse id
  | .accept => isTrue trivial
  | .acceptFails => isTrue trivial
  | .fork => isTrue trivial
  | .close => isTrue trivial
  | .child _ => isTrue trivial

/-- A child that has not sent yet still has to, or its client got something. -/
theorem Served.change {k : Nat} (h : s.Served) (c' : Option Child) {got : List UInt8}
    (hc' : got = [] → ∃ x, c' = some x ∧ (x.pc = .closeSock ∨ x.pc = .send)) :
    Served { s.setChild k c' with received := Function.update s.received k got } := by
  intro j hj hnil
  replace hnil : Function.update s.received k got j = [] := hnil
  by_cases hjk : j = k
  · subst hjk
    rw [Function.update_self] at hnil
    obtain ⟨x, hx, hnext⟩ := hc' hnil
    exact .inr ⟨x, (children_setChild_self s j c').trans hx, hnext⟩
  · rw [Function.update_of_ne hjk] at hnil
    exact (h j hj hnil).imp id fun ⟨x, hx, hnext⟩ =>
      ⟨x, (children_setChild_of_ne hjk ..).trans hx, hnext⟩

theorem Served.setChild {k : Nat} (h : s.Served) (c' : Option Child)
    (hc' : s.received k = [] → ∃ x, c' = some x ∧ (x.pc = .closeSock ∨ x.pc = .send)) :
    (s.setChild k c').Served := by
  have h' := h.change (k := k) c' hc'
  rwa [Function.update_eq_self] at h'

theorem greeting_ne_nil : greeting ≠ [] := by decide

theorem Served.does (hinv : s.Inv limit t) (h : s.Served) (he : Graceful e)
    (hd : Does limit s e s') : s'.Served := by
  cases hd with
  | full _ _ => exact h
  | acceptFails _ => exact h
  | @accept newFD fds hpc hal =>
    intro k hk hnil
    replace hk : k < s.accepted + 1 := hk
    by_cases hlast : k = s.accepted
    · exact .inl ⟨newFD, rfl, by rw [hlast]⟩
    · rcases h k (by omega) hnil with ⟨fd, hpc', -⟩ | hchild
      · rw [hpc] at hpc'
        cases hpc'
      · exact .inr hchild
  | @fork newFD hpc =>
    have hparent := hinv.parent
    rw [hpc] at hparent
    obtain ⟨i, hi, -, hnone, -⟩ := hparent
    rw [hi, Nat.add_sub_cancel]
    intro k hk hnil
    by_cases hki : k = i
    · subst hki
      exact .inr ⟨⟨newFD, s.fds, .closeSock⟩, children_setChild_self s k _, .inl rfl⟩
    · rcases h k hk hnil with ⟨fd, -, hlast⟩ | ⟨c, hc, hnext⟩
      · omega
      · exact .inr ⟨c, (children_setChild_of_ne hki ..).trans hc, hnext⟩
  | forkFails _ => exact absurd he id
  | @close newFD hpc =>
    intro k hk hnil
    rcases h k hk hnil with ⟨fd, hpc', -⟩ | hchild
    · rw [hpc] at hpc'
      cases hpc'
    · exact .inr hchild
  | @closeSock k c hc hpc => exact h.setChild _ fun _ => ⟨_, rfl, .inr rfl⟩
  | @send k j c hc hpc hfd =>
    -- the child sends on the connection of its own client
    obtain ⟨-, u, hal, hok⟩ := hinv.child k c hc
    obtain rfl : j = k :=
      ((holds_child hinv.listening hinv.noClient hal hok).mp ⟨c.newFD, hfd⟩).1
    exact h.change _ fun hgot => absurd (List.append_eq_nil_iff.mp hgot).2 greeting_ne_nil
  | @closeNew k c hc hpc =>
    obtain ⟨-, u, -, hok⟩ := hinv.child k c hc
    rw [Child.Ok, hpc] at hok
    exact h.setChild _ fun hnil => absurd (hok.2.symm.trans hnil) greeting_ne_nil
  | @exit k c hc hpc =>
    obtain ⟨-, u, -, hok⟩ := hinv.child k c hc
    rw [Child.Ok, hpc] at hok
    exact h.setChild _ fun hnil => absurd (hok.2.symm.trans hnil) greeting_ne_nil
  | die _ => exact absurd he id

/-- Without failures, a connection that is closed has brought the greeting. -/
theorem Served.greeted {k : Nat} (h : s.Served) (hinv : s.Inv limit t) (hk : k < s.accepted)
    (hclosed : ¬ s.Open (.client k)) : s.received k = greeting := by
  rw [hinv.open_iff, not_or] at hclosed
  rcases hinv.got k with hnil | hgot
  · rcases h k hk hnil with ⟨fd, hpc, hlast⟩ | ⟨c, hc, hnext⟩
    · exact absurd ⟨by rw [hpc]; nofun, hlast⟩ hclosed.1
    · refine absurd ⟨c, hc, fun hpc => ?_⟩ hclosed.2
      rw [hpc] at hnext
      rcases hnext with hnext | hnext <;> cases hnext
  · exact hgot

/-! ## §4 Everything is closed -/

/-- A step that does not take a new client. -/
def Own : Event → Prop
  | .accept => False
  | .acceptFails => False
  | _ => True

/-- The calls that are still to come before all connections are closed. -/
def weight (s : StreamServer) : Nat :=
  s.pc.weight + ∑ k ∈ Finset.range s.accepted, (s.children k).elim 0 Child.weight

/-- The child of client `k` changes. -/
theorem weight_setChild {k : Nat} (hk : k < s.accepted) (c' : Option Child) (pc : ParentPc)
    (got : Nat → List UInt8) :
    weight { s.setChild k c' with pc := pc, received := got } +
        (s.pc.weight + (s.children k).elim 0 Child.weight) =
      s.weight + (pc.weight + c'.elim 0 Child.weight) := by
  have hsum := sum_update (Finset.mem_range.mpr hk) s.children c' (fun c => c.elim 0 Child.weight)
  simp only [weight, setChild]
  omega

/-- A child that has less to do. -/
theorem weight_lt {k : Nat} {c : Child} (hk : k < s.accepted) (hc : s.children k = some c)
    (c' : Option Child) (got : Nat → List UInt8) (hlt : c'.elim 0 Child.weight < c.weight) :
    weight { s.setChild k c' with received := got } < s.weight := by
  have hsum := weight_setChild hk c' s.pc got
  rw [hc, Option.elim_some] at hsum
  show weight { s.setChild k c' with pc := s.pc, received := got } < s.weight
  omega

/-- **Step lemma.** A call that does not take a new client takes one from the calls
to come. -/
theorem Inv.lighter (h : s.Inv limit t) (he : Own e) (hd : Does limit s e s') :
    s'.weight < s.weight := by
  cases hd with
  | full _ _ => exact absurd he id
  | acceptFails _ => exact absurd he id
  | accept _ _ => exact absurd he id
  | @fork newFD hpc =>
    have hparent := h.parent
    rw [hpc] at hparent
    obtain ⟨i, hi, -, hnone, -⟩ := hparent
    rw [hi, Nat.add_sub_cancel]
    have hsum := weight_setChild (s := s) (k := i) (by omega) (some ⟨newFD, s.fds, .closeSock⟩)
      (.close newFD) s.received
    have hpass : (ParentPc.fork newFD).weight = 6 := rfl
    have hlast : (ParentPc.close newFD).weight = 1 := rfl
    have hchild : Child.weight ⟨newFD, s.fds, .closeSock⟩ = 4 := rfl
    rw [hpc, hnone, hpass, hlast, Option.elim_none, Option.elim_some, hchild] at hsum
    show weight { s.setChild i (some ⟨newFD, s.fds, .closeSock⟩) with
      pc := .close newFD, received := s.received } < s.weight
    omega
  | @forkFails newFD hpc =>
    simp only [weight, hpc, ParentPc.weight]
    omega
  | @close newFD hpc =>
    simp only [weight, hpc, ParentPc.weight]
    omega
  | @closeSock k c hc hpc =>
    refine weight_lt (h.child k c hc).1 hc _ s.received ?_
    simp only [Option.elim_some, Child.weight, hpc]
    decide
  | @send k j c hc hpc hfd =>
    refine weight_lt (h.child k c hc).1 hc _ _ ?_
    simp only [Option.elim_some, Child.weight, hpc]
    decide
  | @closeNew k c hc hpc =>
    refine weight_lt (h.child k c hc).1 hc _ s.received ?_
    simp only [Option.elim_some, Child.weight, hpc]
    decide
  | @exit k c hc hpc =>
    refine weight_lt (h.child k c hc).1 hc none s.received ?_
    simp only [Option.elim_none, Child.weight, hpc]
    decide
  | @die k c hc =>
    refine weight_lt (h.child k c hc).1 hc none s.received ?_
    unfold Child.weight
    split <;> decide

/-- A child can always make its next call. -/
theorem Inv.child_steps {k : Nat} {c : Child} (h : s.Inv limit t) (hc : s.children k = some c) :
    ∃ s', step limit s (.child k) = some ((), s') := by
  obtain ⟨-, u, hal, hok⟩ := h.child k c hc
  simp only [step, hc, Option.bind_some, childStep]
  cases hpc : c.pc with
  | send =>
    rw [newFD_child h.listening hal hok (by rw [hpc]; nofun)]
    exact ⟨_, rfl⟩
  | _ => exact ⟨_, rfl⟩

/-- When no call but `accept` is possible, all connections are closed. -/
theorem Inv.all_closed (h : s.Inv limit t)
    (hstuck : ∀ e, Own e ∧ Graceful e → step limit s e = none) :
    s.pc = .accept ∧ ∀ k, ¬ s.Open (.client k) := by
  have hpc : s.pc = .accept := by
    cases hpc : s.pc with
    | accept => rfl
    | fork newFD =>
      have hnone := hstuck .fork ⟨trivial, trivial⟩
      simp [step, hpc] at hnone
    | close newFD =>
      have hnone := hstuck .close ⟨trivial, trivial⟩
      simp [step, hpc] at hnone
  refine ⟨hpc, fun k => ?_⟩
  rw [h.open_iff, not_or]
  refine ⟨fun hlast => hlast.1 hpc, fun ⟨c, hc, _⟩ => ?_⟩
  obtain ⟨s', hstep⟩ := h.child_steps hc
  rw [hstuck (.child k) ⟨trivial, trivial⟩] at hstep
  cases hstep

/-- Every call but `accept` lightens the server. -/
theorem lightens {ok : StreamServer → Event → Prop} (hok : ∀ s e, ok s e → Own e) (limit : Nat)
    (t : Descriptors File) : Lightens (step limit) ok (fun s => s.Inv limit t) weight :=
  fun s e _ _ hinv he hstep =>
    ⟨hinv.does (does_of_step hstep), hinv.lighter (hok s e he) (does_of_step hstep)⟩

theorem weight_le (s : StreamServer) : s.weight ≤ 6 + 4 * s.accepted := by
  have hpc : s.pc.weight ≤ 6 := by
    unfold ParentPc.weight
    split <;> decide
  have hsum : ∑ k ∈ Finset.range s.accepted, (s.children k).elim 0 Child.weight ≤
      ∑ _k ∈ Finset.range s.accepted, 4 := by
    refine Finset.sum_le_sum fun k _ => ?_
    cases s.children k with
    | none => exact Nat.zero_le _
    | some c =>
      rw [Option.elim_some]
      unfold Child.weight
      split <;> decide
  rw [Finset.sum_const_nat fun _ _ => rfl, Finset.card_range] at hsum
  rw [weight]
  omega

/-! ## §5 The server -/

/-- Before the loop the parent has what it was started with, and the listening
socket. -/
theorem Inv.start {α : Type} {inUse : Nat → Bool} {servInfo : List (α × Answers)}
    (h : start limit inUse servInfo = some s) :
    s.Inv limit s.fds ∧ s.Served ∧
      (inherit inUse).alloc limit .listening = some (s.sockFD, s.fds) := by
  unfold StreamServer.start streamBind at h
  split at h
  · rename_i p sockFD fds hbind
    cases h
    have hal := alloc_of_bound hbind
    exact ⟨⟨Descriptors.alloc_self hal, no_client_of_start hal, rfl, nofun, fun _ => .inl rfl,
      fun _ _ => rfl⟩, fun k hk => absurd hk (Nat.not_lt_zero k), hal⟩
  · cases h

/-- The invariant in every state reached. -/
theorem Inv.run {s₀ : StreamServer} {ok : StreamServer → Event → Prop} {tr : List (Event × Unit)}
    (h₀ : s₀.Inv limit t) (h : Exec (step limit) ok s₀ tr s) : s.Inv limit t :=
  h.invariant (Inv limit t) h₀ fun _ _ _ _ hinv _ hstep => hinv.does (does_of_step hstep)

/-- A server with the descriptors 0 to 2 in use, and two addresses, the first of
them taken. -/
def twoAddresses : Option StreamServer :=
  start 8 (· < 3) [((), ⟨true, true, false⟩), ((), ⟨true, true, true⟩)]

theorem twoAddresses_isSome : twoAddresses.isSome = true := by decide

/-- Two clients come; the child of the second sends first. -/
def twoClients : List Event :=
  [.accept, .fork, .close, .accept, .fork, .child 1, .child 1, .child 0, .close, .child 1,
    .child 0, .child 0, .child 0, .child 1]

/-- The run of `twoClients`. -/
theorem twoClients_exec {s₀ : StreamServer} (h₀ : twoAddresses = some s₀) : ∃ tr s,
    Exec (step 8) (fun _ _ => True) s₀ tr s ∧ tr.map Prod.fst = twoClients ∧
      s.pc = .accept ∧ s.accepted = 2 ∧ (s.children 0).isNone = true := by
  obtain rfl : s₀ = twoAddresses.get twoAddresses_isSome := by simp [h₀]
  exact exec_such_that (step 8) (fun _ _ => True) (twoAddresses.get twoAddresses_isSome) twoClients
    (fun p => p.2.pc = .accept ∧ p.2.accepted = 2 ∧ (p.2.children 0).isNone = true)
    (by decide +kernel)

/-- **The parent keeps its descriptors.** In every order of the processes' calls,
whatever fails: between two passes the parent has exactly the descriptors that it had
before the first one, those it was started with and the listening socket. So if one
was free then, no `accept` finds none, and every client gets the same descriptor, the
lowest that was free. A child has that descriptor for its own client until it closes
it, and never one for another. A connection is open from its `accept` to the `close` of
the parent, and until its child has closed it. -/
theorem keeps_descriptors {α : Type} (limit : Nat) (inUse : Nat → Bool)
    (servInfo : List (α × Answers)) (s₀ : StreamServer)
    (h₀ : start limit inUse servInfo = some s₀) (tr : List (Event × Unit)) (s : StreamServer)
    (h : Exec (step limit) (fun _ _ => True) s₀ tr s) :
    (inherit inUse).alloc limit .listening = some (s₀.sockFD, s₀.fds) ∧
    (s.pc = .accept → s.fds = s₀.fds) ∧
    (∀ newFD, s₀.fds.lowest limit = some newFD → s.pc = .accept →
      ∃ s', step limit s .accept = some ((), s') ∧ s'.pc = .fork newFD ∧
        s'.accepted = s.accepted + 1) ∧
    (∀ newFD, s.pc = .fork newFD ∨ s.pc = .close newFD → s₀.fds.lowest limit = some newFD) ∧
    (∀ k c, s.children k = some c → s₀.fds.lowest limit = some c.newFD ∧
      (c.pc ≠ .exit → c.fds c.newFD = some (.client k)) ∧
      ∀ j, c.fds.Holds (.client j) ↔ j = k ∧ c.pc ≠ .exit) ∧
    ∀ k, s.Open (.client k) ↔ (s.pc ≠ .accept ∧ s.accepted = k + 1) ∨
      ∃ c, s.children k = some c ∧ c.pc ≠ .exit := by
  obtain ⟨hinv₀, -, hal⟩ := Inv.start h₀
  have hinv := hinv₀.run h
  have hfds : s.pc = .accept → s.fds = s₀.fds := by
    intro hpc
    have hparent := hinv.parent
    rw [hpc] at hparent
    exact hparent
  refine ⟨hal, hfds, fun newFD hfree hpc => ?_, fun newFD hpc => ?_, fun k c hc => ?_,
    hinv.open_iff⟩
  · have hnew := Descriptors.alloc_of_lowest (d := .client s.accepted) (hfds hpc ▸ hfree)
    refine ⟨{ s with
      pc := .fork newFD
      fds := Function.update s.fds newFD (some (.client s.accepted))
      accepted := s.accepted + 1 }, ?_, rfl, rfl⟩
    simp only [step, hpc, hnew]
  · have hparent := hinv.parent
    rcases hpc with hpc | hpc
    · rw [hpc] at hparent
      obtain ⟨i, -, hal, -⟩ := hparent
      exact (Descriptors.alloc_cases hal).1
    · rw [hpc] at hparent
      obtain ⟨i, -, hal⟩ := hparent
      exact (Descriptors.alloc_cases hal).1
  · obtain ⟨-, u, hal, hok⟩ := hinv.child k c hc
    exact ⟨(Descriptors.alloc_cases hal).1, newFD_child hinv.listening hal hok,
      fun j => holds_child hinv.listening hinv.noClient hal hok⟩

/-- After `twoClients` the parent has the descriptors of the start. -/
theorem keeps_descriptors_two_clients : ∃ s₀ tr s, twoAddresses = some s₀ ∧
    Exec (step 8) (fun _ _ => True) s₀ tr s ∧ tr.map Prod.fst = twoClients ∧ s.fds = s₀.fds := by
  obtain ⟨s₀, h₀⟩ := Option.isSome_iff_exists.mp twoAddresses_isSome
  obtain ⟨tr, s, h, hin, hpc, -⟩ := twoClients_exec h₀
  obtain ⟨-, hfds, -⟩ := keeps_descriptors 8 _ _ s₀ h₀ tr s h
  exact ⟨s₀, tr, s, h₀, h, hin, hfds hpc⟩

/-- **The greeting.** In every order of the processes' calls, whatever fails, a client
got nothing or the greeting, once. In every state the processes can make at most 6
calls, and 4 for each client, before the server takes a new client; they can go on
until all connections are closed, and stop in no other state. If no `fork` failed
and no child was killed, every client whose connection is closed got the greeting. -/
theorem greets {α : Type} (limit : Nat) (inUse : Nat → Bool) (servInfo : List (α × Answers))
    (s₀ : StreamServer) (h₀ : start limit inUse servInfo = some s₀) (tr : List (Event × Unit))
    (s : StreamServer) (h : Exec (step limit) (fun _ _ => True) s₀ tr s) :
    (∀ k, s.received k = [] ∨ s.received k = greeting) ∧
    (∀ tr' s', Exec (step limit) (fun _ e => Own e) s tr' s' →
      tr'.length ≤ 6 + 4 * s.accepted ∧
      ((∀ e, Own e → step limit s' e = none) → ∀ k, ¬ s'.Open (.client k))) ∧
    (∃ tr' s', Exec (step limit) (fun _ e => Own e ∧ Graceful e) s tr' s' ∧
      ∀ k, ¬ s'.Open (.client k)) ∧
    ((∀ p ∈ tr, Graceful p.1) → ∀ k, k < s.accepted → ¬ s.Open (.client k) →
      s.received k = greeting) := by
  obtain ⟨hinv₀, hserved₀, -⟩ := Inv.start h₀
  have hinv := hinv₀.run h
  refine ⟨hinv.got, fun tr' s' h' => ?_, ?_, fun hgraceful k hk hclosed => ?_⟩
  · obtain ⟨hinv', hle⟩ := (lightens (fun _ _ he => he) limit s₀.fds).length_le hinv h'
    have hweight := s.weight_le
    refine ⟨by omega, fun hstuck => (hinv'.all_closed fun e he => ?_).2⟩
    exact hstuck e he.1
  · have hown : ∀ (_ : StreamServer) e, Own e ∧ Graceful e → Own e := fun _ _ he => he.1
    obtain ⟨tr', s', h', hinv', hstuck⟩ := (lightens hown limit s₀.fds).exists_stuck hinv
    exact ⟨tr', s', h', (hinv'.all_closed hstuck).2⟩
  · have hserved : s.Inv limit s₀.fds ∧ s.Served :=
      (h.and_of_forall hgraceful).invariant (fun s => s.Inv limit s₀.fds ∧ s.Served)
        ⟨hinv₀, hserved₀⟩ fun _ _ _ _ hs hok hstep =>
          ⟨hs.1.does (does_of_step hstep), hs.2.does hs.1 hok.2 (does_of_step hstep)⟩
    exact hserved.2.greeted hserved.1 hk hclosed

/-- After `twoClients` the first client has the greeting. -/
theorem greets_two_clients : ∃ s₀ tr s, twoAddresses = some s₀ ∧
    Exec (step 8) (fun _ _ => True) s₀ tr s ∧ tr.map Prod.fst = twoClients ∧
      s.received 0 = greeting := by
  obtain ⟨s₀, h₀⟩ := Option.isSome_iff_exists.mp twoAddresses_isSome
  obtain ⟨tr, s, h, hin, hpc, haccepted, hgone⟩ := twoClients_exec h₀
  obtain ⟨-, -, -, hgreeted⟩ := greets 8 _ _ s₀ h₀ tr s h
  have hgraceful : ∀ e ∈ twoClients, Graceful e := by decide
  refine ⟨s₀, tr, s, h₀, h, hin, hgreeted (fun p hp => ?_) 0 (by omega) fun hopen => ?_⟩
  · exact hgraceful p.1 (hin ▸ List.mem_map_of_mem hp)
  · rcases ((Inv.start h₀).1.run h |>.open_iff 0).mp hopen with ⟨hne, -⟩ | ⟨c, hc, -⟩
    · exact hne hpc
    · rw [hc] at hgone
      cases hgone

end StreamServer

end CCodes.Stream
