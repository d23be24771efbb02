/-
CCodes.Relay.SelectServerTheorems — what each client sends is sent once to
every other client.

A descriptor may be given to one client after another, so the clients are
numbered by their `accept`s here: `live` keeps the descriptor and the number
of each open connection along a run. `told a b` are the chunks that client
`a` sent and the server passed on to `b`, and `heard a b` those it received
from `a` while `b` was connected.
-/
import CCodes.Relay.SelectServer

namespace CCodes.Relay

open CCodes.Lib

/-! ## §1 Connections -/

/-- The open connections, with their numbers, and the next number. -/
structure Names where
  live : List (Fd × Nat)
  next : Nat

namespace Names

def close (ns : Names) (i : Fd) : Names :=
  { ns with live := ns.live.filter fun p => p.1 ≠ i }

def event (ns : Names) : Event → Names
  | (_, .accept newFD) => ⟨(newFD, ns.next) :: ns.live, ns.next + 1⟩
  | (i, .recv buf) => if buf = [] then ns.close i else ns
  | (i, .recvError) => ns.close i

/-- The connections after some events. -/
def after (es : List Event) : Names := es.foldl event ⟨[], 0⟩

end Names

/-- The chunks from client `a` to client `b`, up to some point of a run. -/
structure Talk where
  names : Names
  told : List (List UInt8)
  heard : List (List UInt8)

/-- One more event, with the calls of `send` it made. -/
def Talk.event (a b : Nat) (t : Talk) (e : Event × List Send) : Talk where
  names := t.names.event e.1
  told :=
    if (e.1.1, a) ∈ t.names.live then
      t.told ++ (e.2.filter fun p => (p.1, b) ∈ t.names.live).map Prod.snd
    else t.told
  heard :=
    match e.1.2 with
    | .recv buf =>
        if buf ≠ [] ∧ (e.1.1, a) ∈ t.names.live ∧ b ∈ t.names.live.map Prod.snd then
          t.heard ++ [buf]
        else t.heard
    | _ => t.heard

def talk (a b : Nat) (tr : List (Event × List Send)) : Talk :=
  tr.foldl (Talk.event a b) ⟨⟨[], 0⟩, [], []⟩

theorem talk_snoc (a b : Nat) (tr : List (Event × List Send)) (e : Event × List Send) :
    talk a b (tr ++ [e]) = (talk a b tr).event a b e := by
  rw [talk, List.foldl_append]
  rfl

theorem talk_names (a b : Nat) (tr : List (Event × List Send)) :
    (talk a b tr).names = Names.after (tr.map Prod.fst) := by
  induction tr using List.reverseRecOn with
  | nil => rfl
  | append_singleton tr e ih =>
    rw [talk_snoc, Names.after, List.map_append, List.foldl_append]
    exact congrArg (Names.event · e.1) ih

/-! ## §2 The broadcast loop -/

namespace SelectServer

variable {s t : SelectServer} {i j : Fd} {buf : List UInt8}

/-- The set is in step with the connections. -/
structure InStep (s : SelectServer) (ns : Names) : Prop where
  listening : s.listenFD ∈ s.masterFDS
  registered : s.masterFDS = s.openFDs
  bounded : ∀ j ∈ s.masterFDS, j ≤ s.fdMax
  natural : ∀ j ∈ s.masterFDS, j ≠ s.listenFD → 0 ≤ j
  clients : ∀ j, j ∈ ns.live.map Prod.fst ↔ j ∈ s.masterFDS ∧ j ≠ s.listenFD
  fds : (ns.live.map Prod.fst).Nodup
  numbers : (ns.live.map Prod.snd).Nodup
  fresh : ∀ p ∈ ns.live, p.2 < ns.next

/-- The descriptors a chunk is sent to, in the order of the loop. -/
def targets (s : SelectServer) (i : Fd) : List Fd :=
  ((List.range (s.fdMax + 1).toNat).map Int.ofNat).filter fun j =>
    j ∈ s.masterFDS ∧ j ≠ s.listenFD ∧ j ≠ i

theorem broadcast_eq (s : SelectServer) (i : Fd) (buf : List UInt8) :
    s.broadcast i buf = (s.targets i).map fun j => (j, buf) := by
  unfold broadcast targets
  induction List.range (s.fdMax + 1).toNat with
  | nil => rfl
  | cons j js ih =>
    rw [List.flatMap_cons, ih, List.map_cons, List.filter_cons]
    by_cases hm : Int.ofNat j ∈ s.masterFDS
    · by_cases hc : Int.ofNat j ≠ s.listenFD ∧ Int.ofNat j ≠ i
      · rw [sendTo, if_pos hm, if_pos hc, if_pos (decide_eq_true ⟨hm, hc⟩)]
        rfl
      · rw [sendTo, if_pos hm, if_neg hc, if_neg fun h => hc (of_decide_eq_true h).2]
        rfl
    · rw [sendTo, if_neg hm, if_neg fun h => hm (of_decide_eq_true h).1]
      rfl

theorem nodup_targets (s : SelectServer) (i : Fd) : (s.targets i).Nodup := by
  refine List.Nodup.filter _ (List.Nodup.map ?_ List.nodup_range)
  intro a b hab
  exact Int.ofNat.inj hab

theorem InStep.mem_targets {ns : Names} (h : s.InStep ns) (i : Fd) :
    j ∈ s.targets i ↔ j ∈ s.masterFDS ∧ j ≠ s.listenFD ∧ j ≠ i := by
  simp only [targets, List.mem_filter, List.mem_map, List.mem_range, decide_eq_true_eq,
    and_iff_right_iff_imp]
  rintro ⟨hm, hl, -⟩
  have h0 := h.natural j hm hl
  have hmax := h.bounded j hm
  have hlt : j < s.fdMax + 1 := Int.lt_add_one_of_le hmax
  exact ⟨j.toNat, (Int.toNat_lt_toNat (h0.trans_lt hlt)).mpr hlt, Int.toNat_of_nonneg h0⟩

/-! ## §3 Events -/

/-- What the body of the loop does. -/
theorem body_cases {a : Answer} {w : List Send} (h : s.body i a = some (w, t)) :
    (∃ newFD, i = s.listenFD ∧ a = .accept newFD ∧ (newFD = -1 ∨ 0 ≤ newFD ∧ newFD ∉ s.openFDs) ∧
        w = [] ∧ t = (s.accepted newFD).register newFD) ∨
      (∃ buf, i ≠ s.listenFD ∧ a = .recv buf ∧ buf ≠ [] ∧ w = s.broadcast i buf ∧ t = s) ∨
      (i ≠ s.listenFD ∧ (a = .recv [] ∨ a = .recvError) ∧ w = [] ∧ t = s.hangUp i) := by
  simp only [body] at h
  split at h
  · rename_i hl
    cases a with
    | accept newFD =>
      simp only [handleAccept] at h
      split at h
      · rename_i hnew
        cases h
        exact .inl ⟨newFD, hl, rfl, hnew, rfl, rfl⟩
      · cases h
    | recv buf => cases h
    | recvError => cases h
  · rename_i hl
    cases a with
    | accept newFD => cases h
    | recv buf =>
      simp only [handleClient] at h
      split at h
      · split at h
        · rename_i hbuf
          cases h
          exact .inr (.inr ⟨hl, .inl (by rw [hbuf]), rfl, rfl⟩)
        · rename_i hbuf
          cases h
          exact .inr (.inl ⟨buf, hl, rfl, hbuf, rfl, rfl⟩)
      · cases h
    | recvError =>
      cases h
      exact .inr (.inr ⟨hl, .inr rfl, rfl, rfl⟩)

theorem events_eq {e : Event} {w : List Send} (h : relay.events s e = some (w, t)) :
    e.1 ∈ s.masterFDS ∧ s.body e.1 e.2 = some (w, t) := by
  simp only [SelectLoop.events] at h
  split at h
  · exact ⟨‹_›, h⟩
  · cases h

/-- A body takes no descriptor out of the set but its own. -/
theorem keepsOthers : relay.KeepsOthers := by
  intro s i a w t hbody j hj hij
  rcases body_cases hbody with ⟨newFD, -, -, -, -, rfl⟩ | ⟨buf, -, -, -, -, rfl⟩ |
    ⟨-, -, -, rfl⟩
  · have hacc : (s.accepted newFD).masterFDS = s.masterFDS := by
      unfold accepted
      split <;> rfl
    change j ∈ ((s.accepted newFD).register newFD).masterFDS
    unfold register
    split
    · exact hacc ▸ hj
    · exact Finset.mem_insert_of_mem (hacc ▸ hj)
  · exact hj
  · exact Finset.mem_erase.mpr ⟨hij, hj⟩

/-- Every `accept` succeeds, and gives no 1. -/
def Successful (_ : SelectServer) : Event → Prop
  | (_, .accept newFD) => newFD ≠ -1 ∧ newFD ≠ 1
  | _ => True

instance (s : SelectServer) (e : Event) : Decidable (s.Successful e) :=
  match e with
  | (_, .accept _) => inferInstanceAs (Decidable (_ ∧ _))
  | (_, .recv _) => isTrue trivial
  | (_, .recvError) => isTrue trivial

/-- The server after a successful `accept`. -/
theorem register_accepted {newFD : Int} (h : newFD ≠ -1 ∧ newFD ≠ 1) :
    (s.accepted newFD).register newFD =
      { s with
        openFDs := insert newFD s.openFDs
        masterFDS := insert newFD s.masterFDS
        fdMax := if newFD > s.fdMax then newFD else s.fdMax } := by
  rw [accepted, if_neg h.1, register, if_neg h.2]

theorem InStep.init (listenFD : Fd) : (SelectServer.init listenFD).InStep ⟨[], 0⟩ where
  listening := Finset.mem_singleton_self _
  registered := rfl
  bounded _ hj := (Finset.mem_singleton.mp hj).le
  natural _ hj hne := absurd (Finset.mem_singleton.mp hj) hne
  clients j := by simp [SelectServer.init]
  fds := List.nodup_nil
  numbers := List.nodup_nil
  fresh := nofun

theorem InStep.accept {ns : Names} {newFD : Int} (h : s.InStep ns) (h0 : 0 ≤ newFD)
    (hnew : newFD ∉ s.openFDs) (e : Fd) :
    InStep
      { s with
        openFDs := insert newFD s.openFDs
        masterFDS := insert newFD s.masterFDS
        fdMax := if newFD > s.fdMax then newFD else s.fdMax }
      (ns.event (e, .accept newFD)) := by
  have hfree : newFD ∉ s.masterFDS := h.registered ▸ hnew
  have hl : newFD ≠ s.listenFD := by
    rintro rfl
    exact hfree h.listening
  refine ⟨Finset.mem_insert_of_mem h.listening, ?_, le_fdMax_insert h.bounded, ?_, ?_, ?_, ?_, ?_⟩
  · simp only [h.registered]
  · intro j hj hne
    rcases Finset.mem_insert.mp hj with rfl | hj
    · exact h0
    · exact h.natural j hj hne
  · intro j
    simp only [Names.event, List.map_cons, List.mem_cons, Finset.mem_insert, h.clients j]
    constructor
    · rintro (rfl | ⟨hj, hne⟩)
      · exact ⟨.inl rfl, hl⟩
      · exact ⟨.inr hj, hne⟩
    · rintro ⟨rfl | hj, hne⟩
      · exact .inl rfl
      · exact .inr ⟨hj, hne⟩
  · simp only [Names.event, List.map_cons, List.nodup_cons]
    exact ⟨fun hmem => hfree ((h.clients _).mp hmem).1, h.fds⟩
  · simp only [Names.event, List.map_cons, List.nodup_cons]
    refine ⟨fun hmem => ?_, h.numbers⟩
    obtain ⟨p, hp, hpn⟩ := List.mem_map.mp hmem
    exact absurd (h.fresh p hp) (by omega)
  · intro p hp
    rcases List.mem_cons.mp hp with rfl | hp
    · exact Nat.lt_succ_self _
    · exact Nat.lt_succ_of_lt (h.fresh p hp)

theorem InStep.hangUp {ns : Names} (h : s.InStep ns) (hi : i ≠ s.listenFD) :
    (s.hangUp i).InStep (ns.close i) := by
  have hsub : (ns.close i).live.Sublist ns.live := List.filter_sublist
  refine ⟨Finset.mem_erase.mpr ⟨hi.symm, h.listening⟩, ?_, ?_, ?_, ?_, h.fds.sublist (hsub.map _),
    h.numbers.sublist (hsub.map _), fun p hp => h.fresh p (hsub.subset hp)⟩
  · simp only [SelectServer.hangUp, h.registered]
  · exact fun j hj => h.bounded j (Finset.mem_of_mem_erase hj)
  · exact fun j hj => h.natural j (Finset.mem_of_mem_erase hj)
  · intro j
    have hmem : j ∈ (ns.close i).live.map Prod.fst ↔ j ∈ ns.live.map Prod.fst ∧ j ≠ i := by
      simp only [Names.close, List.mem_map, List.mem_filter, decide_eq_true_eq]
      constructor
      · rintro ⟨p, ⟨hp, hpi⟩, rfl⟩
        exact ⟨⟨p, hp, rfl⟩, hpi⟩
      · rintro ⟨⟨p, hp, rfl⟩, hpi⟩
        exact ⟨p, ⟨hp, hpi⟩, rfl⟩
    rw [hmem, h.clients j]
    simp only [SelectServer.hangUp, Finset.mem_erase]
    tauto

/-- A chunk from client `a` goes to client `b` once, if `b` is connected. -/
theorem InStep.sends_to {ns : Names} {a b : Nat} (h : s.InStep ns) (hab : a ≠ b)
    (hi : (i, a) ∈ ns.live) (buf : List UInt8) :
    ((s.broadcast i buf).filter fun p => (p.1, b) ∈ ns.live).map Prod.snd =
      if b ∈ ns.live.map Prod.snd then [buf] else [] := by
  have hsends : ((s.broadcast i buf).filter fun p => (p.1, b) ∈ ns.live).map Prod.snd =
      ((s.targets i).filter fun j => (j, b) ∈ ns.live).map fun _ => buf := by
    rw [broadcast_eq, List.filter_map, List.map_map]
    rfl
  rw [hsends]
  split
  · rename_i hb
    obtain ⟨⟨j, b'⟩, hj, rfl⟩ := List.mem_map.mp hb
    -- the descriptor of `b` is one, and not that of `a`
    have honly : ∀ k, (k, b') ∈ ns.live ↔ k = j := by
      intro k
      refine ⟨fun hk => ?_, fun hk => hk ▸ hj⟩
      exact congrArg Prod.fst (List.inj_on_of_nodup_map h.numbers hk hj rfl)
    have hne : j ≠ i := by
      rintro rfl
      exact hab (congrArg Prod.snd (List.inj_on_of_nodup_map h.fds hi hj rfl))
    have hmem : j ∈ s.targets i := by
      obtain ⟨hm, hl⟩ := (h.clients j).mp (List.mem_map_of_mem hj)
      exact (h.mem_targets i).mpr ⟨hm, hl, hne⟩
    have hfilter : (s.targets i).filter (fun k => (k, b') ∈ ns.live) = [j] := by
      have hcongr : (s.targets i).filter (fun k => (k, b') ∈ ns.live) =
          (s.targets i).filter (fun k => k = j) :=
        List.filter_congr fun k _ => decide_eq_decide.mpr (honly k)
      rw [hcongr, List.filter_eq, List.count_eq_one_of_mem (s.nodup_targets i) hmem]
      rfl
    rw [hfilter]
    rfl
  · rename_i hb
    have hnone : (s.targets i).filter (fun j => (j, b) ∈ ns.live) = [] := by
      refine List.filter_eq_nil_iff.mpr fun j _ hj => hb ?_
      exact List.mem_map_of_mem (f := Prod.snd) (of_decide_eq_true hj)
    rw [hnone]
    rfl

/-- One event keeps the set in step, and what `b` is told the same as what
it has to hear. -/
theorem InStep.event {a b : Nat} {k : Talk} {e : Event} {w : List Send} (hab : a ≠ b)
    (h : s.InStep k.names) (htalk : k.told = k.heard) (hok : s.Successful e)
    (hstep : relay.events s e = some (w, t)) :
    t.InStep (k.event a b (e, w)).names ∧
      (k.event a b (e, w)).told = (k.event a b (e, w)).heard ∧ t.listenFD = s.listenFD := by
  obtain ⟨i, x⟩ := e
  have hquiet : ∀ x', (∀ buf, x' = .recv buf → buf = []) →
      (k.event a b ((i, x'), [])).told = (k.event a b ((i, x'), [])).heard := by
    intro x' hx'
    have hheard : (k.event a b ((i, x'), [])).heard = k.heard := by
      cases x' with
      | accept newFD => rfl
      | recv buf => simp [Talk.event, hx' buf rfl]
      | recvError => rfl
    rw [hheard, ← htalk]
    simp [Talk.event]
  rcases body_cases (events_eq hstep).2 with ⟨newFD, hl, rfl, hnew, rfl, rfl⟩ |
    ⟨buf, hl, rfl, hbuf, rfl, rfl⟩ | ⟨hl, hx, rfl, rfl⟩
  · rw [register_accepted hok]
    obtain ⟨h0, hfree⟩ := hnew.resolve_left hok.1
    exact ⟨h.accept h0 hfree i, hquiet _ nofun, rfl⟩
  · have hnames : (k.event a b ((i, .recv buf), t.broadcast i buf)).names = k.names := by
      simp [Talk.event, Names.event, hbuf]
    rw [hnames]
    refine ⟨h, ?_, rfl⟩
    simp only [Talk.event]
    by_cases hi : (i, a) ∈ k.names.live
    · rw [if_pos hi, h.sends_to hab hi buf, htalk]
      by_cases hb : b ∈ k.names.live.map Prod.snd
      · rw [if_pos hb, if_pos ⟨hbuf, hi, hb⟩]
      · rw [if_neg hb, if_neg fun hx => hb hx.2.2, List.append_nil]
    · rw [if_neg hi, if_neg fun hx => hi hx.2.1, htalk]
  · rcases hx with rfl | rfl
    · refine ⟨?_, hquiet _ (fun buf hx => by cases hx; rfl), rfl⟩
      have hnames : (k.event a b ((i, .recv []), [])).names = k.names.close i := by
        simp [Talk.event, Names.event]
      rw [hnames]
      exact h.hangUp hl
    · exact ⟨h.hangUp hl, hquiet _ nofun, rfl⟩

/-- The invariant along a run, for the connections numbered `a` and `b`. -/
theorem InStep.run {a b : Nat} {listenFD : Fd} {tr : List (Event × List Send)} (hab : a ≠ b)
    (h : Exec relay.events Successful (SelectServer.init listenFD) tr s) :
    s.InStep (talk a b tr).names ∧ (talk a b tr).told = (talk a b tr).heard ∧
      s.listenFD = listenFD := by
  induction h with
  | nil => exact ⟨.init listenFD, rfl, rfl⟩
  | @snoc tr s t e w _ hok hstep ih =>
    obtain ⟨hs, htalk, hl⟩ := ih
    obtain ⟨hs', htalk', hl'⟩ := hs.event hab htalk hok hstep
    rw [talk_snoc]
    exact ⟨hs', htalk', hl'.trans hl⟩

end SelectServer

/-! ## §4 The relay -/

/-- **The relay.** In every run of the loop in which `accept` succeeds and
gives no 1, whatever descriptors `select` reports: for any two clients, the
chunks of the first that were sent to the second are those received from
the first while the second was connected, in order. The set holds the
listener and the connections, all open and with a descriptor and a number
each; and the next chunk that is received goes once to every connection but
its own, with the same bytes. -/
theorem relay_law (listenFD : Fd) (tr : List (Input Answer × Option (Fd × List Send)))
    (ph : Phase) (s : SelectServer)
    (h : Exec relay.machine (SelectLoop.InputOk SelectServer.Successful)
      (.top, SelectServer.init listenFD) tr (ph, s)) :
    let evs := SelectLoop.visits tr
    let live := (Names.after (evs.map Prod.fst)).live
    (∀ a b, a ≠ b → (talk a b evs).told = (talk a b evs).heard) ∧
    (∀ j, j ∈ live.map Prod.fst ↔ j ∈ s.masterFDS ∧ j ≠ listenFD) ∧
    (live.map Prod.fst).Nodup ∧ (live.map Prod.snd).Nodup ∧
    listenFD ∈ s.masterFDS ∧ s.masterFDS = s.openFDs ∧
    ∀ buf i w c, buf ≠ [] →
      relay.machine (ph, s) (.ready (.recv buf)) = some (some (i, w), c) →
      i ∈ live.map Prod.fst ∧ (w.map Prod.fst).Nodup ∧ (∀ p ∈ w, p.2 = buf) ∧
        ∀ j, j ∈ w.map Prod.fst ↔ j ∈ live.map Prod.fst ∧ j ≠ i := by
  intro evs live
  obtain ⟨hrun, hpending⟩ := SelectLoop.exec_events SelectServer.keepsOthers h
  have hinv : s.InStep (Names.after (evs.map Prod.fst)) ∧ s.listenFD = listenFD := by
    obtain ⟨hs, -, hl⟩ := SelectServer.InStep.run Nat.zero_ne_one hrun
    rw [talk_names] at hs
    exact ⟨hs, hl⟩
  obtain ⟨hs, hl⟩ := hinv
  have hclients : ∀ j, j ∈ live.map Prod.fst ↔ j ∈ s.masterFDS ∧ j ≠ listenFD := by
    intro j
    rw [← hl]
    exact hs.clients j
  refine ⟨fun a b hab => (SelectServer.InStep.run hab hrun).2.1, hclients, hs.fds, hs.numbers,
    hl ▸ hs.listening, hs.registered, fun buf i w c hbuf hstep => ?_⟩
  rcases SelectLoop.machine_cases hstep with ⟨_, -, heq, -⟩ | ⟨_, _, -, heq, -⟩ |
    ⟨_, _, -, heq, -⟩ | ⟨R, k, x, w', t, rfl, heq, -, hR, hbody, hout, -⟩
  case inr.inr.inr =>
    cases heq
    cases hout
    have hreg : i ∈ s.masterFDS := hpending i hR (le_refl i)
    rcases SelectServer.body_cases hbody with ⟨_, -, heq, -⟩ | ⟨buf', hne, heq, -, rfl, rfl⟩ |
      ⟨-, heq | heq, -⟩
    · cases heq
    · cases heq
      have hw : (t.broadcast i buf).map Prod.fst = t.targets i := by
        rw [SelectServer.broadcast_eq, List.map_map]
        exact List.map_id _
      rw [hw]
      refine ⟨(hclients i).mpr ⟨hreg, hl ▸ hne⟩, t.nodup_targets i, ?_, fun j => ?_⟩
      · intro p hp
        rw [SelectServer.broadcast_eq] at hp
        obtain ⟨j, -, rfl⟩ := List.mem_map.mp hp
        rfl
      · rw [hs.mem_targets i, hclients j, hl, and_assoc]
    · cases heq
      exact absurd rfl hbuf
    · cases heq
  all_goals cases heq

/-- Two clients are accepted at 3 and 4, the first sends a chunk and hangs
up, and a third gets its descriptor and sends one too; the listener is
at 2. -/
def threeClients : List (Input Answer) :=
  [.select {2}, .next, .next, .ready (.accept 3), .next, .next,
    .select {2}, .next, .next, .ready (.accept 4), .next, .next, .next,
    .select {3}, .next, .next, .next, .ready (.recv [65]), .next, .next,
    .select {2, 3}, .next, .next, .ready (.accept 5), .ready (.recv []), .next, .next, .next,
    .select {2, 5}, .next, .next, .ready (.accept 3), .next, .next, .ready (.recv [66])]

/-- What the second of these clients was sent by the first, and by the
third. -/
theorem relay_law_three_clients : ∃ tr ph s,
    Exec relay.machine (SelectLoop.InputOk SelectServer.Successful)
      (.top, SelectServer.init 2) tr (ph, s) ∧ tr.map Prod.fst = threeClients ∧
      (talk 0 1 (SelectLoop.visits tr)).heard = [[65]] ∧
      (talk 0 1 (SelectLoop.visits tr)).told = (talk 0 1 (SelectLoop.visits tr)).heard := by
  obtain ⟨tr, ⟨ph, s⟩, h, hin, hheard⟩ := exec_such_that relay.machine
    (SelectLoop.InputOk SelectServer.Successful) (.top, SelectServer.init 2) threeClients
    (fun p => (talk 0 1 (SelectLoop.visits p.1)).heard = [[65]]) (by decide)
  exact ⟨tr, ph, s, h, hin, hheard, (relay_law 2 tr ph s h).1 0 1 (by decide)⟩

end CCodes.Relay
