/-
CCodes.Older.Answers — which sessions the older select server answers by
the protocol in its comment.

The test for "again" comes after the record was sent, so an "again" that
follows a "thank_you" is not answered: it leaves a record owed, and the next
message, whatever it is, is answered instead. `protocol_iff`: the server
keeps to the protocol on a connection exactly as long as no message that
begins with "thank_you" is followed by one that begins with "again".
-/
import CCodes.Older.ServerTheorems

namespace CCodes.Older

open CCodes.Lib

variable {StudentDetail : Type} {H : Headers StudentDetail}

/-- Some messages of one connection, each with what was written for it. -/
abbrev Dialogue (StudentDetail : Type) := List (List UInt8 × List (Sent StudentDetail))

/-- The messages read on descriptor `i` in a run, with the answers. -/
def dialogue (i : Fd) (tr : List (Event × List (Sent StudentDetail))) : Dialogue StudentDetail :=
  tr.filterMap fun
    | ((j, .read m), w) => if j = i ∧ m ≠ [] then some (m, w) else none
    | _ => none

/-- A `StudentDetail` is among what was written. -/
def HasDetail (w : List (Sent StudentDetail)) : Prop := ∃ st, .detail st ∈ w

/-- A message since the last `StudentDetail` was written began with
"thank_you". -/
def ThankedSince (c : Dialogue StudentDetail) : Prop :=
  ∃ pre p post, c = pre ++ p :: post ∧ saysThankYou p.1 ∧ ∀ q ∈ p :: post, ¬ HasDetail q.2

/-- The answer `w` to the message `m`, after the dialogue `c`, is the one of
the protocol. -/
def ByProtocol (c : Dialogue StudentDetail) (m : List UInt8) (w : List (Sent StudentDetail)) :
    Prop :=
  HasDetail w ↔ c = [] ∨ saysAgain m ∧ ThankedSince c

/-- No message that begins with "thank_you" is followed, at any distance, by
one that begins with "again". -/
def NoAgain (ms : List (List UInt8)) : Prop :=
  ms.Pairwise fun a b => saysThankYou a → ¬ saysAgain b

instance (ms : List (List UInt8)) : Decidable (NoAgain ms) :=
  inferInstanceAs (Decidable (ms.Pairwise _))

theorem noAgain_snoc {c : Dialogue StudentDetail} {p : List UInt8 × List (Sent StudentDetail)} :
    NoAgain ((c ++ [p]).map Prod.fst) ↔
      NoAgain (c.map Prod.fst) ∧ ¬ ((∃ q ∈ c, saysThankYou q.1) ∧ saysAgain p.1) := by
  simp [NoAgain, List.pairwise_append]

/-! ## §1 One message -/

variable {c : Dialogue StudentDetail} {m : List UInt8} {w : List (Sent StudentDetail)}
  {d : ServerData StudentDetail} {e : Option (ServerData StudentDetail)}

/-- Only the first message was answered with a detail, nothing is owed, and
the record knows of every "thank_you". -/
inductive Calm : Dialogue StudentDetail → Option (ServerData StudentDetail) → Prop where
  | fresh : Calm [] none
  | known {p : List UInt8 × List (Sent StudentDetail)} {c : Dialogue StudentDetail}
      {d : ServerData StudentDetail} (first : HasDetail p.2) (thanks : ¬ saysThankYou p.1)
      (others : ∀ q ∈ c, ¬ HasDetail q.2) (owes : d.sendDataFlag = 0)
      (thanked : d.thankYouFlag = 1 ↔ ∃ q ∈ c, saysThankYou q.1) : Calm (p :: c) (some d)

/-- In a calm dialogue every "thank_you" is one since the last detail. -/
theorem Calm.thankedSince (h : Calm c e) : ThankedSince c ↔ ∃ q ∈ c, saysThankYou q.1 := by
  constructor
  · rintro ⟨pre, p, post, rfl, hp, -⟩
    exact ⟨p, by simp, hp⟩
  · rintro ⟨q, hq, hsays⟩
    cases h with
    | fresh => cases hq
    | @known p c d first thanks others owes thanked =>
      obtain rfl | hq := List.mem_cons.mp hq
      · exact absurd hsays thanks
      · obtain ⟨pre, post, rfl⟩ := List.append_of_mem hq
        exact ⟨p :: pre, q, post, rfl, hsays, fun x hx => others x (List.mem_append_right _ hx)⟩

/-- The first message, a stored id. -/
theorem calm_first (hm : atoi m ≠ 0) (howes : d.sendDataFlag = 1) (hty : d.thankYouFlag = 0) :
    ByProtocol [] m (d.serve m).1 ∧ Calm [(m, (d.serve m).1)] (some (d.serve m).2) := by
  obtain ⟨hthank, hagain⟩ := says_nothing_of_atoi hm
  have hdetail : HasDetail (d.serve m).1 := ⟨d.data, (d.detail_mem_serve m _).mpr ⟨howes, rfl⟩⟩
  refine ⟨iff_of_true hdetail (.inl rfl), .known hdetail hthank nofun ?_ ?_⟩
  · simp [ServerData.serve_snd, hagain, howes]
  · simp [ServerData.serve_snd, hthank, hagain, hty]

/-- **Step lemma.** A later message is answered by the protocol, and leaves
the connection calm, unless it is an "again" that follows a "thank_you". -/
theorem Calm.step (h : Calm c (some d)) (m : List UInt8) :
    (¬ ((∃ q ∈ c, saysThankYou q.1) ∧ saysAgain m) →
        ByProtocol c m (d.serve m).1 ∧ Calm (c ++ [(m, (d.serve m).1)]) (some (d.serve m).2)) ∧
      ((∃ q ∈ c, saysThankYou q.1) ∧ saysAgain m → ¬ ByProtocol c m (d.serve m).1) := by
  have hthanked := h.thankedSince
  cases h with
  | @known p c d first thanks others owes thanked =>
    have hnot : ¬ HasDetail (d.serve m).1 := by
      rintro ⟨st, hst⟩
      have := ((d.detail_mem_serve m st).mp hst).1
      rw [owes] at this
      cases this
    have hsince : (∃ q ∈ p :: c, saysThankYou q.1) ↔ d.thankYouFlag = 1 := by
      rw [thanked]
      simp [thanks]
    refine ⟨fun hask => ⟨?_, ?_⟩, fun hask hby => ?_⟩
    · refine iff_of_false hnot ?_
      rintro (hnil | ⟨hagain, hty⟩)
      · cases hnil
      · exact hask ⟨hthanked.mp hty, hagain⟩
    · rw [hsince] at hask
      refine .known first thanks ?_ ?_ ?_
      · intro q hq
        rcases List.mem_append.mp hq with hq | hq
        · exact others q hq
        · rw [List.mem_singleton.mp hq]
          exact hnot
      · simp [ServerData.serve_snd, hask, owes]
      · rw [ServerData.serve_snd]
        by_cases hty : saysThankYou m
        · simp [hty]
        · simpa [hty, hask] using thanked
    · exact hnot (hby.mpr (.inr ⟨hask.2, hthanked.mpr hask.1⟩))

/-- After a message nothing is owed. -/
theorem Calm.settled {p : List UInt8 × List (Sent StudentDetail)} (h : Calm (c ++ [p]) e) :
    ∃ d, e = some d ∧ d.sendDataFlag = 0 := by
  generalize hc : c ++ [p] = c' at h
  cases h with
  | fresh => simp at hc
  | @known _ _ d _ _ _ owes _ => exact ⟨d, rfl, owes⟩

/-! ## §2 One connection -/

section

variable {i : Fd} {s t v : Server H} {tr : List (Event × List (Sent StudentDetail))}

/-- A message on `i` is answered by the protocol, and leaves no detail owed. -/
def Answered (i : Fd) (tr : List (Event × List (Sent StudentDetail))) (_ : Server H) (e : Event)
    (w : List (Sent StudentDetail)) (t : Server H) : Prop :=
  ∀ m, e = (i, .read m) → m ≠ [] →
    ByProtocol (dialogue i tr) m w ∧ ∃ d, t.entry i = some d ∧ d.sendDataFlag = 0

/-- In a run from `s`, every message on `i` is answered by the protocol, and
leaves no detail owed. -/
def KeepsProtocol (s : Server H) (i : Fd) (tr : List (Event × List (Sent StudentDetail))) : Prop :=
  EachStep (older H).events s (Answered i) tr

theorem dialogue_snoc_message (hm : m ≠ []) :
    dialogue i (tr ++ [((i, .read m), w)]) = dialogue i tr ++ [(m, w)] := by
  simp [dialogue, hm]

theorem dialogue_snoc_other {e : Event} (he : ∀ m, e = (i, .read m) → m = []) :
    dialogue i (tr ++ [(e, w)]) = dialogue i tr := by
  obtain ⟨j, a⟩ := e
  cases a with
  | accepted newFD => simp [dialogue]
  | read m =>
    have hnone : ¬ (j = i ∧ m ≠ []) := by
      rintro ⟨rfl, hm⟩
      exact hm (he m rfl)
    simp [dialogue, hnone]

/-- A message on a connection that is calm so far. -/
theorem Server.InStep.message_calm (h : v.InStep) (hi : i ∈ v.masterFDs)
    (hm : v.handleMessage i m = some (w, t)) (hcalm : Calm c (v.entry i))
    (hfirst : c = [] → (H.search (atoi m)).isSome ∧ atoi m ≠ 0) :
    (¬ ((∃ q ∈ c, saysThankYou q.1) ∧ saysAgain m) →
        ByProtocol c m w ∧ Calm (c ++ [(m, w)]) (t.entry i)) ∧
      ((∃ q ∈ c, saysThankYou q.1) ∧ saysAgain m → ¬ ByProtocol c m w) := by
  obtain ⟨-, -, hentry, -, -, hserve⟩ := h.message hi hm
  generalize he : v.entry i = e at hcalm
  cases hcalm with
  | fresh =>
    obtain ⟨hst, h0⟩ := hfirst rfl
    obtain ⟨rfl, -⟩ := hserve fun hu => by simp [hu.2] at hst
    have hrec : v.recordFor i m = v.newServData i m := by rw [recordFor, he, Option.getD_none]
    rw [hentry, hrec]
    refine ⟨fun _ => ?_, fun hask => by simp at hask⟩
    obtain ⟨-, -, howes, hty⟩ := newServData_spec v i m
    exact calm_first h0 howes hty
  | @known p c d first thanks others owes thanked =>
    obtain ⟨rfl, -⟩ := hserve fun hu => by simp [hu.1] at he
    have hrec : v.recordFor i m = d := by rw [recordFor, he, Option.getD_some]
    rw [hentry, hrec]
    exact (Calm.known first thanks others owes thanked).step m

/-- A run from a fresh connection keeps to the protocol exactly as long as no
"thank_you" is followed by an "again", and is calm then. -/
theorem keepsProtocol_iff (hs : s.InStep) (hfresh : s.entry i = none)
    (h : Exec (older H).events (fun _ _ => True) s tr t)
    (hfirst : ∀ p ∈ (dialogue i tr).head?, (H.search (atoi p.1)).isSome ∧ atoi p.1 ≠ 0) :
    (KeepsProtocol s i tr ↔ NoAgain ((dialogue i tr).map Prod.fst)) ∧
      (NoAgain ((dialogue i tr).map Prod.fst) → Calm (dialogue i tr) (t.entry i)) := by
  induction h with
  | nil =>
    exact ⟨iff_of_true eachStep_nil List.Pairwise.nil, fun _ => hfresh ▸ .fresh⟩
  | @snoc tr v t e w hrun _ hstep ih =>
    obtain ⟨hv, -⟩ := hs.run hrun
    obtain ⟨hiff, hcalm⟩ := ih fun p hp => hfirst p (by
      rw [dialogue, List.filterMap_append, List.head?_append, ← dialogue, hp]
      rfl)
    rw [KeepsProtocol, eachStep_snoc hrun hstep, ← KeepsProtocol, hiff]
    by_cases he : ∃ m, e = (i, .read m) ∧ m ≠ []
    · obtain ⟨m, rfl, hm⟩ := he
      rw [dialogue_snoc_message hm] at hfirst ⊢
      rw [noAgain_snoc]
      obtain ⟨hi, hmsg⟩ := Server.event_message hm hstep
      have hstart : dialogue i tr = [] → (H.search (atoi m)).isSome ∧ atoi m ≠ 0 := by
        intro hnil
        exact hfirst (m, w) (by rw [hnil]; rfl)
      have hone := fun hno => hv.message_calm hi hmsg (hcalm hno) hstart
      refine ⟨and_congr_right fun hno => ?_, fun hno => ((hone hno.1).1 hno.2).2⟩
      obtain ⟨hgood, hbad⟩ := hone hno
      constructor
      · exact fun hhere hask => hbad hask (hhere m rfl hm).1
      · intro hask m' heq _
        cases heq
        obtain ⟨hby, hcalm'⟩ := hgood hask
        exact ⟨hby, hcalm'.settled⟩
    · have hother : ∀ m, e = (i, .read m) → m = [] :=
        fun m hem => by_contra fun hm => he ⟨m, hem, hm⟩
      rw [dialogue_snoc_other hother, hv.entry_of_no_message hstep hother]
      exact ⟨and_iff_left fun m hem hm => absurd ⟨m, hem, hm⟩ he, hcalm⟩

end

/-- **The protocol of the comment.** Take a server in any state a run comes
to, a descriptor without an entry, and any run from there in which the first
message on it is a stored id that is not 0. Every message on it is answered
by the protocol and leaves no detail owed, if and only if no "thank_you" is
followed by an "again". -/
theorem protocol_iff (H : Headers StudentDetail) (listenFD i : Fd)
    (junk : Ptr → ServerData StudentDetail) (s t : Server H)
    (tr₀ tr : List (Event × List (Sent StudentDetail)))
    (h₀ : Exec (older H).events (fun _ _ => True) (Server.init H listenFD junk) tr₀ s)
    (hfresh : s.entry i = none) (h : Exec (older H).events (fun _ _ => True) s tr t)
    (hfirst : ∀ p ∈ (dialogue i tr).head?, (H.search (atoi p.1)).isSome ∧ atoi p.1 ≠ 0) :
    KeepsProtocol s i tr ↔ NoAgain ((dialogue i tr).map Prod.fst) :=
  (keepsProtocol_iff ((Server.InStep.init listenFD junk).run h₀).1 hfresh h hfirst).1

/-- A server before the loop; its listener is at 3. -/
def start (search : Int32 → Option Nat) (writeExits : Bool) :
    Server (listHeaders search writeExits) := .init _ 3 fun _ => ⟨0, 0, 0, 0, 0, 0⟩

/-- A client is accepted at 4 and sends some messages. -/
def visit (ms : List String) : List Event :=
  (3, .accepted 4) :: ms.map fun m => (4, .read (bytes m))

/-- A client that says "thank_you" and nothing after it. -/
theorem protocol_thanks : ∃ tr t,
    Exec (older _).events (fun _ _ => True) (start oneStudent true) tr t ∧
      tr.map Prod.fst = visit ["1", "ok", "thank_you"] ∧
      KeepsProtocol (start oneStudent true) 4 tr := by
  obtain ⟨tr, t, h, hin, hd⟩ := exec_such_that (older _).events
    (fun _ _ => True) (start oneStudent true) (visit ["1", "ok", "thank_you"])
    (fun p => dialogue 4 p.1 =
      [(bytes "1", [.detail 7]), (bytes "ok", []), (bytes "thank_you", [.ackTy])])
    (by decide +kernel)
  refine ⟨tr, t, h, hin, (protocol_iff _ 3 4 _ _ _ _ _ .nil rfl h ?_).mpr ?_⟩
  · rw [hd]
    decide
  · rw [hd]
    decide

/-- The "again" is not answered, and the next message is. -/
theorem again_answered_late : ∃ tr t,
    Exec (older _).events (fun _ _ => True) (start oneStudent true) tr t ∧
      dialogue 4 tr = [(bytes "1", [.detail 7]), (bytes "thank_you", [.ackTy]),
        (bytes "again", []), (bytes "ok", [.detail 7])] ∧
      ¬ KeepsProtocol (start oneStudent true) 4 tr := by
  obtain ⟨tr, t, h, -, hd⟩ := exec_such_that (older _).events
    (fun _ _ => True) (start oneStudent true) (visit ["1", "thank_you", "again", "ok"])
    (fun p => dialogue 4 p.1 = [(bytes "1", [.detail 7]), (bytes "thank_you", [.ackTy]),
      (bytes "again", []), (bytes "ok", [.detail 7])]) (by decide +kernel)
  refine ⟨tr, t, h, hd, ?_⟩
  intro hkeeps
  have hno := (keepsProtocol_iff (.init ..) rfl h (by rw [hd]; decide)).1.mp hkeeps
  rw [hd] at hno
  revert hno
  decide

end CCodes.Older
