/-
CCodes.Assignment.Typing — what `assignment/client.c` makes of what is
typed.

The client compares `writeBuff` with "quit" before it puts the NUL behind
the bytes it just read. A chunk that is a proper beginning of "quit" is
therefore taken for a "quit" when the bytes that an earlier, longer chunk
left behind it happen to be the rest of the word (`Completed`). Nothing else
of an earlier chunk matters: `typing_faithful_iff`.
-/
import CCodes.Assignment.Client
import CCodes.Assignment.Wire

namespace CCodes.Assignment

open CCodes.Lib

/-- What a pass of the client's loop finds: bytes on stdin, a message on the
socket, or that the socket gives none any more. -/
inductive ClientEvent where
  | stdin (chunk : List UInt8)
  | socket (res : Message)
  | socketClosed
  deriving DecidableEq

/-- The NUL behind what is read from stdin fits `writeBuff`. -/
def ClientEvent.Fits : ClientEvent → Prop
  | .stdin chunk => 0 < chunk.length ∧ chunk.length < 50
  | .socket _ => True
  | .socketClosed => True

instance (e : ClientEvent) : Decidable e.Fits := by
  cases e <;> unfold ClientEvent.Fits <;> infer_instance

/-- What the client did in a pass: the messages it wrote, and whether it
closed the connection and left. -/
structure Pass where
  wrote : List Message
  left : Bool
  deriving DecidableEq

/-- One pass of the loop. When the socket is closed, `Read` closes it too,
and the next `select` fails. -/
def Client.events : Machine Client ClientEvent Pass := fun c e =>
  if c.running then
    let p := match e with
      | .stdin chunk => c.handleStdin chunk
      | .socket res => c.handleSocket res
      | .socketClosed =>
          ((c.handleSocket .zero).1, { (c.handleSocket .zero).2 with running := false })
    some (⟨p.1, !p.2.running⟩, p.2)
  else none

/-- The bytes of the "buffer" message for a chunk: its text up to its first
NUL, and zeros to the end of every field. -/
def typedBytes (chunk : List UInt8) : List UInt8 :=
  charArray 200 (bytes "buffer") ++ charArray 1024 (cstr chunk) ++ List.replicate 216 0

/-- A chunk was handled by itself. -/
def Pass.Faithful (chunk : List UInt8) (p : Pass) : Prop :=
  if bytes "quit" <+: chunk then p.wrote = [] ∧ p.left = true
  else p.wrote.map Message.toBytes = [typedBytes chunk] ∧ p.left = false

/-- The chunk is a proper beginning of "quit", and the bytes behind it in
`writeBuff` are the rest. -/
def Completed (writeBuff chunk : List UInt8) : Prop :=
  ∃ rest, rest ≠ [] ∧ chunk ++ rest = bytes "quit" ∧ rest <+: writeBuff.drop chunk.length

/-- `writeBuff` after a pass. -/
def typed (writeBuff : List UInt8) : ClientEvent → List UInt8
  | .stdin chunk => (chunk ++ writeBuff.drop chunk.length).set chunk.length 0
  | .socket _ => writeBuff
  | .socketClosed => writeBuff

/-- `writeBuff` after some passes. -/
def leftOver (writeBuff : List UInt8) (es : List ClientEvent) : List UInt8 :=
  es.foldl typed writeBuff

theorem leftOver_snoc (writeBuff : List UInt8) (es : List ClientEvent) (e : ClientEvent) :
    leftOver writeBuff (es ++ [e]) = typed (leftOver writeBuff es) e := by
  simp only [leftOver, List.foldl_append, List.foldl_cons, List.foldl_nil]

/-! ## §1 One chunk -/

/-- A beginning of two texts put together. -/
theorem prefix_append_iff_or {word chunk behind : List UInt8} :
    word <+: chunk ++ behind ↔
      word <+: chunk ∨ ∃ rest, rest ≠ [] ∧ chunk ++ rest = word ∧ rest <+: behind := by
  constructor
  · intro h
    rcases List.prefix_or_prefix_of_prefix h (List.prefix_append chunk behind) with
      hword | ⟨rest, rfl⟩
    · exact .inl hword
    · by_cases hrest : rest = []
      · exact .inl (by simp [hrest])
      · exact .inr ⟨rest, hrest, rfl, (List.prefix_append_right_inj chunk).mp h⟩
  · rintro (h | ⟨rest, -, rfl, h⟩)
    · exact h.trans (List.prefix_append _ _)
    · exact (List.prefix_append_right_inj chunk).mpr h

theorem toBytes_ofText_cstr (chunk : List UInt8) :
    (Message.ofText (cstr chunk)).toBytes = typedBytes chunk := by
  have hdetail : Message.zero.detail.toBytes = List.replicate 216 0 := by
    have hid : leBytes 4 0 = List.replicate 4 0 := rfl
    have hreg : leBytes 8 0 = List.replicate 8 0 := rfl
    have hname : charArray 200 [] = List.replicate 200 0 := rfl
    change leBytes 4 0 ++ charArray 200 [] ++ List.replicate 4 0 ++ leBytes 8 0 = _
    rw [hid, hreg, hname]
    simp only [List.replicate_append_replicate]
  rw [typedBytes, ← hdetail]
  rfl

variable {c c' : Client} {p : Pass} {e : ClientEvent} {chunk clientId writeBuff : List UInt8}
  {tr : List (ClientEvent × Pass)}

/-- What the client does with a chunk. -/
theorem events_stdin (h : c.events (.stdin chunk) = some (p, c')) (hchunk : 0 < chunk.length) :
    ((bytes "quit" <+: chunk ∨ Completed c.writeBuff chunk) ∧ p = ⟨[], true⟩ ∧
        c'.running = false) ∨
      (¬ (bytes "quit" <+: chunk ∨ Completed c.writeBuff chunk) ∧
        p = ⟨[.ofText (cstr chunk)], false⟩ ∧ c'.writeBuff = typed c.writeBuff (.stdin chunk)) := by
  have hquit : strncmp (chunk ++ c.writeBuff.drop chunk.length) (bytes "quit") 4 = 0 ↔
      bytes "quit" <+: chunk ∨ Completed c.writeBuff chunk :=
    (strncmp_eq_zero_iff _ (by decide)).trans prefix_append_iff_or
  simp only [Client.events, Client.handleStdin, Client.take_set_chunk] at h
  split at h
  · by_cases hq : strncmp (chunk ++ c.writeBuff.drop chunk.length) (bytes "quit") 4 = 0
    · rw [if_pos hq] at h
      cases h
      exact .inl ⟨hquit.mp hq, rfl, rfl⟩
    · rw [if_neg hq] at h
      cases h
      refine .inr ⟨mt hquit.mpr hq, ?_, rfl⟩
      simp [List.ne_nil_of_length_pos hchunk]
  · cases h

/-- **Step lemma.** A chunk is handled by itself unless it is completed. -/
theorem faithful_step (h : c.events (.stdin chunk) = some (p, c')) (hchunk : 0 < chunk.length) :
    p.Faithful chunk ↔ ¬ Completed c.writeBuff chunk := by
  rcases events_stdin h hchunk with ⟨hquit, rfl, -⟩ | ⟨hquit, rfl, -⟩
  · by_cases hword : bytes "quit" <+: chunk
    · have hnot : ¬ Completed c.writeBuff chunk := by
        rintro ⟨rest, hrest, hword', -⟩
        have hlen := hword.length_le
        rw [← hword', List.length_append] at hlen
        exact hrest (List.eq_nil_of_length_eq_zero (by omega))
      simp [Pass.Faithful, hword, hnot]
    · simp [Pass.Faithful, hword, hquit.resolve_left hword]
  · rw [not_or] at hquit
    simp [Pass.Faithful, hquit.1, hquit.2, toBytes_ofText_cstr]

/-! ## §2 Whole sessions -/

/-- A client that goes on holds what the chunks left in `writeBuff`. -/
theorem leftOver_run
    (h : Exec Client.events (fun _ e => e.Fits) (Client.start clientId writeBuff).2 tr c)
    (hrun : c.running = true) : c.writeBuff = leftOver writeBuff (tr.map Prod.fst) := by
  induction h with
  | nil => rfl
  | @snoc tr c c' e p _ hfits hstep ih =>
    have hgo : c.running = true := by
      by_contra hstop
      simp [Client.events, hstop] at hstep
    rw [List.map_append, List.map_cons, List.map_nil, leftOver_snoc, ← ih hgo]
    cases e with
    | stdin chunk =>
      rcases events_stdin hstep hfits.1 with ⟨-, -, hstop⟩ | ⟨-, -, hbuff⟩
      · rw [hrun] at hstop
        cases hstop
      · exact hbuff
    | socket res =>
      simp only [Client.events, hgo, if_true, Option.some.injEq, Prod.mk.injEq] at hstep
      rw [← hstep.2]
      unfold Client.handleSocket
      split
      · rfl
      · split <;> rfl
    | socketClosed =>
      simp only [Client.events, hgo, if_true, Option.some.injEq, Prod.mk.injEq] at hstep
      rw [← hstep.2] at hrun
      cases hrun

/-- **When typed input is handled chunk by chunk.** In every session, with
any content of `writeBuff` at first and whatever comes from the socket, each
chunk is sent as one message, or ends the session if it begins with "quit",
by itself: if and only if no chunk is completed by what the earlier ones
left. -/
theorem typing_faithful_iff (clientId writeBuff : List UInt8) (tr : List (ClientEvent × Pass))
    (c : Client)
    (h : Exec Client.events (fun _ e => e.Fits) (Client.start clientId writeBuff).2 tr c) :
    (∀ chunk p, (.stdin chunk, p) ∈ tr → p.Faithful chunk) ↔
      ∀ pre chunk, pre ++ [.stdin chunk] <+: tr.map Prod.fst →
        ¬ Completed (leftOver writeBuff pre) chunk := by
  induction h with
  | nil => simp
  | @snoc tr c c' e p hrun hfits hstep ih =>
    have hgo : c.running = true := by
      by_contra hstop
      simp [Client.events, hstop] at hstep
    have hlast : (∀ chunk p', (.stdin chunk, p') = (e, p) → p'.Faithful chunk) ↔
        ∀ chunk, e = .stdin chunk →
          ¬ Completed (leftOver writeBuff (tr.map Prod.fst)) chunk := by
      constructor
      · rintro hf chunk rfl
        rw [← leftOver_run hrun hgo]
        exact (faithful_step hstep hfits.1).mp (hf chunk p rfl)
      · intro hc chunk p' heq
        obtain ⟨rfl, rfl⟩ := Prod.mk.inj heq
        have := hc chunk rfl
        rw [← leftOver_run hrun hgo] at this
        exact (faithful_step hstep hfits.1).mpr this
    simp only [List.map_append, List.map_cons, List.map_nil, List.prefix_concat_iff]
    constructor
    · intro hf pre chunk hpre
      rcases hpre with heq | hpre
      · obtain ⟨rfl, hlast'⟩ := List.append_inj' heq rfl
        refine hlast.mp (fun chunk p' hp => hf chunk p' ?_) chunk
          (List.singleton_inj.mp hlast').symm
        rw [hp]
        simp
      · exact ih.mp (fun chunk p' hp => hf chunk p' (List.mem_append_left _ hp)) pre chunk hpre
    · intro hc chunk p' hp
      rcases List.mem_append.mp hp with hp | hp
      · exact ih.mpr (fun pre chunk hpre => hc pre chunk (.inr hpre)) chunk p' hp
      · refine hlast.mpr (fun chunk he => hc _ chunk (.inl ?_)) chunk p' (List.mem_singleton.mp hp)
        rw [he]

/-- A session of two lines. -/
theorem typing_faithful_two_lines : ∃ tr c,
    Exec Client.events (fun _ e => e.Fits)
        (Client.start (bytes "6") (List.replicate 50 0)).2 tr c ∧
      tr.map Prod.fst = [.stdin (bytes "again\n"), .stdin (bytes "quit\n")] ∧
      ((∀ chunk p, (.stdin chunk, p) ∈ tr → p.Faithful chunk) ↔
        ∀ pre chunk, pre ++ [.stdin chunk] <+: tr.map Prod.fst →
          ¬ Completed (leftOver (List.replicate 50 0) pre) chunk) := by
  obtain ⟨tr, c, h, hin, -⟩ := exec_such_that Client.events (fun _ e => e.Fits)
    (Client.start (bytes "6") (List.replicate 50 0)).2
    [.stdin (bytes "again\n"), .stdin (bytes "quit\n")] (fun _ => True) (by decide)
  exact ⟨tr, c, h, hin, typing_faithful_iff (bytes "6") (List.replicate 50 0) tr c h⟩

/-- A "q" after a "suit": the client takes it for a "quit". -/
theorem taken_for_quit : ∃ tr c p,
    Exec Client.events (fun _ e => e.Fits)
        (Client.start (bytes "6") (List.replicate 50 0)).2 tr c ∧
      tr.map Prod.fst = [.stdin (bytes "suit\n"), .stdin (bytes "q")] ∧
      (.stdin (bytes "q"), p) ∈ tr ∧ ¬ p.Faithful (bytes "q") := by
  obtain ⟨tr, c, h, hin, hmem⟩ := exec_such_that Client.events (fun _ e => e.Fits)
    (Client.start (bytes "6") (List.replicate 50 0)).2
    [.stdin (bytes "suit\n"), .stdin (bytes "q")]
    (fun q => (.stdin (bytes "q"), ⟨[], true⟩) ∈ q.1) (by decide)
  refine ⟨tr, c, _, h, hin, hmem, fun hf => ?_⟩
  rw [Pass.Faithful, if_neg (by decide)] at hf
  cases hf.2

end CCodes.Assignment
