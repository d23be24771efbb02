/-
CCodes.Assignment.ShortReads — reads that do not return one whole message.

`Read` calls `read` once, and both programs test its result for 0 at most.
So they take whatever a read returned, with zeros behind it, for a message.
-/
import CCodes.Assignment.Isolation
import CCodes.Assignment.Wire
import CCodes.Assignment.Client

namespace CCodes.Assignment

open CCodes.Lib

/-- What `read` left in the cleared `res`. -/
def resOf (chunk : List UInt8) : Message := .ofBytes (fill sizeofMessage chunk)

/-- The answers of the system calls, with the bytes of a read. -/
inductive RawAnswer where
  | accepted (newFD : Fd)
  | bytes (chunk : List UInt8)
  | eof

def RawAnswer.answer : RawAnswer → Answer
  | .accepted newFD => .accepted newFD
  | .bytes chunk => .data (resOf chunk)
  | .eof => .eof

abbrev RawEvent := Fd × RawAnswer

def RawEvent.event (e : RawEvent) : Event := (e.1, e.2.answer)

/-- The server, reading bytes. -/
def rawServer : Machine Server RawEvent (List Message) := fun s e =>
  server.events s (RawEvent.event e)

/-- A message the server handles, on connection `i`. -/
def serveOn (i : Fd) (s : Server) (res : Message) : Option (List Message × Server) :=
  s.handleClient i (.data res)

/-- A message the client handles, as long as it runs. -/
def clientOn (c : Client) (res : Message) : Option (List Message × Client) :=
  if c.running then some (c.handleSocket res) else none

/-- The reads on descriptor `i` since it was last accepted. -/
def readOn (i : Fd) (chunks : List (List UInt8)) : RawEvent → List (List UInt8)
  | (_, .accepted newFD) => if newFD = i then [] else chunks
  | (j, .bytes chunk) => if j = i then chunks ++ [chunk] else chunks
  | _ => chunks

def readsOn (i : Fd) (es : List RawEvent) : List (List UInt8) := es.foldl (readOn i) []

/-- The server handles what each read left in `res`. -/
theorem received_event (i : Fd) (es : List RawEvent) :
    received i (es.map RawEvent.event) = (readsOn i es).map resOf := by
  induction es using List.reverseRecOn with
  | nil => rfl
  | append_singleton es e ih =>
    have hreads : readsOn i (es ++ [e]) = readOn i (readsOn i es) e := by
      rw [readsOn, List.foldl_append]
      rfl
    have hrec : received i ((es ++ [e]).map RawEvent.event) =
        receive i (received i (es.map RawEvent.event)) (RawEvent.event e) := by
      rw [received, List.map_append, List.foldl_append]
      rfl
    rw [hreads, hrec, ih]
    obtain ⟨j, a⟩ := e
    cases a with
    | accepted newFD => simp only [RawEvent.event, RawAnswer.answer, receive, readOn]; split <;> rfl
    | bytes chunk =>
      simp only [RawEvent.event, RawAnswer.answer, receive, readOn]
      split <;> simp
    | eof => rfl

/-- On an open descriptor the server gets through any reads. -/
theorem serveOn_isSome {i : Fd} : ∀ (chunks : List (List UInt8)) {s : Server}, i ∈ s.openFDs →
    (readLoop sizeofMessage Message.ofBytes (serveOn i) s chunks).isSome
  | [], _, _ => rfl
  | c :: cs, s, hi => by
      obtain ⟨w, t, hm⟩ := Server.handleMessage_answers hi (resOf c)
      have hserve : serveOn i s (Message.ofBytes (fill sizeofMessage c)) = some (w, t) := hm
      have hopen : i ∈ t.openFDs := by
        obtain ⟨_, _, _, _, rfl⟩ := Server.handleMessage_frame hm
        exact hi
      have ih := serveOn_isSome cs hopen
      simp [readLoop, hserve, ih]

/-- **Framing.** However the bytes of the messages `ms` are delivered in
reads of one byte at least and one message at most, they are handled as
these messages exactly when every read returns one whole message: by the
server, in any run with any other connections, and with the same answers
and sessions when it reads them one after the other; and by a client that
gets through the messages when it reads them whole. -/
theorem framing (ms chunks : List (List UInt8)) (hcut : Cut sizeofMessage ms chunks) :
    (∀ listenFD studentStore junk tr s i,
      Exec rawServer (fun _ _ => True) (Server.init listenFD studentStore junk) tr s →
      readsOn i (tr.map Prod.fst) = chunks →
      ((conversation i (tr.map fun e => (RawEvent.event e.1, e.2))).map Prod.fst =
          ms.map Message.ofBytes ↔
        ∀ c ∈ chunks, c.length = sizeofMessage)) ∧
    (∀ (s : Server) (i : Fd), i ∈ s.openFDs →
      (HandledAs sizeofMessage Message.ofBytes (serveOn i) s chunks ms ↔
        ∀ c ∈ chunks, c.length = sizeofMessage)) ∧
    ∀ c : Client, (readLoop sizeofMessage Message.ofBytes clientOn c ms).isSome →
      (HandledAs sizeofMessage Message.ofBytes clientOn c chunks ms ↔
        ∀ chunk ∈ chunks, chunk.length = sizeofMessage) := by
  have hsize : 0 < sizeofMessage := by decide
  refine ⟨fun listenFD studentStore junk tr s i _ hreads => ?_, fun s i hi => ?_,
    fun c hc => hcut.handledAs_iff hsize hc⟩
  · have hmap : (tr.map fun e => (RawEvent.event e.1, e.2)).map Prod.fst =
        (tr.map Prod.fst).map RawEvent.event := by
      rw [List.map_map, List.map_map]
      rfl
    rw [conversation_fst, hmap, received_event, hreads]
    exact hcut.frames_iff Message.ofBytes hsize
  · exact hcut.handledAs_iff hsize (serveOn_isSome ms hi)

/-- The bytes of a client's first message, for the id 6, and of its thanks. -/
def sixBytes : List UInt8 := (Message.ofText (bytes "6")).toBytes

def thanksBytes : List UInt8 := (Message.ofText (bytes "thank_you")).toBytes

/-- The two messages are handled as such when each is read whole, and not when the
first is read as its first 200 bytes and the rest. -/
theorem framing_two_messages :
    let ms := [sixBytes, thanksBytes]
    let cut := [sixBytes.take 200, sixBytes.drop 200, thanksBytes]
    let s := (Server.init 3 stLlGet .zero).addClient 4
    Cut sizeofMessage ms ms ∧ HandledAs sizeofMessage Message.ofBytes (serveOn 4) s ms ms ∧
      Cut sizeofMessage ms cut ∧
      ¬ HandledAs sizeofMessage Message.ofBytes (serveOn 4) s cut ms := by
  intro ms cut s
  have hsix : sixBytes.length = sizeofMessage := Message.length_toBytes (by decide)
  have hthanks : thanksBytes.length = sizeofMessage := Message.length_toBytes (by decide)
  have hwhole : Cut sizeofMessage ms ms :=
    ⟨by simp [ms, hsix, hthanks], by simp [ms, hsix, hthanks, sizeofMessage], rfl⟩
  have hcut : Cut sizeofMessage ms cut := by
    refine ⟨by simp [ms, hsix, hthanks], by simp [cut, hsix, hthanks, sizeofMessage], ?_⟩
    simp [ms, cut, ← List.append_assoc]
  refine ⟨hwhole, ?_, hcut, fun h => ?_⟩
  · exact ((framing _ _ hwhole).2.1 _ 4 (by decide)).mpr (by simp [ms, hsix, hthanks])
  · have hlen := ((framing _ _ hcut).2.1 _ 4 (by decide)).mp h _ List.mem_cons_self
    rw [List.length_take, hsix] at hlen
    exact absurd hlen (by decide)

/-- A client of the server, whose message for the id 6 comes in the reads
`chunks`. -/
def sendsSix (chunks : List (List UInt8)) : List RawEvent :=
  (3, .accepted 4) :: chunks.map fun chunk => (4, .bytes chunk)

/-- Read whole, the message is answered with the record; read as its first
200 bytes and the rest, it is two messages, and neither has an id that is
stored. -/
theorem framing_fails :
    let cut := [sixBytes.take 200, sixBytes.drop 200]
    let biraj := Message.ofDetail (stCreate 6 (bytes "Biraj") 171506)
    Cut sizeofMessage [sixBytes] cut ∧
    (∃ tr s, Exec rawServer (fun _ _ => True) (Server.init 3 stLlGet .zero) tr s ∧
      tr.map Prod.fst = sendsSix [sixBytes] ∧ tr.map Prod.snd = [[], [biraj]]) ∧
    ∃ tr s, Exec rawServer (fun _ _ => True) (Server.init 3 stLlGet .zero) tr s ∧
      tr.map Prod.fst = sendsSix cut ∧ tr.map Prod.snd = [[], [.notFound], [.notFound]] := by
  have hlen : sixBytes.length = sizeofMessage := Message.length_toBytes (by decide)
  refine ⟨⟨by simp [hlen], ?_, by simp⟩, ?_, ?_⟩
  · simp [hlen, sizeofMessage]
  · exact exec_such_that _ _ _ _ (fun p => p.1.map Prod.snd = _) (by decide +kernel)
  · exact exec_such_that _ _ _ _ (fun p => p.1.map Prod.snd = _) (by decide +kernel)

end CCodes.Assignment
