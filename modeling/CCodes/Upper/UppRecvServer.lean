/-
CCodes.Upper.UppRecvServer — the upper-case server,
`other/upp_recv_server/upp_recv_server.c`.

    char messg[MAXLINE];      0
    int fd;                   1024
    int size;                 1028

A read gives 1 to MAXLINE bytes, and `recvline` has room for one more, the
NUL. `messg` has not: a chunk of MAXLINE bytes without a NUL fills it to the
last byte, and `strcpy` puts the NUL into `fd`, where `connfd` is written
over it. `replies_wellFormed_iff` says that this is the only way a reply
goes wrong.
-/
import Mathlib.Data.List.TakeWhile
import CCodes.Lib.Framing
import CCodes.Lib.Runs

namespace CCodes.Upper

open CCodes.Lib

/-- `MAXLINE`. -/
def maxLine : Nat := 1024

/-- `sizeof(Buffer)`. -/
def sizeofBuffer : Nat := 1032

/-- What a `read` that neither fails nor ends can give. -/
structure Chunk where
  bytes : List UInt8
  pos : 0 < bytes.length
  le : bytes.length ≤ maxLine

/-- `char recvline[MAXLINE+1]`. -/
structure RecvLine where
  bytes : List UInt8
  length_bytes : bytes.length = maxLine + 1

/-- `toupper` in the C locale. -/
def toupper (c : UInt8) : UInt8 := if 97 ≤ c ∧ c ≤ 122 then c - 32 else c

/-- `upperCase`, on the bytes of `msg` to the end of its array. -/
def upperCase : List UInt8 → List UInt8
  | [] => []
  | c :: msg => if c = 0 then c :: msg else toupper c :: upperCase msg

theorem length_upperCase : ∀ msg : List UInt8, (upperCase msg).length = msg.length
  | [] => rfl
  | c :: msg => by
      rw [upperCase]
      split
      · rfl
      · rw [List.length_cons, length_upperCase msg, List.length_cons]

namespace RecvLine

/-- Lines 68-69: the chunk is read, and ended with a NUL. -/
def read (recvline : RecvLine) (c : Chunk) : RecvLine where
  bytes := (c.bytes ++ recvline.bytes.drop c.bytes.length).set c.bytes.length 0
  length_bytes := by
    have := c.le
    have := recvline.length_bytes
    simp only [List.length_set, List.length_append, List.length_drop]
    omega

/-- Line 75. -/
def upper (recvline : RecvLine) : RecvLine where
  bytes := upperCase recvline.bytes
  length_bytes := (length_upperCase _).trans recvline.length_bytes

/-- Line 83. -/
def clear : RecvLine where
  bytes := List.replicate (maxLine + 1) 0
  length_bytes := List.length_replicate ..

end RecvLine

/-- Bytes written into memory from an offset on. -/
def patch (mem : List UInt8) (off : Nat) (bs : List UInt8) : List UInt8 :=
  mem.take off ++ bs ++ mem.drop (off + bs.length)

/-- The bytes of an `int`. -/
def intBytes (x : Int32) : List UInt8 := leBytes 4 x.toUInt32.toNat

/-- What is written back for a chunk: the bytes of `sb`, and how many bytes
the `strcpy` to `sb.messg` wrote. -/
structure Reply where
  copied : Nat
  sb : List UInt8
  deriving DecidableEq

/-- Lines 69-83, for the connection `connfd`. -/
def serve (connfd : Int32) : Spec RecvLine Chunk Reply := fun recvline c =>
  let n := Int32.ofNat c.bytes.length
  let recvline := (recvline.read c).upper
  let text := cstr recvline.bytes
  let sb := List.replicate sizeofBuffer 0
  let sb := patch sb 0 (text ++ [0])
  let sb := patch sb 1028 (intBytes n)
  let sb := patch sb 1024 (intBytes connfd)
  (⟨text.length + 1, sb⟩, RecvLine.clear)

/-! ## §1 What a reply should be -/

/-- `struct send_buff`, as the client reads it. -/
structure Buffer where
  messg : List UInt8
  fd : Int32
  size : Int32
  deriving DecidableEq

def Buffer.ofBytes (b : List UInt8) : Buffer where
  messg := b.take maxLine
  fd := (UInt32.ofNat (leNat ((b.drop 1024).take 4))).toInt32
  size := (UInt32.ofNat (leNat ((b.drop 1028).take 4))).toInt32

/-- The text of a chunk in upper case. -/
def Chunk.upperText (c : Chunk) : List UInt8 := (cstr c.bytes).map toupper

/-- A reply that is right: the copy stayed inside `messg`; `messg` is the
text in upper case, ended and padded with NULs; the fields are those of this
chunk and this connection; and `printf` of `messg` prints the text. -/
structure Reply.WellFormed (connfd : Int32) (c : Chunk) (r : Reply) : Prop where
  inside : r.copied ≤ maxLine
  whole : r.sb.length = sizeofBuffer
  buffer : Buffer.ofBytes r.sb =
    ⟨charArray maxLine c.upperText, connfd, Int32.ofNat c.bytes.length⟩
  ended : (0 : UInt8) ∈ (Buffer.ofBytes r.sb).messg
  printed : cstr r.sb = c.upperText

/-- The text of the chunk leaves room for its NUL. -/
def Chunk.Fits (c : Chunk) : Prop := (cstr c.bytes).length < maxLine

instance (c : Chunk) : Decidable c.Fits := inferInstanceAs (Decidable (_ < _))

/-! ## §2 The text -/

theorem toupper_ne_zero {c : UInt8} (hc : c ≠ 0) : toupper c ≠ 0 := by
  unfold toupper
  split
  next h =>
    have hlow := UInt8.le_iff_toNat_le.mp h.1
    have hhigh := UInt8.le_iff_toNat_le.mp h.2
    intro h0
    have hval := congrArg UInt8.toNat h0
    rw [UInt8.toNat_sub_of_le c 32 (UInt8.le_iff_toNat_le.mpr (le_trans (by decide) hlow))] at hval
    change c.toNat - 32 = 0 at hval
    change 97 ≤ c.toNat at hlow
    omega
  next => exact hc

theorem cstr_upperCase : ∀ msg : List UInt8, cstr (upperCase msg) = (cstr msg).map toupper
  | [] => rfl
  | c :: msg => by
      rw [upperCase]
      split
      next hc => rw [hc, cstr_zero_cons, List.map_nil]
      next hc =>
        rw [cstr_cons hc, cstr_cons (toupper_ne_zero hc), cstr_upperCase msg, List.map_cons]

/-- Nothing of `recvline` but the chunk comes into the text. -/
theorem text_read (recvline : RecvLine) (c : Chunk) :
    cstr (recvline.read c).upper.bytes = c.upperText := by
  obtain ⟨old, rest, hdrop⟩ : ∃ old rest, recvline.bytes.drop c.bytes.length = old :: rest := by
    refine List.exists_cons_of_length_pos ?_
    have := c.le
    have := recvline.length_bytes
    rw [List.length_drop]
    omega
  have hread : (recvline.read c).bytes = c.bytes ++ 0 :: rest := by
    simp only [RecvLine.read, hdrop]
    rw [List.set_append_right _ _ (Nat.le_refl _), Nat.sub_self]
    rfl
  rw [RecvLine.upper, cstr_upperCase, hread, cstr_append_zero, Chunk.upperText]

theorem zero_notMem_upperText (c : Chunk) : (0 : UInt8) ∉ c.upperText := by
  intro h
  obtain ⟨b, hb, hup⟩ := List.mem_map.mp h
  have hne : b ≠ 0 := by simpa using List.mem_takeWhile_imp hb
  exact toupper_ne_zero hne hup

theorem fits_iff (c : Chunk) : c.Fits ↔ c.upperText.length + 1 ≤ maxLine := by
  rw [Chunk.upperText, List.length_map]
  rfl

/-! ## §3 The reply -/

/-- Bytes written over as many. -/
theorem patch_field (a b c bs : List UInt8) (h : b.length = bs.length) :
    patch (a ++ b ++ c) a.length bs = a ++ bs ++ c := by
  rw [patch, ← h, List.append_assoc a b c, List.take_left', ← List.drop_drop, List.drop_left',
    List.drop_left']
  all_goals rfl

theorem length_intBytes (x : Int32) : (intBytes x).length = 4 := length_leBytes 4 _

theorem ofNat_intBytes (x : Int32) : (UInt32.ofNat (leNat (intBytes x))).toInt32 = x := by
  rw [intBytes, leNat_leBytes x.toUInt32.toNat_lt, UInt32.ofNat_toNat]
  rfl

theorem Buffer.ofBytes_append {messg : List UInt8} (h : messg.length = 1024) (fd size : Int32) :
    Buffer.ofBytes (messg ++ intBytes fd ++ intBytes size) = ⟨messg, fd, size⟩ := by
  have hmessg : (messg ++ intBytes fd ++ intBytes size).take maxLine = messg := by
    rw [maxLine, List.append_assoc, List.take_left' h]
  have hfd : ((messg ++ intBytes fd ++ intBytes size).drop 1024).take 4 = intBytes fd := by
    rw [List.append_assoc, List.drop_left' h, List.take_left' (length_intBytes fd)]
  have hsize : ((messg ++ intBytes fd ++ intBytes size).drop 1028).take 4 = intBytes size := by
    rw [List.drop_left' (by rw [List.length_append, h, length_intBytes]),
      List.take_of_length_le (length_intBytes size).le]
  rw [Buffer.ofBytes, hmessg, hfd, hsize, ofNat_intBytes, ofNat_intBytes]

/-- `strcpy` into the cleared struct, when the text fits. -/
theorem strcpy_fits {text : List UInt8} (hlen : text.length + 1 ≤ maxLine) :
    patch (List.replicate sizeofBuffer 0) 0 (text ++ [0]) =
      charArray maxLine text ++ List.replicate 4 0 ++ List.replicate 4 0 := by
  have hcleared : List.replicate sizeofBuffer (0 : UInt8) = [] ++
      List.replicate (text.length + 1) 0 ++
        List.replicate (maxLine - (text.length + 1) + 8) 0 := by
    rw [List.nil_append, List.replicate_append_replicate]
    congr 1
    simp only [sizeofBuffer, maxLine] at hlen ⊢
    omega
  have hroom : maxLine - text.length = 1 + (maxLine - (text.length + 1)) := by omega
  have hcopied := patch_field [] (List.replicate (text.length + 1) 0)
    (List.replicate (maxLine - (text.length + 1) + 8) 0) (text ++ [0]) (by simp)
  rw [hcleared]
  refine hcopied.trans ?_
  simp only [charArray, fill, hroom, List.append_assoc, List.nil_append,
    List.replicate_append_replicate, Nat.add_assoc]
  rw [List.replicate_add 1]
  rfl

/-- The bytes of a reply whose text fits. -/
theorem serve_sb (connfd : Int32) (recvline : RecvLine) {c : Chunk} (h : c.Fits) :
    (serve connfd recvline c).1.sb = charArray maxLine c.upperText ++ intBytes connfd ++
      intBytes (Int32.ofNat c.bytes.length) := by
  have hlen := (fits_iff c).mp h
  have hmessg : (charArray maxLine c.upperText).length = 1024 := length_charArray (by omega)
  have hhead : (charArray maxLine c.upperText ++ List.replicate 4 0).length = 1028 := by
    rw [List.length_append, hmessg, List.length_replicate]
  have hsize := patch_field (charArray maxLine c.upperText ++ List.replicate 4 0)
    (List.replicate 4 0) [] (intBytes (Int32.ofNat c.bytes.length)) (by simp [length_intBytes])
  have hfd := patch_field (charArray maxLine c.upperText) (List.replicate 4 0)
    (intBytes (Int32.ofNat c.bytes.length)) (intBytes connfd) (by simp [length_intBytes])
  rw [hhead, List.append_nil, List.append_nil] at hsize
  rw [hmessg] at hfd
  simp only [serve, text_read]
  rw [strcpy_fits hlen, hsize, hfd]

/-- **Step lemma.** The reply to a chunk is right exactly when the text of
the chunk fits. -/
theorem wellFormed_iff (connfd : Int32) (recvline : RecvLine) (c : Chunk) :
    (serve connfd recvline c).1.WellFormed connfd c ↔ c.Fits := by
  have hcopied : (serve connfd recvline c).1.copied = c.upperText.length + 1 := by
    simp only [serve, text_read]
  constructor
  · exact fun h => (fits_iff c).mpr (hcopied ▸ h.inside)
  · intro h
    have hlen := (fits_iff c).mp h
    have hmessg : (charArray maxLine c.upperText).length = 1024 := length_charArray (by omega)
    have hsb := serve_sb connfd recvline h
    have hbuffer : Buffer.ofBytes (serve connfd recvline c).1.sb =
        ⟨charArray maxLine c.upperText, connfd, Int32.ofNat c.bytes.length⟩ := by
      rw [hsb, Buffer.ofBytes_append hmessg]
    refine ⟨hcopied ▸ hlen, ?_, hbuffer, ?_, ?_⟩
    · rw [hsb]
      simp only [List.length_append, hmessg, length_intBytes, sizeofBuffer]
    · rw [hbuffer, charArray, fill]
      refine List.mem_append_right _ (List.mem_replicate.mpr ⟨?_, rfl⟩)
      omega
    · rw [hsb, List.append_assoc]
      exact cstr_charArray ⟨hlen, zero_notMem_upperText c⟩ _

/-- **When the replies on a connection are right.** Whatever `recvline`
holds at first, and for every connection and every sequence of chunks, all
replies are right if and only if each chunk has a text of fewer than MAXLINE
bytes. -/
theorem replies_wellFormed_iff (connfd : Int32) (recvline : RecvLine) (chunks : List Chunk) :
    List.Forall₂ (fun c r => Reply.WellFormed connfd c r) chunks
        ((serve connfd).run recvline chunks).1 ↔
      ∀ c ∈ chunks, (cstr c.bytes).length < maxLine := by
  induction chunks generalizing recvline with
  | nil => simp [Spec.run]
  | cons c chunks ih =>
    rw [Spec.run, List.forall₂_cons, ih, wellFormed_iff, List.forall_mem_cons]
    rfl

/-- Bytes before those that are written stay. -/
theorem take_patch {mem bs : List UInt8} {k off : Nat} (hk : k ≤ off) (hoff : off ≤ mem.length) :
    (patch mem off bs).take k = mem.take k := by
  have hle : k ≤ (mem.take off).length := by
    rw [List.length_take]
    omega
  rw [patch, List.append_assoc, List.take_append_of_le_length hle, List.take_take,
    Nat.min_eq_left hk]

theorem length_patch {mem : List UInt8} (bs : List UInt8) {off : Nat}
    (h : off + bs.length ≤ mem.length) :
    (patch mem off bs).length = mem.length := by
  simp only [patch, List.length_append, List.length_take, List.length_drop]
  omega

/-- A text that fills `messg` leaves no NUL in it. -/
theorem messg_of_full (connfd : Int32) (recvline : RecvLine) {c : Chunk}
    (h : c.upperText.length = maxLine) :
    (Buffer.ofBytes (serve connfd recvline c).1.sb).messg = c.upperText := by
  have hzeros : (List.replicate sizeofBuffer (0 : UInt8)).length = 1032 := List.length_replicate ..
  have hcopy : (patch (List.replicate sizeofBuffer 0) 0 (c.upperText ++ [0])).length = 1032 := by
    rw [length_patch _ (by rw [hzeros, List.length_append, h, maxLine]; decide), hzeros]
  simp only [Buffer.ofBytes, serve, text_read]
  have hsize := length_patch (intBytes (Int32.ofNat c.bytes.length))
    (by rw [hcopy, length_intBytes] : 1028 + _ ≤ _)
  rw [take_patch (by decide) (by rw [hsize, hcopy]; decide),
    take_patch (by decide) (by rw [hcopy]; decide), patch, List.take_zero, List.nil_append,
    List.append_assoc, List.take_left' h]

/-- A chunk of MAXLINE bytes without a NUL. -/
def fullChunk : Chunk where
  bytes := List.replicate maxLine 120
  pos := by rw [List.length_replicate]; decide
  le := by rw [List.length_replicate]

/-- Its reply on connection 4: `strcpy` wrote one byte too many, and `messg`
is not ended. -/
theorem full_chunk_overruns :
    ¬ (serve 4 RecvLine.clear fullChunk).1.WellFormed 4 fullChunk ∧
      (serve 4 RecvLine.clear fullChunk).1.copied = maxLine + 1 ∧
      (0 : UInt8) ∉ (Buffer.ofBytes (serve 4 RecvLine.clear fullChunk).1.sb).messg := by
  have htext : fullChunk.upperText = List.replicate maxLine (toupper 120) := by
    have hcstr : cstr (List.replicate maxLine 120) = List.replicate maxLine 120 :=
      List.takeWhile_replicate.trans (if_pos rfl)
    rw [Chunk.upperText, fullChunk, hcstr, List.map_replicate]
  have hlen : fullChunk.upperText.length = maxLine := by rw [htext, List.length_replicate]
  refine ⟨?_, ?_, ?_⟩
  · rw [wellFormed_iff, fits_iff, hlen]
    decide
  · simp only [serve, text_read, hlen]
  · rw [messg_of_full 4 _ hlen]
    exact zero_notMem_upperText fullChunk

end CCodes.Upper
