/-
CCodes.Assignment.Records — the data of the assignment programs:
`student_ll.c`, `server_store_ll.c` and `struct Message`.

A `char` array that holds a C string is the string, its bytes before the
NUL; `bzero` followed by `strcpy` gives exactly that. A list ended by its
dummy node is the list of what its nodes point to, head first.

ROOM. The `malloc`s of these files ask for the size of a pointer, 8 bytes:
`malloc(sizeof(temp))` in `st_create` for a `struct ST_Detail` of 216, in
`create_ss` for a `struct SS_Data` of 32. Here, and in every module of
`CCodes.Assignment`, each `malloc` is taken to give room for the struct that
is stored in its block, so that no two blocks overlap. A `malloc` may give less:
then the copy of one record can lie on the flags of another session, and a long
name runs over what `malloc` keeps behind the block. The theorems on the server
and on the system say that they rest on this room.
-/
import CCodes.Lib.CString
import CCodes.Lib.SelectLoop

namespace CCodes.Assignment

open CCodes.Lib

/-! ## `student_ll` -/

/-- `struct ST_Detail`. -/
structure StDetail where
  id : UInt32
  name : List UInt8
  regNo : UInt64
  deriving DecidableEq, Repr

/-- `st_create`, with room for the record: `id` becomes an `unsigned int`, `regNo` an
`unsigned long`. -/
def stCreate (id : Int32) (name : List UInt8) (regNo : Int32) : StDetail where
  id := id.toUInt32
  name := name
  regNo := regNo.toInt64.toUInt64

/-- `st_push`. -/
def stPush (ll : List StDetail) (data : StDetail) : List StDetail := data :: ll

/-- `st_search`; `none` is -1. The comparison is between `unsigned int`s. -/
def stSearch (ll : List StDetail) (id : Int32) : Option StDetail :=
  ll.find? fun d => d.id == id.toUInt32

/-- `st_ll_get`. -/
def stLlGet : List StDetail :=
  let ll := []
  let ll := stPush ll (stCreate 1 (bytes "Aashish") 171501)
  let ll := stPush ll (stCreate 2 (bytes "Aashuthoh") 171502)
  let ll := stPush ll (stCreate 3 (bytes "Abinash") 171503)
  let ll := stPush ll (stCreate 4 (bytes "Aakriti") 171504)
  let ll := stPush ll (stCreate 5 (bytes "Avash") 171505)
  stPush ll (stCreate 6 (bytes "Biraj") 171506)

/-! ## `server_store_ll` -/

/-- `struct SS_Data`. The record `data` points to is made by `create_ss`
for this session alone and never written again. -/
structure SsData where
  fd : Fd
  clientId : Int32
  reqCount : Int32
  sFlag : Int32
  tyFlag : Int32
  data : StDetail
  deriving DecidableEq, Repr

/-- An `SS_Data` of zeros. -/
def SsData.zero : SsData := ⟨0, 0, 0, 0, 0, ⟨0, [], 0⟩⟩

/-- The address of an `SS_Data`. -/
abbrev Ptr := Nat

/-- `create_ss`, with room for the session: the record goes through `st_create`, so its
`id` and `regNo` go through an `int`. -/
def createSs (fd : Fd) (clientId : Int32) (data : StDetail) : SsData where
  fd := fd
  clientId := clientId
  data := stCreate data.id.toInt32 data.name data.regNo.toUInt32.toInt32
  reqCount := 0
  sFlag := 0
  tyFlag := 0

/-- `ss_push`. -/
def ssPush (ll : List Ptr) (data : Ptr) : List Ptr := data :: ll

/-- `ss_search` on the sessions stored in `mem`; `none` is -1. -/
def ssSearch (mem : Ptr → SsData) (ll : List Ptr) (fd : Fd) : Option Ptr :=
  ll.find? fun p => (mem p).fd == fd

/-- `ss_delete`: the first node with the descriptor goes. Its `SS_Data`
stays allocated. -/
def ssDelete (mem : Ptr → SsData) (ll : List Ptr) (fd : Fd) : List Ptr :=
  ll.eraseP fun p => (mem p).fd == fd

/-! ## `struct Message` -/

/-- `struct Message`. -/
structure Message where
  msg : List UInt8
  buffer : List UInt8
  detail : StDetail
  deriving DecidableEq, Repr

namespace Message

/-- A message after `bzero`. -/
def zero : Message := ⟨[], [], ⟨0, [], 0⟩⟩

/-- `strncmp(m->msg, "buffer", 6) == 0`. -/
def isBuffer (m : Message) : Bool := strncmp m.msg (bytes "buffer") 6 == 0

/-- `strncmp(m->msg, "detail", 6) == 0`. -/
def isDetail (m : Message) : Bool := strncmp m.msg (bytes "detail") 6 == 0

/-- `strncmp(m->buffer, "thank_you", 9) == 0`. -/
def saysThankYou (m : Message) : Bool := strncmp m.buffer (bytes "thank_you") 9 == 0

/-- `strncmp(m->buffer, "again", 5) == 0`. -/
def saysAgain (m : Message) : Bool := strncmp m.buffer (bytes "again") 5 == 0

/-- `strncmp(m->buffer, "not_found", 9) == 0`. -/
def saysNotFound (m : Message) : Bool := strncmp m.buffer (bytes "not_found") 9 == 0

/-- A "buffer" message with the given text. -/
def ofText (text : List UInt8) : Message := { zero with msg := bytes "buffer", buffer := text }

/-- The message the server writes when the id is not stored. -/
def notFound : Message := ofText (bytes "not_found")

/-- The message the server writes with a record. -/
def ofDetail (d : StDetail) : Message := { zero with msg := bytes "detail", detail := d }

@[simp] theorem isBuffer_ofText (text : List UInt8) : (ofText text).isBuffer = true := rfl
@[simp] theorem isDetail_ofDetail (d : StDetail) : (ofDetail d).isDetail = true := rfl

theorem ofDetail_inj {d d' : StDetail} (h : ofDetail d = ofDetail d') : d = d' :=
  congrArg Message.detail h

theorem saysThankYou_iff (m : Message) :
    m.saysThankYou = true ↔ bytes "thank_you" <+: m.buffer := by
  rw [saysThankYou, beq_iff_eq]
  exact strncmp_eq_zero_iff m.buffer (by decide)

theorem saysAgain_iff (m : Message) : m.saysAgain = true ↔ bytes "again" <+: m.buffer := by
  rw [saysAgain, beq_iff_eq]
  exact strncmp_eq_zero_iff m.buffer (by decide)

/-- No text begins with both "thank_you" and "again". -/
theorem not_saysAgain_of_saysThankYou {m : Message} (h : m.saysThankYou = true) :
    m.saysAgain = false := by
  obtain ⟨r, hr⟩ := m.saysThankYou_iff.mp h
  simp [saysAgain, ← hr, bytes, strncmp]

/-- A text that `atoi` reads as a number other than 0 begins with neither. -/
theorem says_nothing_of_atoi {m : Message} (h : atoi m.buffer ≠ 0) :
    m.saysThankYou = false ∧ m.saysAgain = false := by
  constructor
  · rw [Bool.eq_false_iff, Ne, saysThankYou_iff]
    exact not_prefix_of_atoi (by decide) h
  · rw [Bool.eq_false_iff, Ne, saysAgain_iff]
    exact not_prefix_of_atoi (by decide) h

end Message

end CCodes.Assignment
