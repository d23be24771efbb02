/-
CCodes.Assignment.Wire — `struct Message` as bytes.

    char msg[200];            0
    char buffer[BUFFSIZE];    200
    unsigned int id;          1224
    char name[200];           1228
    unsigned long regNo;      1432   (4 bytes of padding before it)

A C string is read from its first byte to the next NUL, wherever in the
struct that is. `ofBytes_toBytes` is the round trip for texts that fit
their arrays; so the whole reads and writes of `struct Message` in the
other modules are reads and writes of `Message`.
-/
import CCodes.Lib.Framing
import CCodes.Assignment.Records

namespace CCodes.Assignment

open CCodes.Lib

/-- `sizeof(struct Message)`. -/
def sizeofMessage : Nat := 1440

def StDetail.toBytes (d : StDetail) : List UInt8 :=
  leBytes 4 d.id.toNat ++ charArray 200 d.name ++ List.replicate 4 0 ++ leBytes 8 d.regNo.toNat

namespace Message

def toBytes (m : Message) : List UInt8 :=
  charArray 200 m.msg ++ charArray 1024 m.buffer ++ m.detail.toBytes

def ofBytes (b : List UInt8) : Message where
  msg := cstr b
  buffer := cstr (b.drop 200)
  detail :=
    { id := UInt32.ofNat (leNat ((b.drop 1224).take 4))
      name := cstr (b.drop 1228)
      regNo := UInt64.ofNat (leNat ((b.drop 1432).take 8)) }

/-- The texts of a message fit their arrays. -/
def Fits (m : Message) : Prop :=
  FitsArray 200 m.msg ∧ FitsArray 1024 m.buffer ∧ FitsArray 200 m.detail.name

instance (m : Message) : Decidable m.Fits := inferInstanceAs (Decidable (_ ∧ _ ∧ _))

theorem length_toBytes {m : Message} (h : m.Fits) : m.toBytes.length = sizeofMessage := by
  obtain ⟨⟨hmsg, -⟩, ⟨hbuf, -⟩, ⟨hname, -⟩⟩ := h
  simp only [toBytes, StDetail.toBytes, List.length_append, length_charArray hmsg.le,
    length_charArray hbuf.le, length_charArray hname.le, length_leBytes, List.length_replicate,
    sizeofMessage]

/-- What follows a field of `n` bytes. -/
theorem drop_field {n : Nat} {a : List UInt8} (ha : a.length = n) (k : Nat) (b : List UInt8) :
    (a ++ b).drop (n + k) = b.drop k := by
  rw [← ha, List.drop_append]
  simp

/-- **Round trip.** -/
theorem ofBytes_toBytes {m : Message} (h : m.Fits) : ofBytes m.toBytes = m := by
  obtain ⟨hmsg, hbuf, hname⟩ := h
  obtain ⟨msg, buffer, id, name, regNo⟩ := m
  have hid : leNat (leBytes 4 id.toNat) = id.toNat := leNat_leBytes id.toNat_lt
  have hreg : leNat (leBytes 8 regNo.toNat) = regNo.toNat := leNat_leBytes regNo.toNat_lt
  have lmsg := length_charArray hmsg.1.le
  have lbuf := length_charArray hbuf.1.le
  have lname := length_charArray hname.1.le
  have lid := length_leBytes 4 id.toNat
  have lpad : (List.replicate 4 (0 : UInt8)).length = 4 := rfl
  simp only [toBytes, StDetail.toBytes, List.append_assoc, ofBytes]
  rw [cstr_charArray hmsg, drop_field lmsg 0, List.drop_zero, cstr_charArray hbuf,
    drop_field lmsg 1024, drop_field lbuf 0, List.drop_zero, List.take_left' lid, hid,
    drop_field lmsg 1028, drop_field lbuf 4, drop_field lid 0, List.drop_zero,
    cstr_charArray hname, drop_field lmsg 1232, drop_field lbuf 208, drop_field lid 204,
    drop_field lname 4, drop_field lpad 0, List.drop_zero,
    List.take_of_length_le (length_leBytes 8 _).le, hreg, UInt32.ofNat_toNat, UInt64.ofNat_toNat]

end Message

end CCodes.Assignment
