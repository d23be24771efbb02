/-
CCodes.Lib.Framing — records of a fixed size on a byte stream.

A writer puts records of `size` bytes on a stream; a reader clears a buffer
of `size` bytes and reads into it, and gets some bytes of the stream, one
at least and `size` at most. A reader that takes each read for a record
gets the records exactly when every read gave it a whole one
(`frames_iff`): for as many reads as records there is no room for a short
one.

The rest of the file is the layout of a record: character arrays that hold
C strings, and little-endian integers.
-/
import Mathlib.Algebra.Order.Group.Nat
import Mathlib.Algebra.Ring.Nat
import Mathlib.Data.List.Basic
import Mathlib.Tactic.Ring
import CCodes.Lib.CString

namespace CCodes.Lib

/-! ## Framing -/

/-- A buffer of `size` bytes, cleared, after a read of `chunk`. -/
def fill (size : Nat) (chunk : List UInt8) : List UInt8 :=
  chunk ++ List.replicate (size - chunk.length) 0

theorem fill_of_length {size : Nat} {chunk : List UInt8} (h : chunk.length = size) :
    fill size chunk = chunk := by
  simp [fill, h]

/-- A way to deliver the records `ms` in reads of at most `size` bytes. -/
structure Cut (size : Nat) (ms chunks : List (List UInt8)) : Prop where
  records : ∀ m ∈ ms, m.length = size
  reads : ∀ c ∈ chunks, 0 < c.length ∧ c.length ≤ size
  stream : chunks.flatten = ms.flatten

theorem length_flatten_of_length {size : Nat} {ms : List (List UInt8)}
    (h : ∀ m ∈ ms, m.length = size) : ms.flatten.length = ms.length * size := by
  induction ms with
  | nil => simp
  | cons m ms ih =>
    have hm := h m List.mem_cons_self
    have ih := ih fun x hx => h x (List.mem_cons_of_mem _ hx)
    rw [List.flatten_cons, List.length_append, hm, ih, List.length_cons, Nat.succ_mul, Nat.add_comm]

/-- Reads of at most `size` bytes that give `size` bytes on average are
whole. -/
theorem whole_of_length {size : Nat} {chunks : List (List UInt8)}
    (h : ∀ c ∈ chunks, c.length ≤ size) (hlen : chunks.flatten.length = chunks.length * size) :
    ∀ c ∈ chunks, c.length = size := by
  induction chunks with
  | nil => exact nofun
  | cons c cs ih =>
    have hc := h c List.mem_cons_self
    have hcs := fun x hx => h x (List.mem_cons_of_mem c hx)
    have hle : ∀ cs : List (List UInt8), (∀ x ∈ cs, x.length ≤ size) →
        cs.flatten.length ≤ cs.length * size := by
      intro cs hcs
      induction cs with
      | nil => simp
      | cons x xs ihx =>
        have hx := hcs x List.mem_cons_self
        have hxs := ihx fun y hy => hcs y (List.mem_cons_of_mem _ hy)
        rw [List.flatten_cons, List.length_append, List.length_cons, Nat.succ_mul]
        omega
    have hrest := hle cs hcs
    rw [List.flatten_cons, List.length_append, List.length_cons, Nat.succ_mul] at hlen
    intro x hx
    rcases List.mem_cons.mp hx with rfl | hx
    · omega
    · exact ih hcs (by omega) x hx

theorem eq_of_whole {size : Nat} (hsize : 0 < size) : ∀ {ms chunks : List (List UInt8)},
    (∀ m ∈ ms, m.length = size) → (∀ c ∈ chunks, c.length = size) →
    chunks.flatten = ms.flatten → chunks = ms
  | [], [], _, _, _ => rfl
  | [], c :: cs, _, hc, h => by
      have hlen := congrArg List.length h
      have := hc c List.mem_cons_self
      simp only [List.flatten_cons, List.length_append, List.flatten_nil, List.length_nil] at hlen
      omega
  | m :: ms, [], hm, _, h => by
      have hlen := congrArg List.length h
      have := hm m List.mem_cons_self
      simp only [List.flatten_cons, List.length_append, List.flatten_nil, List.length_nil] at hlen
      omega
  | m :: ms, c :: cs, hm, hc, h => by
      have hlen : c.length = m.length :=
        (hc c List.mem_cons_self).trans (hm m List.mem_cons_self).symm
      rw [List.flatten_cons, List.flatten_cons] at h
      obtain ⟨rfl, htail⟩ := List.append_inj h hlen
      rw [eq_of_whole hsize (fun x hx => hm x (List.mem_cons_of_mem _ hx))
        (fun x hx => hc x (List.mem_cons_of_mem _ hx)) htail]

variable {size : Nat} {ms chunks : List (List UInt8)}

theorem Cut.whole_iff_length (h : Cut size ms chunks) (hsize : 0 < size) :
    chunks.length = ms.length ↔ ∀ c ∈ chunks, c.length = size := by
  constructor
  · intro hlen
    refine whole_of_length (fun c hc => (h.reads c hc).2) ?_
    rw [h.stream, length_flatten_of_length h.records, hlen]
  · intro hwhole
    rw [eq_of_whole hsize h.records hwhole h.stream]

/-- **Framing.** A reader that takes each read for a record gets the
records exactly when every read is whole. -/
theorem Cut.frames_iff {μ : Type} (decode : List UInt8 → μ) (h : Cut size ms chunks)
    (hsize : 0 < size) :
    (chunks.map fun c => decode (fill size c)) = ms.map decode ↔
      ∀ c ∈ chunks, c.length = size := by
  constructor
  · intro heq
    refine (h.whole_iff_length hsize).mp ?_
    simpa using congrArg List.length heq
  · intro hwhole
    rw [eq_of_whole hsize h.records hwhole h.stream]
    exact List.map_congr_left fun m hm => by rw [fill_of_length (h.records m hm)]

/-! ## Readers -/

section

variable {μ σ ω : Type} (size : Nat) (decode : List UInt8 → μ) (handle : σ → μ → Option (ω × σ))

/-- A reader that handles what each read left in the cleared buffer, with
what it handled and what it answered. -/
def readLoop : σ → List (List UInt8) → Option (List (μ × ω) × σ)
  | s, [] => some ([], s)
  | s, c :: cs =>
      (handle s (decode (fill size c))).bind fun p =>
        (readLoop p.2 cs).map fun q => ((decode (fill size c), p.1) :: q.1, q.2)

/-- The reads `chunks` are handled as the records `ms`: those records, in
that order, with the answers and the last state of a reader that reads them
whole. -/
def HandledAs (s : σ) (chunks ms : List (List UInt8)) : Prop :=
  ∃ log t, readLoop size decode handle s chunks = some (log, t) ∧
    log.map Prod.fst = ms.map decode ∧ readLoop size decode handle s ms = some (log, t)

variable {size} {decode} {handle}

theorem readLoop_fst : ∀ {chunks : List (List UInt8)} {s t : σ} {log : List (μ × ω)},
    readLoop size decode handle s chunks = some (log, t) →
      log.map Prod.fst = chunks.map fun c => decode (fill size c)
  | [], s, t, log, h => by
      simp only [readLoop, Option.some.injEq, Prod.mk.injEq] at h
      rw [← h.1]
      rfl
  | c :: cs, s, t, log, h => by
      obtain ⟨p, -, h⟩ := Option.bind_eq_some_iff.mp h
      obtain ⟨q, hq, h⟩ := Option.map_eq_some_iff.mp h
      rw [Prod.mk.injEq] at h
      rw [← h.1, List.map_cons, readLoop_fst hq, List.map_cons]

/-- A reader that gets through the records when it reads them whole handles
the reads as the records exactly when every read is whole. -/
theorem Cut.handledAs_iff {s : σ} (h : Cut size ms chunks) (hsize : 0 < size)
    (hms : (readLoop size decode handle s ms).isSome) :
    HandledAs size decode handle s chunks ms ↔ ∀ c ∈ chunks, c.length = size := by
  constructor
  · rintro ⟨log, t, hread, hlog, -⟩
    rw [readLoop_fst hread] at hlog
    exact (h.frames_iff decode hsize).mp hlog
  · intro hwhole
    obtain rfl := eq_of_whole hsize h.records hwhole h.stream
    obtain ⟨⟨log, t⟩, hread⟩ := Option.isSome_iff_exists.mp hms
    refine ⟨log, t, hread, ?_, hread⟩
    rw [readLoop_fst hread]
    exact (h.frames_iff decode hsize).mpr hwhole

end

/-! ## Layout -/

/-- A text in a cleared array of `n` characters. -/
def charArray (n : Nat) (text : List UInt8) : List UInt8 := fill n text

/-- A text that fits an array of `n` characters with its NUL. -/
def FitsArray (n : Nat) (text : List UInt8) : Prop := text.length < n ∧ (0 : UInt8) ∉ text

instance (n : Nat) (text : List UInt8) : Decidable (FitsArray n text) :=
  inferInstanceAs (Decidable (_ ∧ _))

theorem length_charArray {n : Nat} {text : List UInt8} (h : text.length ≤ n) :
    (charArray n text).length = n := by
  simp [charArray, fill, h]

/-- The text in an array, whatever comes after the array. -/
theorem cstr_charArray {n : Nat} {text : List UInt8} (h : FitsArray n text)
    (rest : List UInt8) : cstr (charArray n text ++ rest) = text := by
  obtain ⟨hlen, h0⟩ := h
  obtain ⟨k, hk⟩ : ∃ k, n - text.length = k + 1 := ⟨n - text.length - 1, by omega⟩
  have htext : ∀ c ∈ text, (decide (c ≠ 0)) = true := by
    intro c hc
    simp only [ne_eq, decide_eq_true_eq]
    rintro rfl
    exact h0 hc
  rw [charArray, fill, hk, List.replicate_succ, cstr, List.append_assoc, List.cons_append,
    List.takeWhile_append_of_pos htext]
  simp

/-- `n` in `k` bytes, the least significant first. -/
def leBytes : Nat → Nat → List UInt8
  | 0, _ => []
  | k + 1, n => UInt8.ofNat (n % 256) :: leBytes k (n / 256)

/-- The number in a little-endian run of bytes. -/
def leNat : List UInt8 → Nat
  | [] => 0
  | b :: bs => b.toNat + 256 * leNat bs

@[simp] theorem length_leBytes : ∀ k n : Nat, (leBytes k n).length = k
  | 0, _ => rfl
  | k + 1, n => by simp [leBytes, length_leBytes k]

theorem leNat_leBytes : ∀ {k n : Nat}, n < 256 ^ k → leNat (leBytes k n) = n
  | 0, n, h => by simp [leBytes, leNat] at h ⊢; omega
  | k + 1, n, h => by
      have hdiv : n / 256 < 256 ^ k := by
        rw [Nat.div_lt_iff_lt_mul (by decide), ← Nat.pow_succ]
        exact h
      have hbyte : (UInt8.ofNat (n % 256)).toNat = n % 256 := by
        rw [UInt8.toNat_ofNat']
        exact Nat.mod_mod _ _
      rw [leBytes, leNat, leNat_leBytes hdiv, hbyte]
      exact Nat.mod_add_div n 256

end CCodes.Lib
