/-
CCodes.Fork.EndOfStream — which child sessions of `other/other/server.c`
end after their client went away.

At the end of the stream `Read` gives 0, and so does every later read. The
child does not test the result: it puts a NUL at the front of the buffer,
goes over the empty text as over any other, and reads again. So only its
two breaks end a session: a text that begins with "quit", and a text that
is taken for the id of a student and is not one. A text is taken for the id
while the request counter is 0, which is the first text, and, since the
counter has 32 bits, again after every 2^32 records.
-/
import CCodes.Fork.ChildTheorems

namespace CCodes.Fork

open CCodes.Lib

/-- What the texts of a session asked for: how many records, and whether a
"thank_you" came after the last of them. -/
structure Ledger where
  sent : Nat
  thanked : Bool
  deriving DecidableEq

namespace Ledger

/-- The text is taken for the id. -/
def TakesId (l : Ledger) : Prop := l.sent % 4294967296 = 0

instance (l : Ledger) : Decidable l.TakesId := inferInstanceAs (Decidable (_ = _))

/-- The text is answered with a record. -/
def Due (l : Ledger) (m : List UInt8) : Prop :=
  l.TakesId ∨ (l.thanked = true ∨ bytes "thank_you" <+: m) ∧ bytes "again" <+: m

instance (l : Ledger) (m : List UInt8) : Decidable (l.Due m) := inferInstanceAs (Decidable (_ ∨ _))

/-- One more text. -/
def text (l : Ledger) (m : List UInt8) : Ledger :=
  if l.Due m then ⟨l.sent + 1, false⟩
  else ⟨l.sent, l.thanked || decide (bytes "thank_you" <+: m)⟩

/-- The ledger after some texts. -/
def after (ms : List (List UInt8)) : Ledger := ms.foldl text ⟨0, false⟩

theorem after_snoc (ms : List (List UInt8)) (m : List UInt8) :
    after (ms ++ [m]) = (after ms).text m := by
  simp only [after, List.foldl_append, List.foldl_cons, List.foldl_nil]

/-- The two breaks. -/
def Breaks {StudentDetail : Type} (search : Int32 → Option StudentDetail) (l : Ledger)
    (m : List UInt8) : Prop :=
  bytes "quit" <+: m ∨ l.TakesId ∧ search (atoi m) = none

/-- After an empty text no text is taken for the id. -/
theorem not_takesId_text_nil (l : Ledger) : ¬ (l.text []).TakesId := by
  have hdue : l.Due [] ↔ l.TakesId := by
    rw [Due, or_iff_left_iff_imp]
    exact fun h => absurd h.2 (by decide)
  by_cases h : l.TakesId
  · rw [text, if_pos (hdue.mpr h)]
    simp only [TakesId] at h ⊢
    omega
  · rw [text, if_neg (mt hdue.mp h)]
    exact h

end Ledger

variable {StudentDetail : Type} {search : Int32 → Option StudentDetail} {junk : StudentDetail}
  {c : Child StudentDetail} {l : Ledger} {m : List UInt8} {ms : List (List UInt8)}
  {tr : List (List UInt8 × List StudentDetail)}

/-- The session on the texts of `ms` and then the end of the stream, read
again and again, comes to a break. -/
def Ends (search : Int32 → Option StudentDetail) (junk : StudentDetail)
    (ms : List (List UInt8)) : Prop :=
  ∃ k tr c, Exec (Child.step search) (fun _ _ => True) (Child.start junk) tr c ∧
    tr.map Prod.fst <+: ms ++ List.replicate k [] ∧ c.running = false

/-! ## §1 One text -/

/-- The variables of a child that goes on, and the ledger. -/
structure Books (l : Ledger) (c : Child StudentDetail) : Prop where
  running : c.running = true
  count : c.clientRequestCount = Int32.ofNat l.sent
  written : c.writeFlag ≠ 0
  thanked : c.thankYouFlag = 0 ↔ l.thanked = true

theorem ofNat_eq_zero_iff (n : Nat) : Int32.ofNat n = 0 ↔ n % 4294967296 = 0 := by
  rw [← Int32.toBitVec_inj, ← BitVec.toNat_inj]
  simp

theorem Books.count_eq_zero (hb : Books l c) : c.clientRequestCount = 0 ↔ l.TakesId := by
  rw [hb.count, ofNat_eq_zero_iff]
  rfl

theorem books_start (junk : StudentDetail) : Books (.after []) (Child.start junk) :=
  ⟨rfl, rfl, by simp [Child.start], by simp [Child.start, Ledger.after]⟩

theorem saysThankYou_iff (m : List UInt8) :
    strncmp m (bytes "thank_you") 9 = 0 ↔ bytes "thank_you" <+: m :=
  strncmp_eq_zero_iff m (by decide)

theorem saysAgain_iff (m : List UInt8) :
    strncmp m (bytes "again") 5 = 0 ↔ bytes "again" <+: m :=
  strncmp_eq_zero_iff m (by decide)

/-- What the three tests of the flags come to. -/
theorem Books.setFlags (hb : Books l c) (m : List UInt8) :
    (c.setFlags m).clientRequestCount = c.clientRequestCount ∧
      ((c.setFlags m).writeFlag = 0 ↔ l.Due m) ∧
      ((c.setFlags m).thankYouFlag = 0 ↔ l.thanked = true ∨ bytes "thank_you" <+: m) := by
  have hwritten := hb.written
  simp only [Child.setFlags, saysThankYou_iff, saysAgain_iff, Ledger.Due, ← hb.thanked,
    ← hb.count_eq_zero]
  by_cases h0 : c.clientRequestCount = 0 <;> by_cases ht : bytes "thank_you" <+: m <;>
    by_cases hl : c.thankYouFlag = 0 <;> by_cases ha : bytes "again" <+: m <;>
    simp [h0, ht, hl, ha, hwritten]

/-- A pass with the record at hand. -/
theorem Books.writeDetail (hb : Books l c) (m : List UInt8) :
    Books (l.text m) { (c.setFlags m).writeDetail.2 with running := true } := by
  obtain ⟨hcount, hwrite, hthanked⟩ := hb.setFlags m
  by_cases hdue : l.Due m
  · rw [Child.writeDetail, if_pos (hwrite.mpr hdue), Ledger.text, if_pos hdue]
    refine ⟨rfl, ?_, by simp, by simp⟩
    rw [hcount, hb.count]
    exact count_succ l.sent
  · rw [Child.writeDetail, if_neg (mt hwrite.mp hdue), Ledger.text, if_neg hdue]
    exact ⟨rfl, hcount.trans hb.count, mt hwrite.mp hdue, by simpa using hthanked⟩

/-- **Step lemma.** A child that goes on takes every text; it stops at a
break, and keeps its books otherwise. -/
theorem Books.step (hb : Books l c) (search : Int32 → Option StudentDetail) (m : List UInt8) :
    ∃ w c', Child.step search c m = some (w, c') ∧
      ((c'.running = false ∧ l.Breaks search m) ∨
        (Books (l.text m) c' ∧ ¬ l.Breaks search m)) := by
  cases hlook : c.lookUp search m with
  | none =>
    refine ⟨[], { c with running := false }, ?_, .inl ⟨rfl, .inr ?_⟩⟩
    · simp only [Child.step, hb.running, if_true, hlook]
    · rw [Child.lookUp] at hlook
      split at hlook
      next h0 => exact ⟨hb.count_eq_zero.mp h0, Option.map_eq_none_iff.mp hlook⟩
      next => cases hlook
  | some c₁ =>
    obtain ⟨hb₁, hfound⟩ : Books l c₁ ∧ ¬ (l.TakesId ∧ search (atoi m) = none) := by
      rw [Child.lookUp] at hlook
      split at hlook
      next h0 =>
        obtain ⟨st, hst, rfl⟩ := Option.map_eq_some_iff.mp hlook
        exact ⟨⟨hb.running, hb.count, hb.written, hb.thanked⟩, fun h => by simp [hst] at h⟩
      next h0 =>
        cases hlook
        exact ⟨hb, fun h => h0 (hb.count_eq_zero.mpr h.1)⟩
    have hstep : Child.step search c m = some ((c₁.setFlags m).writeDetail.1,
        { (c₁.setFlags m).writeDetail.2 with running := strncmp m (bytes "quit") 4 ≠ 0 }) := by
      simp only [Child.step, hb.running, if_true, hlook]
    refine ⟨_, _, hstep, ?_⟩
    by_cases hquit : bytes "quit" <+: m
    · exact .inl ⟨by simpa using mt (running_iff m).mp (not_not_intro hquit), .inl hquit⟩
    · rw [(running_iff m).mpr hquit]
      exact .inr ⟨hb₁.writeDetail m, fun h => h.elim hquit hfound⟩

/-! ## §2 Whole sessions -/

/-- **Run lemma.** A child that stopped did so at a break; one that goes on
has kept its books. -/
theorem books_run (h : Exec (Child.step search) (fun _ _ => True) (Child.start junk) tr c) :
    Books (.after (tr.map Prod.fst)) c ∨
      (c.running = false ∧ ∃ pre m, tr.map Prod.fst = pre ++ [m] ∧
        (Ledger.after pre).Breaks search m) := by
  induction h with
  | nil => exact .inl (books_start junk)
  | @snoc tr c c' m w _ _ hstep ih =>
    rw [List.map_append, List.map_cons, List.map_nil]
    rcases ih with hb | ⟨hstop, -⟩
    · obtain ⟨w', c'', hstep', hcase⟩ := hb.step search m
      rw [hstep, Option.some.injEq, Prod.mk.injEq] at hstep'
      obtain ⟨rfl, rfl⟩ := hstep'
      rcases hcase with ⟨hstop, hbreak⟩ | ⟨hb', -⟩
      · exact .inr ⟨hstop, _, m, rfl, hbreak⟩
      · exact .inl (by rwa [Ledger.after_snoc])
    · simp [Child.step, hstop] at hstep

/-- The child takes text after text until it stops. -/
theorem exec_until_stop (search : Int32 → Option StudentDetail) (junk : StudentDetail)
    (ms : List (List UInt8)) :
    ∃ tr c, Exec (Child.step search) (fun _ _ => True) (Child.start junk) tr c ∧
      ((tr.map Prod.fst = ms ∧ Books (.after ms) c) ∨
        (tr.map Prod.fst <+: ms ∧ c.running = false)) := by
  induction ms using List.reverseRecOn with
  | nil => exact ⟨[], _, .nil, .inl ⟨rfl, books_start junk⟩⟩
  | append_singleton ms m ih =>
    obtain ⟨tr, c, hrun, ⟨hin, hb⟩ | ⟨hpre, hstop⟩⟩ := ih
    · obtain ⟨w, c', hstep, hcase⟩ := hb.step search m
      have hin' : (tr ++ [(m, w)]).map Prod.fst = ms ++ [m] := by
        rw [List.map_append, hin]
        rfl
      refine ⟨_, c', hrun.snoc trivial hstep, ?_⟩
      rcases hcase with ⟨hstop, -⟩ | ⟨hb', -⟩
      · exact .inr ⟨hin' ▸ List.prefix_rfl, hstop⟩
      · exact .inl ⟨hin', by rwa [Ledger.after_snoc]⟩
    · exact ⟨tr, c, hrun, .inr ⟨hpre.trans (List.prefix_append _ _), hstop⟩⟩

/-- At the end of the stream no text is taken for the id, but perhaps the
first. -/
theorem not_takesId_at_end (ms : List (List UInt8)) (k : Nat) :
    ¬ (Ledger.after (ms ++ List.replicate (k + 1) [])).TakesId := by
  rw [List.replicate_succ', ← List.append_assoc, Ledger.after_snoc]
  exact Ledger.not_takesId_text_nil _

/-- So a break comes with the first end of stream, or before. -/
theorem break_by_end {pre : List (List UInt8)} {k : Nat}
    (hpre : pre ++ [m] <+: ms ++ List.replicate k [])
    (hbreak : (Ledger.after pre).Breaks search m) :
    pre ++ [m] <+: ms ++ [[]] := by
  by_cases hlen : pre.length ≤ ms.length
  · refine List.prefix_of_prefix_length_le
      (hpre.trans (List.prefix_append _ [[]])) ?_ (by simpa using hlen)
    rw [List.append_assoc, ← List.replicate_succ', List.replicate_succ]
    exact (List.prefix_append_right_inj ms).mpr ⟨List.replicate k [], rfl⟩
  · exfalso
    obtain ⟨ends, rfl⟩ : ms <+: pre := by
      refine List.prefix_of_prefix_length_le (List.prefix_append _ _)
        ((List.prefix_append _ _).trans hpre) (Nat.le_of_not_le hlen)
    rw [List.append_assoc, List.prefix_append_right_inj, List.prefix_replicate_iff] at hpre
    obtain ⟨rfl, hm⟩ : m = [] ∧ ends = List.replicate ends.length [] := by
      have hall := List.eq_replicate_iff.mp hpre.2
      have hends := fun x (hx : x ∈ ends) => hall.2 x (by simp [hx])
      exact ⟨hall.2 m (by simp), List.eq_replicate_iff.mpr ⟨rfl, hends⟩⟩
    rcases hbreak with hquit | ⟨htakes, -⟩
    · exact absurd hquit (by decide)
    · have hpos : 0 < ends.length := by
        rw [List.length_append] at hlen
        omega
      rw [hm, ← Nat.succ_pred_eq_of_pos hpos] at htakes
      exact not_takesId_at_end _ _ htakes

/-- A session that ends has a break. -/
theorem break_of_ends (h : Ends search junk ms) :
    ∃ pre m, pre ++ [m] <+: ms ++ [[]] ∧ (Ledger.after pre).Breaks search m := by
  obtain ⟨k, tr, c, hrun, hpre, hstop⟩ := h
  rcases books_run hrun with hb | ⟨-, pre, m, hin, hbreak⟩
  · rw [hb.running] at hstop
    cases hstop
  · exact ⟨pre, m, break_by_end (hin ▸ hpre) hbreak, hbreak⟩

/-- **When a child session ends.** It ends if and only if one of its texts
begins with "quit", or one that is taken for the id, be it the empty text at
the end of the stream, is not the id of a student. -/
theorem ends_iff (search : Int32 → Option StudentDetail) (junk : StudentDetail)
    (ms : List (List UInt8)) :
    Ends search junk ms ↔
      ∃ pre m, pre ++ [m] <+: ms ++ [[]] ∧ (Ledger.after pre).Breaks search m := by
  constructor
  · exact break_of_ends
  · rintro ⟨pre, m, hpre, hbreak⟩
    obtain ⟨tr, c, hrun, ⟨hin, hb⟩ | ⟨hin, hstop⟩⟩ := exec_until_stop search junk pre
    · obtain ⟨w, c', hstep, ⟨hstop, -⟩ | ⟨-, hgo⟩⟩ := hb.step search m
      · refine ⟨1, _, c', hrun.snoc trivial hstep, ?_, hstop⟩
        rw [List.map_append, hin]
        exact hpre
      · exact absurd hbreak hgo
    · exact ⟨1, tr, c, hrun, (hin.trans (List.prefix_append _ _)).trans hpre, hstop⟩

/-- A store with one student, of id 1. -/
def onlyOne (id : Int32) : Option Unit := if id = 1 then some () else none

/-- The student gets the record and goes away; the child never ends. -/
theorem reads_forever : ¬ Ends onlyOne () [bytes "1"] := by
  intro h
  obtain ⟨pre, m, hpre, hbreak⟩ := break_of_ends h
  cases pre with
  | nil =>
    obtain rfl : m = bytes "1" := (List.cons_prefix_cons.mp hpre).1
    rcases hbreak with hquit | ⟨-, hsearch⟩
    · exact absurd hquit (by decide)
    · exact absurd hsearch (by decide)
  | cons first rest =>
    obtain ⟨rfl, hrest⟩ := List.cons_prefix_cons.mp hpre
    obtain ⟨rfl, rfl⟩ : rest = [] ∧ m = [] := by
      cases rest with
      | nil => exact ⟨rfl, (List.cons_prefix_cons.mp hrest).1⟩
      | cons => simp at hrest
    rcases hbreak with hquit | ⟨htakes, -⟩
    · exact absurd hquit (by decide)
    · exact absurd htakes (by decide)

end CCodes.Fork
