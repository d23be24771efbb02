/-
CCodes.Unix.ForkPipe — the sum in two processes, `other/unix/fork_pipe.c`.

    int sum;
    for (int i = start; i < end; i++) sum += array[i];
    printf("partial sum is : %d\n", sum);
    if (pid == 0) { close; write(fd[PIPE_WRITE], &sum, ...); close; }
    else { int recv; close; read(fd[PIPE_READ], &recv, ...); close;
           printf("the full sum is: %d\n", recv + sum); }
    wait(NULL);

`sum` is never set to 0, so each process adds to what it finds there (`junkParent`,
`junkChild`); `recv` is read into, and keeps what it holds (`junkRecv`) when the child
went away without writing. The processes run in any order, one call at a time. A read
from the empty pipe waits as long as the child has its end open; the parent, which is
the only other process, has closed its own by then. `pipe` and `fork` succeed.
-/
import Mathlib.Data.List.Perm.Basic
import CCodes.Lib.Weights

namespace CCodes.Unix

open CCodes.Lib

/-- Where the parent is: before its loop, before line 63, 64, 68, 69 or 72, or gone. -/
inductive ParentPc where
  | sum
  | closeWrite
  | read
  | closeRead
  | print
  | wait
  | gone
  deriving DecidableEq

/-- Where the child is: before its loop, before line 53, 54, 58 or 72, or gone; then
the status says whether it was killed. -/
inductive ChildPc where
  | sum
  | closeRead
  | write
  | closeWrite
  | wait
  | gone (killed : Bool)
  deriving DecidableEq

/-- A line that is printed. -/
inductive Line where
  | partialSum (sum : Int32)
  | fullSum (sum : Int32)
  deriving DecidableEq

/-- Both processes, the numbers in the pipe, and what was printed. -/
structure Forked where
  parent : ParentPc
  parentSum : Int32
  recv : Int32
  child : ChildPc
  childSum : Int32
  pipe : List Int32
  out : List Line

/-- The next call of a process, or the child is killed. -/
inductive Event where
  | parent
  | child
  | kill
  deriving DecidableEq

/-- `for (...) sum += array[i];`, over the numbers from `start` to `end`. -/
def addUp (sum : Int32) (xs : List Int32) : Int32 := xs.foldl (· + ·) sum

/-- The parent has not read yet. -/
def ParentPc.unread : ParentPc → Bool
  | .sum | .closeWrite | .read => true
  | _ => false

/-- The parent has printed the full sum. -/
def ParentPc.printed : ParentPc → Bool
  | .wait | .gone => true
  | _ => false

/-- The child has not written, and may. -/
def ChildPc.unsent : ChildPc → Bool
  | .sum | .closeRead | .write => true
  | _ => false

/-- The child has written, and was not killed. -/
def ChildPc.sent : ChildPc → Bool
  | .closeWrite | .wait | .gone false => true
  | _ => false

/-- The child has its writing end open. -/
def ChildPc.writes : ChildPc → Bool
  | .sum | .closeRead | .write | .closeWrite => true
  | .wait | .gone _ => false

namespace Forked

/-- Behind `fork`. -/
def start (junkParent junkChild junkRecv : Int32) : Forked :=
  { parent := .sum, parentSum := junkParent, recv := junkRecv, child := .sum,
    childSum := junkChild, pipe := [], out := [] }

def parentStep (array : List Int32) (s : Forked) : Option Forked :=
  match s.parent with
  | .sum =>
      let sum := addUp s.parentSum (array.drop (array.length / 2))
      some { s with parent := .closeWrite, parentSum := sum, out := s.out ++ [.partialSum sum] }
  | .closeWrite => some { s with parent := .read }
  | .read =>
      match s.pipe with
      | v :: pipe => some { s with parent := .closeRead, recv := v, pipe }
      | [] => if s.child.writes then none else some { s with parent := .closeRead }
  | .closeRead => some { s with parent := .print }
  | .print => some { s with parent := .wait, out := s.out ++ [.fullSum (s.recv + s.parentSum)] }
  | .wait =>
      match s.child with
      | .gone _ => some { s with parent := .gone }
      | _ => none
  | .gone => none

def childStep (array : List Int32) (s : Forked) : Option Forked :=
  match s.child with
  | .sum =>
      let sum := addUp s.childSum (array.take (array.length / 2))
      some { s with child := .closeRead, childSum := sum, out := s.out ++ [.partialSum sum] }
  | .closeRead => some { s with child := .write }
  | .write =>
      -- without a reader the child gets a signal
      match s.parent with
      | .print | .wait | .gone => some { s with child := .gone true }
      | _ => some { s with child := .closeWrite, pipe := s.pipe ++ [s.childSum] }
  | .closeWrite => some { s with child := .wait }
  | .wait => some { s with child := .gone false }
  | .gone _ => none

/-- One call of one process. -/
def step (array : List Int32) : Machine Forked Event Unit := fun s e =>
  match e with
  | .parent => (s.parentStep array).map fun t => ((), t)
  | .child => (s.childStep array).map fun t => ((), t)
  | .kill =>
      match s.child with
      | .gone _ => none
      | _ => some ((), { s with child := .gone true })

end Forked

/-! ## §1 Sums -/

theorem addUp_eq (sum : Int32) (xs : List Int32) : addUp sum xs = sum + addUp 0 xs := by
  induction xs generalizing sum with
  | nil => exact (Int32.add_zero sum).symm
  | cons x xs ih =>
    show addUp (sum + x) xs = sum + addUp (0 + x) xs
    rw [ih, ih (0 + x), Int32.zero_add, Int32.add_assoc]

theorem addUp_append (sum : Int32) (xs ys : List Int32) :
    addUp sum (xs ++ ys) = addUp (addUp sum xs) ys := List.foldl_append ..

/-- The two halves make the whole, and the two junk values. -/
theorem addUp_halves (junkParent junkChild : Int32) (array : List Int32) :
    addUp junkChild (array.take (array.length / 2)) +
        addUp junkParent (array.drop (array.length / 2)) =
      junkParent + junkChild + addUp 0 array := by
  have hwhole := addUp_append 0 (array.take (array.length / 2)) (array.drop (array.length / 2))
  rw [List.take_append_drop, addUp_eq (addUp 0 _)] at hwhole
  rw [addUp_eq junkChild, addUp_eq junkParent, hwhole]
  grind

namespace Forked

/-! ## §2 The invariant -/

/-- The sums of the two halves, each with the junk that it was added to. -/
def parentPart (array : List Int32) (junkParent : Int32) : Int32 :=
  addUp junkParent (array.drop (array.length / 2))

def childPart (array : List Int32) (junkChild : Int32) : Int32 :=
  addUp junkChild (array.take (array.length / 2))

/-- `P` and `C` are the two parts. Both partial sums are printed before the full
one: the child prints before it writes. -/
structure Inv (P C junkParent junkChild junkRecv : Int32) (s : Forked) : Prop where
  parentSum : s.parentSum = if s.parent = .sum then junkParent else P
  childSum : s.child.unsent → s.childSum = if s.child = .sum then junkChild else C
  unsent : s.child.unsent → s.pipe = [] ∧ s.parent.unread
  unread : s.parent.unread → s.recv = junkRecv ∧ (s.pipe = [C] ∨ s.pipe = [] ∧ ¬ s.child.sent)
  read : ¬ s.parent.unread → s.recv = C ∨ s.recv = junkRecv ∧ s.child = .gone true
  shown : ∃ (ps : List Line) (b : Bool),
    s.out = ps ++ (if s.parent.printed then [.fullSum (s.recv + s.parentSum)] else []) ∧
    ps.Perm ((if s.parent = .sum then [] else [.partialSum P]) ++
      if b then [.partialSum C] else []) ∧
    (s.child = .sum → b = false) ∧ (s.child = .closeRead ∨ s.child = .write ∨ s.child.sent → b)

variable {array : List Int32} {P C junkParent junkChild junkRecv : Int32} {s t : Forked}

theorem Inv.start (P C junkParent junkChild junkRecv : Int32) :
    (start junkParent junkChild junkRecv).Inv P C junkParent junkChild junkRecv where
  parentSum := rfl
  childSum _ := rfl
  unsent _ := ⟨rfl, rfl⟩
  unread _ := ⟨rfl, .inr ⟨rfl, Bool.false_ne_true⟩⟩
  read h := absurd rfl h
  shown := ⟨[], false, rfl, .nil, fun _ => rfl,
    fun hc => by simp [Forked.start, ChildPc.sent] at hc⟩

/-- **Step lemma**, for the parent. -/
theorem Inv.parent (h : s.Inv (parentPart array junkParent) C junkParent junkChild junkRecv)
    (hstep : s.parentStep array = some t) :
    t.Inv (parentPart array junkParent) C junkParent junkChild junkRecv := by
  obtain ⟨parent, parentSum, recv, child, childSum, pipe, out⟩ := s
  obtain ⟨hparent, hchild, hunsent, hunread, hread, ps, b, hout, hps, hb⟩ := h
  cases parent with
  | sum =>
    cases hstep
    obtain rfl : parentSum = junkParent := hparent
    obtain rfl : out = ps := hout.trans (List.append_nil ps)
    refine ⟨rfl, hchild, hunsent, hunread, nofun, _, b, (List.append_nil _).symm, ?_, hb⟩
    exact List.perm_append_comm.trans (hps.cons _)
  | closeWrite =>
    cases hstep
    exact ⟨hparent, hchild, hunsent, hunread, nofun, ps, b, hout, hps, hb⟩
  | read =>
    obtain ⟨hrecv, hpipe⟩ := hunread rfl
    dsimp only at hrecv hpipe
    rcases hpipe with rfl | ⟨rfl, hnotSent⟩
    · -- the child's part is there
      cases hstep
      refine ⟨hparent, hchild, fun hu => ?_, nofun, fun _ => .inl rfl, ps, b, hout, hps, hb⟩
      cases (hunsent hu).1
    · -- nothing will come
      rw [parentStep] at hstep
      dsimp only at hstep
      split at hstep
      · cases hstep
      next hw =>
        cases hstep
        have hgone : child = .gone true := by
          cases child with
          | gone killed =>
            cases killed with
            | true => rfl
            | false => exact absurd rfl hnotSent
          | wait => exact absurd rfl hnotSent
          | _ => exact absurd rfl hw
        subst hgone
        exact ⟨hparent, nofun, nofun, nofun, fun _ => .inr ⟨hrecv, rfl⟩, ps, b, hout, hps, hb⟩
  | closeRead =>
    cases hstep
    refine ⟨hparent, hchild, fun hu => ?_, nofun, hread, ps, b, hout, hps, hb⟩
    cases (hunsent hu).2
  | print =>
    cases hstep
    obtain rfl : out = ps := hout.trans (List.append_nil ps)
    refine ⟨hparent, hchild, fun hu => ?_, nofun, hread, _, b, rfl, hps, hb⟩
    cases (hunsent hu).2
  | wait =>
    cases child with
    | gone killed =>
      cases hstep
      exact ⟨hparent, nofun, nofun, nofun, hread, ps, b, hout, hps, hb⟩
    | _ => cases hstep
  | gone => cases hstep

/-- **Step lemma**, for the child. -/
theorem Inv.child (h : s.Inv P (childPart array junkChild) junkParent junkChild junkRecv)
    (hstep : s.childStep array = some t) :
    t.Inv P (childPart array junkChild) junkParent junkChild junkRecv := by
  obtain ⟨parent, parentSum, recv, child, childSum, pipe, out⟩ := s
  obtain ⟨hparent, hchild, hunsent, hunread, hread, ps, b, hout, hps, hb⟩ := h
  cases child with
  | sum =>
    cases hstep
    obtain rfl : childSum = junkChild := hchild rfl
    obtain ⟨rfl, hnotRead⟩ := hunsent rfl
    obtain rfl : b = false := hb.1 rfl
    have hnotPrinted : parent.printed = false := by
      cases parent <;> first | rfl | cases hnotRead
    dsimp only at hout
    rw [hnotPrinted] at hout
    obtain rfl : out = ps := hout.trans (List.append_nil ps)
    refine ⟨hparent, fun _ => rfl, fun _ => ⟨rfl, hnotRead⟩, hunread, fun hr => absurd hnotRead hr,
      out ++ [.partialSum (childPart array childSum)], true, ?_, ?_, nofun, fun _ => rfl⟩
    · dsimp only
      rw [hnotPrinted]
      exact (List.append_nil _).symm
    · simpa using hps.append_right [Line.partialSum (childPart array childSum)]
  | closeRead =>
    cases hstep
    exact ⟨hparent, fun _ => hchild rfl, fun _ => hunsent rfl, hunread,
      fun hr => absurd (hunsent rfl).2 hr, ps, b, hout, hps, nofun, fun _ => hb.2 (.inl rfl)⟩
  | write =>
    obtain ⟨rfl, hnotRead⟩ := hunsent rfl
    obtain rfl : childSum = childPart array junkChild := hchild rfl
    have hsent : t = ⟨parent, parentSum, recv, .closeWrite, childPart array junkChild,
        [childPart array junkChild], out⟩ := by
      cases parent <;> first | (cases hstep; rfl) | cases hnotRead
    subst hsent
    exact ⟨hparent, nofun, nofun, fun hu => ⟨(hunread hu).1, .inl rfl⟩,
      fun hr => absurd hnotRead hr, ps, b, hout, hps, nofun, fun _ => hb.2 (.inr (.inl rfl))⟩
  | closeWrite =>
    cases hstep
    refine ⟨hparent, nofun, nofun, fun hu => ⟨(hunread hu).1, ?_⟩, fun hr => ?_, ps, b, hout, hps,
      nofun, fun _ => hb.2 (.inr (.inr rfl))⟩
    · exact .inl ((hunread hu).2.resolve_right fun hn => hn.2 rfl)
    · exact .inl ((hread hr).resolve_right nofun)
  | wait =>
    cases hstep
    refine ⟨hparent, nofun, nofun, fun hu => ⟨(hunread hu).1, ?_⟩, fun hr => ?_, ps, b, hout, hps,
      nofun, fun _ => hb.2 (.inr (.inr rfl))⟩
    · exact .inl ((hunread hu).2.resolve_right fun hn => hn.2 rfl)
    · exact .inl ((hread hr).resolve_right nofun)
  | gone killed => cases hstep

theorem Inv.step {e : Event} {o : Unit}
    (h : s.Inv (parentPart array junkParent) (childPart array junkChild) junkParent junkChild
      junkRecv) (hstep : step array s e = some (o, t)) :
    t.Inv (parentPart array junkParent) (childPart array junkChild) junkParent junkChild
      junkRecv := by
  cases e with
  | parent =>
    obtain ⟨_, hp, ⟨⟩⟩ := Option.map_eq_some_iff.mp hstep
    exact h.parent hp
  | child =>
    obtain ⟨_, hc, ⟨⟩⟩ := Option.map_eq_some_iff.mp hstep
    exact h.child hc
  | kill =>
    obtain ⟨ps, b, hout, hps, -⟩ := h.shown
    have hkilled : t = { s with child := .gone true } ∧ ∀ killed, s.child ≠ .gone killed := by
      unfold Forked.step at hstep
      dsimp only at hstep
      split at hstep
      · cases hstep
      next hc =>
        cases hstep
        exact ⟨rfl, hc⟩
    obtain ⟨rfl, halive⟩ := hkilled
    refine ⟨h.parentSum, nofun, nofun, fun hu => ⟨(h.unread hu).1, ?_⟩, fun hr => ?_, ps, b, hout,
      hps, nofun, fun hc => ?_⟩
    · exact (h.unread hu).2.imp_right fun hn => ⟨hn.1, Bool.false_ne_true⟩
    · exact .inl ((h.read hr).resolve_right fun hn => halive true hn.2)
    · simp [ChildPc.sent] at hc

/-! ## §3 The end -/

/-- How many calls are before a process. -/
def parentLeft : ParentPc → Nat
  | .sum => 6
  | .closeWrite => 5
  | .read => 4
  | .closeRead => 3
  | .print => 2
  | .wait => 1
  | .gone => 0

def childLeft : ChildPc → Nat
  | .sum => 5
  | .closeRead => 4
  | .write => 3
  | .closeWrite => 2
  | .wait => 1
  | .gone _ => 0

theorem parentStep_left (hstep : s.parentStep array = some t) :
    parentLeft t.parent < parentLeft s.parent ∧ t.child = s.child := by
  have hone : parentLeft s.parent = parentLeft t.parent + 1 ∧ t.child = s.child := by
    obtain ⟨parent, parentSum, recv, child, childSum, pipe, out⟩ := s
    cases parent with
    | read =>
      cases pipe with
      | cons v pipe =>
        cases hstep
        exact ⟨rfl, rfl⟩
      | nil =>
        rw [parentStep] at hstep
        dsimp only at hstep
        split at hstep
        · cases hstep
        · cases hstep
          exact ⟨rfl, rfl⟩
    | wait =>
      cases child with
      | gone killed =>
        cases hstep
        exact ⟨rfl, rfl⟩
      | _ => cases hstep
    | gone => cases hstep
    | _ =>
      cases hstep
      exact ⟨rfl, rfl⟩
  exact ⟨by omega, hone.2⟩

theorem childStep_left (hstep : s.childStep array = some t) :
    childLeft t.child < childLeft s.child ∧ t.parent = s.parent := by
  obtain ⟨parent, parentSum, recv, child, childSum, pipe, out⟩ := s
  cases child with
  | gone killed => cases hstep
  | write =>
    -- killed without a reader, or one call on
    cases parent
    all_goals
      cases hstep
      exact ⟨by simp [childLeft], rfl⟩
  | _ =>
    cases hstep
    exact ⟨by simp [childLeft], rfl⟩

theorem lightens (array : List Int32) :
    Lightens (Forked.step array) (fun _ _ => True) (fun _ => True)
      fun s => parentLeft s.parent + childLeft s.child := by
  intro s e o t _ _ hstep
  refine ⟨trivial, ?_⟩
  cases e with
  | parent =>
    obtain ⟨_, hp, ⟨⟩⟩ := Option.map_eq_some_iff.mp hstep
    obtain ⟨hlt, hchild⟩ := parentStep_left hp
    simp only [hchild]
    omega
  | child =>
    obtain ⟨_, hc, ⟨⟩⟩ := Option.map_eq_some_iff.mp hstep
    obtain ⟨hlt, hparent⟩ := childStep_left hc
    simp only [hparent]
    omega
  | kill =>
    obtain ⟨parent, parentSum, recv, child, childSum, pipe, out⟩ := s
    cases child with
    | gone killed => cases hstep
    | _ =>
      cases hstep
      simp [childLeft]

/-- The processes only stop when both are gone. -/
theorem stuck_iff : (s.parentStep array = none ∧ s.childStep array = none) ↔
    s.parent = .gone ∧ ∃ killed, s.child = .gone killed := by
  obtain ⟨parent, parentSum, recv, child, childSum, pipe, out⟩ := s
  constructor
  · rintro ⟨hp, hc⟩
    have hgone : ∃ killed, child = .gone killed := by
      cases child with
      | gone killed => exact ⟨killed, rfl⟩
      | write => cases parent <;> cases hc
      | _ => cases hc
    obtain ⟨killed, rfl⟩ := hgone
    refine ⟨?_, killed, rfl⟩
    cases parent with
    | gone => rfl
    | read => cases pipe <;> cases hp
    | _ => cases hp
  · rintro ⟨hp, killed, hc⟩
    dsimp only at hp hc
    subst hp hc
    exact ⟨rfl, rfl⟩

end Forked

open Forked

/-- **The full sum.** For any numbers, and whatever was in the variables: in every
order the two processes make at most 11 calls, and stop only when both are gone. A
full sum that is printed is the sum and the junk of both processes, or the child was
killed. When it was not, both partial sums are printed in some order and then the full
sum, which is right if and only if the junk of both adds up to 0. -/
theorem full_sum (array : List Int32) (junkParent junkChild junkRecv : Int32)
    (tr : List (Event × Unit)) (s : Forked)
    (h : Exec (step array) (fun _ _ => True) (start junkParent junkChild junkRecv) tr s) :
    tr.length ≤ 11 ∧
    ((s.parentStep array = none ∧ s.childStep array = none) ↔
      s.parent = .gone ∧ ∃ killed, s.child = .gone killed) ∧
    (∀ v, .fullSum v ∈ s.out → v = junkParent + junkChild + addUp 0 array ∨
      s.child = .gone true ∧ v = junkRecv + parentPart array junkParent) ∧
    (s.parent = .gone → s.child = .gone false →
      (∃ ps, s.out = ps ++ [.fullSum (junkParent + junkChild + addUp 0 array)] ∧
        ps.Perm [.partialSum (parentPart array junkParent),
          .partialSum (childPart array junkChild)]) ∧
      (.fullSum (addUp 0 array) ∈ s.out ↔ junkParent + junkChild = 0)) := by
  have hinv : s.Inv (parentPart array junkParent) (childPart array junkChild) junkParent junkChild
      junkRecv := h.invariant _ (.start ..) fun _ _ _ _ hs _ hstep => hs.step hstep
  obtain ⟨ps, b, hout, hps, -, hb⟩ := hinv.shown
  have hhalves : childPart array junkChild + parentPart array junkParent =
      junkParent + junkChild + addUp 0 array := addUp_halves junkParent junkChild array
  have hparts : ∀ v, .fullSum v ∉ ps := by
    intro v hv
    rw [hps.mem_iff, List.mem_append] at hv
    rcases hv with hv | hv
    · split at hv <;> simp at hv
    · split at hv <;> simp at hv
  refine ⟨?_, stuck_iff, fun v hv => ?_, fun hp hc => ?_⟩
  · obtain ⟨-, hle⟩ := (lightens array).length_le trivial h
    have hstart : parentLeft (start junkParent junkChild junkRecv).parent +
      childLeft (start junkParent junkChild junkRecv).child = 11 := rfl
    omega
  · rw [hout, List.mem_append, or_iff_right (hparts v)] at hv
    split at hv
    next hprinted =>
      have hread : ¬ s.parent.unread ∧ s.parent ≠ .sum := by
        generalize s.parent = parent at hprinted
        cases parent <;> first | exact ⟨Bool.false_ne_true, nofun⟩ | cases hprinted
      have hsum := hinv.parentSum
      rw [if_neg hread.2] at hsum
      obtain rfl : v = s.recv + s.parentSum := by simpa using hv
      rw [hsum]
      refine (hinv.read hread.1).imp (fun hrecv => ?_) fun ⟨hrecv, hkilled⟩ => ?_
      · rw [hrecv, hhalves]
      · exact ⟨hkilled, by rw [hrecv]⟩
    · cases hv
  · have hsum := hinv.parentSum
    rw [hp, if_neg nofun] at hsum
    have hrecv : s.recv = childPart array junkChild :=
      (hinv.read (by rw [hp]; exact Bool.false_ne_true)).resolve_right fun hr => by
        rw [hc] at hr
        cases hr.2
    obtain rfl : b = true := hb (.inr (.inr (by rw [hc]; rfl)))
    rw [hp, hrecv, hsum, hhalves, ParentPc.printed, if_pos rfl] at hout
    rw [hp, if_neg nofun, if_pos rfl] at hps
    refine ⟨⟨ps, hout, hps⟩, ?_⟩
    rw [hout, List.mem_append, or_iff_right (hparts _), List.mem_singleton, Line.fullSum.injEq]
    constructor
    · intro heq
      have h0 : 0 + addUp 0 array = junkParent + junkChild + addUp 0 array := by
        rwa [Int32.zero_add]
      exact ((Int32.add_left_inj _).mp h0).symm
    · intro h0
      rw [h0, Int32.zero_add]

/-- Line 15. -/
def array : List Int32 := [1, 2, 6, 7, 1, 2, 3, 6, 7, 1]

/-- The parent prints its part first, and waits for the child's. -/
def parentFirst : List Event :=
  [.parent, .parent, .child, .child, .child, .parent, .child, .parent, .parent, .child, .parent]

/-- Both processes find a 5 in `sum`. -/
theorem full_sum_junk : ∃ tr s, Exec (step array) (fun _ _ => True) (start 5 5 0) tr s ∧
    tr.map Prod.fst = parentFirst ∧
      s.out = [.partialSum 24, .partialSum 22, .fullSum 46] ∧
      .fullSum (addUp 0 array) ∉ s.out := by
  obtain ⟨tr, s, h, hin, hp, hc, hout⟩ := exec_such_that (step array) (fun _ _ => True)
    (start 5 5 0) parentFirst (fun p => p.2.parent = .gone ∧ p.2.child = .gone false ∧
      p.2.out = [.partialSum 24, .partialSum 22, .fullSum 46]) (by decide +kernel)
  obtain ⟨-, -, -, hend⟩ := full_sum array 5 5 0 tr s h
  obtain ⟨-, hright⟩ := hend hp hc
  exact ⟨tr, s, h, hin, hout, fun hmem => absurd (hright.mp hmem) (by decide)⟩

end CCodes.Unix
