/-
CCodes.Dsa.Printing — what `queue_ll.c` and `stack_ll.c` print.

Both show their elements with the same loop (`printFrom`), and both `main`s empty
what they filled: they take a value out, print it, and show what is left
(`emptied`). The loop reads live blocks only and changes nothing, so what is shown
is what is there, and by `line_injective` all of it.
-/
import CCodes.Lib.Decimal
import CCodes.Dsa.QueueLlTheorems

namespace CCodes

open CCodes.Lib Queues Block

namespace Queues

variable {h : Heap Block} {p : Addr} {ns : List Addr} {l l' : List Int32}

/-- `for (e = ...; e != 0; e = e->next) printf("%d ", e->value);` and the newline
behind it, with a bound on the tests of the loop. -/
def printFrom : Nat → Addr → Prog Block (List Char)
  | 0, _ => fun _ => none
  | fuel + 1, e =>
      if e = 0 then pure ['\n']
      else do
        let v ← load valueOf e
        let next ← load nextOf e
        let rest ← printFrom fuel next
        pure (decimal v.toInt ++ ' ' :: rest)

/-- The line that shows the values. -/
def shown (l : List Int32) : List Char := line (l.map Int32.toInt)

/-- What is printed while all is taken out: each value behind `word`, and then what
is left. -/
def emptied (word : List Char) : List Int32 → List Char
  | [] => []
  | v :: l => word ++ decimal v.toInt ++ '\n' :: (shown l ++ emptied word l)

theorem shown_inj : shown l = shown l' ↔ l = l' :=
  ⟨fun h => List.map_injective_iff.mpr (fun _ _ => Int32.toInt_inj.mp) (line_injective h),
    congrArg shown⟩

/-- The loop on a chain that ends with NULL. -/
theorem printFrom_eq (hseg : Seg (nextOf.peek h) p ns 0)
    (hvals : ns.map (valueOf.peek h) = l.map some) (h0 : 0 ∉ ns) (fuel : Nat) :
    printFrom fuel p h = if l.length < fuel then some (shown l, h) else none := by
  induction fuel generalizing p ns l with
  | zero => rfl
  | succ fuel ih =>
    cases ns with
    | nil =>
      obtain rfl := seg_nil.mp hseg
      obtain rfl : l = [] := by simpa using hvals.symm
      rw [printFrom, if_pos rfl, pure_run, if_pos (by simp)]
      rfl
    | cons a ns =>
      obtain ⟨rfl, n, hn, hseg⟩ := hseg
      obtain ⟨hp0, h0⟩ := List.ne_and_not_mem_of_not_mem_cons h0
      cases l with
      | nil => simp at hvals
      | cons v l =>
        rw [List.map_cons, List.map_cons, List.cons.injEq] at hvals
        have hrest := ih hseg hvals.2 h0
        rw [printFrom, if_neg (Ne.symm hp0), bind_run (load_run hvals.1), bind_run (load_run hn)]
        by_cases hlen : l.length < fuel
        · rw [if_pos hlen] at hrest
          rw [bind_run hrest, pure_run, if_pos (by simpa using hlen)]
          rfl
        · rw [if_neg hlen] at hrest
          rw [bind_fault hrest, if_neg (by simpa using hlen)]

end Queues

namespace QueueLl

variable {h h₀ : Heap Block} {q : Addr} {ns : List Addr} {l : List Int32}

/-- `queuePrint`. -/
def queuePrint (fuel : Nat) (q : Addr) : Prog Block (List Char) := do
  printFrom fuel (← load head q)

/-- The second loop of `main`: what it prints. Each loop has what is left of the
bound. -/
def deqAll : Nat → Addr → Prog Block (List Char)
  | 0, _ => fun _ => none
  | fuel + 1, q => do
      if ← queueEmpty q then pure []
      else
        let v ← deq q
        let left ← queuePrint fuel q
        let rest ← deqAll fuel q
        pure ("deq ".toList ++ decimal v.toInt ++ '\n' :: (left ++ rest))

namespace Queue

theorem print (r : Queue h₀ q ns l h) (fuel : Nat) :
    queuePrint fuel q h = if l.length < fuel then some (shown l, h) else none := by
  obtain ⟨p, hp, hseg⟩ := r.chain
  rw [queuePrint, bind_run (load_run hp)]
  exact printFrom_eq hseg r.values r.zero_not_mem fuel

/-- The loop of `main` takes the values out in order and frees their blocks. -/
theorem deqAll (r : Queue h₀ q ns l h) :
    ∃ h', (∀ fuel, l.length < fuel →
        QueueLl.deqAll fuel q h = some (emptied "deq ".toList l, h')) ∧
      Queue h₀ q [] [] h' ∧ h'.freed = h.freed ++ ns := by
  have htest := r.isEmpty_run
  induction l generalizing ns h with
  | nil =>
    obtain rfl := r.nil_iff.mpr rfl
    refine ⟨h, fun fuel hfuel => ?_, r, by simp⟩
    obtain ⟨fuel, rfl⟩ := Nat.exists_eq_succ_of_ne_zero (Nat.ne_zero_of_lt hfuel)
    rw [QueueLl.deqAll, bind_run htest]
    rfl
  | cons v l ih =>
    obtain ⟨e, ns', h₁, rfl, hrun, r₁, hfreed₁⟩ := r.deq
    obtain ⟨h', hall, r', hfreed⟩ := ih r₁ r₁.isEmpty_run
    refine ⟨h', fun fuel hfuel => ?_, r', ?_⟩
    · obtain ⟨fuel, rfl⟩ := Nat.exists_eq_succ_of_ne_zero (Nat.ne_zero_of_lt hfuel)
      have hlen : l.length < fuel := by simpa using hfuel
      have hprint := r₁.print fuel
      rw [if_pos hlen] at hprint
      rw [QueueLl.deqAll, bind_run htest]
      simp only [List.isEmpty_cons, Bool.false_eq_true, if_false]
      rw [bind_run hrun, bind_run hprint, bind_run (hall fuel hlen), pure_run]
      rfl
    · rw [hfreed, hfreed₁, List.append_assoc, List.singleton_append]

end Queue

/-- **What is printed is what is there.** After every sequence of calls as in
`queue_law`, with the pending values in the blocks `ns`: `queuePrint` prints them,
oldest first, and changes nothing; two queues print the same line only if they hold the
same values; and the loop at the end of `main` prints each pending value and then the
line of those left, and frees the blocks `ns`, which are all different, once each and in
order. `queueDestroy` then frees the queue, and leaves the heap as it was before
`createQueue`. -/
theorem prints_pending (h₀ : Heap Block) (q j₁ j₂ : Addr) (hq : Fresh h₀ q) :
    ∃ h₁, createQueue q j₁ j₂ h₀ = some (q, h₁) ∧
      ∀ tr h, Exec (step q) (CallOk q) h₁ tr h →
        let pending := (reference.run [] (tr.map Prod.fst)).2
        (∀ fuel, queuePrint fuel q h =
          if pending.length < fuel then some (shown pending, h) else none) ∧
        (∀ l : List Int32, shown l = shown pending ↔ l = pending) ∧
        ∃ ns, Queue h₀ q ns pending h ∧ (q :: ns).Nodup ∧
          ∃ h₂ h₃, (∀ fuel, pending.length < fuel →
            deqAll fuel q h = some (emptied "deq ".toList pending, h₂)) ∧
          (∀ fuel, 0 < fuel → queueDestroy fuel q h₂ = some ((), h₃)) ∧
          h₂.freed = h.freed ++ ns ∧ h₃.freed = h₂.freed ++ [q] ∧
          ∀ a, h₃.cell a = h₀.cell a := by
  obtain ⟨h₁, hcreate, r₁⟩ := Queue.create j₁ j₂ hq
  refine ⟨h₁, hcreate, fun tr h hexec => ?_⟩
  obtain ⟨-, ⟨ns, r⟩, -⟩ := exec_refines r₁ hexec
  obtain ⟨h₂, hall, r₂, hfreed⟩ := r.deqAll
  obtain ⟨h₃, hdestroy, hfreed₃, hcell⟩ := r₂.destroy
  refine ⟨r.print, fun l => shown_inj, ns, r, r.nodup, h₂, h₃, hall, hdestroy, hfreed, ?_, hcell⟩
  rw [hfreed₃, List.append_nil]

/-- After the calls of `recycled` 6 is pending: it is printed, and dequeued. -/
theorem prints_pending_recycled :
    ∃ h₁ tr h h₂, createQueue 8 0 0 Heap.empty = some (8, h₁) ∧
      Exec (step 8) (CallOk 8) h₁ tr h ∧ tr.map Prod.fst = recycled ∧
      queuePrint 2 8 h = some (shown [6], h) ∧
      deqAll 2 8 h = some (emptied "deq ".toList [6], h₂) := by
  obtain ⟨h₁, hcreate, hlaw⟩ := prints_pending Heap.empty 8 0 0 ⟨by decide, rfl⟩
  obtain rfl : h₁ = ((createQueue 8 0 0 Heap.empty).get rfl).2 := by simp [hcreate]
  obtain ⟨tr, h, hexec, hin, -⟩ := exec_such_that (step 8) (CallOk 8)
    ((createQueue 8 0 0 Heap.empty).get rfl).2 recycled (fun _ => True) (by decide +kernel)
  obtain ⟨hprint, -, ns, -, -, h₂, h₃, hall, -⟩ := hlaw tr h hexec
  have hpending : (reference.run [] (tr.map Prod.fst)).2 = [6] := by rw [hin]; rfl
  rw [hpending] at hprint hall
  exact ⟨_, tr, h, h₂, hcreate, hexec, hin, hprint 2, hall 2 (by decide)⟩

end QueueLl

end CCodes
