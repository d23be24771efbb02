/-
CCodes.Dsa.StackLl — the stack of `other/dsa/stack_ll.c`, over an explicit heap.

A `Stack` is a pointer, and the functions get its address to change it; here each
takes the pointer and returns what it has become. The elements are those of
`queue_ll.c`, with `val` for `value`.

§1 gives one theorem per C function, §2 the invariant and that each call keeps it,
§3 the law over whole call sequences, with what is printed and with the loop that
empties the stack at the end of `main`.
-/
import CCodes.Dsa.Printing

namespace CCodes.StackLl

open CCodes.Lib Queues Block

/-- `e->val`. -/
abbrev valOf := valueOf

/-- `stackPush`; the new block is at `e` and holds `junkVal`, `junkNext`. -/
def stackPush (s : Addr) (val : Int32) (e : Addr) (junkVal : Int32) (junkNext : Addr) :
    Prog Block Addr := do
  let e ← malloc e (.elt junkVal junkNext)
  store valOf e val
  store nextOf e s
  pure e

/-- `stackEmpty`. -/
def stackEmpty (s : Addr) : Bool := s == 0

/-- `stackPop`. -/
def stackPop (s : Addr) : Prog Block (Int32 × Addr) := do
  let ret ← load valOf s
  let e := s
  let s ← load nextOf e
  free e
  pure (ret, s)

/-- `stackPrint`, with a bound on the tests of its loop. -/
def stackPrint (fuel : Nat) (s : Addr) : Prog Block (List Char) := printFrom fuel s

/-- The second loop of `main`: what it prints, and the stack after it. Each loop has
what is left of the bound. -/
def popAll : Nat → Addr → Prog Block (List Char × Addr)
  | 0, _ => fun _ => none
  | fuel + 1, s =>
      if stackEmpty s then pure ([], s)
      else do
        let (ret, s) ← stackPop s
        let left ← stackPrint fuel s
        let (rest, s) ← popAll fuel s
        pure ("pop gets ".toList ++ decimal ret.toInt ++ '\n' :: (left ++ rest), s)

/-- A call of the interface, with what `malloc` does in it. -/
inductive Call where
  | push (val : Int32) (e : Addr) (junkVal : Int32) (junkNext : Addr)
  | pop
  | isEmpty

/-- What a call returns. -/
inductive Ret where
  | void
  | value (v : Int32)
  | flag (b : Bool)
  deriving DecidableEq, Repr

/-- The stack as a machine driven by calls; its state is the pointer and the heap. -/
def step : Machine (Addr × Heap Block) Call Ret := fun t c =>
  match c with
  | .push v e jv jn => (stackPush t.1 v e jv jn t.2).map fun p => (.void, p)
  | .pop => (stackPop t.1 t.2).map fun p => (.value p.1.1, p.1.2, p.2)
  | .isEmpty => some (.flag (stackEmpty t.1), t)

/-- `malloc` returns an address that is not live, and `stackPop` is called only when
`stackEmpty` has answered false. -/
def CallOk (t : Addr × Heap Block) : Call → Prop
  | .push _ e _ _ => Fresh t.2 e
  | .pop => stackEmpty t.1 = false
  | .isEmpty => True

instance (t : Addr × Heap Block) : DecidablePred (CallOk t)
  | .push _ e _ _ => inferInstanceAs (Decidable (Fresh t.2 e))
  | .pop => inferInstanceAs (Decidable (stackEmpty t.1 = false))
  | .isEmpty => .isTrue trivial

/-- A stack, newest value first, answering the same calls. -/
def reference : Spec (List Int32) Call Ret := fun l c =>
  match c with
  | .push v _ _ _ => (.void, v :: l)
  | .pop => (.value (l.headD 0), l.tail)
  | .isEmpty => (.flag l.isEmpty, l)

/-- The values of the `stackPush` calls. -/
def pushed (cs : List Call) : List Int32 :=
  cs.filterMap fun
    | .push v _ _ _ => some v
    | _ => none

/-- The values the `stackPop` calls returned. -/
def popped (rets : List Ret) : List Int32 :=
  rets.filterMap fun
    | .value v => some v
    | _ => none

variable {h h₀ : Heap Block} {s e p : Addr} {v jv : Int32} {jn : Addr} {ns : List Addr}
  {l : List Int32}

/-! ## §1 The functions, one theorem each -/

theorem stackPush_spec (he : Fresh h e) :
    ∃ h', stackPush s v e jv jn h = some (e, h') ∧
      (∀ x, nextOf.peek h' x = if x = e then some s else nextOf.peek h x) ∧
      (∀ x, valOf.peek h' x = if x = e then some v else valOf.peek h x) ∧
      (∀ x, x ≠ e → h'.cell x = h.cell x) ∧ h'.freed = h.freed := by
  have hn : nextOf.peek (newElt h e v jv jn) e = some jn := by
    rw [next_newElt he, if_pos rfl]
  refine ⟨(newElt h e v jv jn).store nextOf e s, ?_, fun x => ?_, fun x => ?_, fun x hx => ?_, rfl⟩
  · rw [stackPush, newElt_run he, bind_run (store_run hn), pure_run]
  · exact Field.peek_store_again fun _ => next_newElt he
  · rw [Field.peek_store_apart, value_newElt he]
  · rw [Heap.cell_store_ne hx, cell_newElt he hx]

theorem stackPop_spec (hv : valOf.peek h s = some v) (hn : nextOf.peek h s = some p) :
    stackPop s h = some ((v, p), h.release s) := by
  obtain ⟨b, hb⟩ := Field.live_of_peek hv
  rw [stackPop, bind_run (load_run hv), bind_run (load_run hn), bind_run (free_run hb), pure_run]

/-- NULL has no value. -/
theorem stackPop_null (h : Heap Block) : stackPop 0 h = none := by
  have hload : load valOf 0 h = none := by
    rw [load, Field.peek, h.null_dead]
    rfl
  rw [stackPop, bind_fault hload]

/-! ## §2 The stack -/

/-- The stack `s` holds `l`, newest first, in the blocks `ns`; `h₀` is the heap
before there was anything in it. -/
structure Stack (h₀ : Heap Block) (ns : List Addr) (l : List Int32) (s : Addr)
    (h : Heap Block) : Prop where
  nodup : ns.Nodup
  chain : Seg (nextOf.peek h) s ns 0
  values : ns.map (valOf.peek h) = l.map some
  others : ∀ a, a ∉ ns → h.cell a = h₀.cell a
  fresh : ∀ a ∈ ns, h₀.cell a = none

namespace Stack

theorem empty (h₀ : Heap Block) : Stack h₀ [] [] 0 h₀ :=
  ⟨List.nodup_nil, rfl, rfl, fun _ _ => rfl, fun _ ha => absurd ha List.not_mem_nil⟩

theorem not_mem (r : Stack h₀ ns l s h) (he : h.cell e = none) : e ∉ ns := by
  intro hmem
  obtain ⟨y, hy⟩ := seg_link r.chain e hmem
  exact Field.ne_of_peek hy he rfl

theorem zero_not_mem (r : Stack h₀ ns l s h) : 0 ∉ ns := r.not_mem h.null_dead

theorem length_eq (r : Stack h₀ ns l s h) : ns.length = l.length := by
  simpa using congrArg List.length r.values

/-- `stackEmpty` says whether the stack holds nothing. -/
theorem isEmpty_eq (r : Stack h₀ ns l s h) : stackEmpty s = l.isEmpty := by
  have hnil : ns = [] ↔ l = [] := by
    rw [← List.length_eq_zero_iff, r.length_eq, List.length_eq_zero_iff]
  rw [stackEmpty, Bool.eq_iff_iff, beq_iff_eq, seg_nil_iff r.chain r.zero_not_mem, hnil,
    List.isEmpty_iff]

/-- `stackPop` is allowed only on a stack that holds something. -/
theorem exists_cons (r : Stack h₀ ns l s h) (hok : CallOk (s, h) .pop) : ∃ v l', l = v :: l' := by
  rw [CallOk, r.isEmpty_eq] at hok
  exact List.exists_cons_of_ne_nil (by simpa using hok)

theorem push (v jv : Int32) (jn : Addr) (r : Stack h₀ ns l s h) (he : Fresh h e) :
    ∃ h', stackPush s v e jv jn h = some (e, h') ∧ Stack h₀ (e :: ns) (v :: l) e h' ∧
      h'.freed = h.freed := by
  obtain ⟨h', hrun, hn', hv', hcell, hfreed⟩ := stackPush_spec (s := s) (v := v) he
  have hens := r.not_mem he.2
  refine ⟨h', hrun, ⟨List.nodup_cons.mpr ⟨hens, r.nodup⟩, ?_, ?_, ?_, ?_⟩, hfreed⟩
  · refine ⟨rfl, s, by rw [hn', if_pos rfl], (seg_congr fun x hx => ?_).mp r.chain⟩
    have hxe : x ≠ e := fun hxe => hens (hxe ▸ hx)
    rw [hn', if_neg hxe]
  · rw [List.map_cons, List.map_cons, hv', if_pos rfl, map_eq_of_not_mem hens hv', r.values]
  · intro a ha
    obtain ⟨hae, hans⟩ := List.ne_and_not_mem_of_not_mem_cons ha
    rw [hcell a hae, r.others a hans]
  · intro a ha
    rcases List.mem_cons.mp ha with rfl | ha
    · exact (r.others a hens).symm.trans he.2
    · exact r.fresh a ha

theorem pop (r : Stack h₀ ns (v :: l) s h) :
    ∃ p ns', ns = s :: ns' ∧ stackPop s h = some ((v, p), h.release s) ∧
      Stack h₀ ns' l p (h.release s) := by
  obtain ⟨nodup, chain, values, others, fresh⟩ := r
  cases ns with
  | nil => simp at values
  | cons a ns =>
    obtain ⟨rfl, p, hp, hseg⟩ := chain
    obtain ⟨hsns, hnd⟩ := List.nodup_cons.mp nodup
    rw [List.map_cons, List.map_cons, List.cons.injEq] at values
    refine ⟨p, ns, rfl, stackPop_spec values.1 hp, hnd, ?_, ?_, ?_, ?_⟩
    · refine (seg_congr fun x hx => ?_).mp hseg
      have hxs : x ≠ s := fun hxs => hsns (hxs ▸ hx)
      rw [Field.peek_release, if_neg hxs]
    · rw [map_eq_of_not_mem hsns fun _ => Field.peek_release, values.2]
    · intro a ha
      rw [Heap.cell_release]
      by_cases has : a = s
      · rw [if_pos has, fresh a (by simp [has])]
      · rw [if_neg has, others a (by simp [has, ha])]
    · exact fun a ha => fresh a (List.mem_cons_of_mem _ ha)

theorem print (r : Stack h₀ ns l s h) (fuel : Nat) :
    stackPrint fuel s h = if l.length < fuel then some (shown l, h) else none :=
  printFrom_eq r.chain r.values r.zero_not_mem fuel

/-- The loop of `main` takes the values out, newest first, and leaves the heap as it
was before there was anything in the stack. -/
theorem popAll (r : Stack h₀ ns l s h) :
    ∃ h', (∀ fuel, l.length < fuel →
        StackLl.popAll fuel s h = some ((emptied "pop gets ".toList l, 0), h')) ∧
      h'.freed = h.freed ++ ns ∧ ∀ a, h'.cell a = h₀.cell a := by
  induction l generalizing ns s h with
  | nil =>
    obtain rfl := List.eq_nil_of_length_eq_zero r.length_eq
    obtain rfl := seg_nil.mp r.chain
    refine ⟨h, fun fuel hfuel => ?_, by simp, fun a => r.others a List.not_mem_nil⟩
    obtain ⟨fuel, rfl⟩ := Nat.exists_eq_succ_of_ne_zero (Nat.ne_zero_of_lt hfuel)
    rfl
  | cons v l ih =>
    obtain ⟨p, ns', rfl, hrun, r₁⟩ := r.pop
    obtain ⟨h', hall, hfreed, hcell⟩ := ih r₁
    refine ⟨h', fun fuel hfuel => ?_, ?_, hcell⟩
    · obtain ⟨fuel, rfl⟩ := Nat.exists_eq_succ_of_ne_zero (Nat.ne_zero_of_lt hfuel)
      have hlen : l.length < fuel := by simpa using hfuel
      have hprint := r₁.print fuel
      rw [if_pos hlen] at hprint
      rw [StackLl.popAll, r.isEmpty_eq, if_neg (by simp), bind_run hrun]
      dsimp only
      rw [bind_run hprint, bind_run (hall fuel hlen), pure_run]
      rfl
    · rw [hfreed, Heap.freed_release, List.append_assoc, List.singleton_append]

end Stack

/-! ## §3 The law -/

/-- Each allowed call answers as the reference does, and keeps the stack. -/
theorem step_refines {t : Addr × Heap Block} {c : Call} (hr : ∃ ns, Stack h₀ ns l t.1 t.2)
    (hok : CallOk t c) :
    ∃ t', step t c = some ((reference l c).1, t') ∧
      ∃ ns, Stack h₀ ns (reference l c).2 t'.1 t'.2 := by
  obtain ⟨s, h⟩ := t
  obtain ⟨ns, r⟩ := hr
  cases c with
  | push v e jv jn =>
    obtain ⟨h', hrun, r', -⟩ := r.push v jv jn hok
    exact ⟨(e, h'), by rw [step, hrun]; rfl, _, r'⟩
  | pop =>
    obtain ⟨v, l, rfl⟩ := r.exists_cons hok
    obtain ⟨p, ns', -, hrun, r'⟩ := r.pop
    exact ⟨(p, h.release s), by rw [step, hrun]; rfl, ns', r'⟩
  | isEmpty => exact ⟨(s, h), by rw [step, r.isEmpty_eq]; rfl, ns, r⟩

variable {t : Addr × Heap Block} {tr : List (Call × Ret)}

/-- After every run the results are the reference's and the heap holds the
reference's stack. -/
theorem exec_refines (hexec : Exec step CallOk (0, h₀) tr t) :
    tr.map Prod.snd = (reference.run [] (tr.map Prod.fst)).1 ∧
      (∃ ns, Stack h₀ ns (reference.run [] (tr.map Prod.fst)).2 t.1 t.2) ∧
      ∀ c, CallOk t c → ∃ ret t', step t c = some (ret, t') :=
  hexec.simulates reference (fun l t => ∃ ns, Stack h₀ ns l t.1 t.2) ⟨[], .empty h₀⟩
    (fun _ _ _ => step_refines)

/-- What was pushed was popped or is still there, and each pop freed one block. -/
theorem exec_counts (hexec : Exec step CallOk (0, h₀) tr t) :
    (pushed (tr.map Prod.fst)).Perm
        (popped (tr.map Prod.snd) ++ (reference.run [] (tr.map Prod.fst)).2) ∧
      ∃ gone, t.2.freed = h₀.freed ++ gone ∧
        gone.length = (popped (tr.map Prod.snd)).length := by
  induction hexec with
  | nil => exact ⟨.nil, [], by simp, rfl⟩
  | @snoc tr t t' c ret hexec hok hstep ih =>
    obtain ⟨-, ⟨ns, r⟩, -⟩ := exec_refines hexec
    obtain ⟨hperm, gone, hfreed, hgone⟩ := ih
    simp only [List.map_append, List.map_cons, List.map_nil, Spec.run_snoc]
    generalize (reference.run [] (tr.map Prod.fst)).2 = l at *
    obtain ⟨s, h⟩ := t
    cases c with
    | push v e jv jn =>
      obtain ⟨h', hrun, -, hfreed'⟩ := r.push v jv jn hok
      rw [step, hrun] at hstep
      cases hstep
      refine ⟨?_, gone, hfreed'.trans hfreed, ?_⟩
      · simp only [pushed, popped, List.filterMap_append] at hperm ⊢
        exact ((hperm.append_right [v]).trans (List.perm_append_singleton v _)).trans
          (by simpa [reference] using List.perm_middle.symm)
      · simpa [popped] using hgone
    | pop =>
      obtain ⟨v, l, rfl⟩ := r.exists_cons hok
      obtain ⟨p, ns', -, hrun, -⟩ := r.pop
      rw [step, hrun] at hstep
      cases hstep
      refine ⟨?_, gone ++ [s], ?_, ?_⟩
      · simpa [pushed, popped, reference] using hperm
      · rw [Heap.freed_release, hfreed, List.append_assoc]
      · simpa [popped] using hgone
    | isEmpty =>
      cases hstep
      refine ⟨?_, gone, hfreed, ?_⟩
      · simpa [pushed, popped, reference] using hperm
      · simpa [popped] using hgone

/-- **The stack law.** From any heap, after every sequence of calls on a stack that
was empty, in which `stackPop` is called only when `stackEmpty` says that it is not,
whatever addresses `malloc` picks among those not live: the results are those of the
reference stack, and what was pushed is, in some order, what was popped and what is
there; no allowed call faults, and `stackPop` faults on an empty stack; the heap is
that of the start, and the values in one chain from the stack to NULL, each pop
having freed one block; `stackPrint` prints the values, newest first; and the loop at
the end of `main` prints and frees them, and leaves the heap of the start. -/
theorem stack_law (h₀ : Heap Block) (tr : List (Call × Ret)) (s : Addr) (h : Heap Block)
    (hexec : Exec step CallOk (0, h₀) tr (s, h)) :
    let held := (reference.run [] (tr.map Prod.fst)).2
    tr.map Prod.snd = (reference.run [] (tr.map Prod.fst)).1 ∧
    (pushed (tr.map Prod.fst)).Perm (popped (tr.map Prod.snd) ++ held) ∧
    (∀ c, CallOk (s, h) c → ∃ ret t', step (s, h) c = some (ret, t')) ∧
    (stackPop s h = none ↔ held = []) ∧
    (∀ fuel, stackPrint fuel s h = if held.length < fuel then some (shown held, h) else none) ∧
    ∃ ns gone, Stack h₀ ns held s h ∧ h.freed = h₀.freed ++ gone ∧
      gone.length = (popped (tr.map Prod.snd)).length ∧
      ∃ h', (∀ fuel, held.length < fuel →
          popAll fuel s h = some ((emptied "pop gets ".toList held, 0), h')) ∧
        h'.freed = h.freed ++ ns ∧ ∀ a, h'.cell a = h₀.cell a := by
  obtain ⟨hout, ⟨ns, r⟩, hlive⟩ := exec_refines hexec
  obtain ⟨hperm, gone, hfreed, hgone⟩ := exec_counts hexec
  refine ⟨hout, hperm, hlive, ⟨fun hnone => ?_, fun hnil => ?_⟩, r.print, ns, gone, r, hfreed,
    hgone, r.popAll⟩
  · by_contra hne
    obtain ⟨v, l, hl⟩ := List.exists_cons_of_ne_nil hne
    obtain ⟨p, ns', -, hrun, -⟩ := (hl ▸ r).pop
    rw [hrun] at hnone
    cases hnone
  · rw [hnil] at r
    obtain rfl := List.eq_nil_of_length_eq_zero r.length_eq
    obtain rfl := seg_nil.mp r.chain
    exact stackPop_null h

/-- Two pushes, a pop, and a push into the block that was freed. -/
def recycled : List Call := [.push 3 8 0 0, .push (-4) 16 7 8, .pop, .push 5 16 0 0]

/-- The law after these calls. -/
theorem stack_law_recycled : ∃ tr s h, Exec step CallOk (0, Heap.empty) tr (s, h) ∧
    tr.map Prod.fst = recycled ∧ tr.map Prod.snd = [.void, .void, .value (-4), .void] ∧
      stackPrint 3 s h = some ("5 3 \n".toList, h) := by
  obtain ⟨tr, ⟨s, h⟩, hexec, hin, -⟩ := exec_such_that step CallOk (0, Heap.empty) recycled
    (fun _ => True) (by decide +kernel)
  obtain ⟨hout, -, -, -, hprint, -⟩ := stack_law Heap.empty tr s h hexec
  rw [hin] at hout hprint
  exact ⟨tr, s, h, hexec, hin, hout, hprint 3⟩

end CCodes.StackLl
