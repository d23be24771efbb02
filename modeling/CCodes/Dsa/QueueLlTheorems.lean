/-
CCodes.Dsa.QueueLlTheorems — `queue_ll.c` is a FIFO queue.

`deq` never repairs `tail`: when the queue has run empty, `tail` still
holds the address of a freed block, which `malloc` may hand out again. The
invariant (`Queue`) therefore says nothing about `tail` while `head` is
NULL, and `enq` decides on `head`, so it is enough.

§1 gives one theorem per C function, §2 the invariant and that each call
keeps it, §3 the law over whole call sequences, with `queueDestroy`.
-/
import Mathlib.Data.List.Nodup
import CCodes.Dsa.Queues
import CCodes.Lib.Segment

namespace CCodes.QueueLl

open CCodes.Lib Queues Block

variable {h h₀ : Heap Block} {q e p t y : Addr} {v jv : Int32} {jn : Addr}
  {ns : List Addr} {l : List Int32}

/-! ## §1 The functions, one theorem each -/

theorem createQueue_spec (j₁ j₂ : Addr) (hq : Fresh h q) :
    ∃ h', createQueue q j₁ j₂ h = some (q, h') ∧ head.peek h' q = some 0 ∧
      tail.peek h' q = some 0 ∧ ∀ x, x ≠ q → h'.cell x = h.cell x := by
  have hh : ∀ x, head.peek (h.put q (.queue j₁ j₂)) x =
      if x = q then some j₁ else head.peek h x := fun x => Field.peek_put hq.1
  have ht : ∀ x, tail.peek (h.put q (.queue j₁ j₂)) x =
      if x = q then some j₂ else tail.peek h x := fun x => Field.peek_put hq.1
  refine ⟨((h.put q (.queue j₁ j₂)).store tail q 0).store head q 0, ?_, ?_, ?_, ?_⟩
  · have hh' : head.peek ((h.put q (.queue j₁ j₂)).store tail q 0) q = some j₁ := by simp [hh]
    have ht' : tail.peek (h.put q (.queue j₁ j₂)) q = some j₂ := by simp [ht]
    rw [createQueue, bind_run (malloc_run hq), bind_run (store_run ht'),
      bind_run (store_run hh')]
    rfl
  · simp [Field.peek_store, hh]
  · simp [Field.peek_store, ht]
  · intro x hx
    rw [Heap.cell_store_ne hx, Heap.cell_store_ne hx, Heap.cell_put hq.1, if_neg hx]

section Enq

variable (he : Fresh h e)
include he

/-- `enq` makes the new element, ends it with NULL, and then branches on
`head`. -/
theorem enq_eq : enq q v e jv jn h =
    (do if (← load head q) = 0 then store head q e else store nextOf (← load tail q) e
        store tail q e : Prog Block Unit) ((newElt h e v jv jn).store nextOf e 0) := by
  have hn : nextOf.peek (newElt h e v jv jn) e = some jn := by
    rw [next_newElt he, if_pos rfl]
  rw [enq, newElt_run he, bind_run (store_run hn)]

theorem next_ended (x : Addr) : nextOf.peek ((newElt h e v jv jn).store nextOf e 0) x =
    if x = e then some 0 else nextOf.peek h x :=
  Field.peek_store_again fun _ => next_newElt he

/-- Into an empty queue. -/
theorem enq_spec_empty (hq : head.peek h q = some 0) (ht : tail.peek h q = some t) :
    ∃ h', enq q v e jv jn h = some ((), h') ∧ head.peek h' q = some e ∧
      tail.peek h' q = some e ∧
      (∀ x, nextOf.peek h' x = if x = e then some 0 else nextOf.peek h x) ∧
      (∀ x, valueOf.peek h' x = if x = e then some v else valueOf.peek h x) ∧
      ∀ x, x ≠ q → x ≠ e → h'.cell x = h.cell x := by
  have hqe : q ≠ e := Field.ne_of_peek hq he.2
  let h₁ := (newElt h e v jv jn).store nextOf e 0
  let h₂ := h₁.store head q e
  have hh₁ : head.peek h₁ q = some 0 := by simp [h₁, first_newElt he hqe, hq]
  have ht₁ : tail.peek h₁ q = some t := by simp [h₁, last_newElt he hqe, ht]
  have ht₂ : tail.peek h₂ q = some t := by simp [h₂, ht₁]
  refine ⟨h₂.store tail q e, ?_, ?_, ?_, ?_, ?_, ?_⟩
  · rw [enq_eq he, bind_run (load_run hh₁), if_pos rfl, bind_run (store_run hh₁)]
    exact store_run ht₂
  · simp [h₂, Field.peek_store, hh₁]
  · simp [Field.peek_store, ht₂]
  · intro x
    simp [h₂, h₁, next_ended he]
  · intro x
    simp [h₂, h₁, value_newElt he]
  · intro x hxq hxe
    rw [Heap.cell_store_ne hxq, Heap.cell_store_ne hxq, Heap.cell_store_ne hxe,
      cell_newElt he hxe]

/-- Behind the last element `t` of a queue that is not empty. -/
theorem enq_spec_nonempty (hq : head.peek h q = some p) (hp : p ≠ 0)
    (ht : tail.peek h q = some t) (hty : nextOf.peek h t = some y) :
    ∃ h', enq q v e jv jn h = some ((), h') ∧ head.peek h' q = some p ∧
      tail.peek h' q = some e ∧
      (∀ x, nextOf.peek h' x =
        if x = e then some 0 else if x = t then some e else nextOf.peek h x) ∧
      (∀ x, valueOf.peek h' x = if x = e then some v else valueOf.peek h x) ∧
      ∀ x, x ≠ q → x ≠ e → x ≠ t → h'.cell x = h.cell x := by
  have hqe : q ≠ e := Field.ne_of_peek hq he.2
  have hte : t ≠ e := Field.ne_of_peek hty he.2
  let h₁ := (newElt h e v jv jn).store nextOf e 0
  let h₂ := h₁.store nextOf t e
  have hh₁ : head.peek h₁ q = some p := by simp [h₁, first_newElt he hqe, hq]
  have ht₁ : tail.peek h₁ q = some t := by simp [h₁, last_newElt he hqe, ht]
  have hn₁ : nextOf.peek h₁ t = some y := by rw [next_ended he, if_neg hte, hty]
  have ht₂ : tail.peek h₂ q = some t := by simp [h₂, ht₁]
  refine ⟨h₂.store tail q e, ?_, ?_, ?_, ?_, ?_, ?_⟩
  · rw [enq_eq he, bind_run (load_run hh₁), if_neg hp, bind_run (load_run ht₁),
      bind_run (store_run hn₁)]
    exact store_run ht₂
  · simp [h₂, hh₁]
  · simp [Field.peek_store, ht₂]
  · intro x
    rw [Field.peek_store_apart]
    exact Field.peek_store_beside hte hn₁ (next_ended he)
  · intro x
    simp [h₂, h₁, value_newElt he]
  · intro x hxq hxe hxt
    rw [Heap.cell_store_ne hxq, Heap.cell_store_ne hxt, Heap.cell_store_ne hxe,
      cell_newElt he hxe]

end Enq

theorem queueEmpty_spec (hq : head.peek h q = some p) :
    queueEmpty q h = some (p == 0, h) := by
  rw [queueEmpty, bind_run (load_run hq), pure_run]

/-- `deq` unlinks and frees the first element, and leaves `tail` alone. -/
theorem deq_spec (hq : head.peek h q = some e) (hv : valueOf.peek h e = some v)
    (hn : nextOf.peek h e = some p) (hqe : q ≠ e) :
    ∃ h', deq q h = some (v, h') ∧ head.peek h' q = some p ∧
      tail.peek h' q = tail.peek h q ∧
      (∀ x, nextOf.peek h' x = if x = e then none else nextOf.peek h x) ∧
      (∀ x, valueOf.peek h' x = if x = e then none else valueOf.peek h x) ∧
      (∀ x, x ≠ q → h'.cell x = if x = e then none else h.cell x) ∧
      h'.freed = h.freed ++ [e] := by
  have hv' : valueOf.peek (h.store head q p) e = some v := by simp [hv]
  obtain ⟨b, hb⟩ := Field.live_of_peek hv'
  refine ⟨(h.store head q p).release e, ?_, ?_, ?_, ?_, ?_, ?_, rfl⟩
  · rw [deq, bind_run (load_run hq), bind_run (load_run hv), bind_run (load_run hq),
      bind_run (load_run hn), bind_run (store_run hq), bind_run (free_run hb), pure_run]
  · simp [Field.peek_release, Field.peek_store, hqe, hq]
  · simp [Field.peek_release, hqe]
  · intro x
    simp [Field.peek_release]
  · intro x
    simp [Field.peek_release]
  · intro x hx
    rw [Heap.cell_release, Heap.cell_store_ne hx]

/-! ## §2 The queue -/

/-- The queue at `q` holds `l`, oldest first, in the blocks `ns`; `h₀` is
the heap before it was created. The chain from `head` ends in NULL after
`ns`, and `tail` is its last block when there is one. -/
structure Queue (h₀ : Heap Block) (q : Addr) (ns : List Addr) (l : List Int32)
    (h : Heap Block) : Prop where
  nodup : (q :: ns).Nodup
  chain : ∃ p, head.peek h q = some p ∧ Seg (nextOf.peek h) p ns 0
  last : ∃ t, tail.peek h q = some t ∧ (ns ≠ [] → ns.getLast? = some t)
  values : ns.map (valueOf.peek h) = l.map some
  others : ∀ a, a ∉ q :: ns → h.cell a = h₀.cell a
  fresh : ∀ a ∈ q :: ns, h₀.cell a = none

namespace Queue

theorem not_mem (r : Queue h₀ q ns l h) (he : h.cell e = none) : e ∉ q :: ns := by
  obtain ⟨p, hp, hseg⟩ := r.chain
  intro hmem
  rcases List.mem_cons.mp hmem with rfl | hmem
  · exact Field.ne_of_peek hp he rfl
  · obtain ⟨y, hy⟩ := seg_link hseg e hmem
    exact Field.ne_of_peek hy he rfl

theorem zero_not_mem (r : Queue h₀ q ns l h) : (0 : Addr) ∉ ns :=
  fun h0 => r.not_mem h.null_dead (List.mem_cons_of_mem _ h0)

theorem nil_iff (r : Queue h₀ q ns l h) : ns = [] ↔ l = [] := by
  have hlen : ns.length = l.length := by
    simpa using congrArg List.length r.values
  rw [← List.length_eq_zero_iff, hlen, List.length_eq_zero_iff]

/-- `head` is NULL exactly when the queue holds nothing. -/
theorem head_null (r : Queue h₀ q ns l h) (hp : head.peek h q = some p) : p = 0 ↔ l = [] := by
  obtain ⟨p', hp', hseg⟩ := r.chain
  obtain rfl : p' = p := Option.some.inj (hp'.symm.trans hp)
  rw [seg_nil_iff hseg r.zero_not_mem, r.nil_iff]

theorem isEmpty_run (r : Queue h₀ q ns l h) : queueEmpty q h = some (l.isEmpty, h) := by
  obtain ⟨p, hp, -⟩ := r.chain
  have : (p == 0) = l.isEmpty := by
    rw [Bool.eq_iff_iff]
    simpa using r.head_null hp
  rw [queueEmpty_spec hp, this]

/-- `deq` is allowed only on a queue that holds something. -/
theorem exists_cons (r : Queue h₀ q ns l h) (hok : CallOk q h .deq) : ∃ v l', l = v :: l' := by
  rw [CallOk, r.isEmpty_run] at hok
  exact List.exists_cons_of_ne_nil (by simpa using hok)

theorem create (j₁ j₂ : Addr) (hq : Fresh h₀ q) :
    ∃ h, createQueue q j₁ j₂ h₀ = some (q, h) ∧ Queue h₀ q [] [] h := by
  obtain ⟨h, hrun, hh, ht, hcell⟩ := createQueue_spec j₁ j₂ hq
  refine ⟨h, hrun, by simp, ⟨0, hh, rfl⟩, ⟨0, ht, by simp⟩, rfl, ?_, ?_⟩
  · intro a ha
    exact hcell a (by simpa using ha)
  · intro a ha
    rw [List.mem_singleton.mp ha]
    exact hq.2

theorem enq (v jv : Int32) (jn : Addr) (r : Queue h₀ q ns l h) (he : Fresh h e) :
    ∃ h', QueueLl.enq q v e jv jn h = some ((), h') ∧
      Queue h₀ q (ns ++ [e]) (l ++ [v]) h' := by
  obtain ⟨p, hp, hseg⟩ := r.chain
  obtain ⟨t, ht, hlast⟩ := r.last
  have hem := r.not_mem he.2
  obtain ⟨heq, hens⟩ := List.ne_and_not_mem_of_not_mem_cons hem
  have hnd : (q :: (ns ++ [e])).Nodup := by
    simpa using r.nodup.concat hem
  have hfresh : ∀ a ∈ q :: (ns ++ [e]), h₀.cell a = none := by
    rw [← List.cons_append, List.forall_mem_append, List.forall_mem_singleton]
    exact ⟨r.fresh, (r.others e hem).symm.trans he.2⟩
  rcases List.eq_nil_or_concat ns with rfl | ⟨m, t', rfl⟩
  · -- the queue was empty: `tail` may be stale, and is not looked at
    obtain rfl : p = 0 := hseg
    obtain ⟨h', hrun, hh', ht', hn', hv', hcell⟩ := enq_spec_empty he hp ht
    refine ⟨h', hrun, hnd, ⟨e, hh', ?_⟩, ⟨e, ht', by simp⟩,
      map_snoc_of_not_mem r.values hens hv', ?_, hfresh⟩
    · exact seg_singleton.mpr ⟨rfl, by rw [hn', if_pos rfl]⟩
    · intro a ha
      obtain ⟨haq, hae⟩ := List.ne_and_not_mem_of_not_mem_cons ha
      rw [hcell a haq (by simpa using hae)]
      exact r.others a (by simpa using haq)
  · rw [List.concat_eq_append] at *
    obtain rfl : t' = t := by simpa using hlast (by simp)
    obtain ⟨-, hnt⟩ := seg_snoc.mp hseg
    have hp0 : p ≠ 0 := by
      intro h0
      have := (seg_nil_iff hseg r.zero_not_mem).mp h0
      simp at this
    obtain ⟨h', hrun, hh', ht', hn', hv', hcell⟩ := enq_spec_nonempty he hp hp0 ht hnt
    refine ⟨h', hrun, hnd, ⟨p, hh', ?_⟩, ⟨e, ht', by simp⟩,
      map_snoc_of_not_mem r.values hens hv', ?_, hfresh⟩
    · exact seg_insert_last hseg r.nodup.of_cons hens hn'
    · intro a ha
      have hold : a ∉ q :: (m ++ [t']) := fun hmem => ha (List.mem_append_left [e] hmem)
      have haq : a ≠ q := fun h => ha (by simp [h])
      have hae : a ≠ e := fun h => ha (by simp [h])
      have hat : a ≠ t' := fun h => ha (by simp [h])
      rw [hcell a haq hae hat, r.others a hold]

theorem deq (r : Queue h₀ q ns (v :: l) h) :
    ∃ e ns' h', ns = e :: ns' ∧ QueueLl.deq q h = some (v, h') ∧ Queue h₀ q ns' l h' ∧
      h'.freed = h.freed ++ [e] := by
  cases ns with
  | nil => simpa using r.values
  | cons e ns =>
    obtain ⟨p, hp, rfl, n, hn, hseg⟩ := r.chain
    obtain ⟨t, ht, hlast⟩ := r.last
    obtain ⟨hqns, hndp⟩ := List.nodup_cons.mp r.nodup
    obtain ⟨hqp, hqn⟩ := List.ne_and_not_mem_of_not_mem_cons hqns
    obtain ⟨hpn, hnd⟩ := List.nodup_cons.mp hndp
    have hvals := r.values
    rw [List.map_cons, List.map_cons, List.cons.injEq] at hvals
    obtain ⟨h', hrun, hh', ht', hn', hv', hcell, hfreed⟩ := deq_spec hp hvals.1 hn hqp
    refine ⟨p, ns, h', rfl, hrun, ⟨List.nodup_cons.mpr ⟨hqn, hnd⟩, ⟨n, hh', ?_⟩,
      ⟨t, by rw [ht', ht], ?_⟩, ?_, ?_, ?_⟩, hfreed⟩
    · refine (seg_congr fun x hx => ?_).mp hseg
      have hxp : x ≠ p := fun h => hpn (h ▸ hx)
      rw [hn', if_neg hxp]
    · intro hne
      rw [← hlast (by simp), List.getLast?_cons_of_ne_nil hne]
    · rw [← hvals.2, map_eq_of_not_mem hpn hv']
    · intro a ha
      obtain ⟨haq, han⟩ := List.ne_and_not_mem_of_not_mem_cons ha
      rw [hcell a haq]
      by_cases hap : a = p
      · rw [if_pos hap, r.fresh a (by simp [hap])]
      · rw [if_neg hap, r.others a (by simp [haq, hap, han])]
    · intro a ha
      exact r.fresh a (List.cons_subset_cons q (List.subset_cons_self p ns) ha)

/-- The loop of `queueDestroy` passes once for each pending value and frees
the blocks in order. -/
theorem drain (r : Queue h₀ q ns l h) :
    ∃ h', Passes (do pure !(← queueEmpty q)) (do let _ ← QueueLl.deq q) l.length h h' ∧
      Queue h₀ q [] [] h' ∧ h'.freed = h.freed ++ ns := by
  have htest : (do pure !(← queueEmpty q) : Prog Block Bool) h = some (!l.isEmpty, h) := by
    rw [bind_run r.isEmpty_run, pure_run]
  induction l generalizing ns h with
  | nil =>
    obtain rfl := r.nil_iff.mpr rfl
    exact ⟨h, .done htest, r, by simp⟩
  | cons v l ih =>
    obtain ⟨e, ns', h₁, rfl, hrun, r₁, hfreed₁⟩ := r.deq
    obtain ⟨h', hpasses, r', hfreed⟩ := ih r₁ (by rw [bind_run r₁.isEmpty_run, pure_run])
    refine ⟨h', .pass htest ?_ hpasses, r', ?_⟩
    · rw [bind_run hrun, pure_run]
    · rw [hfreed, hfreed₁, List.append_assoc, List.singleton_append]

/-- `queueDestroy` returns, having freed the pending blocks in order and
then the queue, and leaves the heap as it was before the queue was made. -/
theorem destroy (r : Queue h₀ q ns l h) :
    ∃ h', (∀ fuel, l.length < fuel → queueDestroy fuel q h = some ((), h')) ∧
      h'.freed = h.freed ++ ns ++ [q] ∧ ∀ a, h'.cell a = h₀.cell a := by
  obtain ⟨h₁, hpasses, r₁, hfreed⟩ := r.drain
  obtain ⟨p, hp, -⟩ := r₁.chain
  obtain ⟨b, hb⟩ := Field.live_of_peek hp
  refine ⟨h₁.release q, fun fuel hfuel => ?_, by simp [hfreed], fun a => ?_⟩
  · have hloop := hpasses.whileLoop_eq fuel
    rw [if_pos hfuel] at hloop
    rw [queueDestroy, bind_run hloop, free_run hb]
  · rw [Heap.cell_release]
    by_cases ha : a = q
    · rw [if_pos ha, r₁.fresh a (by simp [ha])]
    · rw [if_neg ha, r₁.others a (by simpa using ha)]

end Queue

/-! ## §3 The law -/

/-- Each allowed call answers as the reference does, and keeps the queue. -/
theorem step_refines {c : Call} (hr : ∃ ns, Queue h₀ q ns l h) (hok : CallOk q h c) :
    ∃ h', step q h c = some ((reference l c).1, h') ∧
      ∃ ns, Queue h₀ q ns (reference l c).2 h' := by
  obtain ⟨ns, r⟩ := hr
  cases c with
  | enq v e jv jn =>
    obtain ⟨h', hrun, r'⟩ := r.enq v jv jn hok
    exact ⟨h', by simp [step, hrun, reference], _, r'⟩
  | deq =>
    obtain ⟨v, l', rfl⟩ := r.exists_cons hok
    obtain ⟨e, ns', h', -, hrun, r', -⟩ := r.deq
    exact ⟨h', by simp [step, hrun, reference], ns', r'⟩
  | isEmpty => exact ⟨h, by simp [step, r.isEmpty_run, reference], ns, r⟩

/-- After every run the results are the reference's and the heap holds the
reference's queue. -/
theorem exec_refines {h₁ : Heap Block} {tr : List (Call × Ret)} (r₁ : Queue h₀ q [] [] h₁)
    (hexec : Exec (step q) (CallOk q) h₁ tr h) :
    tr.map Prod.snd = (reference.run [] (tr.map Prod.fst)).1 ∧
      (∃ ns, Queue h₀ q ns (reference.run [] (tr.map Prod.fst)).2 h) ∧
      ∀ c, CallOk q h c → ∃ ret h', step q h c = some (ret, h') :=
  hexec.simulates reference (fun l h => ∃ ns, Queue h₀ q ns l h) ⟨[], r₁⟩
    (fun _ _ _ => step_refines)

/-- What was enqueued is what was dequeued, and then what is pending. -/
theorem exec_fifo {h₁ : Heap Block} {tr : List (Call × Ret)} (r₁ : Queue h₀ q [] [] h₁)
    (hexec : Exec (step q) (CallOk q) h₁ tr h) :
    enqueued (tr.map Prod.fst) =
      dequeued (tr.map Prod.snd) ++ (reference.run [] (tr.map Prod.fst)).2 := by
  induction hexec with
  | nil => rfl
  | @snoc tr s t c ret hexec hok hstep ih =>
    obtain ⟨-, ⟨ns, r⟩, -⟩ := exec_refines r₁ hexec
    obtain ⟨t', hstep', -⟩ := step_refines ⟨ns, r⟩ hok
    rw [hstep, Option.some.injEq, Prod.mk.injEq] at hstep'
    obtain ⟨rfl, -⟩ := hstep'
    simp only [List.map_append, List.map_cons, List.map_nil, Spec.run_snoc]
    generalize (reference.run [] (tr.map Prod.fst)).2 = l at *
    simp only [enqueued, dequeued, List.filterMap_append] at ih ⊢
    rw [ih]
    cases c with
    | enq v e jv jn => simp [reference]
    | deq =>
      obtain ⟨v, l', rfl⟩ := r.exists_cons hok
      simp [reference]
    | isEmpty => simp [reference]

/-- **The queue law.** From any heap with `q` not live, `createQueue`
returns, and after every sequence of calls in which `deq` is called only on
a queue that `queueEmpty` says is not empty, whatever addresses `malloc`
picks among those not live: the results are those of the reference queue,
so what was enqueued is what was dequeued followed by what is pending, and
`queueEmpty` says whether nothing is; the heap holds the pending values in
one chain from `head` to NULL with `tail` at its last block; no allowed
call faults, so no call touches a freed block; and `queueDestroy` returns,
having freed the pending blocks once each, in order, and then the queue. -/
theorem queue_law (h₀ : Heap Block) (q j₁ j₂ : Addr) (hq : Fresh h₀ q) :
    ∃ h₁, createQueue q j₁ j₂ h₀ = some (q, h₁) ∧
      ∀ tr h, Exec (step q) (CallOk q) h₁ tr h →
        let pending := (reference.run [] (tr.map Prod.fst)).2
        tr.map Prod.snd = (reference.run [] (tr.map Prod.fst)).1 ∧
        enqueued (tr.map Prod.fst) = dequeued (tr.map Prod.snd) ++ pending ∧
        queueEmpty q h = some (pending.isEmpty, h) ∧
        (∀ c, CallOk q h c → ∃ ret h', step q h c = some (ret, h')) ∧
        ∃ ns, Queue h₀ q ns pending h ∧
          ∃ h', (∀ fuel, pending.length < fuel → queueDestroy fuel q h = some ((), h')) ∧
            h'.freed = h.freed ++ ns ++ [q] ∧ ∀ a, h'.cell a = h₀.cell a := by
  obtain ⟨h₁, hcreate, r₁⟩ := Queue.create j₁ j₂ hq
  refine ⟨h₁, hcreate, fun tr h hexec => ?_⟩
  obtain ⟨hout, ⟨ns, r⟩, hlive⟩ := exec_refines r₁ hexec
  exact ⟨hout, exec_fifo r₁ hexec, r.isEmpty_run, hlive, ns, r, r.destroy⟩

/-- The queue runs empty, so that `tail` is stale, and the block that it points to is
given again. -/
def recycled : List Call :=
  [.enq 3 16 0 0, .enq (-1) 24 7 8, .deq, .deq, .isEmpty, .enq 5 24 0 0, .enq 6 16 0 0, .deq]

/-- The law after these calls: 6 is pending, and two tests let `queueDestroy` end. -/
theorem queue_law_recycled :
    ∃ h₁ tr h h', createQueue 8 0 0 Heap.empty = some (8, h₁) ∧
      Exec (step 8) (CallOk 8) h₁ tr h ∧ tr.map Prod.fst = recycled ∧
      tr.map Prod.snd = [.void, .void, .value 3, .value (-1), .flag true, .void, .void, .value 5] ∧
      queueEmpty 8 h = some (false, h) ∧ queueDestroy 2 8 h = some ((), h') := by
  obtain ⟨h₁, hcreate, hlaw⟩ := queue_law Heap.empty 8 0 0 ⟨by decide, rfl⟩
  obtain rfl : h₁ = ((createQueue 8 0 0 Heap.empty).get rfl).2 := by simp [hcreate]
  obtain ⟨tr, h, hexec, hin, -⟩ := exec_such_that (step 8) (CallOk 8)
    ((createQueue 8 0 0 Heap.empty).get rfl).2 recycled (fun _ => True) (by decide +kernel)
  obtain ⟨hout, -, hempty, -, ns, -, h', hdestroy, -⟩ := hlaw tr h hexec
  rw [hin] at hout hempty hdestroy
  exact ⟨_, tr, h, h', hcreate, hexec, hin, hout, hempty, hdestroy 2 (by decide)⟩

end CCodes.QueueLl
