/-
CCodes.Dsa.CirQTheorems — `cir_q_ll.c` is a FIFO queue kept as a ring.

There is no end marker: the chain from `front` visits the pending blocks
and comes back to `front`, and `enq` and `deq` both close the ring again
after they have moved an end. The invariant (`Ring`) has two shapes, the
empty queue with both pointers NULL and the ring; a one-element ring is
the ring whose block links to itself.
-/
import Mathlib.Data.List.Nodup
import CCodes.Dsa.Queues
import CCodes.Lib.Segment

namespace CCodes.CirQ

open CCodes.Lib Queues Block

variable {h h₀ : Heap Block} {q e f r y : Addr} {v jv : Int32} {jn : Addr}
  {ns : List Addr} {l : List Int32}

/-! ## §1 The functions, one theorem each -/

section Enq

variable (he : Fresh h e)
include he

theorem enq_eq : enq q v e jv jn h =
    (do if (← load front q) = 0 then store front q e else store nextOf (← load rear q) e
        store rear q e
        store nextOf (← load rear q) (← load front q) : Prog Block Unit)
      (newElt h e v jv jn) := by
  rw [enq, newElt_run he]

/-- Into an empty queue: the new block becomes a ring of its own. -/
theorem enq_spec_empty (hf : front.peek h q = some 0) (hr : rear.peek h q = some r) :
    ∃ h', enq q v e jv jn h = some ((), h') ∧ front.peek h' q = some e ∧
      rear.peek h' q = some e ∧
      (∀ x, nextOf.peek h' x = if x = e then some e else nextOf.peek h x) ∧
      (∀ x, valueOf.peek h' x = if x = e then some v else valueOf.peek h x) ∧
      ∀ x, x ≠ q → x ≠ e → h'.cell x = h.cell x := by
  have hqe : q ≠ e := Field.ne_of_peek hf he.2
  let h₁ := newElt h e v jv jn
  let h₂ := h₁.store front q e
  let h₃ := h₂.store rear q e
  have hf₁ : front.peek h₁ q = some 0 := (first_newElt he hqe).trans hf
  have hr₁ : rear.peek h₁ q = some r := (last_newElt he hqe).trans hr
  have hr₂ : rear.peek h₂ q = some r := by simp [h₂, hr₁]
  have hr₃ : rear.peek h₃ q = some e := by rw [Field.peek_store_of hr₂, if_pos rfl]
  have hf₃ : front.peek h₃ q = some e := by
    rw [Field.peek_store_apart, Field.peek_store_of hf₁, if_pos rfl]
  have hn₃ : ∀ x, nextOf.peek h₃ x = if x = e then some jn else nextOf.peek h x := by
    intro x
    simp [h₃, h₂, h₁, next_newElt he]
  refine ⟨h₃.store nextOf e e, ?_, ?_, ?_, ?_, ?_, ?_⟩
  · rw [enq_eq he, bind_run (load_run hf₁), if_pos rfl, bind_run (store_run hf₁)]
    show (store rear q e >>= _) h₂ = _
    rw [bind_run (store_run hr₂), bind_run (load_run hr₃), bind_run (load_run hf₃)]
    exact store_run ((hn₃ e).trans (if_pos rfl))
  · simp [hf₃]
  · simp [hr₃]
  · intro x
    exact Field.peek_store_again hn₃
  · intro x
    simp [h₃, h₂, h₁, value_newElt he]
  · intro x hxq hxe
    rw [Heap.cell_store_ne hxe, Heap.cell_store_ne hxq, Heap.cell_store_ne hxq,
      cell_newElt he hxe]

/-- Behind the last block `r` of a ring. -/
theorem enq_spec_ring (hf : front.peek h q = some f) (hf0 : f ≠ 0)
    (hr : rear.peek h q = some r) (hry : nextOf.peek h r = some y) :
    ∃ h', enq q v e jv jn h = some ((), h') ∧ front.peek h' q = some f ∧
      rear.peek h' q = some e ∧
      (∀ x, nextOf.peek h' x =
        if x = e then some f else if x = r then some e else nextOf.peek h x) ∧
      (∀ x, valueOf.peek h' x = if x = e then some v else valueOf.peek h x) ∧
      ∀ x, x ≠ q → x ≠ e → x ≠ r → h'.cell x = h.cell x := by
  have hqe : q ≠ e := Field.ne_of_peek hf he.2
  have hre : r ≠ e := Field.ne_of_peek hry he.2
  let h₁ := newElt h e v jv jn
  let h₂ := h₁.store nextOf r e
  let h₃ := h₂.store rear q e
  have hf₁ : front.peek h₁ q = some f := (first_newElt he hqe).trans hf
  have hr₁ : rear.peek h₁ q = some r := (last_newElt he hqe).trans hr
  have hn₁ : nextOf.peek h₁ r = some y := by rw [next_newElt he, if_neg hre, hry]
  have hr₂ : rear.peek h₂ q = some r := by simp [h₂, hr₁]
  have hr₃ : rear.peek h₃ q = some e := by rw [Field.peek_store_of hr₂, if_pos rfl]
  have hf₃ : front.peek h₃ q = some f := by simp [h₃, h₂, hf₁]
  have hn₃ : ∀ x, nextOf.peek h₃ x =
      if x = e then some jn else if x = r then some e else nextOf.peek h x := by
    intro x
    rw [Field.peek_store_apart]
    exact Field.peek_store_beside hre hn₁ fun _ => next_newElt he
  refine ⟨h₃.store nextOf e f, ?_, ?_, ?_, ?_, ?_, ?_⟩
  · rw [enq_eq he, bind_run (load_run hf₁), if_neg hf0, bind_run (load_run hr₁),
      bind_run (store_run hn₁)]
    show (store rear q e >>= _) h₂ = _
    rw [bind_run (store_run hr₂), bind_run (load_run hr₃), bind_run (load_run hf₃)]
    exact store_run ((hn₃ e).trans (if_pos rfl))
  · simp [hf₃]
  · simp [hr₃]
  · intro x
    exact Field.peek_store_again hn₃
  · intro x
    simp [h₃, h₂, h₁, value_newElt he]
  · intro x hxq hxe hxr
    rw [Heap.cell_store_ne hxe, Heap.cell_store_ne hxq, Heap.cell_store_ne hxr,
      cell_newElt he hxe]

end Enq

theorem deq_spec_empty (hf : front.peek h q = some 0) : deq q h = some (queueEmpty, h) := by
  rw [deq, bind_run (load_run hf), if_pos rfl, pure_run]

/-- `deq` on a one-element ring sets both pointers to NULL. -/
theorem deq_spec_single (hf : front.peek h q = some e) (he0 : e ≠ 0)
    (hr : rear.peek h q = some e) (hv : valueOf.peek h e = some v) (hqe : q ≠ e) :
    ∃ h', deq q h = some (v, h') ∧ front.peek h' q = some 0 ∧ rear.peek h' q = some 0 ∧
      ∀ x, x ≠ q → h'.cell x = if x = e then none else h.cell x := by
  let h₁ := h.store front q queueNull
  let h₂ := h₁.store rear q queueNull
  have hr₁ : rear.peek h₁ q = some e := by simp [h₁, hr]
  have hv₂ : valueOf.peek h₂ e = some v := by simp [h₂, h₁, hv]
  obtain ⟨b, hb⟩ := Field.live_of_peek hv₂
  refine ⟨h₂.release e, ?_, ?_, ?_, ?_⟩
  · rw [deq, bind_run (load_run hf), if_neg he0, bind_run (load_run hf),
      bind_run (load_run hv), bind_run (load_run hf), bind_run (load_run hr), if_pos rfl,
      bind_run (store_run hf)]
    show (store rear q queueNull >>= _) h₁ = _
    rw [bind_run (store_run hr₁)]
    show (free e >>= _) h₂ = _
    rw [bind_run (free_run hb), pure_run]
  · simp [Field.peek_release, Field.peek_store, hqe, h₂, h₁, hf, queueNull]
  · simp [Field.peek_release, Field.peek_store, hqe, h₂, hr₁, queueNull]
  · intro x hx
    rw [Heap.cell_release, Heap.cell_store_ne hx, Heap.cell_store_ne hx]

/-- `deq` on a longer ring moves `front` on and closes the ring again. -/
theorem deq_spec_ring (hf : front.peek h q = some e) (he0 : e ≠ 0)
    (hr : rear.peek h q = some r) (her : e ≠ r) (hv : valueOf.peek h e = some v)
    (hn : nextOf.peek h e = some f) (hrn : nextOf.peek h r = some y) (hqe : q ≠ e) :
    ∃ h', deq q h = some (v, h') ∧ front.peek h' q = some f ∧ rear.peek h' q = some r ∧
      (∀ x, nextOf.peek h' x =
        if x = e then none else if x = r then some f else nextOf.peek h x) ∧
      (∀ x, valueOf.peek h' x = if x = e then none else valueOf.peek h x) ∧
      ∀ x, x ≠ q → x ≠ r → h'.cell x = if x = e then none else h.cell x := by
  let h₁ := h.store front q f
  let h₂ := h₁.store nextOf r f
  have hr₁ : rear.peek h₁ q = some r := by simp [h₁, hr]
  have hf₁ : front.peek h₁ q = some f := by rw [Field.peek_store_of hf, if_pos rfl]
  have hrn₁ : nextOf.peek h₁ r = some y := by simp [h₁, hrn]
  have hv₂ : valueOf.peek h₂ e = some v := by simp [h₂, h₁, hv]
  obtain ⟨b, hb⟩ := Field.live_of_peek hv₂
  refine ⟨h₂.release e, ?_, ?_, ?_, ?_, ?_, ?_⟩
  · rw [deq, bind_run (load_run hf), if_neg he0, bind_run (load_run hf),
      bind_run (load_run hv), bind_run (load_run hf), bind_run (load_run hr), if_neg her,
      bind_run (load_run hf), bind_run (load_run hn), bind_run (store_run hf)]
    show (load rear q >>= _) h₁ = _
    rw [bind_run (load_run hr₁), bind_run (load_run hf₁), bind_run (store_run hrn₁)]
    show (free e >>= _) h₂ = _
    rw [bind_run (free_run hb), pure_run]
  · simp [Field.peek_release, hqe, h₂, hf₁]
  · simp [Field.peek_release, hqe, h₂, hr₁]
  · intro x
    rw [Field.peek_release, Field.peek_store_of hrn₁, Field.peek_store_apart]
  · intro x
    simp [Field.peek_release, h₂, h₁]
  · intro x hxq hxr
    rw [Heap.cell_release, Heap.cell_store_ne hxr, Heap.cell_store_ne hxq]

/-! ## §2 The ring -/

/-- The queue at `q` holds `l`, oldest first, in the blocks `ns`; `h₀` is
the heap it was empty in. Either there are no blocks and both pointers are
NULL, or the links run from `front` through `ns` and back to `front`, and
`rear` is the last of `ns`. -/
structure Ring (h₀ : Heap Block) (q : Addr) (ns : List Addr) (l : List Int32)
    (h : Heap Block) : Prop where
  nodup : (q :: ns).Nodup
  shape : (ns = [] ∧ front.peek h q = some 0 ∧ rear.peek h q = some 0) ∨
    ∃ f r, front.peek h q = some f ∧ rear.peek h q = some r ∧
      Seg (nextOf.peek h) f ns f ∧ ns.getLast? = some r
  values : ns.map (valueOf.peek h) = l.map some
  others : ∀ a, a ∉ q :: ns → h.cell a = h₀.cell a
  fresh : ∀ a ∈ ns, h₀.cell a = none

namespace Ring

theorem empty (hf : front.peek h₀ q = some 0) (hr : rear.peek h₀ q = some 0) :
    Ring h₀ q [] [] h₀ :=
  ⟨by simp, .inl ⟨rfl, hf, hr⟩, rfl, fun _ _ => rfl, by simp⟩

theorem not_mem (g : Ring h₀ q ns l h) (he : h.cell e = none) : e ∉ q :: ns := by
  intro hmem
  rcases g.shape with ⟨rfl, hf, -⟩ | ⟨f, r, hf, -, hseg, -⟩
  · rw [List.mem_singleton.mp hmem] at he
    exact Field.ne_of_peek hf he rfl
  · rcases List.mem_cons.mp hmem with rfl | hmem
    · exact Field.ne_of_peek hf he rfl
    · obtain ⟨y, hy⟩ := seg_link hseg e hmem
      exact Field.ne_of_peek hy he rfl

theorem nil_iff (g : Ring h₀ q ns l h) : ns = [] ↔ l = [] := by
  have hlen : ns.length = l.length := by
    simpa using congrArg List.length g.values
  rw [← List.length_eq_zero_iff, hlen, List.length_eq_zero_iff]

theorem enq (v jv : Int32) (jn : Addr) (g : Ring h₀ q ns l h) (he : Fresh h e) :
    ∃ h', CirQ.enq q v e jv jn h = some ((), h') ∧ Ring h₀ q (ns ++ [e]) (l ++ [v]) h' := by
  have hem := g.not_mem he.2
  obtain ⟨heq, hens⟩ := List.ne_and_not_mem_of_not_mem_cons hem
  have hnd : (q :: (ns ++ [e])).Nodup := by
    simpa using g.nodup.concat hem
  have hfresh : ∀ a ∈ ns ++ [e], h₀.cell a = none := by
    rw [List.forall_mem_append, List.forall_mem_singleton]
    exact ⟨g.fresh, (g.others e hem).symm.trans he.2⟩
  rcases g.shape with ⟨rfl, hf, hr⟩ | ⟨f, r, hf, hr, hseg, hlast⟩
  · obtain ⟨h', hrun, hf', hr', hn', hv', hcell⟩ := enq_spec_empty he hf hr
    refine ⟨h', hrun, hnd, .inr ⟨e, e, hf', hr', ?_, by simp⟩,
      map_snoc_of_not_mem g.values hens hv', ?_, hfresh⟩
    · exact seg_singleton.mpr ⟨rfl, by rw [hn', if_pos rfl]⟩
    · intro a ha
      obtain ⟨haq, hae⟩ := List.ne_and_not_mem_of_not_mem_cons ha
      rw [hcell a haq (by simpa using hae)]
      exact g.others a (by simpa using haq)
  · obtain ⟨m, rfl⟩ := List.getLast?_eq_some_iff.mp hlast
    obtain ⟨-, hrn⟩ := seg_snoc.mp hseg
    have hf0 : f ≠ 0 := by
      rintro rfl
      have h0 : (0 : Addr) ∈ q :: (m ++ [r]) := by
        rw [seg_head hseg]
        cases m <;> simp
      exact g.not_mem h.null_dead h0
    obtain ⟨h', hrun, hf', hr', hn', hv', hcell⟩ := enq_spec_ring he hf hf0 hr hrn
    refine ⟨h', hrun, hnd, .inr ⟨f, e, hf', hr', ?_, by simp⟩,
      map_snoc_of_not_mem g.values hens hv', ?_, hfresh⟩
    · exact seg_insert_last hseg g.nodup.of_cons hens hn'
    · intro a ha
      have hold : a ∉ q :: (m ++ [r]) := fun hmem => ha (List.mem_append_left [e] hmem)
      have haq : a ≠ q := fun h => ha (by simp [h])
      have hae : a ≠ e := fun h => ha (by simp [h])
      have har : a ≠ r := fun h => ha (by simp [h])
      rw [hcell a haq hae har, g.others a hold]

theorem deq_empty (g : Ring h₀ q ns [] h) : CirQ.deq q h = some (queueEmpty, h) := by
  obtain rfl := g.nil_iff.mpr rfl
  rcases g.shape with ⟨-, hf, -⟩ | ⟨f, r, -, -, -, hlast⟩
  · exact deq_spec_empty hf
  · simp at hlast

theorem deq (g : Ring h₀ q ns (v :: l) h) :
    ∃ ns' h', CirQ.deq q h = some (v, h') ∧ Ring h₀ q ns' l h' := by
  have hvals := g.values
  rcases g.shape with ⟨rfl, -, -⟩ | ⟨f, r, hf, hr, hseg, hlast⟩
  · simp at hvals
  cases ns with
  | nil => simp at hlast
  | cons e ns =>
    obtain ⟨rfl, f', hn, hseg'⟩ := hseg
    rw [List.map_cons, List.map_cons, List.cons.injEq] at hvals
    obtain ⟨hqns, hndf⟩ := List.nodup_cons.mp g.nodup
    obtain ⟨hqf, hqn⟩ := List.ne_and_not_mem_of_not_mem_cons hqns
    obtain ⟨hfn, hnd⟩ := List.nodup_cons.mp hndf
    have hf0 : f ≠ 0 := fun h0 => g.not_mem h.null_dead (by simp [h0])
    -- the freed block counts among the others from now on
    have hothers : ∀ a, a ∉ q :: ns → (if a = f then none else h.cell a) = h₀.cell a := by
      intro a ha
      obtain ⟨haq, han⟩ := List.ne_and_not_mem_of_not_mem_cons ha
      by_cases haf : a = f
      · rw [if_pos haf, g.fresh a (by simp [haf])]
      · rw [if_neg haf, g.others a (by simp [haq, haf, han])]
    rcases List.eq_nil_or_concat ns with rfl | ⟨m, r', rfl⟩
    · obtain rfl : f = r := by simpa using hlast
      obtain ⟨h', hrun, hf', hr', hcell⟩ := deq_spec_single hf hf0 hr hvals.1 hqf
      refine ⟨[], h', hrun, by simp, .inl ⟨rfl, hf', hr'⟩, ?_, ?_, by simp⟩
      · simpa using hvals.2
      · intro a ha
        rw [hcell a (List.ne_of_not_mem_cons ha), hothers a ha]
    · rw [List.concat_eq_append] at *
      obtain rfl : r' = r := by simpa [List.getLast?_cons] using hlast
      obtain ⟨-, hrn⟩ := seg_snoc.mp hseg'
      have hfr : f ≠ r' := fun h => hfn (by simp [h])
      obtain ⟨h', hrun, hf', hr', hn', hv', hcell⟩ :=
        deq_spec_ring hf hf0 hr hfr hvals.1 hn hrn hqf
      refine ⟨m ++ [r'], h', hrun, List.nodup_cons.mpr ⟨hqn, hnd⟩,
        .inr ⟨f', r', hf', hr', ?_, by simp⟩, ?_, ?_, ?_⟩
      · exact seg_turn_last hseg' hnd hfn hn'
      · rw [← hvals.2, map_eq_of_not_mem hfn hv']
      · intro a ha
        have har : a ≠ r' := fun h => ha (by simp [h])
        rw [hcell a (List.ne_of_not_mem_cons ha) har, hothers a ha]
      · intro a ha
        exact g.fresh a (List.mem_cons_of_mem _ ha)

end Ring

/-! ## §3 The law -/

/-- Each call answers as the reference does, and keeps the ring. -/
theorem step_refines {c : Call} (hg : ∃ ns, Ring h₀ q ns l h) (hok : CallOk h c) :
    ∃ h', step q h c = some ((reference l c).1, h') ∧
      ∃ ns, Ring h₀ q ns (reference l c).2 h' := by
  obtain ⟨ns, g⟩ := hg
  cases c with
  | enq v e jv jn =>
    obtain ⟨h', hrun, g'⟩ := g.enq v jv jn hok
    exact ⟨h', by simp [step, hrun, reference], _, g'⟩
  | deq =>
    cases l with
    | nil => exact ⟨h, by simp [step, g.deq_empty, reference], ns, g⟩
    | cons v l =>
      obtain ⟨ns', h', hrun, g'⟩ := g.deq
      exact ⟨h', by simp [step, hrun, reference], ns', g'⟩

/-- **The circular queue law.** From any heap in which the queue at `q` is
empty, after every sequence of calls, whatever addresses `malloc` picks
among those not live: the results are those of the reference queue, which
answers `QUEUE_EMPTY` when it holds nothing; that answer leaves the state
as it is; either both pointers are NULL and nothing is pending, or the
links run from `front` through exactly the pending blocks, in order, to
`rear` and from there to `front`; no other block is live that was not
before; and no call faults. -/
theorem cir_queue_law (h₀ : Heap Block) (q : Addr) (hf : front.peek h₀ q = some 0)
    (hr : rear.peek h₀ q = some 0) (tr : List (Call × Ret)) (h : Heap Block)
    (hexec : Exec (step q) CallOk h₀ tr h) :
    let pending := (reference.run [] (tr.map Prod.fst)).2
    tr.map Prod.snd = (reference.run [] (tr.map Prod.fst)).1 ∧
    (pending = [] → step q h .deq = some (.value queueEmpty, h)) ∧
    (∀ c, CallOk h c → ∃ ret h', step q h c = some (ret, h')) ∧
    ∃ ns, ns.map (valueOf.peek h) = pending.map some ∧ (q :: ns).Nodup ∧
      (∀ a, h.Live a → a ∈ ns ∨ h₀.Live a) ∧
      ((ns = [] ∧ front.peek h q = some 0 ∧ rear.peek h q = some 0) ∨
        ∃ f r, front.peek h q = some f ∧ rear.peek h q = some r ∧
          Seg (nextOf.peek h) f ns f ∧ ns.getLast? = some r ∧ nextOf.peek h r = some f) := by
  obtain ⟨hout, ⟨ns, g⟩, hlive⟩ := hexec.simulates reference
    (fun l h => ∃ ns, Ring h₀ q ns l h) ⟨[], Ring.empty hf hr⟩ (fun _ _ _ => step_refines)
  refine ⟨hout, fun hnil => ?_, hlive, ns, g.values, g.nodup, fun a ha => ?_, ?_⟩
  · rw [hnil] at g
    simp [step, g.deq_empty]
  · by_cases hmem : a ∈ q :: ns
    · rcases List.mem_cons.mp hmem with rfl | hmem
      · obtain ⟨b, hb⟩ := Field.live_of_peek hf
        exact Or.inr (by simp [Heap.Live, hb])
      · exact Or.inl hmem
    · rw [Heap.Live, g.others a hmem] at ha
      exact Or.inr ha
  · rcases g.shape with hnil | ⟨f, r, hf', hr', hseg, hlast⟩
    · exact .inl hnil
    · obtain ⟨m, rfl⟩ := List.getLast?_eq_some_iff.mp hlast
      exact .inr ⟨f, r, hf', hr', hseg, hlast, (seg_snoc.mp hseg).2⟩

/-- A heap with an empty queue at 8, and nothing else. -/
def emptyQueueAt8 : Heap Block := Heap.empty.put 8 (.queue 0 0)

/-- The ring grows to two nodes, shrinks to one, and is empty; the blocks are given
again, in the other order. -/
def recycled : List Call :=
  [.enq 3 16 0 0, .enq (-1) 24 7 8, .deq, .enq 4 16 0 0, .deq, .deq, .deq, .enq 5 24 0 0,
    .enq 6 16 0 0]

/-- The law after these calls: 5 and 6 are pending, in the blocks at 24 and 16. -/
theorem cir_queue_law_recycled :
    front.peek emptyQueueAt8 8 = some 0 ∧ rear.peek emptyQueueAt8 8 = some 0 ∧
      ∃ tr h ns, Exec (step 8) CallOk emptyQueueAt8 tr h ∧ tr.map Prod.fst = recycled ∧
        tr.map Prod.snd = [.void, .void, .value 3, .void, .value (-1), .value 4,
          .value queueEmpty, .void, .void] ∧
        ns.map (valueOf.peek h) = [some 5, some 6] ∧
        ∃ f r, front.peek h 8 = some f ∧ rear.peek h 8 = some r ∧
          Seg (nextOf.peek h) f ns f ∧ nextOf.peek h r = some f := by
  obtain ⟨tr, h, hexec, hin, -⟩ := exec_such_that (step 8) CallOk emptyQueueAt8 recycled
    (fun _ => True) (by decide +kernel)
  obtain ⟨hout, -, -, ns, hvals, -, -, hshape⟩ :=
    cir_queue_law emptyQueueAt8 8 rfl rfl tr h hexec
  rw [hin] at hout hvals
  refine ⟨rfl, rfl, tr, h, ns, hexec, hin, hout, hvals, ?_⟩
  rcases hshape with ⟨rfl, -⟩ | ⟨f, r, hf, hr, hseg, -, hring⟩
  · cases hvals
  · exact ⟨f, r, hf, hr, hseg, hring⟩

end CCodes.CirQ
