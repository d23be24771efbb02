/-
CCodes.Dsa.CirDqueuTheorems — the circular deque is a double-ended
sequence.

§1 gives one theorem per C function: it returns, and what the heap looks
   like afterwards, for any heap around it.
§2 is the ring invariant, and that each call keeps it. The two directions
   are one proof: `Ring.flip` reads the ring backwards.
§3 is the law over whole call sequences (`dqueu_law`).
§4 is `destroyDqueu` after such a sequence (`destroy_law`).
-/
import Mathlib.Data.List.Nodup
import CCodes.Dsa.CirDqueu
import CCodes.Lib.Segment

namespace CCodes.CirDqueu

open CCodes.Lib Dqueu

@[simp] theorem Direction.not_not (a : Direction) : a.not.not = a := by cases a <;> rfl

/-! ## §1 The functions, one theorem each -/

section Functions

variable {h : Heap Dqueu} {d e x y z : Addr} {dir : Direction} {v jv : Int32}
  {junk : Direction → Addr}

theorem createDqueu_spec (junk : Direction → Addr) (hd : Fresh h d) :
    ∃ h', createDqueu d junk h = some (d, h') ∧
      (∀ c, (nextOf c).peek h' d = some d) ∧ valueOf.peek h' d = none ∧
      ∀ x, x ≠ d → h'.cell x = h.cell x := by
  let h₁ := h.put d ⟨junk, none⟩
  let h₂ := h₁.store (nextOf .back) d d
  have hl₁ : ∀ c, (nextOf c).peek h₁ d = some (junk c) := by
    intro c
    rw [Field.peek_put hd.1, if_pos rfl]
    rfl
  have hl₂ : (nextOf .front).peek h₂ d = some (junk .front) := by
    rw [Field.peek_store_apart, hl₁]
  refine ⟨h₂.store (nextOf .front) d d, ?_, ?_, ?_, ?_⟩
  · rw [createDqueu, bind_run (malloc_run hd), if_pos hd.1, bind_run (store_run (hl₁ .back)),
      bind_run (store_run hl₂)]
    rfl
  · intro c
    cases c with
    | front => rw [Field.peek_store_of hl₂, if_pos rfl]
    | back => rw [Field.peek_store_apart, Field.peek_store_of (hl₁ .back), if_pos rfl]
  · rw [Field.peek_store_apart,
      Field.peek_store_apart, Field.peek_put hd.1, if_pos rfl]
    rfl
  · intro x hx
    rw [Heap.cell_store_ne hx, Heap.cell_store_ne hx, Heap.cell_put hd.1, if_neg hx]

/-- The heap with a new block at `e` that links to `y` and back to `d`, before
these link to it. -/
def newBlock (h : Heap Dqueu) (e : Addr) (dir : Direction) (y d : Addr) (v : Int32)
    (junk : Direction → Addr) (jv : Int32) : Heap Dqueu :=
  (((h.put e ⟨junk, some jv⟩).store (nextOf dir) e y).store (nextOf dir.not) e d).store valueOf e v

section NewBlock

variable (he : Fresh h e)
include he

theorem next_newBlock : (nextOf dir).peek (newBlock h e dir y d v junk jv) x =
    if x = e then some y else (nextOf dir).peek h x := by
  rw [newBlock, Field.peek_store_apart, Field.peek_store_apart]
  exact Field.peek_store_again fun _ => Field.peek_put he.1

theorem back_newBlock : (nextOf dir.not).peek (newBlock h e dir y d v junk jv) x =
    if x = e then some d else (nextOf dir.not).peek h x := by
  rw [newBlock, Field.peek_store_apart]
  refine Field.peek_store_again (w := junk dir.not) fun _ => ?_
  rw [Field.peek_store_apart]
  exact Field.peek_put he.1

theorem value_newBlock : valueOf.peek (newBlock h e dir y d v junk jv) x =
    if x = e then some v else valueOf.peek h x := by
  unfold newBlock
  refine Field.peek_store_again (w := jv) fun _ => ?_
  rw [Field.peek_store_apart, Field.peek_store_apart]
  exact Field.peek_put he.1

theorem cell_newBlock (hx : x ≠ e) : (newBlock h e dir y d v junk jv).cell x = h.cell x := by
  rw [newBlock, Heap.cell_store_ne hx, Heap.cell_store_ne hx, Heap.cell_store_ne hx,
    Heap.cell_put he.1, if_neg hx]

/-- `dqueuPush` makes the new block, and then links it in from both sides. -/
theorem dqueuPush_eq (hd : (nextOf dir).peek h d = some y) : dqueuPush d dir v e junk jv h =
    (do store (nextOf dir) d e
        store (nextOf dir.not) (← load (nextOf dir) e) e : Prog Dqueu Unit)
      (newBlock h e dir y d v junk jv) := by
  let h₁ := h.put e ⟨junk, some jv⟩
  let h₂ := h₁.store (nextOf dir) e y
  let h₃ := h₂.store (nextOf dir.not) e d
  have hl₁ : ∀ c, (nextOf c).peek h₁ e = some (junk c) := by
    intro c
    rw [Field.peek_put he.1, if_pos rfl]
    rfl
  have hd₁ : (nextOf dir).peek h₁ d = some y := by
    rw [Field.peek_put he.1, if_neg (Field.ne_of_peek hd he.2), hd]
  have hl₂ : (nextOf dir.not).peek h₂ e = some (junk dir.not) := by
    rw [Field.peek_store_apart, hl₁]
  have hv₃ : valueOf.peek h₃ e = some jv := by
    rw [Field.peek_store_apart, Field.peek_store_apart, Field.peek_put he.1, if_pos rfl]
    rfl
  rw [dqueuPush, bind_run (malloc_run he), bind_run (load_run hd₁), bind_run (store_run (hl₁ dir)),
    bind_run (store_run hl₂), bind_run (store_run hv₃)]
  rfl

/-- A push puts the new block `e` between the header and `y`, the header's
neighbour in that direction (which is the header itself in an empty ring). -/
theorem dqueuPush_spec (v jv : Int32) (junk : Direction → Addr)
    (hd : (nextOf dir).peek h d = some y) (hy : (nextOf dir.not).peek h y = some z) :
    ∃ h', dqueuPush d dir v e junk jv h = some ((), h') ∧
      (∀ x, (nextOf dir).peek h' x =
        if x = e then some y else if x = d then some e else (nextOf dir).peek h x) ∧
      (∀ x, (nextOf dir.not).peek h' x =
        if x = e then some d else if x = y then some e else (nextOf dir.not).peek h x) ∧
      (∀ x, valueOf.peek h' x = if x = e then some v else valueOf.peek h x) ∧
      ∀ x, x ≠ e → x ≠ d → x ≠ y → h'.cell x = h.cell x := by
  have hde : d ≠ e := Field.ne_of_peek hd he.2
  have hye : y ≠ e := Field.ne_of_peek hy he.2
  let h₁ := newBlock h e dir y d v junk jv
  let h₂ := h₁.store (nextOf dir) d e
  have hd₁ : (nextOf dir).peek h₁ d = some y := by rw [next_newBlock he, if_neg hde, hd]
  have hf₂ : ∀ x, (nextOf dir).peek h₂ x =
      if x = e then some y else if x = d then some e else (nextOf dir).peek h x :=
    fun x => Field.peek_store_beside hde hd₁ fun _ => next_newBlock he
  have hb₂ : ∀ x, (nextOf dir.not).peek h₂ x =
      if x = e then some d else (nextOf dir.not).peek h x := by
    intro x
    rw [Field.peek_store_apart, back_newBlock he]
  have he₂ : (nextOf dir).peek h₂ e = some y := by rw [hf₂, if_pos rfl]
  have hy₂ : (nextOf dir.not).peek h₂ y = some z := by rw [hb₂, if_neg hye, hy]
  refine ⟨h₂.store (nextOf dir.not) y e, ?_, ?_, ?_, ?_, ?_⟩
  · rw [dqueuPush_eq he hd, bind_run (store_run hd₁), bind_run (load_run he₂), store_run hy₂]
  · intro x
    rw [Field.peek_store_apart, hf₂]
  · intro x
    exact Field.peek_store_beside hye hy₂ hb₂
  · intro x
    rw [Field.peek_store_apart, Field.peek_store_apart, value_newBlock he]
  · intro x hxe hxd hxy
    rw [Heap.cell_store_ne hxy, Heap.cell_store_ne hxd, cell_newBlock he hxe]

end NewBlock

/-- A pop on a ring whose header is its own neighbour returns `DQUEU_EMPTY`
and leaves the heap as it is. -/
theorem dqueuPop_empty (hd : (nextOf dir).peek h d = some d) :
    dqueuPop d dir h = some (dqueuEmpty, h) := by
  rw [dqueuPop, bind_run (load_run hd), if_pos rfl, pure_run]

/-- A pop takes the block `e` out from between the header and `y`. -/
theorem dqueuPop_spec (hd : (nextOf dir).peek h d = some e) (hde : d ≠ e)
    (he : (nextOf dir).peek h e = some y) (hy : (nextOf dir.not).peek h y = some z)
    (hv : valueOf.peek h e = some v) :
    ∃ h', dqueuPop d dir h = some (v, h') ∧
      (∀ x, (nextOf dir).peek h' x =
        if x = e then none else if x = d then some y else (nextOf dir).peek h x) ∧
      (∀ x, (nextOf dir.not).peek h' x =
        if x = e then none else if x = y then some d else (nextOf dir.not).peek h x) ∧
      (∀ x, valueOf.peek h' x = if x = e then none else valueOf.peek h x) ∧
      (∀ x, x ≠ e → x ≠ d → x ≠ y → h'.cell x = h.cell x) ∧
      h'.cell e = none ∧ h'.freed = h.freed ++ [e] := by
  let h₁ := h.store (nextOf dir) d y
  let h₂ := h₁.store (nextOf dir.not) y d
  have hy₁ : (nextOf dir.not).peek h₁ y = some z := by
    rw [Field.peek_store_apart, hy]
  have hf₂ : ∀ x, (nextOf dir).peek h₂ x = if x = d then some y else (nextOf dir).peek h x := by
    intro x
    rw [Field.peek_store_apart, Field.peek_store_of hd]
  have hb₂ : ∀ x, (nextOf dir.not).peek h₂ x =
      if x = y then some d else (nextOf dir.not).peek h x := by
    intro x
    rw [Field.peek_store_of hy₁, Field.peek_store_apart]
  have hv₂ : ∀ x, valueOf.peek h₂ x = valueOf.peek h x := by
    intro x
    rw [Field.peek_store_apart,
      Field.peek_store_apart]
  have he₁ : (nextOf dir).peek h₁ e = some y := by
    rw [Field.peek_store_of hd, if_neg hde.symm, he]
  obtain ⟨b, hb⟩ := Field.live_of_peek ((hv₂ e).trans hv)
  refine ⟨h₂.release e, ?_, ?_, ?_, ?_, ?_, ?_, rfl⟩
  · rw [dqueuPop, bind_run (load_run hd), if_neg hde, bind_run (load_run he),
      bind_run (store_run hd), bind_run (load_run he₁), bind_run (store_run hy₁),
      bind_run (load_run ((hv₂ e).trans hv)), bind_run (free_run hb), pure_run]
  · intro x
    rw [Field.peek_release, hf₂]
  · intro x
    rw [Field.peek_release, hb₂]
  · intro x
    rw [Field.peek_release, hv₂]
  · intro x hxe hxd hxy
    rw [Heap.cell_release, if_neg hxe, Heap.cell_store_ne hxy, Heap.cell_store_ne hxd]
  · rw [Heap.cell_release, if_pos rfl]

theorem dqueuIsEmpty_spec (hd : (nextOf .front).peek h d = some y) :
    dqueuIsEmpty d h = some (y == d, h) := by
  rw [dqueuIsEmpty, bind_run (load_run hd), pure_run]

end Functions

/-! ## §2 The ring -/

/-- The deque at `d` holds `l`, in the blocks `ns`, read in direction
`dir`; `h₀` is the heap before it was created. The links of that direction
run from the header through `ns` and back to it, the other links run the
other way round; the header has no value; every other block is as it was
in `h₀`, where none of the deque's blocks was live. -/
structure Ring (dir : Direction) (h₀ : Heap Dqueu) (d : Addr) (ns : List Addr)
    (l : List Int32) (h : Heap Dqueu) : Prop where
  nodup : (d :: ns).Nodup
  forward : Seg ((nextOf dir).peek h) d (d :: ns) d
  backward : Seg ((nextOf dir.not).peek h) d (d :: ns.reverse) d
  values : ns.map (valueOf.peek h) = l.map some
  header : valueOf.peek h d = none
  others : ∀ a, a ∉ d :: ns → h.cell a = h₀.cell a
  fresh : ∀ a ∈ d :: ns, h₀.cell a = none

namespace Ring

variable {dir : Direction} {h₀ h : Heap Dqueu} {d e : Addr} {ns : List Addr} {l : List Int32}
  {v jv : Int32} {junk : Direction → Addr}

/-- Read backwards, a ring holds the reversed sequence. -/
theorem flip (r : Ring dir h₀ d ns l h) : Ring dir.not h₀ d ns.reverse l.reverse h where
  nodup := by simpa using r.nodup
  forward := r.backward
  backward := by simpa using r.forward
  values := by simp [r.values]
  header := r.header
  others := by simpa using r.others
  fresh := by simpa using r.fresh

theorem not_mem (r : Ring dir h₀ d ns l h) (he : h.cell e = none) : e ∉ d :: ns := by
  intro hmem
  obtain ⟨p, hp⟩ := seg_link r.forward e hmem
  exact Field.ne_of_peek hp he rfl

/-- `createDqueu` makes an empty ring. -/
theorem create (junk : Direction → Addr) (hd : Fresh h₀ d) :
    ∃ h, createDqueu d junk h₀ = some (d, h) ∧ Ring .front h₀ d [] [] h := by
  obtain ⟨h, hrun, hlink, hval, hcell⟩ := createDqueu_spec junk hd
  refine ⟨h, hrun, ?_, ?_, ?_, rfl, hval, ?_, ?_⟩
  · simp
  · exact seg_singleton.mpr ⟨rfl, hlink _⟩
  · exact seg_singleton.mpr ⟨rfl, hlink _⟩
  · intro a ha
    exact hcell a (by simpa using ha)
  · intro a ha
    rw [List.mem_singleton.mp ha]
    exact hd.2

/-- A push in direction `dir` adds to the front of the sequence read in
that direction. -/
theorem push (v jv : Int32) (junk : Direction → Addr) (r : Ring dir h₀ d ns l h)
    (he : Fresh h e) :
    ∃ h', dqueuPush d dir v e junk jv h = some ((), h') ∧
      Ring dir h₀ d (e :: ns) (v :: l) h' := by
  obtain ⟨-, y, hdy, hseg⟩ := r.forward
  obtain ⟨m, hm⟩ := seg_back_start hseg
  have hback := r.backward
  rw [hm] at hback
  obtain ⟨-, hby⟩ := seg_snoc.mp hback
  have hndm : (m ++ [y]).Nodup := by
    rw [← hm]
    simpa using r.nodup
  have hem := r.not_mem he.2
  obtain ⟨hed, hens⟩ := List.ne_and_not_mem_of_not_mem_cons hem
  obtain ⟨hdns, hnd⟩ := List.nodup_cons.mp r.nodup
  have hmem : ∀ x, x ∈ m ++ [y] ↔ x ∈ d :: ns := by
    intro x
    rw [← hm]
    simp
  obtain ⟨h', hrun, hfwd, hbwd, hval, hcell⟩ :=
    dqueuPush_spec he v jv junk hdy hby
  refine ⟨h', hrun, ?_, seg_insert_first hseg hdns hem hfwd, ?_, ?_, ?_, ?_, ?_⟩
  · simp [hdns, hnd, hens, Ne.symm hed]
  · rw [List.reverse_cons, ← List.cons_append, hm]
    exact seg_insert_last hback hndm (by rwa [hmem]) hbwd
  · rw [List.map_cons, List.map_cons, hval, if_pos rfl, map_eq_of_not_mem hens hval, r.values]
  · rw [hval, if_neg (Ne.symm hed)]
    exact r.header
  · intro a ha
    have hold : a ∉ d :: ns := fun h => ha (List.cons_subset_cons d (List.subset_cons_self e ns) h)
    have hae : a ≠ e := fun h => ha (by simp [h])
    have had : a ≠ d := fun h => ha (by simp [h])
    have hay : a ≠ y := fun h => hold ((hmem a).mp (by simp [h]))
    rw [hcell a hae had hay, r.others a hold]
  · rw [List.forall_mem_cons, List.forall_mem_cons]
    exact ⟨r.fresh d (by simp), (r.others e hem).symm.trans he.2,
      fun a ha => r.fresh a (List.mem_cons_of_mem _ ha)⟩

/-- A pop in direction `dir` takes the front of the sequence read in that
direction, and frees its block. -/
theorem pop (r : Ring dir h₀ d (e :: ns) (v :: l) h) :
    ∃ h', dqueuPop d dir h = some (v, h') ∧ Ring dir h₀ d ns l h' ∧
      h'.freed = h.freed ++ [e] := by
  obtain ⟨-, p, hdp, rfl, y, hpy, hseg⟩ := r.forward
  obtain ⟨m, hm⟩ := seg_back_start hseg
  have hback := r.backward
  rw [List.reverse_cons, ← List.cons_append, hm] at hback
  obtain ⟨hback, -⟩ := seg_snoc.mp hback
  obtain ⟨-, hby⟩ := seg_snoc.mp hback
  obtain ⟨hdpn, hndp⟩ := List.nodup_cons.mp r.nodup
  obtain ⟨hdp', hdns⟩ := List.ne_and_not_mem_of_not_mem_cons hdpn
  obtain ⟨hpns, hnd⟩ := List.nodup_cons.mp hndp
  have hnd' : (d :: ns).Nodup := List.nodup_cons.mpr ⟨hdns, hnd⟩
  have hpdns : p ∉ d :: ns := List.not_mem_cons_of_ne_of_not_mem (Ne.symm hdp') hpns
  have hndm : (m ++ [y]).Nodup := by
    rw [← hm]
    simpa using hnd'
  have hmem : ∀ x, x ∈ m ++ [y] ↔ x ∈ d :: ns := by
    intro x
    rw [← hm]
    simp
  have hvals := r.values
  rw [List.map_cons, List.map_cons, List.cons.injEq] at hvals
  obtain ⟨h', hrun, hfwd, hbwd, hval, hcell, hcp, hfreed⟩ :=
    dqueuPop_spec hdp hdp' hpy hby hvals.1
  refine ⟨h', hrun, ⟨hnd', seg_remove_first hseg hdns hpdns hfwd, ?_, ?_, ?_, ?_, ?_⟩, hfreed⟩
  · rw [hm]
    exact seg_turn_last hback hndm (by rwa [hmem]) hbwd
  · rw [← hvals.2, map_eq_of_not_mem hpns hval]
  · rw [hval, if_neg hdp']
    exact r.header
  · intro a ha
    by_cases hap : a = p
    · rw [hap, hcp, r.fresh p (by simp)]
    · obtain ⟨had, han⟩ := List.ne_and_not_mem_of_not_mem_cons ha
      have hay : a ≠ y := fun h => ha ((hmem a).mp (by simp [h]))
      rw [hcell a hap had hay, r.others a (by simp [had, hap, han])]
  · intro a ha
    exact r.fresh a (List.cons_subset_cons d (List.subset_cons_self p ns) ha)

/-- The header is its own neighbour exactly when the ring is empty. -/
theorem next_header (r : Ring dir h₀ d ns l h) :
    ∃ p, (nextOf dir).peek h d = some p ∧ (p = d ↔ l = []) := by
  obtain ⟨-, p, hp, hseg⟩ := r.forward
  have hnd := r.nodup
  have hlen : ns.length = l.length := by
    simpa using congrArg List.length r.values
  refine ⟨p, hp, ?_⟩
  rw [seg_nil_iff hseg (List.nodup_cons.mp hnd).1, ← List.length_eq_zero_iff, hlen,
    List.length_eq_zero_iff]

/-- `dqueuIsEmpty` looks to the front only, and answers for the whole ring. -/
theorem isEmpty_run (r : Ring .front h₀ d ns l h) :
    dqueuIsEmpty d h = some (l.isEmpty, h) := by
  obtain ⟨p, hp, hiff⟩ := r.next_header
  have hempty : (p == d) = l.isEmpty := by
    rw [Bool.eq_iff_iff]
    simpa using hiff
  rw [dqueuIsEmpty_spec hp, hempty]

/-- The blocks of a non-empty ring: the first one, and the rest. -/
theorem cons_blocks (r : Ring dir h₀ d ns (v :: l) h) : ∃ e ns', ns = e :: ns' := by
  cases ns with
  | nil => simpa using r.values
  | cons e ns => exact ⟨e, ns, rfl⟩

/-- What a pop does: nothing to an empty ring, and else it takes the front of
the sequence read in its direction. -/
theorem pop_cases (r : Ring dir h₀ d ns l h) :
    (l = [] ∧ dqueuPop d dir h = some (dqueuEmpty, h)) ∨
      ∃ v l' ns' h', l = v :: l' ∧ dqueuPop d dir h = some (v, h') ∧
        Ring dir h₀ d ns' l' h' := by
  cases l with
  | nil =>
    obtain ⟨p, hp, hiff⟩ := r.next_header
    rw [hiff.mpr rfl] at hp
    exact .inl ⟨rfl, dqueuPop_empty hp⟩
  | cons v l =>
    obtain ⟨e, ns', rfl⟩ := r.cons_blocks
    obtain ⟨h', hrun, r', -⟩ := r.pop
    exact .inr ⟨v, l, ns', h', rfl, hrun, r'⟩

/-- Each step forward is undone by the step back, at every node of the ring
and in both directions. -/
theorem back_link (r : Ring .front h₀ d ns l h) (dir : Direction) :
    ∀ n ∈ d :: ns, ∃ m, (nextOf dir).peek h n = some m ∧ (nextOf dir.not).peek h m = some n := by
  cases dir with
  | front => exact back_link_of_segs r.forward r.backward
  | back =>
    intro n hn
    exact back_link_of_segs r.flip.forward r.flip.backward n (by simpa using hn)

/-- The loop of `destroyDqueu` passes once for each value held, whatever the
values are, and frees the blocks in order. -/
theorem drain (r : Ring .front h₀ d ns l h) :
    ∃ h', Passes (do pure !(← dqueuIsEmpty d)) (do let _ ← dqueuPop d .front) l.length h h' ∧
      Ring .front h₀ d [] [] h' ∧ h'.freed = h.freed ++ ns := by
  have htest : (do pure !(← dqueuIsEmpty d) : Prog Dqueu Bool) h = some (!l.isEmpty, h) := by
    rw [bind_run r.isEmpty_run, pure_run]
  induction l generalizing ns h with
  | nil =>
    obtain rfl : ns = [] := by simpa using r.values
    exact ⟨h, .done htest, r, by simp⟩
  | cons v l ih =>
    obtain ⟨e, ns, rfl⟩ := r.cons_blocks
    obtain ⟨h₁, hpop, r₁, hfreed₁⟩ := r.pop
    obtain ⟨h', hpasses, r', hfreed⟩ := ih r₁ (by rw [bind_run r₁.isEmpty_run, pure_run])
    refine ⟨h', .pass htest ?_ hpasses, r', ?_⟩
    · rw [bind_run hpop, pure_run]
    · rw [hfreed, hfreed₁, List.append_assoc, List.singleton_append]

/-- `destroyDqueu` gives back the blocks of the ring in order and then the
header, and leaves the heap as it was before the deque was made. -/
theorem destroy (r : Ring .front h₀ d ns l h) :
    ∃ h₁ h', Passes (do pure !(← dqueuIsEmpty d)) (do let _ ← dqueuPop d .front) l.length h h₁ ∧
      (∀ fuel, destroyDqueu fuel d h = if l.length < fuel then some ((), h') else none) ∧
      h'.freed = h.freed ++ ns ++ [d] ∧ ∀ a, h'.cell a = h₀.cell a := by
  obtain ⟨h₁, hpasses, r₁, hfreed⟩ := r.drain
  obtain ⟨p, hp, -⟩ := r₁.next_header
  obtain ⟨b, hb⟩ := Field.live_of_peek hp
  refine ⟨h₁, h₁.release d, hpasses, fun fuel => ?_, by simp [hfreed], fun a => ?_⟩
  · have hloop := hpasses.whileLoop_eq fuel
    unfold destroyDqueu
    split
    · rw [if_pos ‹_›] at hloop
      rw [bind_run hloop, free_run hb]
    · rw [if_neg ‹_›] at hloop
      rw [bind_fault hloop]
  · rw [Heap.cell_release]
    by_cases ha : a = d
    · rw [if_pos ha, r₁.fresh a (by simp [ha])]
    · rw [if_neg ha, r₁.others a (by simpa using ha)]

end Ring

/-! ## §3 The law -/

/-- Each call answers as the reference does, and keeps the ring. -/
theorem step_refines {h₀ h : Heap Dqueu} {d : Addr} {l : List Int32} {c : Call}
    (hr : ∃ ns, Ring .front h₀ d ns l h) (hok : CallOk h c) :
    ∃ h', step d h c = some ((reference l c).1, h') ∧
      ∃ ns, Ring .front h₀ d ns (reference l c).2 h' := by
  obtain ⟨ns, r⟩ := hr
  cases c with
  | push dir v e junk jv =>
    cases dir with
    | front =>
      obtain ⟨h', hrun, r'⟩ := r.push v jv junk hok
      exact ⟨h', by simp [step, hrun, reference], _, r'⟩
    | back =>
      obtain ⟨h', hrun, r'⟩ := r.flip.push v jv junk hok
      have r'' := r'.flip
      simp only [List.reverse_cons, List.reverse_reverse] at r''
      have hrun : dqueuPush d .back v e junk jv h = some ((), h') := hrun
      exact ⟨h', by simp [step, hrun, reference], _, r''⟩
  | pop dir =>
    cases dir with
    | front =>
      rcases r.pop_cases with ⟨rfl, hrun⟩ | ⟨v, l', ns', h', rfl, hrun, r'⟩
      · exact ⟨h, by simp [step, hrun, reference], ns, r⟩
      · exact ⟨h', by simp [step, hrun, reference], ns', r'⟩
    | back =>
      rcases r.flip.pop_cases with ⟨hl, hrun⟩ | ⟨v, l', ns', h', hl, hrun, r'⟩
      · obtain rfl : l = [] := List.reverse_eq_nil_iff.mp hl
        have hrun : dqueuPop d .back h = some (dqueuEmpty, h) := hrun
        exact ⟨h, by simp [step, hrun, reference], ns, r⟩
      · obtain rfl : l = l'.reverse ++ [v] := by simpa using congrArg List.reverse hl
        have hrun : dqueuPop d .back h = some (v, h') := hrun
        refine ⟨h', by simp [step, hrun, reference], ns'.reverse, ?_⟩
        simpa [reference, Direction.not] using r'.flip
  | isEmpty => exact ⟨h, by simp [step, r.isEmpty_run, reference], ns, r⟩

/-- After every run the results are the reference's and the heap holds the
reference's sequence. -/
theorem exec_refines {h₀ h₁ h : Heap Dqueu} {d : Addr} {tr : List (Call × Ret)}
    (r₁ : Ring .front h₀ d [] [] h₁) (hexec : Exec (step d) CallOk h₁ tr h) :
    tr.map Prod.snd = (reference.run [] (tr.map Prod.fst)).1 ∧
      (∃ ns, Ring .front h₀ d ns (reference.run [] (tr.map Prod.fst)).2 h) ∧
      ∀ c, CallOk h c → ∃ ret h', step d h c = some (ret, h') :=
  hexec.simulates reference (fun l h => ∃ ns, Ring .front h₀ d ns l h) ⟨[], r₁⟩
    (fun _ _ _ => step_refines)

/-- **The deque law.** From any heap with `d` not live, `createDqueu`
returns, and after every sequence of calls, whatever addresses `malloc`
picks among those not live (and whatever the new blocks hold): the results
are those of the reference sequence; the heap is one ring holding that
sequence, in which a step in either direction is undone by a step in the
other, no other block is live that was not before, and the header has no
value; a pop of the empty deque changes nothing; and no call faults, so no
call touches the header's value or a freed block. -/
theorem dqueu_law (h₀ : Heap Dqueu) (d : Addr) (junk : Direction → Addr) (hd : Fresh h₀ d) :
    ∃ h₁, createDqueu d junk h₀ = some (d, h₁) ∧
      ∀ tr h, Exec (step d) CallOk h₁ tr h →
        tr.map Prod.snd = (reference.run [] (tr.map Prod.fst)).1 ∧
        (∃ ns, Ring .front h₀ d ns (reference.run [] (tr.map Prod.fst)).2 h ∧
          (∀ dir, ∀ n ∈ d :: ns,
            ∃ m, (nextOf dir).peek h n = some m ∧ (nextOf dir.not).peek h m = some n) ∧
          ∀ a, h.Live a → a ∈ d :: ns ∨ h₀.Live a) ∧
        ((reference.run [] (tr.map Prod.fst)).2 = [] →
          ∀ dir, step d h (.pop dir) = some (.value dqueuEmpty, h)) ∧
        ∀ c, CallOk h c → ∃ ret h', step d h c = some (ret, h') := by
  obtain ⟨h₁, hcreate, r₁⟩ := Ring.create junk hd
  refine ⟨h₁, hcreate, fun tr h hexec => ?_⟩
  obtain ⟨hout, ⟨ns, r⟩, hlive⟩ := exec_refines r₁ hexec
  refine ⟨hout, ⟨ns, r, r.back_link, fun a ha => ?_⟩, fun hnil dir => ?_, hlive⟩
  · by_cases hmem : a ∈ d :: ns
    · exact Or.inl hmem
    · rw [Heap.Live, r.others a hmem] at ha
      exact Or.inr ha
  · rw [hnil] at r
    have hpop : dqueuPop d dir h = some (dqueuEmpty, h) := by
      cases dir with
      | front =>
        rcases r.pop_cases with ⟨-, hrun⟩ | ⟨v, l', ns', h', heq, -⟩
        · exact hrun
        · cases heq
      | back =>
        rcases r.flip.pop_cases with ⟨-, hrun⟩ | ⟨v, l', ns', h', heq, -⟩
        · exact hrun
        · cases heq
    simp [step, hpop]

/-- Pushes and pops at both ends of a deque; the block that the first pop frees is
given again. -/
def recycled : List Call :=
  [.push .front 3 16 (fun _ => 0) 0, .push .back dqueuEmpty 24 (fun _ => 1) 7,
    .push .front 5 32 (fun _ => 0) 0, .pop .back, .push .back 9 24 (fun _ => 5) 2, .pop .front,
    .isEmpty, .pop .back, .pop .back, .pop .front]

/-- The law after these calls: the last pop finds nothing. -/
theorem dqueu_law_recycled :
    ∃ h₁ tr h, createDqueu 8 (fun _ => 0) Heap.empty = some (8, h₁) ∧
      Exec (step 8) CallOk h₁ tr h ∧ tr.map Prod.fst = recycled ∧
      tr.map Prod.snd = [.void, .void, .void, .value dqueuEmpty, .void, .value 5, .flag false,
        .value 9, .value 3, .value dqueuEmpty] ∧
      step 8 h (.pop .back) = some (.value dqueuEmpty, h) := by
  obtain ⟨h₁, hcreate, hlaw⟩ := dqueu_law Heap.empty 8 (fun _ => 0) ⟨by decide, rfl⟩
  obtain rfl : h₁ = ((createDqueu 8 (fun _ => 0) Heap.empty).get rfl).2 := by simp [hcreate]
  obtain ⟨tr, h, hexec, hin, -⟩ := exec_such_that (step 8) CallOk
    ((createDqueu 8 (fun _ => 0) Heap.empty).get rfl).2 recycled (fun _ => True)
    (by decide +kernel)
  obtain ⟨hout, -, hempty, -⟩ := hlaw tr h hexec
  rw [hin] at hout hempty
  exact ⟨_, tr, h, hcreate, hexec, hin, hout, hempty rfl .back⟩

/-! ## §4 `destroyDqueu` -/

/-- **The end of a deque.** From any heap with `d` not live, after every
sequence of calls on the deque that `createDqueu` made, whatever addresses
`malloc` picks among those not live, freed ones included, and whatever
values are held: the loop of `destroyDqueu` makes one pass for each value,
so any bound on its tests above that number lets it end, and no other; it
faults nowhere, so it touches no freed block; it frees each block `ns` of the
ring, no two of them the same, once, and the header behind them; these are
dead then; and every other block is as it was. -/
theorem destroy_law (h₀ : Heap Dqueu) (d : Addr) (junk : Direction → Addr) (hd : Fresh h₀ d) :
    ∃ h₁, createDqueu d junk h₀ = some (d, h₁) ∧
      ∀ tr h, Exec (step d) CallOk h₁ tr h →
        let held := (reference.run [] (tr.map Prod.fst)).2
        ∃ ns, Ring .front h₀ d ns held h ∧ ns.length = held.length ∧ (d :: ns).Nodup ∧
          ∃ h₂ h', Passes (do pure !(← dqueuIsEmpty d)) (do let _ ← dqueuPop d .front)
              held.length h h₂ ∧
            (∀ fuel, destroyDqueu fuel d h =
              if held.length < fuel then some ((), h') else none) ∧
            h'.freed = h.freed ++ ns ++ [d] ∧
            (∀ a ∈ d :: ns, ¬ h'.Live a) ∧ ∀ a, a ∉ d :: ns → h'.cell a = h.cell a := by
  obtain ⟨h₁, hcreate, r₁⟩ := Ring.create junk hd
  refine ⟨h₁, hcreate, fun tr h hexec => ?_⟩
  obtain ⟨-, ⟨ns, r⟩, -⟩ := exec_refines r₁ hexec
  obtain ⟨h₂, h', hpasses, hrun, hfreed, hcell⟩ := r.destroy
  have hlen : ns.length = (reference.run [] (tr.map Prod.fst)).2.length := by
    simpa using congrArg List.length r.values
  refine ⟨ns, r, hlen, r.nodup, h₂, h', hpasses, hrun, hfreed, fun a ha => ?_, fun a ha => ?_⟩
  · rw [Heap.Live, hcell, r.fresh a ha]
    simp
  · rw [hcell, r.others a ha]

/-- A deque made at 8 in the empty heap, holding `DQUEU_EMPTY` and 5: three
tests let the loop end, and two do not. -/
theorem destroy_law_two_values :
    ∃ h₁ h h', createDqueu 8 (fun _ => 0) Heap.empty = some (8, h₁) ∧
      Exec (step 8) CallOk h₁ [(.push .front dqueuEmpty 16 (fun _ => 0) 0, .void),
        (.push .back 5 24 (fun _ => 0) 0, .void)] h ∧
      destroyDqueu 3 8 h = some ((), h') ∧ destroyDqueu 2 8 h = none := by
  obtain ⟨h₁, hcreate, hlaw⟩ := destroy_law Heap.empty 8 (fun _ => 0) ⟨by decide, rfl⟩
  obtain ⟨h, hexec⟩ : ∃ h, Exec (step 8) CallOk h₁
      [(.push .front dqueuEmpty 16 (fun _ => 0) 0, .void),
        (.push .back 5 24 (fun _ => 0) 0, .void)] h := by
    obtain rfl := (Prod.mk.inj (Option.some.inj hcreate)).2
    apply Exists.intro
    show Exec _ _ _ (([] ++ [_]) ++ [_]) _
    exact .snoc (.snoc .nil ⟨by decide, rfl⟩ rfl) ⟨by decide, rfl⟩ rfl
  obtain ⟨ns, -, -, -, h₂, h', -, hrun, -⟩ := hlaw _ _ hexec
  exact ⟨h₁, h, h', hcreate, hexec, hrun 3, hrun 2⟩

end CCodes.CirDqueu
