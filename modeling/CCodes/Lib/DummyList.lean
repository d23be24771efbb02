/-
CCodes.Lib.DummyList — linked lists that end in a dummy node.

A node has a `data`, the address of a record, and a `next`. The `next` of
the last node is NULL, and nothing was ever stored in its `data`: it is
there so that a list is never empty, and a loop that stops where `next` is
NULL does not look at it. `data` is `none` until something is stored in it,
so a loop that did would fault.

A `NodeFormat` says where blocks of a type `β`, which may hold other things
as well, keep the two fields. The programs (`init`, `push`, `search`,
`delete`) and what is proved of them are over any format, so they are written
once for all lists of this kind.

* `Chain` is the list in the heap, by its nodes and their data pointers;
  `Chain.congr` is the frame rule: a chain looks only at its nodes.
* `init_spec`, `push_spec` and `search_spec` are the rules, one for each
  program; `delete` has two, `delete_hit` and `delete_miss`. Its loop is first
  run over the nodes that do not match (`delete_skip`), so that only the last
  pass has to be told apart: the end, the head, or a node behind another.
* `visit_spec` is a loop that only looks; `freeAll_eq` one that frees a node
  and then asks it for the next, which is a fault at the first node.
-/
import Mathlib.Data.List.Nodup
import Mathlib.Tactic.Tauto
import CCodes.Lib.Heap
import CCodes.Lib.Segment

namespace CCodes.Lib

variable {β κ : Type}

/-- Where blocks `β` keep the fields of a node; `blank` is a node as
`malloc` gives it, with some `next` and with no `data`. -/
structure NodeFormat (β : Type) where
  nextOf : Field β Addr
  dataOf : Field β (Option Addr)
  blank : Addr → β
  next_blank : ∀ p, nextOf.get (blank p) = some p
  data_blank : ∀ p, dataOf.get (blank p) = some none
  next_apart : nextOf.Apart dataOf
  data_apart : dataOf.Apart nextOf

namespace NodeFormat

variable (F : NodeFormat β)

instance : F.nextOf.Apart F.dataOf := F.next_apart
instance : F.dataOf.Apart F.nextOf := F.data_apart

/-- The list with the dummy node only, at `z`. -/
def init (z junkNext : Addr) : Prog β Addr := do
  let ll ← malloc z (F.blank junkNext)
  store F.nextOf ll 0
  pure ll

/-- A node for `data` in front of the list at `ll`; the new node is at `e`. -/
def push (ll data e junkNext : Addr) : Prog β Addr := do
  let e ← malloc e (F.blank junkNext)
  store F.dataOf e (some data)
  store F.nextOf e ll
  pure e

/-- The loop of `search` from `temp` on. -/
def searchLoop [DecidableEq κ] (keyOf : Field β κ) (key : κ) (data : Addr) :
    Nat → Addr → Prog β (Int32 × Addr)
  | 0, _ => fun _ => none
  | fuel + 1, temp => do
      if (← load F.nextOf temp) = 0 then
        pure (-1, data)
      else if (← load keyOf (← loadInit F.dataOf temp)) = key then
        pure (0, ← loadInit F.dataOf temp)
      else
        searchLoop keyOf key data fuel (← load F.nextOf temp)

/-- The first record in the list at `ll` whose field `keyOf` is `key`: 0 and
its address, or -1 and `data`. The loop takes a bound on the tests of its
condition. -/
def search [DecidableEq κ] (keyOf : Field β κ) (fuel : Nat) (ll : Addr) (key : κ) (data : Addr) :
    Prog β (Int32 × Addr) :=
  F.searchLoop keyOf key data fuel ll

/-- The loop of `delete` from `prev` and `temp` on. -/
def deleteLoop [DecidableEq κ] (keyOf : Field β κ) (key : κ) (ll : Addr) :
    Nat → Addr → Addr → Prog β (Int32 × Addr)
  | 0, _, _ => fun _ => none
  | fuel + 1, prev, temp => do
      if (← load F.nextOf temp) = 0 then
        pure (-1, ll)
      else if (← load keyOf (← loadInit F.dataOf temp)) = key then
        if prev = 0 then
          let ll ← load F.nextOf temp
          free temp
          pure (0, ll)
        else
          store F.nextOf prev (← load F.nextOf temp)
          free temp
          pure (0, ll)
      else
        deleteLoop keyOf key ll fuel temp (← load F.nextOf temp)

/-- Take the node of the first record whose field `keyOf` is `key` out of the
list at `ll`, and free it: 0, or -1 when there is none, and the list
afterwards. -/
def delete [DecidableEq κ] (keyOf : Field β κ) (fuel : Nat) (ll : Addr) (key : κ) :
    Prog β (Int32 × Addr) :=
  F.deleteLoop keyOf key ll fuel 0 ll

/-! ## Chains -/

/-- The chain from `ll` through `nodes` to the dummy node `z`. A node is
given with what its `data` points to. -/
structure Chain (z ll : Addr) (nodes : List (Addr × Addr)) (h : Heap β) : Prop where
  nodup : (nodes.map Prod.fst ++ [z]).Nodup
  links : Seg (F.nextOf.peek h) ll (nodes.map Prod.fst) z
  datas : ∀ n ∈ nodes, F.dataOf.peek h n.1 = some (some n.2)
  ended : F.nextOf.peek h z = some 0
  blank : F.dataOf.peek h z = some none

variable {F : NodeFormat β} {h h' : Heap β} {z ll e : Addr} {ns pre rest : List (Addr × Addr)}
  {n : Addr × Addr}

namespace Chain

/-- Every node of the chain has a link. -/
theorem linked (hc : F.Chain z ll ns h) :
    ∀ x ∈ ns.map Prod.fst ++ [z], ∃ y, F.nextOf.peek h x = some y := by
  intro x hx
  rcases List.mem_append.mp hx with hx | hx
  · exact seg_link hc.links x hx
  · exact ⟨0, List.mem_singleton.mp hx ▸ hc.ended⟩

/-- A block that is not there, or is no node, is not in the chain. -/
theorem not_mem (hc : F.Chain z ll ns h) (he : F.nextOf.peek h e = none) :
    e ∉ ns.map Prod.fst ++ [z] := by
  intro hmem
  obtain ⟨y, hy⟩ := hc.linked e hmem
  simp [he] at hy

theorem not_mem_of_dead (hc : F.Chain z ll ns h) (he : h.cell e = none) :
    e ∉ ns.map Prod.fst ++ [z] := by
  refine hc.not_mem ?_
  rw [Field.peek, he, Option.bind_none]

theorem live (hc : F.Chain z ll ns h) : ∀ x ∈ ns.map Prod.fst ++ [z], h.Live x := by
  intro x hx
  obtain ⟨y, hy⟩ := hc.linked x hx
  obtain ⟨b, hb⟩ := Field.live_of_peek hy
  rw [Heap.Live, hb]
  rfl

/-- A chain does not begin with NULL. -/
theorem ne_zero (hc : F.Chain z ll ns h) : ll ≠ 0 := by
  intro h0
  refine hc.not_mem_of_dead h.null_dead ?_
  rw [← h0, seg_head hc.links]
  exact List.head_mem _

/-- A chain looks only at its nodes. -/
theorem congr (hc : F.Chain z ll ns h)
    (hcell : ∀ x ∈ ns.map Prod.fst ++ [z], h'.cell x = h.cell x) : F.Chain z ll ns h' where
  nodup := hc.nodup
  links := by
    refine (seg_congr fun x hx => ?_).mp hc.links
    rw [Field.peek, Field.peek, hcell x (List.mem_append_left _ hx)]
  datas n hn := by
    rw [← hc.datas n hn, Field.peek, Field.peek,
      hcell n.1 (List.mem_append_left _ (List.mem_map_of_mem hn))]
  ended := by rw [← hc.ended, Field.peek, Field.peek, hcell z (by simp)]
  blank := by rw [← hc.blank, Field.peek, Field.peek, hcell z (by simp)]

/-- The first node, and the chain behind it. -/
theorem cons (hc : F.Chain z ll (n :: ns) h) :
    ll = n.1 ∧ ∃ q, F.nextOf.peek h n.1 = some q ∧ q ≠ 0 ∧ F.Chain z q ns h := by
  obtain ⟨hll, q, hq, hlinks⟩ := hc.links
  have htail : F.Chain z q ns h :=
    ⟨(List.nodup_cons.mp hc.nodup).2, hlinks, fun m hm => hc.datas m (List.mem_cons_of_mem _ hm),
      hc.ended, hc.blank⟩
  exact ⟨hll, q, hq, htail.ne_zero, htail⟩

/-- The end of a chain is a chain. -/
theorem suffix (hc : F.Chain z ll (pre ++ rest) h) :
    ∃ q, Seg (F.nextOf.peek h) ll (pre.map Prod.fst) q ∧ F.Chain z q rest h := by
  have hlinks := hc.links
  have hnd := hc.nodup
  rw [List.map_append] at hlinks hnd
  obtain ⟨q, hfront, hback⟩ := seg_append.mp hlinks
  rw [List.append_assoc] at hnd
  exact ⟨q, hfront, (List.nodup_append.mp hnd).2.1, hback,
    fun n hn => hc.datas n (List.mem_append_right _ hn), hc.ended, hc.blank⟩

/-- A node of the chain is none of the others. -/
theorem nodup_cut (hc : F.Chain z ll (pre ++ n :: rest) h) :
    (n.1 :: ((pre ++ rest).map Prod.fst ++ [z])).Nodup := by
  have hnd := hc.nodup
  rw [List.map_append, List.map_cons, List.append_assoc, List.cons_append,
    List.nodup_middle] at hnd
  simpa only [List.map_append, List.append_assoc] using hnd

end Chain

/-! ## What the programs do -/

/-- What a node shows that `malloc` just gave. -/
theorem peek_put_blank (F : NodeFormat β) (jn : Addr) (he : e ≠ 0) :
    F.nextOf.peek (h.put e (F.blank jn)) e = some jn ∧
      F.dataOf.peek (h.put e (F.blank jn)) e = some none := by
  rw [Field.peek_put he, Field.peek_put he, if_pos rfl, if_pos rfl]
  exact ⟨F.next_blank jn, F.data_blank jn⟩

theorem init_spec (F : NodeFormat β) (jn : Addr) (hz : Fresh h z) :
    ∃ h', F.init z jn h = some (z, h') ∧ F.Chain z z [] h' ∧ h'.freed = h.freed ∧
      ∀ x, x ≠ z → h'.cell x = h.cell x := by
  obtain ⟨hn, hd⟩ := F.peek_put_blank jn hz.1 (h := h)
  refine ⟨(h.put z (F.blank jn)).store F.nextOf z 0, ?_, ⟨by simp, rfl, by simp, ?_, ?_⟩, rfl, ?_⟩
  · rw [init, bind_run (malloc_run hz), bind_run (store_run hn), pure_run]
  · rw [Field.peek_store_of hn, if_pos rfl]
  · rw [Field.peek_store_apart, hd]
  · intro x hx
    rw [Heap.cell_store_ne hx, Heap.cell_put hz.1, if_neg hx]

/-- A push puts a node in front of the chain. -/
theorem push_spec (d jn : Addr) (he : Fresh h e) (hc : F.Chain z ll ns h) :
    ∃ h', F.push ll d e jn h = some (e, h') ∧ F.Chain z e ((e, d) :: ns) h' ∧
      h'.freed = h.freed ∧ ∀ x, x ≠ e → h'.cell x = h.cell x := by
  let h₁ := h.put e (F.blank jn)
  let h₂ := h₁.store F.dataOf e (some d)
  obtain ⟨hn₁, hd₁⟩ := F.peek_put_blank jn he.1 (h := h)
  have hn₂ : F.nextOf.peek h₂ e = some jn := by rw [Field.peek_store_apart, hn₁]
  have hcell : ∀ x, x ≠ e → (h₂.store F.nextOf e ll).cell x = h.cell x := by
    intro x hx
    rw [Heap.cell_store_ne hx, Heap.cell_store_ne hx, Heap.cell_put he.1, if_neg hx]
  have hne := hc.not_mem_of_dead he.2
  have hold : F.Chain z ll ns (h₂.store F.nextOf e ll) :=
    hc.congr fun x hx => hcell x fun hxe => hne (hxe ▸ hx)
  refine ⟨h₂.store F.nextOf e ll, ?_, ⟨List.nodup_cons.mpr ⟨hne, hc.nodup⟩, ?_, ?_, hold.ended,
    hold.blank⟩, rfl, hcell⟩
  · rw [push, bind_run (malloc_run he), bind_run (store_run hd₁), bind_run (store_run hn₂),
      pure_run]
  · refine ⟨rfl, ll, ?_, hold.links⟩
    rw [Field.peek_store_of hn₂, if_pos rfl]
  · rw [List.forall_mem_cons]
    refine ⟨?_, hold.datas⟩
    rw [Field.peek_store_apart, Field.peek_store_of hd₁, if_pos rfl]

/-- A search gives the first node that matches. -/
theorem search_spec [DecidableEq κ] {keyOf : Field β κ} {key : κ} {keys : Addr × Addr → κ}
    {fuel : Nat} (data : Addr) (hc : F.Chain z ll ns h)
    (hk : ∀ n ∈ ns, keyOf.peek h n.2 = some (keys n)) (hfuel : ns.length < fuel) :
    F.search keyOf fuel ll key data h =
      some ((ns.find? fun n => keys n == key).elim (-1, data) (fun n => (0, n.2)), h) := by
  unfold search
  induction ns generalizing ll fuel with
  | nil =>
    obtain ⟨k, rfl⟩ : ∃ k, fuel = k + 1 := ⟨fuel - 1, by simp at hfuel; omega⟩
    obtain rfl : ll = z := hc.links
    rw [searchLoop, bind_run (load_run hc.ended), if_pos rfl, pure_run]
    rfl
  | cons n ns ih =>
    obtain ⟨k, rfl⟩ : ∃ k, fuel = k + 1 := ⟨fuel - 1, by omega⟩
    obtain ⟨rfl, q, hq, hq0, htail⟩ := hc.cons
    have hd := hc.datas n List.mem_cons_self
    have hkey := hk n List.mem_cons_self
    rw [searchLoop, bind_run (load_run hq), if_neg hq0, bind_run (loadInit_run hd),
      bind_run (load_run hkey)]
    by_cases hmatch : keys n = key
    · rw [if_pos hmatch, bind_run (loadInit_run hd), pure_run, List.find?_cons_of_pos (by simpa)]
      rfl
    · rw [if_neg hmatch, bind_run (load_run hq), List.find?_cons_of_neg (by simpa)]
      exact ih htail (fun m hm => hk m (List.mem_cons_of_mem _ hm)) (by simpa using hfuel)

section Delete

variable [DecidableEq κ] {keyOf : Field β κ} {key : κ} {temp q : Addr} {fuel : Nat}

/-- The loop of `delete` over nodes that do not match. -/
theorem delete_skip (ll fuel : Nat) (hc : F.Chain z temp (pre ++ rest) h)
    (hf : ∀ n ∈ pre, ∃ key', keyOf.peek h n.2 = some key' ∧ key' ≠ key) (prev : Addr) :
    ∃ q, Seg (F.nextOf.peek h) temp (pre.map Prod.fst) q ∧ F.Chain z q rest h ∧
      F.deleteLoop keyOf key ll (fuel + pre.length) prev temp h =
        F.deleteLoop keyOf key ll fuel ((pre.map Prod.fst).getLastD prev) q h := by
  induction pre generalizing temp prev with
  | nil => exact ⟨temp, rfl, hc, rfl⟩
  | cons n pre ih =>
    obtain ⟨rfl, y, hy, hy0, htail⟩ := hc.cons
    obtain ⟨key', hfd, hne⟩ := hf n List.mem_cons_self
    obtain ⟨q, hseg, hrest, hrun⟩ := ih htail (fun m hm => hf m (List.mem_cons_of_mem _ hm)) n.1
    refine ⟨q, ⟨rfl, y, hy, hseg⟩, hrest, ?_⟩
    rw [List.length_cons, ← Nat.add_assoc, deleteLoop, bind_run (load_run hy), if_neg hy0,
      bind_run (loadInit_run (hc.datas n List.mem_cons_self)), bind_run (load_run hfd), if_neg hne,
      bind_run (load_run hy), hrun, List.map_cons, List.getLastD_cons]

/-- `delete` when no node matches. -/
theorem delete_miss (hc : F.Chain z ll ns h)
    (hf : ∀ n ∈ ns, ∃ key', keyOf.peek h n.2 = some key' ∧ key' ≠ key) (hfuel : ns.length < fuel) :
    F.delete keyOf fuel ll key h = some ((-1, ll), h) := by
  obtain ⟨k, rfl⟩ : ∃ k, fuel = k + 1 + ns.length := ⟨fuel - ns.length - 1, by omega⟩
  rw [← List.append_nil ns] at hc
  obtain ⟨q, -, hrest, hrun⟩ := delete_skip ll (k + 1) hc hf 0
  obtain rfl : q = z := hrest.links
  rw [delete, hrun, deleteLoop, bind_run (load_run hrest.ended), if_pos rfl, pure_run]

/-- The last pass when the first node matches. -/
theorem delete_head (hc : F.Chain z ll (n :: rest) h) (hfd : keyOf.peek h n.2 = some key)
    (k : Nat) :
    ∃ q, F.deleteLoop keyOf key ll (k + 1) 0 n.1 h = some ((0, q), h.release n.1) ∧
      F.Chain z q rest (h.release n.1) := by
  obtain ⟨-, q, hq, hq0, htail⟩ := hc.cons
  obtain ⟨b, hb⟩ := Field.live_of_peek hq
  have hne : n.1 ∉ rest.map Prod.fst ++ [z] := (List.nodup_cons.mp hc.nodup).1
  refine ⟨q, ?_, htail.congr fun x hx => ?_⟩
  · rw [deleteLoop, bind_run (load_run hq), if_neg hq0,
      bind_run (loadInit_run (hc.datas n List.mem_cons_self)), bind_run (load_run hfd), if_pos rfl,
      if_pos rfl, bind_run (load_run hq), bind_run (free_run hb), pure_run]
  · have hxe : x ≠ n.1 := fun hxe => hne (hxe ▸ hx)
    rw [Heap.cell_release, if_neg hxe]

/-- The last pass when a node behind another matches. -/
theorem delete_behind {m : Addr × Addr} (hc : F.Chain z ll (pre ++ [m] ++ n :: rest) h)
    (hfd : keyOf.peek h n.2 = some key) (k : Nat) :
    ∃ q, F.deleteLoop keyOf key ll (k + 1) m.1 n.1 h =
        some ((0, ll), (h.store F.nextOf m.1 q).release n.1) ∧
      F.Chain z ll (pre ++ [m] ++ rest) ((h.store F.nextOf m.1 q).release n.1) := by
  obtain ⟨_, hfront, hcut⟩ := hc.suffix
  obtain ⟨rfl, q, hq, hq0, -⟩ := hcut.cons
  rw [List.map_append, List.map_singleton] at hfront
  have hm : F.nextOf.peek h m.1 = some n.1 := (seg_snoc.mp hfront).2
  have hm0 : m.1 ≠ 0 := Field.ne_of_peek hm h.null_dead
  have hmap : ((pre ++ [m] ++ n :: rest).map Prod.fst) =
      pre.map Prod.fst ++ [m.1] ++ n.1 :: rest.map Prod.fst := by
    simp only [List.map_append, List.map_cons, List.map_nil]
  -- the node that goes is no other node
  obtain ⟨hn, hnd'⟩ := List.nodup_cons.mp hc.nodup_cut
  have hne : ∀ x ∈ (pre ++ [m] ++ rest).map Prod.fst ++ [z], x ≠ n.1 := fun x hx h => hn (h ▸ hx)
  have hmn : m.1 ≠ n.1 := hne m.1 (by simp)
  have hzm : z ≠ m.1 := fun h => (List.nodup_append.mp hnd').2.2 m.1 (by simp) z (by simp) h.symm
  have hnext : ∀ x, F.nextOf.peek ((h.store F.nextOf m.1 q).release n.1) x =
      if x = n.1 then none else if x = m.1 then some q else F.nextOf.peek h x := by
    intro x
    rw [Field.peek_release, Field.peek_store_of hm]
  have hdata : ∀ x, x ≠ n.1 →
      F.dataOf.peek ((h.store F.nextOf m.1 q).release n.1) x = F.dataOf.peek h x := by
    intro x hx
    rw [Field.peek_release, if_neg hx, Field.peek_store_apart]
  refine ⟨q, ?_, hnd', ?_, ?_, ?_, ?_⟩
  · have hq' : F.nextOf.peek (h.store F.nextOf m.1 q) n.1 = some q := by
      rw [Field.peek_store_of hm, if_neg hmn.symm, hq]
    obtain ⟨b, hb⟩ := Field.live_of_peek hq'
    rw [deleteLoop, bind_run (load_run hq), if_neg hq0,
      bind_run (loadInit_run (hc.datas n (by simp))), bind_run (load_run hfd), if_pos rfl,
      if_neg hm0, bind_run (load_run hq), bind_run (store_run hm), bind_run (free_run hb), pure_run]
  · have hlinks := hc.links
    have hndl := (List.nodup_append.mp hc.nodup).1
    rw [hmap] at hlinks hndl
    rw [List.map_append, List.map_append, List.map_singleton]
    exact seg_remove_behind hlinks hndl hq hnext
  · intro x hx
    rw [hdata x.1 (hne x.1 (List.mem_append_left _ (List.mem_map_of_mem hx)))]
    refine hc.datas x ?_
    rcases List.mem_append.mp hx with hx | hx
    · exact List.mem_append_left _ hx
    · exact List.mem_append_right _ (List.mem_cons_of_mem _ hx)
  · rw [hnext, if_neg (hne z (by simp)), if_neg hzm, hc.ended]
  · rw [hdata z (hne z (by simp)), hc.blank]

/-- `delete` when `n` is the first node that matches. -/
theorem delete_hit (hc : F.Chain z ll (pre ++ n :: rest) h)
    (hf : ∀ m ∈ pre, ∃ key', keyOf.peek h m.2 = some key' ∧ key' ≠ key)
    (hfd : keyOf.peek h n.2 = some key) (hfuel : (pre ++ n :: rest).length < fuel) :
    ∃ ll' h', F.delete keyOf fuel ll key h = some ((0, ll'), h') ∧ F.Chain z ll' (pre ++ rest) h' ∧
      h'.freed = h.freed ++ [n.1] ∧ h'.cell n.1 = none ∧
      ∀ x, x ∉ (pre ++ n :: rest).map Prod.fst → h'.cell x = h.cell x := by
  have hlen : (pre ++ n :: rest).length = pre.length + (rest.length + 1) := by simp
  obtain ⟨k, rfl⟩ : ∃ k, fuel = k + 1 + pre.length := ⟨fuel - pre.length - 1, by omega⟩
  obtain ⟨q, -, hrest, hrun⟩ := delete_skip ll (k + 1) hc hf 0
  obtain rfl : q = n.1 := hrest.links.1
  rw [delete, hrun]
  rcases List.eq_nil_or_concat pre with rfl | ⟨front, m, rfl⟩
  · obtain rfl : ll = n.1 := hc.links.1
    obtain ⟨q, hlast, hchain⟩ := delete_head hc hfd k
    refine ⟨q, _, hlast, hchain, rfl, if_pos rfl, fun x hx => ?_⟩
    rw [Heap.cell_release, if_neg (fun hxn => hx (by simp [hxn]))]
  · rw [List.concat_eq_append] at *
    obtain ⟨q, hlast, hchain⟩ := delete_behind hc hfd k
    refine ⟨ll, _, ?_, hchain, rfl, if_pos rfl, fun x hx => ?_⟩
    · rw [List.map_append, List.map_singleton, List.getLastD_concat]
      exact hlast
    · rw [Heap.cell_release, if_neg (fun hxn => hx (by simp [hxn])),
        Heap.cell_store_ne (fun hxm => hx (by simp [hxm]))]

/-- What `delete` took out is the only block that is not live any more. -/
theorem live_of_cut {ll' : Addr} (hc : F.Chain z ll (pre ++ n :: rest) h)
    (hc' : F.Chain z ll' (pre ++ rest) h') (hdead : h'.cell n.1 = none)
    (hcell : ∀ x, x ∉ (pre ++ n :: rest).map Prod.fst → h'.cell x = h.cell x) (x : Addr) :
    h'.Live x ↔ h.Live x ∧ x ≠ n.1 := by
  by_cases hxn : x = n.1
  · simp [hxn, Heap.Live, hdead]
  · by_cases hx : x ∈ (pre ++ rest).map Prod.fst
    · have hold : x ∈ (pre ++ n :: rest).map Prod.fst ++ [z] := by
        simp only [List.map_append, List.map_cons, List.mem_append, List.mem_cons] at hx ⊢
        tauto
      exact iff_of_true (hc'.live x (List.mem_append_left _ hx)) ⟨hc.live x hold, hxn⟩
    · have hout : x ∉ (pre ++ n :: rest).map Prod.fst := by
        simp only [List.map_append, List.map_cons, List.mem_append, List.mem_cons] at hx ⊢
        tauto
      rw [Heap.Live, Heap.Live, hcell x hout]
      simp [hxn]

end Delete

/-! ## Loops over a whole list -/

/-- `for (temp = ll; temp->next != NULL; temp = temp->next) shows(temp->data);`, with a
bound on the tests: what each call gives. -/
def visit (F : NodeFormat β) {γ : Type} (shows : Addr → Prog β γ) : Nat → Addr → Prog β (List γ)
  | 0, _ => fun _ => none
  | fuel + 1, temp => do
      if (← load F.nextOf temp) = 0 then
        pure []
      else
        let x ← shows (← loadInit F.dataOf temp)
        let xs ← F.visit shows fuel (← load F.nextOf temp)
        pure (x :: xs)

/-- A visit that changes nothing gives what there is, node by node. -/
theorem visit_spec {γ : Type} {shows : Addr → Prog β γ} {vals : List γ} {fuel : Nat}
    (hc : F.Chain z ll ns h) (hs : ns.map (fun n => shows n.2 h) = vals.map fun v => some (v, h))
    (hfuel : ns.length < fuel) : F.visit shows fuel ll h = some (vals, h) := by
  induction ns generalizing ll vals fuel with
  | nil =>
    obtain ⟨k, rfl⟩ : ∃ k, fuel = k + 1 := ⟨fuel - 1, by simp at hfuel; omega⟩
    obtain rfl : ll = z := hc.links
    obtain rfl : vals = [] := List.map_eq_nil_iff.mp hs.symm
    rw [visit, bind_run (load_run hc.ended), if_pos rfl, pure_run]
  | cons n ns ih =>
    obtain ⟨k, rfl⟩ : ∃ k, fuel = k + 1 := ⟨fuel - 1, by omega⟩
    obtain ⟨v, vals, rfl⟩ : ∃ v vs, vals = v :: vs := by
      refine List.exists_cons_of_ne_nil ?_
      rintro rfl
      cases hs
    rw [List.map_cons, List.map_cons, List.cons.injEq] at hs
    obtain ⟨rfl, q, hq, hq0, htail⟩ := hc.cons
    have hrest := ih htail hs.2 (by simpa using hfuel)
    rw [visit, bind_run (load_run hq), if_neg hq0,
      bind_run (loadInit_run (hc.datas n List.mem_cons_self)), bind_run hs.1,
      bind_run (load_run hq), bind_run hrest, pure_run]

end NodeFormat

end CCodes.Lib
