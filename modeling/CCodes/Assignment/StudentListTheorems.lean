/-
CCodes.Assignment.StudentListTheorems — a student is found exactly when one
with that id was pushed, and it is the one pushed last.

§1 runs `st_create`. §2 is what holds after any number of pushes
(`Represents`), what `st_search` answers then, and that the model of the
server has the same list and the same answers (`find_held`). Ids are given
as `int`, kept as `unsigned int` and compared as such; that no two are
confused is `toUInt32_inj`. §3 is `st_ll_get`, the list the server starts with.
§4 is the law.
-/
import Mathlib.Data.List.Find
import CCodes.Assignment.StudentList

namespace CCodes.Assignment.StudentList

open CCodes.Lib Block

variable {h : Heap Block} {z ll : Addr} {s t : Store} {c : Entry} {l : List Entry}

/-- The conversion from `int` to `unsigned int` loses nothing. -/
theorem toUInt32_inj {a b : Int32} : a.toUInt32 = b.toUInt32 ↔ a = b := by
  constructor
  · intro hab
    rw [← a.toInt32_toUInt32, hab, b.toInt32_toUInt32]
  · rintro rfl
    rfl

/-! ## §1 The functions -/

/-- `st_create` makes the record, and changes no other block. -/
theorem stCreate_spec {temp : Addr} {name : List UInt8} (junk : Detail) (id regNo : Int32)
    (hname : (cstr name).length < 200) (ht : Fresh h temp) :
    ∃ h' d, stCreate temp junk id name regNo h = some (temp, h') ∧
      h'.cell temp = some (.detail d) ∧ d.held = Assignment.stCreate id (cstr name) regNo ∧
      h'.freed = h.freed ∧ ∀ x, x ≠ temp → h'.cell x = h.cell x := by
  obtain ⟨buf, hbuf, htext⟩ := strcpy_text junk.name hname
  let d₁ : Detail := { junk with id := id.toUInt32 }
  let d₂ : Detail := { d₁ with regNo := regNo.toInt64.toUInt64 }
  let h₁ := h.put temp (.detail junk)
  let h₂ := h₁.store idOf temp id.toUInt32
  let h₃ := h₂.store regNoOf temp regNo.toInt64.toUInt64
  have hc₁ : h₁.cell temp = some (.detail junk) := by rw [Heap.cell_put ht.1, if_pos rfl]
  have hc₂ : h₂.cell temp = some (.detail d₁) := Heap.cell_store_self hc₁
  have hc₃ : h₃.cell temp = some (.detail d₂) := Heap.cell_store_self hc₂
  have hid : idOf.peek h₁ temp = some junk.id := by rw [Field.peek, hc₁]; rfl
  have hreg : regNoOf.peek h₂ temp = some junk.regNo := by rw [Field.peek, hc₂]; rfl
  have hnm : nameOf.peek h₃ temp = some junk.name := by rw [Field.peek, hc₃]; rfl
  refine ⟨h₃.store nameOf temp buf, { d₂ with name := buf }, ?_, Heap.cell_store_self hc₃, ?_, rfl,
    ?_⟩
  · rw [stCreate, bind_run (malloc_run ht), bind_run (store_run hid), bind_run (store_run hreg),
      bind_run (load_run hnm), hbuf]
    show (store nameOf temp buf >>= fun _ => pure temp : Prog Block Addr) h₃ = _
    rw [bind_run (store_run hnm), pure_run]
  · show (⟨_, cstr buf.bytes, _⟩ : StDetail) = _
    rw [htext]
    rfl
  · intro x hx
    rw [Heap.cell_store_ne hx, Heap.cell_store_ne hx, Heap.cell_store_ne hx, Heap.cell_put ht.1,
      if_neg hx]

/-! ## §2 The list -/

/-- The list holds the students `l`, the one pushed last first, in front of
the node `z`. -/
structure Represents (z : Addr) (l : List Entry) (s : Store) : Prop where
  chain : studentNode.Chain z s.ll (l.map fun c => (c.node, c.record)) s.heap
  stored : ∀ c ∈ l, ∃ d, s.heap.cell c.record = some (.detail d) ∧ d.held = c.held

namespace Represents

/-- What was there is still there. -/
theorem keep {h' : Heap Block} (r : Represents z l s)
    (hcell : ∀ x b, s.heap.cell x = some b → h'.cell x = some b) : Represents z l ⟨h', s.ll⟩ where
  chain := r.chain.congr fun x hx => by
    obtain ⟨b, hb⟩ := Option.isSome_iff_exists.mp (r.chain.live x hx)
    rw [hcell x b hb, hb]
  stored c hc := by
    obtain ⟨d, hd, hheld⟩ := r.stored c hc
    exact ⟨d, hcell _ _ hd, hheld⟩

/-- **Step lemma.** A push returns, and puts the student in front. -/
theorem push (r : Represents z l s) (hok : EntryOk s c) :
    ∃ t, step s c = some ((), t) ∧ Represents z (c :: l) t := by
  obtain ⟨hname, hrec, hnode, hne⟩ := hok
  obtain ⟨h₁, d, hcreate, hd, hheld, -, hcell₁⟩ :=
    stCreate_spec c.junk c.id c.regNo hname hrec
  -- the record is no node of the list, so the chain is still there
  have hchain₁ : studentNode.Chain z s.ll (l.map fun c => (c.node, c.record)) h₁ := by
    refine r.chain.congr fun x hx => hcell₁ x ?_
    rintro rfl
    exact r.chain.not_mem_of_dead hrec.2 hx
  have hnode₁ : Fresh h₁ c.node := ⟨hnode.1, by rw [hcell₁ _ hne, hnode.2]⟩
  obtain ⟨h₂, hpush, hchain₂, -, hcell₂⟩ :=
    NodeFormat.push_spec c.record c.junkNext hnode₁ hchain₁
  refine ⟨⟨h₂, c.node⟩, ?_, hchain₂, ?_⟩
  · have hrun : c.push s.ll s.heap = some (c.node, h₂) := by
      rw [Entry.push, bind_run hcreate]
      exact hpush
    simp [step, hrun]
  · rw [List.forall_mem_cons]
    refine ⟨⟨d, by rw [hcell₂ _ hne.symm, hd], hheld⟩, fun c' hc' => ?_⟩
    obtain ⟨d', hd', hheld'⟩ := r.stored c' hc'
    refine ⟨d', ?_, hheld'⟩
    have hne₁ : c'.record ≠ c.record := by
      intro heq
      rw [heq, hrec.2] at hd'
      cases hd'
    have hne₂ : c'.record ≠ c.node := by
      intro heq
      rw [heq, hnode.2] at hd'
      cases hd'
    rw [hcell₂ _ hne₂, hcell₁ _ hne₁, hd']

/-- What `st_search` reads in the record of a student that was pushed. -/
theorem id_record (r : Represents z l s) (hc : c ∈ l) :
    idOf.peek s.heap c.record = some c.id.toUInt32 := by
  obtain ⟨d, hd, hheld⟩ := r.stored c hc
  rw [Field.peek, hd]
  exact congrArg (some ·.id) hheld

/-- `st_search` gives the student pushed last among those with the id, and
changes nothing. -/
theorem search {fuel : Nat} (r : Represents z l s) (q : Int32) (data : Addr)
    (hfuel : l.length < fuel) :
    stSearch fuel s.ll q data s.heap =
      some ((l.find? fun c => c.id == q).elim (-1, data) (fun c => (0, c.record)), s.heap) := by
  have hkeys : ∀ n ∈ l.map fun c => (c.node, c.record),
      idOf.peek s.heap n.2 = some ((idOf.peek s.heap n.2).getD 0) := by
    intro n hn
    obtain ⟨c, hc, rfl⟩ := List.mem_map.mp hn
    rw [r.id_record hc]
    rfl
  rw [stSearch, NodeFormat.search_spec data r.chain hkeys (by simpa using hfuel), List.find?_map]
  have hfind : l.find? ((fun n => (idOf.peek s.heap n.2).getD 0 == q.toUInt32) ∘
      fun c => (c.node, c.record)) = l.find? fun c => c.id == q := by
    refine List.find?_congr fun c hc => ?_
    rw [Function.comp_apply, r.id_record hc, Bool.eq_iff_iff, beq_iff_eq, beq_iff_eq]
    exact toUInt32_inj
  rw [hfind]
  cases l.find? fun c => c.id == q <;> rfl

end Represents

/-- **Run lemma.** The list holds the students pushed. -/
theorem represents_of_exec {s₀ : Store} {tr : List (Entry × Unit)} (r₀ : Represents z [] s₀)
    (hexec : Exec step EntryOk s₀ tr s) : Represents z (tr.map Prod.fst).reverse s := by
  induction hexec with
  | nil => exact r₀
  | snoc hexec hok hstep ih =>
    obtain ⟨t, hstep', r⟩ := ih.push hok
    rw [hstep, Option.some.injEq, Prod.mk.injEq] at hstep'
    obtain ⟨-, rfl⟩ := hstep'
    simpa using r

/-- In the model of the server the list is the list of the records, and its
search gives the record of what is found here. -/
theorem find_held (l : List Entry) (q : Int32) :
    l.foldr (fun c ll => Assignment.stPush ll c.held) [] = l.map Entry.held ∧
      Assignment.stSearch (l.map Entry.held) q = (l.find? fun c => c.id == q).map Entry.held := by
  constructor
  · induction l with
    | nil => rfl
    | cons c l ih => rw [List.foldr_cons, ih]; rfl
  · rw [Assignment.stSearch, List.find?_map]
    congr 1
    refine List.find?_congr fun c _ => ?_
    rw [Function.comp_apply, Bool.eq_iff_iff, beq_iff_eq, beq_iff_eq]
    exact toUInt32_inj

/-- Of the students pushed, the search meets the last one first. -/
theorem find_last {pre post : List Entry} {q : Int32} (hc : c.id = q)
    (hpost : ∀ c' ∈ post, c'.id ≠ q) :
    (pre ++ c :: post).reverse.find? (fun c => c.id == q) = some c := by
  have hnone : post.reverse.find? (fun c => c.id == q) = none := by
    simpa using hpost
  simp [List.find?_append, hnone, hc]

/-- The record of a student has what was given. -/
theorem Represents.record (r : Represents z l s) (hc : c ∈ l) :
    ∃ d, s.heap.cell c.record = some (.detail d) ∧ d.id = c.id.toUInt32 ∧
      cstr d.name.bytes = cstr c.name ∧ d.regNo.toBitVec = c.regNo.toBitVec.signExtend 64 := by
  obtain ⟨d, hd, hheld⟩ := r.stored c hc
  obtain ⟨hid, hname, hreg⟩ := StDetail.mk.inj hheld
  refine ⟨d, hd, hid, hname, ?_⟩
  rw [hreg]
  rfl

/-- The answer to one query after the pushes `ps`. -/
theorem Represents.lookup {ps : List Entry} (r : Represents z ps.reverse s) (q : Int32)
    (data : Addr) :
    ∃ ret data',
      (∀ fuel, ps.length < fuel →
        stSearch fuel s.ll q data s.heap = some ((ret, data'), s.heap)) ∧
      (ret = 0 ↔ ∃ c ∈ ps, c.id = q) ∧ (ret ≠ 0 → ret = -1 ∧ data' = data) ∧
      ∀ pre c post, ps = pre ++ c :: post → c.id = q → (∀ c' ∈ post, c'.id ≠ q) →
        data' = c.record ∧ ∃ d, s.heap.cell data' = some (.detail d) ∧
          d.id = q.toUInt32 ∧ cstr d.name.bytes = cstr c.name ∧
          d.regNo.toBitVec = c.regNo.toBitVec.signExtend 64 := by
  have hsearch : ∀ fuel, ps.length < fuel → stSearch fuel s.ll q data s.heap = _ :=
    fun fuel hfuel => r.search q data (by simpa using hfuel)
  cases hfind : ps.reverse.find? fun c => c.id == q with
  | none =>
    rw [hfind] at hsearch
    have hno : ∀ c ∈ ps, c.id ≠ q := by simpa using hfind
    refine ⟨-1, data, hsearch, ?_, fun _ => ⟨rfl, rfl⟩, fun pre c post heq hc => ?_⟩
    · simpa using hno
    · exact absurd hc (hno c (by simp [heq]))
  | some c₀ =>
    rw [hfind] at hsearch
    have hmem : c₀ ∈ ps := by simpa using List.mem_of_find?_eq_some hfind
    have hid : c₀.id = q := by simpa using List.find?_some hfind
    refine ⟨0, c₀.record, hsearch, ?_, fun h0 => absurd rfl h0, fun pre c post heq hc hpost => ?_⟩
    · simpa using ⟨c₀, hmem, hid⟩
    · obtain rfl : c = c₀ := by
        rw [heq, find_last hc hpost] at hfind
        exact Option.some.inj hfind
      refine ⟨rfl, ?_⟩
      rw [← hc]
      exact r.record (by simpa using hmem)

/-! ## §3 The students of the server -/

/-- The records that `st_ll_get` makes. -/
theorem createAll_spec : ∀ {es : List Entry} {h : Heap Block},
    (∀ c ∈ es, (cstr c.name).length < 200) → (es.map Entry.record).Nodup →
    (∀ c ∈ es, Fresh h c.record) →
    ∃ h', createAll es h = some (es.map Entry.record, h') ∧
      (∀ c ∈ es, ∃ d, h'.cell c.record = some (.detail d) ∧ d.held = c.held) ∧
      h'.freed = h.freed ∧ ∀ x, x ∉ es.map Entry.record → h'.cell x = h.cell x
  | [], h, _, _, _ => ⟨h, rfl, by simp, rfl, fun _ _ => rfl⟩
  | c :: es, h, hnames, hnd, hfresh => by
      rw [List.forall_mem_cons] at hnames hfresh
      obtain ⟨hc, hnd⟩ := List.nodup_cons.mp hnd
      obtain ⟨h₁, d, hrun₁, hd, hheld, hfreed₁, hcell₁⟩ :=
        stCreate_spec c.junk c.id c.regNo hnames.1 hfresh.1
      have hfresh₁ : ∀ c' ∈ es, Fresh h₁ c'.record := by
        intro c' hc'
        have hne : c'.record ≠ c.record := fun heq => hc (heq ▸ List.mem_map_of_mem hc')
        exact ⟨(hfresh.2 c' hc').1, by rw [hcell₁ _ hne, (hfresh.2 c' hc').2]⟩
      obtain ⟨h₂, hrun₂, hstored, hfreed₂, hcell₂⟩ := createAll_spec hnames.2 hnd hfresh₁
      refine ⟨h₂, ?_, ?_, hfreed₂.trans hfreed₁, fun x hx => ?_⟩
      · rw [createAll, bind_run hrun₁, bind_run hrun₂, pure_run, List.map_cons]
      · rw [List.forall_mem_cons]
        exact ⟨⟨d, by rw [hcell₂ _ hc, hd], hheld⟩, hstored⟩
      · obtain ⟨hxc, hxes⟩ := List.ne_and_not_mem_of_not_mem_cons hx
        rw [hcell₂ x hxes, hcell₁ x hxc]

/-- The pushes of `st_ll_get`. -/
theorem pushAll_spec : ∀ {es : List Entry} {ns : List (Addr × Addr)} {ll : Addr} {h : Heap Block},
    studentNode.Chain z ll ns h → (es.map Entry.node).Nodup → (∀ c ∈ es, Fresh h c.node) →
    ∃ ll' h', pushAll ll ((es.map Entry.record).zip es) h = some (ll', h') ∧
      studentNode.Chain z ll' ((es.map fun c => (c.node, c.record)).reverse ++ ns) h' ∧
      h'.freed = h.freed ∧ ∀ x, x ∉ es.map Entry.node → h'.cell x = h.cell x
  | [], _, ll, h, hchain, _, _ => ⟨ll, h, rfl, hchain, rfl, fun _ _ => rfl⟩
  | c :: es, _, ll, h, hchain, hnd, hfresh => by
      rw [List.forall_mem_cons] at hfresh
      obtain ⟨hc, hnd⟩ := List.nodup_cons.mp hnd
      obtain ⟨h₁, hrun₁, hchain₁, hfreed₁, hcell₁⟩ :=
        NodeFormat.push_spec c.record c.junkNext hfresh.1 hchain
      have hfresh₁ : ∀ c' ∈ es, Fresh h₁ c'.node := by
        intro c' hc'
        have hne : c'.node ≠ c.node := fun heq => hc (heq ▸ List.mem_map_of_mem hc')
        exact ⟨(hfresh.2 c' hc').1, by rw [hcell₁ _ hne, (hfresh.2 c' hc').2]⟩
      obtain ⟨ll', h₂, hrun₂, hchain₂, hfreed₂, hcell₂⟩ := pushAll_spec hchain₁ hnd hfresh₁
      refine ⟨ll', h₂, ?_, ?_, hfreed₂.trans hfreed₁, fun x hx => ?_⟩
      · show (stPush ll c.record c.node c.junkNext >>= fun ll =>
          pushAll ll ((es.map Entry.record).zip es)) h = _
        rw [stPush, bind_run hrun₁, hrun₂]
      · rwa [List.map_cons, List.reverse_cons, List.append_assoc]
      · obtain ⟨hxc, hxes⟩ := List.ne_and_not_mem_of_not_mem_cons hx
        rw [hcell₂ x hxes, hcell₁ x hxc]

/-- The entries of `st_ll_get`, the one pushed last first. -/
def gotten (places : List Place) : List Entry :=
  (List.zipWith Place.entry places students).reverse

theorem map_zipWith_entry {γ : Type} (f : Entry → γ) (g : Place → γ)
    (hfg : ∀ p c, f (Place.entry p c) = g p) :
    ∀ {places : List Place} {cs : List (Int32 × List UInt8 × Int32)},
      places.length = cs.length → (List.zipWith Place.entry places cs).map f = places.map g
  | [], [], _ => rfl
  | p :: places, c :: cs, hlen => by
      rw [List.zipWith_cons_cons, List.map_cons, List.map_cons, hfg,
        map_zipWith_entry f g hfg (by simpa using hlen)]
  | [], _ :: _, hlen => by cases hlen
  | _ :: _, [], hlen => by cases hlen

/-- What is at the places is the list that the model of the server starts
with. -/
theorem held_gotten {places : List Place} (hlen : places.length = students.length) :
    (gotten places).map Entry.held = Assignment.stLlGet := by
  have hheld : ∀ {places : List Place} {cs : List (Int32 × List UInt8 × Int32)},
      places.length = cs.length → (List.zipWith Place.entry places cs).map Entry.held =
        cs.map fun c => Assignment.stCreate c.1 (cstr c.2.1) c.2.2 := by
    intro places
    induction places with
    | nil =>
      intro cs hlen
      obtain rfl := List.length_eq_zero_iff.mp hlen.symm
      rfl
    | cons p places ih =>
      intro cs hlen
      cases cs with
      | nil => cases hlen
      | cons c cs =>
        rw [List.zipWith_cons_cons, List.map_cons, List.map_cons, ih (by simpa using hlen)]
        rfl
  rw [gotten, List.map_reverse, hheld hlen]
  decide

/-- `st_ll_get` makes the list, and changes no other block. -/
theorem stLlGet_spec {places : List Place} (junkNext : Addr) (hok : PlacesOk h z places) :
    ∃ ll h', stLlGet z junkNext places h = some (ll, h') ∧
      Represents z (gotten places) ⟨h', ll⟩ ∧ h'.freed = h.freed ∧
      (∀ x ∈ z :: (places.map Place.record ++ places.map Place.node), h'.Live x) ∧
      ∀ x, x ∉ z :: (places.map Place.record ++ places.map Place.node) → h'.cell x = h.cell x := by
  obtain ⟨hlen, hnd, hfresh⟩ := hok
  let es := List.zipWith Place.entry places students
  have hrecords : es.map Entry.record = places.map Place.record :=
    map_zipWith_entry _ _ (fun _ _ => rfl) hlen
  have hnodes : es.map Entry.node = places.map Place.node :=
    map_zipWith_entry _ _ (fun _ _ => rfl) hlen
  rw [← hrecords, ← hnodes] at hnd hfresh ⊢
  obtain ⟨hz, hnd⟩ := List.nodup_cons.mp hnd
  obtain ⟨hndr, hndn, hdisj⟩ := List.nodup_append.mp hnd
  rw [List.forall_mem_cons] at hfresh
  have hnames : ∀ c ∈ es, (cstr c.name).length < 200 := by
    intro c hc
    obtain ⟨i, hi, rfl⟩ := List.mem_iff_getElem.mp hc
    simp only [es, List.getElem_zipWith, Place.entry]
    have hstudents : ∀ c ∈ students, (cstr c.2.1).length < 200 := by decide
    exact hstudents _ (List.getElem_mem _)
  obtain ⟨h₁, hrun₁, hchain₁, hfreed₁, hcell₁⟩ := studentNode.init_spec junkNext hfresh.1
  -- the records
  have hfresh₁ : ∀ c ∈ es, Fresh h₁ c.record := by
    intro c hc
    have hmem : c.record ∈ es.map Entry.record := List.mem_map_of_mem hc
    have hne : c.record ≠ z := fun heq => hz (heq ▸ List.mem_append_left _ hmem)
    obtain ⟨h0, hdead⟩ := hfresh.2 _ (List.mem_append_left _ hmem)
    exact ⟨h0, by rw [hcell₁ _ hne, hdead]⟩
  obtain ⟨h₂, hrun₂, hstored, hfreed₂, hcell₂⟩ := createAll_spec hnames hndr hfresh₁
  have hzr : z ∉ es.map Entry.record := fun hmem => hz (List.mem_append_left _ hmem)
  have hchain₂ : studentNode.Chain z z [] h₂ := hchain₁.congr fun x hx => by
    obtain rfl : x = z := by simpa using hx
    exact hcell₂ x hzr
  -- the pushes
  have hfresh₂ : ∀ c ∈ es, Fresh h₂ c.node := by
    intro c hc
    have hmem : c.node ∈ es.map Entry.node := List.mem_map_of_mem hc
    have hne : c.node ≠ z := fun heq => hz (heq ▸ List.mem_append_right _ hmem)
    have hnr : c.node ∉ es.map Entry.record := fun hr => hdisj _ hr _ hmem rfl
    obtain ⟨h0, hdead⟩ := hfresh.2 _ (List.mem_append_right _ hmem)
    exact ⟨h0, by rw [hcell₂ _ hnr, hcell₁ _ hne, hdead]⟩
  obtain ⟨ll, h₃, hrun₃, hchain₃, hfreed₃, hcell₃⟩ := pushAll_spec hchain₂ hndn hfresh₂
  have hstored₃ : ∀ c ∈ es, ∃ d, h₃.cell c.record = some (.detail d) ∧ d.held = c.held := by
    intro c hc
    obtain ⟨d, hd, hheld⟩ := hstored c hc
    have hmem : c.record ∈ es.map Entry.record := List.mem_map_of_mem hc
    exact ⟨d, by rw [hcell₃ _ fun hn => hdisj _ hmem _ hn rfl, hd], hheld⟩
  rw [List.append_nil, ← List.map_reverse] at hchain₃
  refine ⟨ll, h₃, ?_, ⟨hchain₃, fun c hc => hstored₃ c (List.mem_reverse.mp hc)⟩, ?_, ?_,
    fun x hx => ?_⟩
  · rw [stLlGet, stLlStart, bind_run hrun₁, bind_run hrun₂, hrun₃]
  · rw [hfreed₃, hfreed₂, hfreed₁]
  · intro x hx
    rcases List.mem_cons.mp hx with rfl | hx
    · exact hchain₃.live x (by simp)
    · rcases List.mem_append.mp hx with hx | hx
      · obtain ⟨c, hc, rfl⟩ := List.mem_map.mp hx
        obtain ⟨d, hd, -⟩ := hstored₃ c hc
        rw [Heap.Live, hd]
        rfl
      · obtain ⟨c, hc, rfl⟩ := List.mem_map.mp hx
        refine hchain₃.live c.node (List.mem_append_left _ ?_)
        rw [List.map_map]
        exact List.mem_map.mpr ⟨c, List.mem_reverse.mpr hc, rfl⟩
  · obtain ⟨hxz, hx⟩ := List.ne_and_not_mem_of_not_mem_cons hx
    rw [List.mem_append, not_or] at hx
    rw [hcell₃ x hx.2, hcell₂ x hx.1, hcell₁ x hxz]

/-! ## §4 The law -/

/-- **Student lookup.** From any heap with `z` not live, `st_ll_get` gets its
last node there, and every sequence of pushes is possible, whatever addresses
`malloc` picks among those not live, as long as the names fit. After it, for
every `q`: `st_search` returns, with 0 if and only if an id pushed is `q`, and
with -1 and `data` as it was otherwise. When `c` is the last push with that
id, `data` is its record, and the record has the id, the name and the
registration number (sign-extended) that were given. No search changes the heap
or faults, so none reads the `data` of `z`, which nothing was ever stored
in. -/
theorem student_lookup (h₀ : Heap Block) (z junkNext : Addr) (hz : Fresh h₀ z) :
    ∃ h₁, stLlStart z junkNext h₀ = some (z, h₁) ∧
      ∀ tr s, Exec step EntryOk ⟨h₁, z⟩ tr s →
        let pushed := tr.map Prod.fst
        dataOf.peek s.heap z = some none ∧
        (∀ c, EntryOk s c → ∃ t, step s c = some ((), t)) ∧
        ∀ q data, ∃ ret data',
          (∀ fuel, pushed.length < fuel →
            stSearch fuel s.ll q data s.heap = some ((ret, data'), s.heap)) ∧
          (ret = 0 ↔ ∃ c ∈ pushed, c.id = q) ∧
          (ret ≠ 0 → ret = -1 ∧ data' = data) ∧
          ∀ pre c post, pushed = pre ++ c :: post → c.id = q → (∀ c' ∈ post, c'.id ≠ q) →
            data' = c.record ∧ ∃ d, s.heap.cell data' = some (.detail d) ∧
              d.id = q.toUInt32 ∧ cstr d.name.bytes = cstr c.name ∧
              d.regNo.toBitVec = c.regNo.toBitVec.signExtend 64 := by
  obtain ⟨h₁, hrun, hchain, -, -⟩ := studentNode.init_spec junkNext hz
  refine ⟨h₁, hrun, fun tr s hexec => ?_⟩
  have r := represents_of_exec ⟨hchain, by simp⟩ hexec
  refine ⟨r.chain.blank, fun c hok => ?_, r.lookup⟩
  obtain ⟨t, hstep, -⟩ := r.push hok
  exact ⟨t, hstep⟩

/-- The id -1 is pushed twice, and 7 between: the search for -1 gives the
second of its records, at 48, and the search for 8 leaves `data` as it was. -/
theorem student_lookup_repeated_id :
    ∃ h₁ tr s, stLlStart 8 0 Heap.empty = some (8, h₁) ∧ Exec step EntryOk ⟨h₁, 8⟩ tr s ∧
      tr.map Prod.fst = [⟨-1, bytes "Avash", 1, 16, .zero, 24, 0⟩,
        ⟨7, bytes "Biraj", 2, 32, .zero, 40, 0⟩, ⟨-1, bytes "Abinash", -3, 48, .zero, 56, 0⟩] ∧
      stSearch 4 s.ll (-1) 99 s.heap = some ((0, 48), s.heap) ∧
      stSearch 4 s.ll 8 99 s.heap = some ((-1, 99), s.heap) := by
  obtain ⟨h₁, hstart, hlaw⟩ := student_lookup Heap.empty 8 0 ⟨by decide, rfl⟩
  have hrun : ∃ tr s, Exec step EntryOk ⟨h₁, 8⟩ tr s ∧
      tr.map Prod.fst = [⟨-1, bytes "Avash", 1, 16, .zero, 24, 0⟩,
        ⟨7, bytes "Biraj", 2, 32, .zero, 40, 0⟩, ⟨-1, bytes "Abinash", -3, 48, .zero, 56, 0⟩] ∧
      True := by
    obtain rfl := (Prod.mk.inj (Option.some.inj hstart)).2
    exact exec_such_that step EntryOk _ _ (fun _ => True) (by decide +kernel)
  obtain ⟨tr, s, hexec, hin, -⟩ := hrun
  obtain ⟨-, -, hquery⟩ := hlaw tr s hexec
  rw [hin] at hquery
  obtain ⟨ret, data, hfound, hzero, -, hlast⟩ := hquery (-1) 99
  obtain rfl : ret = 0 := hzero.mpr (by simp)
  obtain ⟨rfl, -⟩ := hlast [_, _] _ [] rfl rfl (by simp)
  obtain ⟨ret', data', hnone, hzero', hmiss, -⟩ := hquery 8 99
  have hne : ret' ≠ 0 := fun h0 => by simpa using hzero'.mp h0
  obtain ⟨rfl, rfl⟩ := hmiss hne
  exact ⟨h₁, tr, s, hstart, hexec, hin, hfound 4 (by simp), hnone 4 (by simp)⟩

end CCodes.Assignment.StudentList
