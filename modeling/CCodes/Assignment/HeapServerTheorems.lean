/-
CCodes.Assignment.HeapServerTheorems — the server over the heap is the server
of `CCodes.Assignment.Server`, and what it gives back of what it allocates.

§1 runs the parts of the body on the heap. §2 says when the heap holds the
sessions (`Represents`), and §3 that every event keeps this, with the same
answers, except for one way out of lines 143-150: they may run on the block
that `clientData` points to before any session (`SendsJunk`), and then follow a
pointer that was never stored.
-/
import Mathlib.Algebra.Ring.Nat
import CCodes.Assignment.HeapServer
import CCodes.Assignment.StudentListTheorems
import CCodes.Assignment.ServerTheorems

namespace CCodes.Assignment

open CCodes.Lib
open StudentList (Detail)

namespace HeapServer

open Block

variable {h h' : Heap Block} {a x : Addr} {d : Session} {e : Detail} {res : Message} {i : Fd}
  {openFDs : Finset Fd}

/-- The session a `struct SS_Data` is when its `data` leads to `data`. -/
def Session.record (d : Session) (data : StDetail) : SsData where
  fd := d.fd
  clientId := d.clientId
  reqCount := d.reqCount
  sFlag := d.sFlag
  tyFlag := d.tyFlag
  data := data

/-! ## §1 The parts of the body -/

theorem ne_zero_of_cell {b : Block} (hc : h.cell a = some b) : a ≠ 0 := by
  rintro rfl
  rw [h.null_dead] at hc
  cases hc

/-- What is there is not where `malloc` puts a block. -/
theorem ne_of_fresh {b : Block} (hc : h.cell x = some b) (ha : Fresh h a) : x ≠ a := by
  rintro rfl
  rw [ha.2] at hc
  cases hc

theorem fd_peek (hc : h.cell a = some (.session d)) : fdOf.peek h a = some d.fd := by
  rw [Field.peek, hc]
  rfl

theorem load_sFlag (hc : h.cell a = some (.session d)) :
    load sFlagOf a h = some (d.sFlag, h) := by
  refine load_run ?_
  rw [Field.peek, hc]
  rfl

theorem load_tyFlag (hc : h.cell a = some (.session d)) :
    load tyFlagOf a h = some (d.tyFlag, h) := by
  refine load_run ?_
  rw [Field.peek, hc]
  rfl

theorem load_detail (hc : h.cell a = some (.session d)) :
    load detailOf a h = some (d.data, h) := by
  refine load_run ?_
  rw [Field.peek, hc]
  rfl

/-- A store in a field of a session. -/
theorem store_session {γ : Type} {get : Session → γ} {set : γ → Session → Session}
    {hgs : ∀ v d, get (set v d) = v} (hc : h.cell a = some (.session d)) (v : γ) :
    store (ofSession get set hgs) a v h = some ((), h.put a (.session (set v d))) := by
  have hpeek : (ofSession get set hgs).peek h a = some (get d) := by
    rw [Field.peek, hc]
    rfl
  rw [store_run hpeek, Heap.store_eq_put hc]
  rfl

theorem store_sFlag (hc : h.cell a = some (.session d)) (v : Int32) :
    store sFlagOf a v h = some ((), h.put a (.session { d with sFlag := v })) :=
  store_session hc v

theorem store_tyFlag (hc : h.cell a = some (.session d)) (v : Int32) :
    store tyFlagOf a v h = some ((), h.put a (.session { d with tyFlag := v })) :=
  store_session hc v

theorem cell_put_self {b : Block} (ha : a ≠ 0) : (h.put a b).cell a = some b := by
  rw [Heap.cell_put ha, if_pos rfl]

/-- A store in a session that was just stored. -/
theorem store_put {γ : Type} {get : Session → γ} {set : γ → Session → Session}
    {hgs : ∀ v d, get (set v d) = v} (ha : a ≠ 0) (v : γ) :
    store (ofSession get set hgs) a v (h.put a (.session d)) =
      some ((), h.put a (.session (set v d))) := by
  rw [store_session (cell_put_self ha), Heap.put_put]

/-- Lines 127-141 change the flags, as `SsData.setFlags` does. -/
theorem setFlags_spec (hc : h.cell a = some (.session d)) (res : Message) :
    ∃ d' : Session, setFlags a res h = some ((), h.put a (.session d')) ∧ d'.data = d.data ∧
      ∀ data, d'.record data = (d.record data).setFlags res := by
  have ha := ne_zero_of_cell hc
  unfold setFlags
  by_cases hbuf : res.isBuffer = true
  · rw [if_pos hbuf]
    by_cases hty : res.saysThankYou = true
    · -- the flag is set, and an "again" is not said
      have hag := Message.not_saysAgain_of_saysThankYou hty
      have hc₁ : (h.put a (.session { d with tyFlag := 1 })).cell a = _ := cell_put_self ha
      refine ⟨{ d with tyFlag := 1 }, ?_, rfl, fun data => ?_⟩
      · rw [if_pos hty, bind_run (store_tyFlag hc 1)]
        show (load tyFlagOf a >>= _) _ = _
        rw [bind_run (load_tyFlag hc₁), if_neg (by simp [hag]), pure_run]
      · simp [SsData.setFlags, hbuf, hty, hag, Session.record]
    · rw [if_neg hty]
      show ∃ d' : Session, (load tyFlagOf a >>= _) h = _ ∧ _
      rw [bind_run (load_tyFlag hc)]
      by_cases hask : d.tyFlag = 1 ∧ res.saysAgain = true
      · have hc₁ : (h.put a (.session { d with tyFlag := 0 })).cell a = _ := cell_put_self ha
        refine ⟨{ d with tyFlag := 0, sFlag := 1 }, ?_, rfl, fun data => ?_⟩
        · rw [if_pos hask, bind_run (store_tyFlag hc 0), store_sFlag hc₁, Heap.put_put]
        · simp [SsData.setFlags, hbuf, hty, hask, Session.record]
      · refine ⟨d, ?_, rfl, fun data => ?_⟩
        · rw [if_neg hask, pure_run, Heap.put_self hc]
        · simp [SsData.setFlags, hbuf, hty, hask, Session.record]
  · refine ⟨d, ?_, rfl, fun data => ?_⟩
    · rw [if_neg hbuf, pure_run, Heap.put_self hc]
    · simp [SsData.setFlags, hbuf]

theorem write_open (hi : i ∈ openFDs) (m : Message) : write openFDs i m h = some ([m], h) := by
  rw [write, if_pos hi, pure_run]

theorem write_closed (hi : i ∉ openFDs) (m : Message) : write openFDs i m h = none := by
  rw [write, if_neg hi]
  rfl

/-- Lines 143-150 with nothing owed. -/
theorem sendDetail_none (hc : h.cell a = some (.session d)) (hs : d.sFlag ≠ 1) :
    sendDetail openFDs a i h = some ([], h) := by
  rw [sendDetail, bind_run (load_sFlag hc), if_neg hs, pure_run]

/-- Lines 143-150 with a detail owed, and a record behind `data`. -/
theorem sendDetail_owed (hc : h.cell a = some (.session d)) (hs : d.sFlag = 1)
    (he : h.cell d.data = some (.student (.detail e))) :
    sendDetail openFDs a i h = if i ∈ openFDs then
      some ([.ofDetail e.held], h.put a (.session { d with sFlag := 0 })) else none := by
  have hload : load structOf d.data h = some (e, h) := by
    refine load_run ?_
    rw [Field.peek, he]
    rfl
  rw [sendDetail, bind_run (load_sFlag hc), if_pos hs, bind_run (load_detail hc), bind_run hload]
  by_cases hi : i ∈ openFDs
  · rw [bind_run (write_open hi _), bind_run (store_sFlag hc 0), pure_run, if_pos hi]
  · rw [bind_fault (write_closed hi _), if_neg hi]

/-- Lines 143-150 with a detail owed, and no record behind `data`. -/
theorem sendDetail_dangling (hc : h.cell a = some (.session d)) (hs : d.sFlag = 1)
    (he : structOf.peek h d.data = none) : sendDetail openFDs a i h = none := by
  have hload : load structOf d.data h = none := by rw [load, he, Option.map_none]
  rw [sendDetail, bind_run (load_sFlag hc), if_pos hs, bind_run (load_detail hc), bind_fault hload]

/-- `create_ss` makes a session with a copy of the record, and changes no
other block. -/
theorem createSs_spec {m : Mallocs} {data : Addr} (fd : Fd) (clientId : Int32)
    (htemp : Fresh h m.temp) (hcopy : Fresh h m.copy) (hne : m.copy ≠ m.temp)
    (he : h.cell data = some (.student (.detail e))) (hname : (cstr e.name.bytes).length < 200) :
    ∃ h' d e', createSs m fd clientId data h = some (m.temp, h') ∧
      h'.cell m.temp = some (.session d) ∧ h'.cell d.data = some (.student (.detail e')) ∧
      d.data = m.copy ∧ d.record e'.held = Assignment.createSs fd clientId e.held ∧
      h'.freed = h.freed ∧ ∀ x, x ≠ m.temp → x ≠ m.copy → h'.cell x = h.cell x := by
  let d₁ : Session := { m.junk with fd := fd }
  let d₂ : Session := { d₁ with clientId := clientId }
  let h₂ := h.put m.temp (.session d₂)
  have hold₂ : ∀ x, x ≠ m.temp → h₂.cell x = h.cell x := by
    intro x hx
    rw [Heap.cell_put htemp.1, if_neg hx]
  have hfd : store fdOf m.temp fd (h.put m.temp (.session m.junk)) =
      some ((), h.put m.temp (.session d₁)) := store_put htemp.1 fd
  have hid : store clientIdOf m.temp clientId (h.put m.temp (.session d₁)) = some ((), h₂) :=
    store_put htemp.1 clientId
  have hload : load structOf data h₂ = some (e, h₂) := by
    have hdata : data ≠ m.temp := by
      rintro rfl
      rw [htemp.2] at he
      cases he
    refine load_run ?_
    rw [Field.peek, hold₂ data hdata, he]
    rfl
  -- the copy of the record is made by `st_create`
  have hcopy₂ : Fresh h₂ m.copy := ⟨hcopy.1, by rw [hold₂ _ hne, hcopy.2]⟩
  obtain ⟨k, e', hcreate, hk, hheld, hfreed, hkeep⟩ :=
    StudentList.stCreate_spec m.junkCopy e.id.toInt32 e.regNo.toUInt32.toInt32 hname
      (Part.fresh_view (P := students) hcopy₂)
  let h₃ := students.splice h₂ k
  have hold₃ : ∀ x, x ≠ m.copy → h₃.cell x = h₂.cell x :=
    fun x hx => Part.cell_splice_of_view (hkeep x hx)
  have hc₃ : h₃.cell m.temp = some (.session d₂) := by
    rw [hold₃ _ hne.symm]
    exact cell_put_self htemp.1
  -- the other fields
  let d₃ : Session := { d₂ with data := m.copy }
  let d₄ : Session := { d₃ with reqCount := 0 }
  let d₅ : Session := { d₄ with sFlag := 0 }
  let d₆ : Session := { d₅ with tyFlag := 0 }
  have hdetail : store detailOf m.temp m.copy h₃ = some ((), h₃.put m.temp (.session d₃)) :=
    store_session hc₃ m.copy
  have hreq : store reqCountOf m.temp 0 (h₃.put m.temp (.session d₃)) =
      some ((), h₃.put m.temp (.session d₄)) := store_put htemp.1 0
  have hsf : store sFlagOf m.temp 0 (h₃.put m.temp (.session d₄)) =
      some ((), h₃.put m.temp (.session d₅)) := store_put htemp.1 0
  have hty : store tyFlagOf m.temp 0 (h₃.put m.temp (.session d₅)) =
      some ((), h₃.put m.temp (.session d₆)) := store_put htemp.1 0
  refine ⟨h₃.put m.temp (.session d₆), d₆, e', ?_, cell_put_self htemp.1, ?_, rfl, ?_, hfreed,
    fun x hxt hxc => ?_⟩
  · rw [createSs, bind_run (malloc_run htemp), bind_run hfd, bind_run hid, bind_run hload,
      bind_run (Part.lift_run hcreate), bind_run hdetail, bind_run hreq, bind_run hsf,
      bind_run hty, pure_run]
  · rw [Heap.cell_put htemp.1, if_neg hne]
    exact Part.cell_splice hk
  · simp only [Session.record, hheld]
    rfl
  · rw [Heap.cell_put htemp.1, if_neg hxt, hold₃ x hxc, hold₂ x hxt]

/-! ## §2 The sessions in the heap -/

/-- The heap server `t` is the server `s`: the `SS_Data` that `s` has at `p`
is at `loc p`, and the session list goes through the nodes `ns`. The one at
`m.clientData` is the block of line 24; the `data` of every other leads to the
record. -/
structure Represents (m : StartMallocs) (loc : Ptr → Addr) (ns : List (Addr × Addr)) (s : Server)
    (t : HeapServer) : Prop where
  listenFD : t.listenFD = s.listenFD
  masterFDs : t.masterFDs = s.masterFDs
  fdMax : t.fdMax = s.fdMax
  openFDs : t.openFDs = s.openFDs
  stored : s.studentStore = stLlGet
  students : StudentList.Represents m.ll (StudentList.gotten m.places)
    ⟨Block.students.view t.heap, t.studentStore⟩
  chain : sessionNode.Chain m.serverStore t.serverStore ns t.heap
  nodes : ns.map Prod.snd = s.serverStore.map loc
  inj : ∀ p q, p < s.brk → q < s.brk → loc p = loc q → p = q
  listed : ∀ p ∈ s.serverStore, p ≠ 0 ∧ p < s.brk
  current : s.clientData < s.brk
  clientData : t.clientData = loc s.clientData
  start : loc 0 = m.clientData
  record : ∀ p < s.brk, ∃ d, t.heap.cell (loc p) = some (.session d) ∧
    s.mem p = d.record (s.mem p).data ∧ (p = 0 → d.data = m.junk.data) ∧
    (p ≠ 0 → ∃ e, t.heap.cell d.data = some (.student (.detail e)) ∧ (s.mem p).data = e.held)
  count : ns.length ≤ t.pushes

/-- A block that is no node of the session list is not in it. -/
theorem not_mem_of_session {z ll : Addr} {ns : List (Addr × Addr)}
    (hchain : sessionNode.Chain z ll ns h) (hc : h.cell a = some (.session d)) :
    a ∉ ns.map Prod.fst ++ [z] := by
  refine hchain.not_mem ?_
  rw [Field.peek, hc]
  rfl

theorem node_of_mem {z ll : Addr} {ns : List (Addr × Addr)}
    (hchain : sessionNode.Chain z ll ns h) (hx : x ∈ ns.map Prod.fst) :
    ∃ d n, h.cell x = some (.node d n) := by
  obtain ⟨n, hn, rfl⟩ := List.mem_map.mp hx
  obtain ⟨b, hb, hdata⟩ := Option.bind_eq_some_iff.mp (hchain.datas n hn)
  cases b with
  | student b => cases hdata
  | node d nx => exact ⟨d, nx, hb⟩
  | session d => cases hdata
  | message => cases hdata

/-- The students do not depend on any other block. -/
theorem students_keep {z ll : Addr} {l : List StudentList.Entry}
    (r : StudentList.Represents z l ⟨students.view h, ll⟩)
    (hcell : ∀ x b, h.cell x = some (.student b) → h'.cell x = some (.student b)) :
    StudentList.Represents z l ⟨students.view h', ll⟩ :=
  r.keep fun x b hb => by
    have hx : h'.cell x = some (students.put b) := hcell x b (Part.cell_of_view hb)
    rw [Part.view_of_cell hx, students.get_put]

namespace Represents

variable {m : StartMallocs} {loc : Ptr → Addr} {ns : List (Addr × Addr)} {s : Server}
  {t : HeapServer} {mm : Mallocs}

/-- Storing in a session, with `data` as it was. -/
theorem put {p : Ptr} (r : Represents m loc ns s t) (d' : Session) (hp : p < s.brk)
    (hc : t.heap.cell (loc p) = some (.session d)) (hd : d'.data = d.data) :
    Represents m loc ns (s.setMem p (d'.record (s.mem p).data))
      { t with heap := t.heap.put (loc p) (.session d') } := by
  have ha := ne_zero_of_cell hc
  have hkeep : ∀ x, x ≠ loc p → (t.heap.put (loc p) (.session d')).cell x = t.heap.cell x := by
    intro x hx
    rw [Heap.cell_put ha, if_neg hx]
  have hstudent : ∀ x b, t.heap.cell x = some (.student b) →
      (t.heap.put (loc p) (.session d')).cell x = some (.student b) := by
    intro x b hx
    rw [hkeep x, hx]
    rintro rfl
    rw [hc] at hx
    cases hx
  refine { r with
    students := students_keep r.students hstudent
    chain := r.chain.congr fun x hx => hkeep x ?_
    record := fun q hq => ?_ }
  · rintro rfl
    exact not_mem_of_session r.chain hc hx
  · obtain ⟨dq, hcq, hmem, hjunk, hdata⟩ := r.record q hq
    have hdata' : q ≠ 0 → ∃ e, (t.heap.put (loc p) (.session d')).cell dq.data =
        some (.student (.detail e)) ∧ (s.mem q).data = e.held := by
      intro hq0
      obtain ⟨e, he, heq⟩ := hdata hq0
      exact ⟨e, hstudent _ _ he, heq⟩
    by_cases hqp : q = p
    · subst hqp
      obtain rfl : dq = d := by
        rw [hc] at hcq
        cases hcq
        rfl
      have hnew : ((s.setMem q (d'.record (s.mem q).data)).mem q) = d'.record (s.mem q).data :=
        Server.setMem_mem_self ..
      rw [hnew]
      exact ⟨d', cell_put_self ha, rfl, fun h0 => hd.trans (hjunk h0), hd ▸ hdata'⟩
    · have hold : (s.setMem p (d'.record (s.mem p).data)).mem q = s.mem q :=
        Server.setMem_mem_of_ne hqp _
      have hne : loc q ≠ loc p := fun heq => hqp (r.inj q p hq hp heq)
      rw [hold]
      exact ⟨dq, by rw [hkeep _ hne, hcq], hmem, hjunk, hdata'⟩

/-- The descriptor of the session at `a`. -/
def fdAt (h : Heap Block) (a : Addr) : Fd := (fdOf.peek h a).getD 0

theorem fdAt_loc (r : Represents m loc ns s t) {p : Ptr} (hp : p ∈ s.serverStore) :
    fdOf.peek t.heap (loc p) = some (s.mem p).fd ∧ fdAt t.heap (loc p) = (s.mem p).fd := by
  obtain ⟨d, hc, hmem, -⟩ := r.record p (r.listed p hp).2
  have hpeek : fdOf.peek t.heap (loc p) = some (s.mem p).fd := by
    rw [fd_peek hc, hmem]
    rfl
  exact ⟨hpeek, by rw [fdAt, hpeek, Option.getD_some]⟩

/-- Every node leads to a session with a descriptor. -/
theorem fd_node (r : Represents m loc ns s t) :
    ∀ n ∈ ns, fdOf.peek t.heap n.2 = some (fdAt t.heap n.2) := by
  intro n hn
  have hmem : n.2 ∈ s.serverStore.map loc := r.nodes ▸ List.mem_map_of_mem hn
  obtain ⟨p, hp, hpn⟩ := List.mem_map.mp hmem
  rw [← hpn, (r.fdAt_loc hp).1, (r.fdAt_loc hp).2]

/-- The test of `ss_search` and `ss_delete`, on the heap and on the server. -/
theorem fdAt_test (r : Represents m loc ns s t) (i : Fd) :
    ∀ p ∈ s.serverStore, ((fun a => fdAt t.heap a == i) ∘ loc) p = ((s.mem p).fd == i) := by
  intro p hp
  rw [Function.comp_apply, (r.fdAt_loc hp).2]

/-- `ss_search`. -/
theorem search (r : Represents m loc ns s t) (hfuel : t.pushes < mm.fuel) (i : Fd) :
    sessionNode.search fdOf mm.fuel t.serverStore i t.clientData t.heap =
      some ((ssSearch s.mem s.serverStore i).elim (-1, t.clientData) (fun p => (0, loc p)),
        t.heap) := by
  have hfind : (ns.find? fun n => fdAt t.heap n.2 == i).map Prod.snd =
      (ssSearch s.mem s.serverStore i).map loc := by
    have hnodes := congrArg (List.find? fun a => fdAt t.heap a == i) r.nodes
    rw [List.find?_map, List.find?_map] at hnodes
    rw [ssSearch, ← List.find?_congr (r.fdAt_test i)]
    exact hnodes
  rw [NodeFormat.search_spec t.clientData r.chain r.fd_node (r.count.trans_lt hfuel)]
  cases hns : ns.find? fun n => fdAt t.heap n.2 == i with
  | none =>
    rw [hns, Option.map_none] at hfind
    rw [Option.map_eq_none_iff.mp hfind.symm]
    rfl
  | some n =>
    rw [hns, Option.map_some] at hfind
    obtain ⟨p, hp, hpn⟩ := Option.map_eq_some_iff.mp hfind.symm
    simp only [hp, Option.elim_some, hpn]

/-- `st_search`. -/
theorem find (r : Represents m loc ns s t) (hplaces : m.places.length = StudentList.students.length)
    (hfuel : StudentList.students.length < mm.fuel) (id : Int32) (data : Addr) :
    ∃ ret data', Block.students.lift (StudentList.stSearch mm.fuel t.studentStore id data) t.heap =
        some ((ret, data'), t.heap) ∧
      (stSearch s.studentStore id = none → ret < 0) ∧
      ∀ st, stSearch s.studentStore id = some st → ¬ ret < 0 ∧ ∃ e,
        t.heap.cell data' = some (.student (.detail e)) ∧ e.held = st := by
  have hlen : (StudentList.gotten m.places).length = StudentList.students.length := by
    rw [StudentList.gotten, List.length_reverse, List.length_zipWith, hplaces, Nat.min_self]
  have hrun := r.students.search id data (hlen ▸ hfuel)
  have hheld : stSearch s.studentStore id =
      ((StudentList.gotten m.places).find? fun c => c.id == id).map StudentList.Entry.held := by
    rw [r.stored, ← StudentList.held_gotten hplaces, (StudentList.find_held _ id).2]
  rw [hheld]
  cases hfind : (StudentList.gotten m.places).find? fun c => c.id == id with
  | none =>
    rw [hfind] at hrun
    exact ⟨-1, data, Part.lift_run_same hrun, fun _ => by decide, fun st hst => by cases hst⟩
  | some c =>
    rw [hfind] at hrun
    refine ⟨0, c.record, Part.lift_run_same hrun, fun hst => (by cases hst),
      fun st hst => ⟨by decide, ?_⟩⟩
    obtain ⟨e, he, heq⟩ := r.students.stored c (List.mem_of_find?_eq_some hfind)
    exact ⟨e, Part.cell_of_view he, heq.trans (Option.some.inj hst)⟩

/-- The students and the records are still there, and the session list is a
chain again. -/
theorem keep {ll : List Ptr} {ll' : Addr} {ns' : List (Addr × Addr)} (r : Represents m loc ns s t)
    (hcell : ∀ x b, t.heap.cell x = some b → (∀ d n, b ≠ .node d n) → h'.cell x = some b)
    (hchain : sessionNode.Chain m.serverStore ll' ns' h') (hnodes : ns'.map Prod.snd = ll.map loc)
    (hll : ∀ p ∈ ll, p ∈ s.serverStore) (hlen : ns'.length ≤ ns.length) :
    Represents m loc ns' { s with serverStore := ll } { t with heap := h', serverStore := ll' } :=
  { r with
    students := students_keep r.students fun x b hx => hcell x _ hx nofun
    chain := hchain
    nodes := hnodes
    listed := fun p hp => r.listed p (hll p hp)
    record := fun p hp => by
      obtain ⟨d, hc, hmem, hjunk, hdata⟩ := r.record p hp
      refine ⟨d, hcell _ _ hc nofun, hmem, hjunk, fun hp0 => ?_⟩
      obtain ⟨e, he, heq⟩ := hdata hp0
      exact ⟨e, hcell _ _ he nofun, heq⟩
    count := hlen.trans r.count }

/-- What was there is still there. -/
theorem grow (r : Represents m loc ns s t)
    (hcell : ∀ x b, t.heap.cell x = some b → h'.cell x = some b) :
    Represents m loc ns s { t with heap := h' } := by
  have hchain : sessionNode.Chain m.serverStore t.serverStore ns h' := r.chain.congr fun x hx => by
    obtain ⟨b, hb⟩ := Option.isSome_iff_exists.mp (r.chain.live x hx)
    rw [hcell x b hb, hb]
  exact r.keep (fun x b hx _ => hcell x b hx) hchain r.nodes (fun _ hp => hp) (Nat.le_refl _)

/-- A block that `malloc` gave. -/
theorem malloc {b : Block} (r : Represents m loc ns s t) (ha : Fresh t.heap a) :
    Represents m loc ns s { t with heap := t.heap.put a b } := by
  refine r.grow fun x b' hx => ?_
  rw [Heap.cell_put ha.1, if_neg, hx]
  rintro rfl
  rw [ha.2] at hx
  cases hx

/-- Lines 104-125 for a connection with a session. -/
theorem findSession_session {p : Ptr} (r : Represents m loc ns s t) (hmm : t.MallocsOk mm)
    (hp : ssSearch s.mem s.serverStore i = some p) (res : Message) :
    t.findSession mm i res = some ([], { t with clientData := loc p }) ∧
      Represents m loc ns { s with clientData := p } { t with clientData := loc p } := by
  constructor
  · have hsearch := r.search hmm.2.2.1 i
    rw [hp, Option.elim_some] at hsearch
    simp only [findSession, hsearch, Option.bind_eq_bind, Option.bind_some]
    rw [if_neg (by decide)]
    rfl
  · exact { r with current := (r.listed p (ssSearch_spec hp).1).2, clientData := rfl }

/-- Lines 104-125 for a connection without a session, up to `st_search`. -/
theorem findSession_search (r : Represents m loc ns s t) (hmm : t.MallocsOk mm)
    (hp : ssSearch s.mem s.serverStore i = none) (res : Message) :
    t.findSession mm i res =
      (Block.students.lift (StudentList.stSearch mm.fuel t.studentStore (atoi res.buffer)
        mm.stDetail) (t.heap.put mm.stDetail (.student (.detail mm.junkDetail)))).bind fun p =>
        if p.1.1 < 0 then
          (write t.openFDs i .notFound p.2).map fun w => (w.1, { t with heap := w.2 })
        else
          (createSs mm i (atoi res.buffer) p.1.2 p.2).bind fun c =>
          (store sFlagOf c.1 1 c.2).bind fun f =>
          (sessionNode.push t.serverStore c.1 mm.node mm.junkNext f.2).map fun n =>
            ([], { t with
              heap := n.2, serverStore := n.1, clientData := c.1, pushes := t.pushes + 1 }) := by
  have hsearch := r.search hmm.2.2.1 i
  rw [hp, Option.elim_none] at hsearch
  have hfresh : Fresh t.heap mm.stDetail := hmm.2.1 _ (by simp [Mallocs.addrs])
  simp only [findSession, hsearch, Option.bind_eq_bind, Option.bind_some]
  rw [if_pos (by decide)]
  simp only [malloc_run hfresh, Option.bind_some]
  refine Option.bind_congr fun p _ => ?_
  split
  · cases write t.openFDs i .notFound p.2 <;> rfl
  · refine Option.bind_congr fun c _ => Option.bind_congr fun f _ => ?_
    cases sessionNode.push t.serverStore c.1 mm.node mm.junkNext f.2 <;> rfl

/-- Lines 104-125 for a connection without a session that sends anything but
a stored id: the block of line 107 is all that is left of it. -/
theorem findSession_unknown (hplaces : m.places.length = StudentList.students.length)
    (r : Represents m loc ns s t) (hmm : t.MallocsOk mm)
    (hp : ssSearch s.mem s.serverStore i = none)
    (hst : stSearch s.studentStore (atoi res.buffer) = none) :
    t.findSession mm i res = (if i ∈ t.openFDs then some ([.notFound],
      { t with heap := t.heap.put mm.stDetail (.student (.detail mm.junkDetail)) }) else none) ∧
    Represents m loc ns s
      { t with heap := t.heap.put mm.stDetail (.student (.detail mm.junkDetail)) } := by
  have r₁ := r.malloc (b := .student (.detail mm.junkDetail))
    (hmm.2.1 mm.stDetail (by simp [Mallocs.addrs]))
  obtain ⟨ret, data', hfind, hnone, -⟩ := r₁.find hplaces hmm.2.2.2 (atoi res.buffer) mm.stDetail
  refine ⟨?_, r₁⟩
  rw [r.findSession_search hmm hp res, hfind, Option.bind_some, if_pos (hnone hst)]
  by_cases hi : i ∈ t.openFDs
  · rw [write_open hi, if_pos hi, Option.map_some]
  · rw [write_closed hi, if_neg hi, Option.map_none]

/-- A new session, once its node is in front of the list. -/
theorem opened {data : StDetail} {n : Addr} (r : Represents m loc ns s t)
    (htemp : ∀ p < s.brk, loc p ≠ a) (hc : t.heap.cell a = some (.session d))
    (he : t.heap.cell d.data = some (.student (.detail e))) (hdata : data = e.held)
    (hchain : sessionNode.Chain m.serverStore n ((n, a) :: ns) t.heap) :
    Represents m (fun p => if p = s.brk then a else loc p) ((n, a) :: ns)
      { s.setMem s.brk (d.record data) with
        brk := s.brk + 1
        serverStore := ssPush s.serverStore s.brk
        clientData := s.brk }
      { t with serverStore := n, clientData := a, pushes := t.pushes + 1 } := by
  have hbrk : 0 ≠ s.brk := (Nat.zero_le _).trans_lt r.current |>.ne
  have hloc : ∀ p ≠ s.brk, (if p = s.brk then a else loc p) = loc p := fun p hp => if_neg hp
  have hlt : ∀ p < s.brk + 1, p ≠ s.brk → p < s.brk :=
    fun p hp hne => lt_of_le_of_ne (Nat.lt_succ_iff.mp hp) hne
  refine { r with
    chain := hchain
    nodes := ?_
    inj := fun p q hp hq heq => ?_
    listed := fun p hp => ?_
    current := Nat.lt_succ_self _
    clientData := (if_pos rfl).symm
    start := (hloc 0 hbrk).trans r.start
    record := fun p hp => ?_
    count := Nat.succ_le_succ r.count }
  · have hold : s.serverStore.map (fun p => if p = s.brk then a else loc p) =
        s.serverStore.map loc := List.map_congr_left fun p hp => hloc p (r.listed p hp).2.ne
    rw [List.map_cons, r.nodes, ssPush, List.map_cons, hold, if_pos rfl]
  · by_cases hpb : p = s.brk <;> by_cases hqb : q = s.brk
    · rw [hpb, hqb]
    · rw [if_pos hpb, hloc q hqb] at heq
      exact absurd heq.symm (htemp q (hlt q hq hqb))
    · rw [hloc p hpb, if_pos hqb] at heq
      exact absurd heq (htemp p (hlt p hp hpb))
    · rw [hloc p hpb, hloc q hqb] at heq
      exact r.inj p q (hlt p hp hpb) (hlt q hq hqb) heq
  · rcases List.mem_cons.mp hp with rfl | hp
    · exact ⟨hbrk.symm, Nat.lt_succ_self _⟩
    · exact ⟨(r.listed p hp).1, (r.listed p hp).2.trans (Nat.lt_succ_self _)⟩
  · by_cases hpb : p = s.brk
    · subst hpb
      have hnew : (s.setMem s.brk (d.record data)).mem s.brk = d.record data :=
        Server.setMem_mem_self ..
      refine ⟨d, ?_, ?_, fun h0 => absurd h0.symm hbrk, fun _ => ⟨e, he, ?_⟩⟩
      · rw [if_pos rfl, hc]
      · exact hnew.trans (congrArg d.record (congrArg SsData.data hnew).symm)
      · exact (congrArg SsData.data hnew).trans hdata
    · have hold : (s.setMem s.brk (d.record data)).mem p = s.mem p :=
        Server.setMem_mem_of_ne hpb _
      obtain ⟨dp, hcp, hrest⟩ := r.record p (hlt p hp hpb)
      rw [hloc p hpb]
      exact ⟨dp, hcp, by rw [hold]; exact hrest⟩

/-- Lines 104-125 for a connection without a session that sends a stored
id. -/
theorem findSession_stored {st : StDetail} (hplaces : m.places.length = StudentList.students.length)
    (r : Represents m loc ns s t) (hmm : t.MallocsOk mm)
    (hp : ssSearch s.mem s.serverStore i = none)
    (hst : stSearch s.studentStore (atoi res.buffer) = some st) :
    ∃ h', let t' := { t with
        heap := h', serverStore := mm.node, clientData := mm.temp, pushes := t.pushes + 1 }
      t.findSession mm i res = some ([], t') ∧
      Represents m (fun p => if p = s.brk then mm.temp else loc p) ((mm.node, mm.temp) :: ns)
        { s.setMem s.brk (SsData.opened i (atoi res.buffer) st) with
          brk := s.brk + 1
          serverStore := ssPush s.serverStore s.brk
          clientData := s.brk } t' ∧
      h'.freed = t.heap.freed ∧ (∀ x ∉ mm.addrs, h'.cell x = t.heap.cell x) ∧
      ∀ x ∈ mm.addrs, h'.Live x := by
  obtain ⟨hnd, hfresh, hfuel, hfuel'⟩ := hmm
  simp only [Mallocs.addrs, List.nodup_cons, List.mem_cons, List.not_mem_nil, or_false, not_or]
    at hnd
  obtain ⟨⟨hdt, hdc, hdn⟩, ⟨htc, htn⟩, hcn, -⟩ := hnd
  have hfd := hfresh mm.stDetail (by simp [Mallocs.addrs])
  have hft := hfresh mm.temp (by simp [Mallocs.addrs])
  have hfc := hfresh mm.copy (by simp [Mallocs.addrs])
  have hfn := hfresh mm.node (by simp [Mallocs.addrs])
  -- line 107
  let h₁ := t.heap.put mm.stDetail (.student (.detail mm.junkDetail))
  have hold₁ : ∀ x, x ≠ mm.stDetail → h₁.cell x = t.heap.cell x := by
    intro x hx
    rw [Heap.cell_put hfd.1, if_neg hx]
  have r₁ : Represents m loc ns s { t with heap := h₁ } := r.malloc hfd
  obtain ⟨ret, data', hfind, -, hsome⟩ := r₁.find hplaces hfuel' (atoi res.buffer) mm.stDetail
  obtain ⟨hret, e, he, heq⟩ := hsome st hst
  -- the new session
  have hname : (cstr e.name.bytes).length < 200 := by
    have hmem : st ∈ stLlGet := r.stored ▸ (stSearch_id hst).1
    have hnames : ∀ st ∈ stLlGet, st.name.length < 200 := by decide
    exact (congrArg (fun st : StDetail => st.name.length) heq).trans_lt (hnames st hmem)
  have hft₁ : Fresh h₁ mm.temp := ⟨hft.1, by rw [hold₁ _ (Ne.symm hdt), hft.2]⟩
  have hfc₁ : Fresh h₁ mm.copy := ⟨hfc.1, by rw [hold₁ _ (Ne.symm hdc), hfc.2]⟩
  obtain ⟨h₂, d, e', hcreate, hc₂, he₂, hcopy, hrec, hfreed₂, hold₂⟩ :=
    createSs_spec i (atoi res.buffer) hft₁ hfc₁ (Ne.symm htc) he hname
  let d' : Session := { d with sFlag := 1 }
  let h₃ := h₂.put mm.temp (.session d')
  have hflag : store sFlagOf mm.temp 1 h₂ = some ((), h₃) := store_sFlag hc₂ 1
  have hold₃ : ∀ x, x ≠ mm.temp → h₃.cell x = h₂.cell x := by
    intro x hx
    rw [Heap.cell_put hft.1, if_neg hx]
  have r₃ : Represents m loc ns s { t with heap := h₃ } := r₁.grow fun x b hx => by
    have hxt := ne_of_fresh hx hft₁
    rw [hold₃ x hxt, hold₂ x hxt (ne_of_fresh hx hfc₁), hx]
  -- its node
  have hfn₃ : Fresh h₃ mm.node := ⟨hfn.1, by
    rw [hold₃ _ (Ne.symm htn), hold₂ _ (Ne.symm htn) (Ne.symm hcn), hold₁ _ (Ne.symm hdn), hfn.2]⟩
  obtain ⟨h₄, hpush, hchain, hfreed₄, hold₄⟩ :=
    NodeFormat.push_spec mm.temp mm.junkNext hfn₃ r₃.chain
  have r₄ : Represents m loc ns s { t with heap := h₄ } := r₃.grow fun x b hx => by
    rw [hold₄ x (ne_of_fresh hx hfn₃), hx]
  have hc₄ : h₄.cell mm.temp = some (.session d') := by
    rw [hold₄ _ htn]
    exact cell_put_self hft.1
  have he₄ : h₄.cell d'.data = some (.student (.detail e')) := by
    have hdata : d'.data = mm.copy := hcopy
    have he₂' : h₂.cell d'.data = some (.student (.detail e')) := he₂
    rw [hold₄ _ (hdata ▸ hcn), hold₃ _ (hdata ▸ Ne.symm htc), he₂']
  have hopened : d'.record e'.held = SsData.opened i (atoi res.buffer) st := by
    rw [SsData.opened, ← heq, ← hrec]
    rfl
  have hlocs : ∀ p < s.brk, loc p ≠ mm.temp := by
    intro p hp
    obtain ⟨dp, hcp, -⟩ := r.record p hp
    exact ne_of_fresh hcp hft
  have r₅ := r₄.opened hlocs hc₄ he₄ rfl hchain
  rw [hopened] at r₅
  refine ⟨h₄, ?_, r₅, ?_, fun x hx => ?_, fun x hx => ?_⟩
  · rw [r.findSession_search ⟨by simp [Mallocs.addrs, hdt, hdc, hdn, htc, htn, hcn], hfresh, hfuel,
      hfuel'⟩ hp res, hfind, Option.bind_some, if_neg hret]
    simp only [hcreate, hflag, Option.bind_some]
    rw [show sessionNode.push t.serverStore mm.temp mm.node mm.junkNext h₃ = _ from hpush,
      Option.map_some]
  · rw [hfreed₄]
    exact hfreed₂
  · simp only [Mallocs.addrs, List.mem_cons, List.not_mem_nil, or_false, not_or] at hx
    rw [hold₄ x hx.2.2.2, hold₃ x hx.2.1, hold₂ x hx.2.1 hx.2.2.1, hold₁ x hx.1]
  · simp only [Mallocs.addrs, List.mem_cons, List.not_mem_nil, or_false] at hx
    rcases hx with rfl | rfl | rfl | rfl
    · rw [Heap.Live, hold₄ _ hdn, hold₃ _ hdt, hold₂ _ hdt hdc, cell_put_self hfd.1]
      rfl
    · rw [Heap.Live, hc₄]
      rfl
    · rw [Heap.Live, ← (show d'.data = mm.copy from hcopy), he₄]
      rfl
    · exact hchain.live _ (by simp)

end Represents

/-! ## §3 Events -/

/-- The server at line 143. -/
def line143 (t : HeapServer) (mm : Mallocs) (i : Fd) (res : Message) :
    Option (List Message × HeapServer) := do
  let (w, t) ← t.findSession mm i res
  let (_, heap) ← setFlags t.clientData res t.heap
  pure (w, { t with heap := heap })

/-- Lines 143-150 run on the block of line 24, and with `s_flag` set. -/
def OnJunk (m : StartMallocs) (t : HeapServer) (mm : Mallocs) (i : Fd) (res : Message) : Prop :=
  ∃ u ∈ t.line143 mm i res,
    u.2.clientData = m.clientData ∧ sFlagOf.peek u.2.heap u.2.clientData = some 1

instance (m : StartMallocs) (t : HeapServer) (mm : Mallocs) (i : Fd) (res : Message) :
    Decidable (t.OnJunk m mm i res) :=
  inferInstanceAs (Decidable (∃ u ∈ _, _ ∧ _))

/-- What the server would send in an event is behind the `data` of the block of
line 24. -/
def SendsJunk (m : StartMallocs) (t : HeapServer) (e : Fd × Answer × Mallocs) : Prop :=
  match e.2.1 with
  | .data res => t.OnJunk m e.2.2 e.1 res
  | .error => (t.close e.1).OnJunk m e.2.2 e.1 .zero
  | _ => False

instance (m : StartMallocs) (t : HeapServer) : ∀ e, Decidable (t.SendsJunk m e)
  | (i, .data res, mm) => inferInstanceAs (Decidable (t.OnJunk m mm i res))
  | (i, .error, mm) => inferInstanceAs (Decidable ((t.close i).OnJunk m mm i .zero))
  | (_, .accepted _, _) => isFalse id
  | (_, .eof, _) => isFalse id

/-- `malloc` does what it may, and nothing is sent from the block of line
24. -/
def Allowed (m : StartMallocs) (t : HeapServer) (e : Fd × Answer × Mallocs) : Prop :=
  t.MallocsOk e.2.2 ∧ ¬ t.SendsJunk m e

instance (m : StartMallocs) (t : HeapServer) (e : Fd × Answer × Mallocs) :
    Decidable (t.Allowed m e) :=
  inferInstanceAs (Decidable (_ ∧ _))

theorem handleMessage_eq (t : HeapServer) (mm : Mallocs) (i : Fd) (res : Message) :
    t.handleMessage mm i res = (t.line143 mm i res).bind fun u =>
      (sendDetail u.2.openFDs u.2.clientData i u.2.heap).map fun w =>
        (u.1 ++ w.1, { u.2 with heap := w.2 }) := by
  unfold handleMessage line143
  cases t.findSession mm i res with
  | none => rfl
  | some p =>
    simp only [Option.bind_eq_bind, Option.bind_some]
    cases setFlags p.2.clientData res p.2.heap with
    | none => rfl
    | some q =>
      simp only [Option.bind_some, pure]
      cases sendDetail p.2.openFDs p.2.clientData i q.2 <;> rfl

theorem not_live_of_fresh (ha : Fresh h a) : ¬ h.Live a := by
  rw [Heap.Live, ha.2]
  exact Bool.false_ne_true

/-- From `h` to `h'` the blocks `news` were allocated and `gone` were freed. -/
structure Delta (h h' : Heap Block) (news gone : List Addr) : Prop where
  freed : h'.freed = h.freed ++ gone
  nodup : news.Nodup
  new : ∀ x ∈ news, ¬ h.Live x
  live : ∀ x, h'.Live x ↔ (h.Live x ∧ x ∉ gone) ∨ x ∈ news

theorem Delta.refl (h : Heap Block) : Delta h h [] [] :=
  ⟨(List.append_nil _).symm, List.nodup_nil, nofun, by simp⟩

/-- What was not live and is not new is not live. -/
theorem Delta.fresh {news gone : List Addr} (hd : Delta h h' news gone) (ha : Fresh h a)
    (hnew : a ∉ news) : Fresh h' a := by
  refine ⟨ha.1, Option.not_isSome_iff_eq_none.mp fun hlive => ?_⟩
  rcases (hd.live a).mp hlive with ⟨hold, -⟩ | hmem
  · exact not_live_of_fresh ha hold
  · exact hnew hmem

/-- One block more. -/
theorem Delta.malloc {b : Block} {news gone : List Addr} (hd : Delta h h' news gone)
    (hold : ¬ h.Live a) (ha : Fresh h' a) : Delta h (h'.put a b) (a :: news) gone := by
  have hdead : ¬ h'.Live a := not_live_of_fresh ha
  refine ⟨hd.freed, List.nodup_cons.mpr ⟨fun hmem => ?_, hd.nodup⟩, ?_, fun x => ?_⟩
  · exact hdead ((hd.live a).mpr (.inr hmem))
  · exact List.forall_mem_cons.mpr ⟨hold, hd.new⟩
  · rw [List.mem_cons]
    by_cases hx : x = a
    · refine iff_of_true ?_ (.inr (.inl hx))
      rw [hx, Heap.Live, cell_put_self ha.1]
      rfl
    · rw [Heap.Live, Heap.cell_put ha.1, if_neg hx]
      exact (hd.live x).trans (or_congr_right (or_iff_right hx).symm)

theorem Delta.trans_live {h'' : Heap Block} {news gone : List Addr} (hd : Delta h h' news gone)
    (hf : h''.freed = h'.freed) (hlive : ∀ x, h''.Live x ↔ h'.Live x) : Delta h h'' news gone :=
  ⟨hf.trans hd.freed, hd.nodup, hd.new, fun x => (hlive x).trans (hd.live x)⟩

/-- What an event does when it goes as on the server `s`: the heap holds the
sessions afterwards. A new session takes four blocks and a "not_found" one;
what is freed are nodes of sessions. -/
structure Effect (m : StartMallocs) (ns : List (Addr × Addr)) (t : HeapServer) (w : List Message)
    (s' : Server) (t' : HeapServer) (k : Nat) (news gone : List Addr) (ns' : List (Addr × Addr)) :
    Prop where
  represents : ∃ loc, Represents m loc ns' s' t'
  delta : Delta t.heap t'.heap news gone
  count : news.length = 4 * k + w.count .notFound
  pushes : t'.pushes = t.pushes + k
  nodes : ns'.length + gone.length = ns.length + k
  gone_nodup : gone.Nodup
  gone_nodes : ∀ x ∈ gone, x ∈ ns.map Prod.fst
  new_nodes : ∀ x ∈ ns'.map Prod.fst, (x ∈ ns.map Prod.fst ∧ x ∉ gone) ∨ x ∈ news

/-- The effect of an event, whatever it allocates and frees. -/
def Follows (m : StartMallocs) (ns : List (Addr × Addr)) (t : HeapServer) (w : List Message)
    (s' : Server) (t' : HeapServer) : Prop :=
  ∃ k news gone ns', Effect m ns t w s' t' k news gone ns'

/-- An event that leaves the heap as it was. -/
theorem Follows.same {m : StartMallocs} {loc : Ptr → Addr} {ns : List (Addr × Addr)}
    {s' : Server} {t t' : HeapServer} (r : Represents m loc ns s' t') (hheap : t'.heap = t.heap)
    (hpushes : t'.pushes = t.pushes) : Follows m ns t [] s' t' :=
  ⟨0, [], [], ns, ⟨_, r⟩, hheap ▸ Delta.refl _, rfl, hpushes, rfl, List.nodup_nil, nofun,
    fun _ hx => .inl ⟨hx, List.not_mem_nil⟩⟩

/-- Closing a descriptor first changes nothing about the heap. -/
theorem Follows.of_close {m : StartMallocs} {ns : List (Addr × Addr)} {w : List Message}
    {s' : Server} {t t' : HeapServer} (hf : Follows m ns (t.close i) w s' t') :
    Follows m ns t w s' t' := by
  obtain ⟨k, news, gone, ns', he⟩ := hf
  exact ⟨k, news, gone, ns', he.represents, he.delta, he.count, he.pushes, he.nodes, he.gone_nodup,
    he.gone_nodes, he.new_nodes⟩

theorem eraseP_congr {α : Type} {p q : α → Bool} {l : List α} (h : ∀ x ∈ l, p x = q x) :
    l.eraseP p = l.eraseP q := by
  induction l with
  | nil => rfl
  | cons x l ih =>
    have hx := h x List.mem_cons_self
    have hl := ih fun y hy => h y (List.mem_cons_of_mem _ hy)
    cases hq : q x <;> simp [hx, hq, hl]

theorem count_notFound_ofDetail (d : StDetail) :
    [Message.ofDetail d].count .notFound = 0 := by
  rw [List.count_eq_zero, List.mem_singleton]
  intro heq
  have hmsg : bytes "buffer" = bytes "detail" := congrArg Message.msg heq
  revert hmsg
  decide

namespace Represents

variable {m : StartMallocs} {loc : Ptr → Addr} {ns : List (Addr × Addr)} {s : Server}
  {t : HeapServer} {mm : Mallocs}

/-- Lines 104-125. -/
theorem findSession (hplaces : m.places.length = StudentList.students.length)
    (r : Represents m loc ns s t) (hmm : t.MallocsOk mm) (i : Fd) (res : Message) :
    Agree (Follows m ns t) (s.findSession i res) (t.findSession mm i res) := by
  cases hp : ssSearch s.mem s.serverStore i with
  | some p =>
    obtain ⟨hrun, r'⟩ := r.findSession_session hmm hp res
    rw [hrun, Server.findSession_of_session hp]
    exact .some (.same r' rfl rfl)
  | none =>
    cases hst : stSearch s.studentStore (atoi res.buffer) with
    | none =>
      obtain ⟨hrun, r'⟩ := r.findSession_unknown hplaces hmm hp hst
      rw [hrun, Server.findSession_of_unknown hp hst, Server.write, ← r.openFDs]
      by_cases hi : i ∈ t.openFDs
      · rw [if_pos hi, if_pos hi]
        have hfresh := hmm.2.1 mm.stDetail (by simp [Mallocs.addrs])
        have hdelta : Delta t.heap (t.heap.put mm.stDetail (.student (.detail mm.junkDetail)))
            [mm.stDetail] [] := (Delta.refl _).malloc (not_live_of_fresh hfresh) hfresh
        exact .some ⟨0, [mm.stDetail], [], ns, ⟨_, r'⟩, hdelta, by simp, rfl, rfl, List.nodup_nil,
          List.forall_mem_nil _, fun x hx => .inl ⟨hx, List.not_mem_nil⟩⟩
      · rw [if_neg hi, if_neg hi]
        exact .none
    | some st =>
      obtain ⟨h', hrun, r', hfreed, hold, hlive⟩ := r.findSession_stored hplaces hmm hp hst
      rw [hrun, Server.findSession_of_stored hp hst]
      have hdelta : Delta t.heap h' mm.addrs [] := by
        refine ⟨hfreed.trans (List.append_nil _).symm, hmm.1,
          fun x hx => not_live_of_fresh (hmm.2.1 x hx), fun x => ?_⟩
        by_cases hx : x ∈ mm.addrs
        · exact iff_of_true (hlive x hx) (.inr hx)
        · rw [Heap.Live, Heap.Live, hold x hx]
          simp [hx]
      refine .some ⟨1, mm.addrs, [], _, ⟨_, r'⟩, hdelta, rfl, rfl, rfl, List.nodup_nil,
        List.forall_mem_nil _, fun x hx => ?_⟩
      rcases List.mem_cons.mp hx with rfl | hx
      · exact .inr (by simp [Mallocs.addrs])
      · exact .inl ⟨hx, List.not_mem_nil⟩

/-- Lines 127-141. -/
theorem setFlags (r : Represents m loc ns s t) (res : Message) :
    ∃ h', HeapServer.setFlags t.clientData res t.heap = some ((), h') ∧
      Represents m loc ns (s.setFlags res) { t with heap := h' } ∧ h'.freed = t.heap.freed ∧
      ∀ x, h'.Live x ↔ t.heap.Live x := by
  obtain ⟨d, hc, hmem, -⟩ := r.record _ r.current
  obtain ⟨d', hrun, hd, hrec⟩ := setFlags_spec hc res
  have r' := r.put d' r.current hc hd
  have hflags : (s.mem s.clientData).setFlags res = d'.record (s.mem s.clientData).data := by
    rw [hrec, ← hmem]
  rw [← hflags] at r'
  exact ⟨_, by rw [r.clientData]; exact hrun, r', rfl, fun x => Heap.live_put_of_cell hc⟩

/-- Lines 143-150, unless they run on the block of line 24. -/
theorem sendDetail (r : Represents m loc ns s t)
    (hsafe : s.clientData = 0 → (s.mem s.clientData).sFlag ≠ 1) (i : Fd) :
    Agree (fun w s' h' => Represents m loc ns s' { t with heap := h' } ∧ h'.freed = t.heap.freed ∧
        (∀ x, h'.Live x ↔ t.heap.Live x) ∧ w.count .notFound = 0)
      (s.sendDetail i) (HeapServer.sendDetail t.openFDs t.clientData i t.heap) := by
  obtain ⟨d, hc, hmem, -, hdata⟩ := r.record _ r.current
  have hsflag : d.sFlag = (s.mem s.clientData).sFlag := by rw [hmem]; rfl
  have hct : t.heap.cell t.clientData = some (.session d) := r.clientData ▸ hc
  have hopen : i ∈ t.openFDs ↔ i ∈ s.openFDs := by rw [r.openFDs]
  unfold Server.sendDetail Server.write
  dsimp only
  by_cases hs : (s.mem s.clientData).sFlag = 1
  · obtain ⟨e, he, heq⟩ := hdata fun h0 => hsafe h0 hs
    rw [sendDetail_owed hct (hsflag.trans hs) he, if_pos hs, ← heq]
    by_cases hi : i ∈ s.openFDs
    · rw [if_pos hi, if_pos (hopen.mpr hi)]
      have r' := r.put { d with sFlag := 0 } r.current hc rfl
      have hnew : Session.record { d with sFlag := 0 } (s.mem s.clientData).data =
          { s.mem s.clientData with sFlag := 0 } := by
        conv_rhs => rw [hmem]
        rfl
      rw [hnew, ← r.clientData] at r'
      exact .some ⟨r', rfl, fun x => Heap.live_put_of_cell hct, count_notFound_ofDetail _⟩
    · rw [if_neg hi, if_neg (mt hopen.mp hi)]
      exact .none
  · rw [sendDetail_none hct (hsflag ▸ hs), if_neg hs]
    exact .some ⟨r, rfl, fun _ => Iff.rfl, rfl⟩

/-- Lines 102-151, unless the detail would be sent from the block of line
24. -/
theorem handleMessage (hplaces : m.places.length = StudentList.students.length)
    (r : Represents m loc ns s t) (hmm : t.MallocsOk mm) (i : Fd) (res : Message)
    (hsafe : ¬ t.OnJunk m mm i res) :
    Agree (Follows m ns t) (s.handleMessage i res) (t.handleMessage mm i res) := by
  have hfind := r.findSession hplaces hmm i res
  rw [handleMessage_eq]
  unfold OnJunk line143 at hsafe
  unfold Server.handleMessage line143
  cases ht : t.findSession mm i res with
  | none =>
    rw [ht] at hfind
    rw [hfind.eq_none_iff.mp rfl]
    exact .none
  | some p =>
    obtain ⟨w₁, t₁⟩ := p
    rw [ht] at hfind hsafe
    obtain ⟨s₁, hs, k, news, gone, ns₁, ⟨⟨loc₁, r₁⟩, hdelta, hnews, hpushes, hnodes, hgnd,
      hgone, hnew⟩⟩ := hfind.of_some
    obtain ⟨h₂, hrun, r₂, hfreed₂, hlive₂⟩ := r₁.setFlags res
    have hsafe₂ : (s₁.setFlags res).clientData = 0 →
        ((s₁.setFlags res).mem (s₁.setFlags res).clientData).sFlag ≠ 1 := by
      intro h0 hflag
      obtain ⟨d, hc, hmem, -⟩ := r₂.record _ r₂.current
      refine hsafe ⟨(w₁, { t₁ with heap := h₂ }), ?_, ?_, ?_⟩
      · simp [hrun]
      · show t₁.clientData = m.clientData
        rw [← r₂.start, ← h0]
        exact r₂.clientData
      · rw [hmem] at hflag
        rw [Field.peek, r₂.clientData, hc, ← hflag]
        rfl
    have hsend := r₂.sendDetail hsafe₂ i
    simp only [hs, hrun, Option.bind_eq_bind, Option.bind_some, pure]
    cases hd : HeapServer.sendDetail t₁.openFDs t₁.clientData i h₂ with
    | none =>
      simp only [hd] at hsend
      rw [hsend.eq_none_iff.mp rfl]
      exact .none
    | some q =>
      simp only [hd] at hsend
      obtain ⟨s₃, hs₃, r₃, hfreed₃, hlive₃, hcount⟩ := hsend.of_some
      rw [hs₃]
      have hdelta₃ : Delta t.heap q.2 news gone :=
        hdelta.trans_live (hfreed₃.trans hfreed₂) fun x => (hlive₃ x).trans (hlive₂ x)
      exact .some ⟨k, news, gone, ns₁, ⟨_, r₃⟩, hdelta₃,
        by rw [List.count_append, hcount, Nat.add_zero, hnews], hpushes, hnodes, hgnd, hgone, hnew⟩

/-- `close(i)`. -/
theorem close (r : Represents m loc ns s t) (i : Fd) :
    Represents m loc ns (s.close i) (t.close i) :=
  { r with openFDs := by rw [HeapServer.close, Server.close, r.openFDs] }

/-- Lines 99-100: the node of the connection is freed, if it has one. -/
theorem hangUp (r : Represents m loc ns s t) (hmm : t.MallocsOk mm) (i : Fd) :
    ∃ t', t.hangUp mm i = some t' ∧ Follows m ns t [] (s.hangUp i) t' := by
  have r₁ := r.close i
  have hlen := r.count.trans_lt hmm.2.2.1
  have herase : (ns.eraseP fun n => fdAt t.heap n.2 == i).map Prod.snd =
      (ssDelete s.mem s.serverStore i).map loc := by
    have hnodes := congrArg (List.eraseP fun a => fdAt t.heap a == i) r.nodes
    rw [List.eraseP_map, List.eraseP_map] at hnodes
    rw [ssDelete, ← eraseP_congr (r.fdAt_test i)]
    exact hnodes
  have hkeep : ∀ {ll' ns' h'}, (∀ x b, t.heap.cell x = some b → (∀ d n, b ≠ .node d n) →
      h'.cell x = some b) → sessionNode.Chain m.serverStore ll' ns' h' →
      ns'.map Prod.snd = (ssDelete s.mem s.serverStore i).map loc → ns'.length ≤ ns.length →
      Represents m loc ns' (s.hangUp i) { t.close i with
        masterFDs := t.masterFDs.erase i, heap := h', serverStore := ll' } := by
    intro ll' ns' h' hcell hchain hnodes hle
    have r₂ := r₁.keep hcell hchain hnodes (fun _ hp => mem_of_mem_ssDelete hp) hle
    exact { r₂ with masterFDs := by rw [r.masterFDs]; rfl }
  by_cases hany : ∃ n ∈ ns, fdAt t.heap n.2 = i
  · obtain ⟨n₀, hn₀, hmatch⟩ := hany
    obtain ⟨n, pre, rest, hpre, hn, hns, hcut⟩ :=
      List.exists_of_eraseP (p := fun n => fdAt t.heap n.2 == i) hn₀ (beq_iff_eq.mpr hmatch)
    have hfd := r.fd_node
    have hchain := r.chain
    rw [hns] at hfd hchain hlen
    obtain ⟨ll', h', hrun, hchain', hfreed, hdead, hcell⟩ := NodeFormat.delete_hit hchain
      (fun m hm =>
        ⟨_, hfd m (List.mem_append_left _ hm), fun heq => hpre m hm (beq_iff_eq.mpr heq)⟩)
      ((hfd n (by simp)).trans (by rw [beq_iff_eq.mp hn])) hlen
    rw [hcut] at herase
    have hdelta : Delta t.heap h' [] [n.1] := by
      refine ⟨hfreed, List.nodup_nil, List.forall_mem_nil _, fun x => ?_⟩
      rw [NodeFormat.live_of_cut hchain hchain' hdead hcell x, List.mem_singleton]
      simp
    have r' := hkeep (fun x b hx hb => by
      rw [hcell x fun hmem => ?_, hx]
      obtain ⟨d, nx, hnode⟩ := node_of_mem hchain hmem
      exact hb d nx (Option.some.inj (hx.symm.trans hnode))) hchain' herase (by rw [hns]; simp)
    refine ⟨_, ?_, 0, [], [n.1], pre ++ rest, ⟨_, r'⟩, hdelta, rfl, rfl, ?_,
      List.nodup_singleton _, ?_, fun x hx => .inl ?_⟩
    · simp only [HeapServer.hangUp, HeapServer.close, hrun, Option.bind_eq_bind, Option.bind_some]
      rfl
    · simp [hns, Nat.add_assoc]
    · simp [hns]
    · obtain ⟨hnot, -⟩ := List.nodup_cons.mp hchain.nodup_cut
      rw [List.mem_singleton, hns]
      refine ⟨?_, fun hxn => hnot (hxn ▸ List.mem_append_left _ hx)⟩
      simp only [List.map_append, List.map_cons, List.mem_append, List.mem_cons] at hx ⊢
      tauto
  · have hno : ∀ n ∈ ns, fdAt t.heap n.2 ≠ i := by simpa using hany
    have hmiss := NodeFormat.delete_miss r.chain
      (fun n hn => ⟨_, r.fd_node n hn, hno n hn⟩) hlen
    rw [List.eraseP_of_forall_not (by simpa using hno)] at herase
    have r' := hkeep (fun x b hx _ => hx) r.chain herase (Nat.le_refl _)
    refine ⟨_, ?_, .same r' rfl rfl⟩
    simp only [HeapServer.hangUp, HeapServer.close, hmiss, Option.bind_eq_bind, Option.bind_some]
    rfl

/-- **Step lemma.** An event goes as on the server. -/
theorem events (hplaces : m.places.length = StudentList.students.length)
    (r : Represents m loc ns s t) {e : Fd × Answer × Mallocs} (hok : t.Allowed m e) :
    Agree (Follows m ns t) (server.events s (e.1, e.2.1)) (heapServer.events t e) := by
  obtain ⟨i, a, mm⟩ := e
  obtain ⟨hmm, hsafe⟩ := hok
  have hreg : i ∈ t.masterFDs ↔ i ∈ s.masterFDs := by rw [r.masterFDs]
  unfold SelectLoop.events
  by_cases hi : i ∈ s.masterFDs
  · show Agree _ (if i ∈ s.masterFDs then s.body i a else none)
      (if i ∈ t.masterFDs then t.body i (a, mm) else none)
    rw [if_pos hi, if_pos (hreg.mpr hi), Server.body, HeapServer.body, r.listenFD]
    by_cases hl : i = s.listenFD
    · rw [if_pos hl, if_pos hl]
      cases a with
      | accepted newFD =>
        unfold Server.handleAccept handleAccept
        rw [r.openFDs]
        dsimp only
        split
        · exact .some (.same { r with
            masterFDs := by rw [r.masterFDs]; rfl
            openFDs := rfl
            fdMax := by rw [r.fdMax]; rfl } rfl rfl)
        · exact .none
      | data res => exact .none
      | eof => exact .none
      | error => exact .none
    · rw [if_neg hl, if_neg hl]
      cases a with
      | accepted newFD => exact .none
      | data res => exact r.handleMessage hplaces hmm i res hsafe
      | eof =>
        obtain ⟨t', hrun, hfollows⟩ := r.hangUp hmm i
        show Agree _ _ ((t.hangUp mm i).map _)
        rw [hrun]
        exact .some hfollows
      | error =>
        exact ((r.close i).handleMessage hplaces hmm i .zero hsafe).mono fun _ _ _ => .of_close
  · show Agree _ (if i ∈ s.masterFDs then s.body i a else none)
      (if i ∈ t.masterFDs then t.body i (a, mm) else none)
    rw [if_neg hi, if_neg (mt hreg.mp hi)]
    exact .none

end Represents

/-- After line 24 the heap holds the students, the dummy nodes of the two
lists, and the block of line 24. -/
theorem start_stores {m : StartMallocs} {h₀ : Heap Block} (listenFD : Fd)
    (hplaces : m.places.length = StudentList.students.length) (hnd : m.storeAddrs.Nodup)
    (hfresh : ∀ a ∈ m.storeAddrs, Fresh h₀ a) :
    ∃ t₁, start listenFD m h₀ =
        ((malloc m.req .message t₁.heap).bind fun p =>
          (malloc m.res .message p.2).map fun q => { t₁ with heap := q.2 }) ∧
      Represents m (fun _ => m.clientData) []
        (Server.init listenFD stLlGet (m.junk.record ⟨0, [], 0⟩)) t₁ ∧
      Delta h₀ t₁.heap m.storeAddrs [] ∧ t₁.pushes = 0 := by
  obtain ⟨hz, hnd₁⟩ := List.nodup_cons.mp hnd
  obtain ⟨hcd, hnd₂⟩ := List.nodup_cons.mp hnd₁
  have hfz := hfresh m.serverStore (by simp [StartMallocs.storeAddrs])
  have hfc := hfresh m.clientData (by simp [StartMallocs.storeAddrs])
  obtain ⟨h₁, hrun₁, hchain₁, hfreed₁, hcell₁⟩ := sessionNode.init_spec m.junkNext hfz
  -- `st_ll_get`
  have hne : ∀ a ∈ m.studentAddrs, a ≠ m.serverStore := by
    rintro a ha rfl
    exact hz (List.mem_cons_of_mem _ ha)
  have hok : StudentList.PlacesOk (Block.students.view h₁) m.ll m.places := by
    refine ⟨hplaces, hnd₂, fun a ha => Part.fresh_view ?_⟩
    have ha₀ := hfresh a (List.mem_cons_of_mem _ (List.mem_cons_of_mem _ ha))
    exact ⟨ha₀.1, by rw [hcell₁ a (hne a ha), ha₀.2]⟩
  obtain ⟨ll, k, hrun₂, hstudents, hfreed₂, hlive₂, hcell₂⟩ :=
    StudentList.stLlGet_spec m.junkNext' hok
  let h₂ := Block.students.splice h₁ k
  have hold₂ : ∀ x, x ∉ m.studentAddrs → h₂.cell x = h₁.cell x :=
    fun x hx => Part.cell_splice_of_view (hcell₂ x hx)
  have hzs : m.serverStore ∉ m.studentAddrs := fun hmem => hne _ hmem rfl
  have hchain₂ : sessionNode.Chain m.serverStore m.serverStore [] h₂ :=
    hchain₁.congr fun x hx => by
      obtain rfl : x = m.serverStore := by simpa using hx
      exact hold₂ _ hzs
  -- line 24
  have hczs : m.clientData ≠ m.serverStore := fun heq => hz (by simp [heq])
  have hfc₂ : Fresh h₂ m.clientData := ⟨hfc.1, by rw [hold₂ _ hcd, hcell₁ _ hczs, hfc.2]⟩
  let h₃ := h₂.put m.clientData (.session m.junk)
  have hold₃ : ∀ x, x ≠ m.clientData → h₃.cell x = h₂.cell x := by
    intro x hx
    rw [Heap.cell_put hfc.1, if_neg hx]
  have hc₃ : h₃.cell m.clientData = some (.session m.junk) := cell_put_self hfc.1
  let t₁ : HeapServer := ⟨listenFD, {listenFD}, listenFD, {listenFD}, h₃, m.serverStore, ll,
    m.clientData, 0⟩
  have hstart : start listenFD m h₀ =
      ((malloc m.req .message t₁.heap).bind fun p =>
        (malloc m.res .message p.2).map fun q => { t₁ with heap := q.2 }) := by
    have hmalloc : malloc m.clientData (.session m.junk) (Block.students.splice h₁ k) =
        some (m.clientData, h₃) := malloc_run hfc₂
    simp only [start, hrun₁, Part.lift_run hrun₂, hmalloc, Option.bind_eq_bind, Option.bind_some]
    refine Option.bind_congr fun p _ => ?_
    cases malloc m.res .message p.2 <;> rfl
  have hview : StudentList.Represents m.ll (StudentList.gotten m.places)
      ⟨Block.students.view h₂, ll⟩ := by rw [Part.view_splice]; exact hstudents
  refine ⟨t₁, hstart, ?_, ⟨?_, hnd, fun x hx => not_live_of_fresh (hfresh x hx), fun x => ?_⟩, rfl⟩
  · refine ⟨rfl, rfl, rfl, rfl, rfl, ?_, ?_, rfl, ?_, nofun, Nat.zero_lt_one, rfl, rfl, ?_,
      Nat.le_refl 0⟩
    · refine students_keep hview fun x b hx => ?_
      rw [hold₃ x (ne_of_fresh hx hfc₂), hx]
    · refine hchain₂.congr fun x hx => hold₃ x ?_
      obtain rfl : x = m.serverStore := by simpa using hx
      exact hczs.symm
    · intro p q hp hq _
      have hone : ∀ {x : Nat}, x < 1 → x = 0 := Nat.lt_one_iff.mp
      rw [hone hp, hone hq]
    · intro p hp
      obtain rfl : p = 0 := Nat.lt_one_iff.mp hp
      exact ⟨m.junk, hc₃, rfl, fun _ => rfl, fun h0 => absurd rfl h0⟩
  · show k.freed = _
    rw [hfreed₂, List.append_nil]
    exact hfreed₁
  · have hstep : ∀ y, y ≠ m.clientData → (h₃.Live y ↔ h₂.Live y) := by
      intro y hy
      rw [Heap.Live, Heap.Live, hold₃ y hy]
    simp only [List.not_mem_nil, not_false_eq_true, and_true]
    by_cases hxc : x = m.clientData
    · refine iff_of_true ?_ (.inr (by simp [hxc, StartMallocs.storeAddrs]))
      rw [hxc, Heap.Live, hc₃]
      rfl
    · by_cases hxs : x ∈ m.studentAddrs
      · refine iff_of_true ((hstep x hxc).mpr ?_) (.inr (by simp [hxs, StartMallocs.storeAddrs]))
        obtain ⟨b, hb⟩ := Option.isSome_iff_exists.mp (hlive₂ x hxs)
        rw [Heap.Live, Part.cell_splice hb]
        rfl
      · rw [hstep x hxc, Heap.Live, hold₂ x hxs]
        by_cases hxz : x = m.serverStore
        · refine iff_of_true ?_ (.inr (by simp [hxz, StartMallocs.storeAddrs]))
          exact hxz ▸ hchain₁.live _ (by simp)
        · rw [hcell₁ x hxz]
          simp [StartMallocs.storeAddrs, hxc, hxs, hxz, Heap.Live]

/-- Before the loop the heap holds these blocks, and the two `struct Message`s. -/
theorem start_spec {m : StartMallocs} {h₀ : Heap Block} (listenFD : Fd) (hm : m.Ok h₀) :
    ∃ t₀, start listenFD m h₀ = some t₀ ∧
      Represents m (fun _ => m.clientData) []
        (Server.init listenFD stLlGet (m.junk.record ⟨0, [], 0⟩)) t₀ ∧
      Delta h₀ t₀.heap m.addrs [] ∧ t₀.pushes = 0 := by
  obtain ⟨hplaces, hnd, hfresh⟩ := hm
  obtain ⟨hres, hnd₁⟩ := List.nodup_cons.mp hnd
  obtain ⟨hreq, hnd₂⟩ := List.nodup_cons.mp hnd₁
  have hfresh₁ := hfresh m.res List.mem_cons_self
  have hfresh₂ := hfresh m.req (List.mem_cons_of_mem _ List.mem_cons_self)
  obtain ⟨t₁, hstart, r₁, hdelta₁, hpushes⟩ := start_stores listenFD hplaces hnd₂
    fun a ha => hfresh a (List.mem_cons_of_mem _ (List.mem_cons_of_mem _ ha))
  -- line 26
  have hf₁ : Fresh t₁.heap m.req := hdelta₁.fresh hfresh₂ hreq
  have r₂ := r₁.malloc (b := .message) hf₁
  have hdelta₂ := hdelta₁.malloc (b := .message) (not_live_of_fresh hfresh₂) hf₁
  -- line 27
  have hf₂ : Fresh (t₁.heap.put m.req .message) m.res := hdelta₂.fresh hfresh₁ hres
  refine ⟨_, ?_, r₂.malloc (b := .message) hf₂,
    hdelta₂.malloc (b := .message) (not_live_of_fresh hfresh₁) hf₂, hpushes⟩
  rw [hstart, malloc_run hf₁, Option.bind_some, malloc_run hf₂, Option.map_some]

end HeapServer

end CCodes.Assignment
