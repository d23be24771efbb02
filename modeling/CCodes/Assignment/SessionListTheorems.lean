/-
CCodes.Assignment.SessionListTheorems — the list of sessions is an
association list.

§1 is about chains, which end in the node of `ss_init`: they are those of
`CCodes.Lib.DummyList`. §2 has the functions as the programs of that library,
with its rules. §3 is the simulation and the law.
-/
import CCodes.Assignment.SessionList
import CCodes.Lib.DummyList

namespace CCodes.Assignment.SessionList

open CCodes.Lib Block

variable {h h' h₀ : Heap Block} {z ll temp e q t : Addr} {ns pre rest : List (Addr × Addr)}
  {n : Addr × Addr} {mem : Addr → SsData} {fd : Fd} {data fuel prev : Nat}

/-! ## §1 Chains -/

/-- The `struct SS_Node`s. -/
def sessionNode : NodeFormat Block where
  nextOf := nextOf
  dataOf := dataOf
  blank := node none
  next_blank _ := rfl
  data_blank _ := rfl
  next_apart := inferInstance
  data_apart := inferInstance

/-- The chain from `ll` through `nodes` to the last node `z`, whose `data`
was never stored to. -/
abbrev Chain (z ll : Addr) (nodes : List (Addr × Addr)) (h : Heap Block) : Prop :=
  sessionNode.Chain z ll nodes h

/-- A record is no node of the chain. -/
theorem not_mem_of_record {r : SsData} (hc : Chain z ll ns h) (he : h.cell e = some (.record r)) :
    e ∉ ns.map Prod.fst ++ [z] := by
  refine hc.not_mem ?_
  rw [Field.peek, he]
  rfl

/-! ## §2 The functions -/

theorem ssInit_spec (jn : Addr) (hz : Fresh h z) :
    ∃ h', ssInit z jn h = some (z, h') ∧ Chain z z [] h' ∧ h'.freed = h.freed ∧
      ∀ x, x ≠ z → h'.cell x = h.cell x :=
  sessionNode.init_spec jn hz

/-- `ss_push` puts a node in front of the chain. -/
theorem ssPush_spec (d jn : Addr) (he : Fresh h e) (hc : Chain z ll ns h) :
    ∃ h', ssPush ll d e jn h = some (e, h') ∧ Chain z e ((e, d) :: ns) h' ∧
      h'.freed = h.freed ∧ ∀ x, x ≠ e → h'.cell x = h.cell x :=
  NodeFormat.push_spec d jn he hc

theorem ssSearch_eq (fuel ll : Nat) (fd : Fd) (data : Addr) :
    ssSearch fuel ll fd data = sessionNode.search fdOf fuel ll fd data := by
  unfold ssSearch NodeFormat.search
  induction fuel generalizing ll with
  | zero => rfl
  | succ fuel ih =>
    simp only [ssSearchLoop, ih]
    rfl

/-- `ss_search` gives the first node that matches. -/
theorem ssSearch_spec (data : Addr) (hc : Chain z ll ns h)
    (hf : ∀ n ∈ ns, fdOf.peek h n.2 = some (mem n.2).fd) (hfuel : ns.length < fuel) :
    ssSearch fuel ll fd data h =
      some ((ns.find? fun n => (mem n.2).fd == fd).elim (-1, data) (fun n => (0, n.2)), h) := by
  rw [ssSearch_eq]
  exact NodeFormat.search_spec data hc hf hfuel

theorem ssDelete_eq (fuel ll : Nat) (fd : Fd) :
    ssDelete fuel ll fd = sessionNode.delete fdOf fuel ll fd := by
  have hloop : ∀ prev temp, ssDeleteLoop fd ll fuel prev temp =
      sessionNode.deleteLoop fdOf fd ll fuel prev temp := by
    induction fuel with
    | zero => exact fun _ _ => rfl
    | succ fuel ih =>
      intro prev temp
      simp only [ssDeleteLoop, ih]
      rfl
  exact hloop 0 ll

/-- `ss_delete` when no node matches. -/
theorem ssDelete_miss (hc : Chain z ll ns h)
    (hf : ∀ n ∈ ns, ∃ fd', fdOf.peek h n.2 = some fd' ∧ fd' ≠ fd) (hfuel : ns.length < fuel) :
    ssDelete fuel ll fd h = some ((-1, ll), h) := by
  rw [ssDelete_eq]
  exact NodeFormat.delete_miss hc hf hfuel

/-- `ss_delete` when `n` is the first node that matches. -/
theorem ssDelete_hit (hc : Chain z ll (pre ++ n :: rest) h)
    (hf : ∀ m ∈ pre, ∃ fd', fdOf.peek h m.2 = some fd' ∧ fd' ≠ fd)
    (hfd : fdOf.peek h n.2 = some fd) (hfuel : (pre ++ n :: rest).length < fuel) :
    ∃ ll' h', ssDelete fuel ll fd h = some ((0, ll'), h') ∧ Chain z ll' (pre ++ rest) h' ∧
      h'.freed = h.freed ++ [n.1] ∧ h'.cell n.1 = none ∧
      ∀ x, x ∉ (pre ++ n :: rest).map Prod.fst → h'.cell x = h.cell x := by
  rw [ssDelete_eq]
  exact NodeFormat.delete_hit hc hf hfd hfuel

/-! ## §3 The law -/

/-- The store holds the sessions `a` in a chain that ends in `z`; `freed₀`
are the addresses freed before `ss_init`. -/
structure Represents (z : Addr) (freed₀ : List Addr) (a : Sessions) (s : Store) : Prop where
  chain : Chain z s.ll a.nodes s.heap
  stored : ∀ n ∈ a.nodes, ∃ r, s.heap.cell n.2 = some (.record r)
  mem : ∀ d r, s.heap.cell d = some (.record r) → a.mem d = r
  count : a.nodes.length ≤ s.pushes
  data : s.data = a.data
  freed : ∃ es, s.heap.freed = freed₀ ++ es ∧ z ∉ es

namespace Represents

variable {a : Sessions} {s : Store} {c : Call} {freed₀ : List Addr}

theorem fd_node (r : Represents z freed₀ a s) :
    ∀ n ∈ a.nodes, fdOf.peek s.heap n.2 = some (a.mem n.2).fd := by
  intro n hn
  obtain ⟨rec, hrec⟩ := r.stored n hn
  rw [Field.peek, hrec, r.mem _ _ hrec]
  rfl

theorem create {d : Addr} (rec : SsData) (r : Represents z freed₀ a s) (hd : Fresh s.heap d) :
    Represents z freed₀ { a with mem := Function.update a.mem d rec }
      { s with heap := s.heap.put d (.record rec) } where
  chain := r.chain.congr fun x hx => by
    have hne : x ≠ d := fun hxd => r.chain.not_mem_of_dead hd.2 (hxd ▸ hx)
    rw [Heap.cell_put hd.1, if_neg hne]
  stored n hn := by
    obtain ⟨rec', hrec⟩ := r.stored n hn
    refine ⟨rec', ?_⟩
    have hne : n.2 ≠ d := by
      intro hnd
      rw [hnd, hd.2] at hrec
      cases hrec
    rw [Heap.cell_put hd.1, if_neg hne, hrec]
  mem x rec' hx := by
    rw [Heap.cell_put hd.1] at hx
    by_cases hxd : x = d
    · rw [if_pos hxd, Option.some.injEq, Block.record.injEq] at hx
      rw [hxd, ← hx]
      exact Function.update_self ..
    · rw [if_neg hxd] at hx
      exact (Function.update_of_ne hxd ..).trans (r.mem x rec' hx)
  count := r.count
  data := r.data
  freed := r.freed

theorem push {d e : Addr} (jn : Addr) (r : Represents z freed₀ a s)
    (hd : ∃ rec, s.heap.cell d = some (.record rec)) (he : Fresh s.heap e) :
    ∃ h', ssPush s.ll d e jn s.heap = some (e, h') ∧
      Represents z freed₀ { a with nodes := (e, d) :: a.nodes }
        { s with heap := h', ll := e, pushes := s.pushes + 1 } := by
  obtain ⟨h', hrun, hchain, hfreed, hcell⟩ := ssPush_spec d jn he r.chain
  have hrec : ∀ x rec, s.heap.cell x = some (.record rec) → h'.cell x = some (.record rec) := by
    intro x rec hx
    have hne : x ≠ e := by
      rintro rfl
      rw [he.2] at hx
      cases hx
    rw [hcell x hne, hx]
  refine ⟨h', hrun, hchain, ?_, ?_, Nat.succ_le_succ r.count, r.data, ?_⟩
  · rw [List.forall_mem_cons]
    refine ⟨?_, fun n hn => ?_⟩
    · obtain ⟨rec, hd⟩ := hd
      exact ⟨rec, hrec d rec hd⟩
    · obtain ⟨rec, hn⟩ := r.stored n hn
      exact ⟨rec, hrec n.2 rec hn⟩
  · intro x rec hx
    refine r.mem x rec ?_
    have hne : x ≠ e := fun hxe => not_mem_of_record hchain hx (by simp [hxe])
    rw [← hcell x hne, hx]
  · rw [hfreed]
    exact r.freed

theorem search (fd : Fd) (r : Represents z freed₀ a s) (hfuel : s.pushes < fuel) :
    ∃ p, ssSearch fuel s.ll fd s.data s.heap = some (p, s.heap) ∧
      Ret.status p.1 = (reference a (.search fd fuel)).1 ∧
      Represents z freed₀ (reference a (.search fd fuel)).2 { s with data := p.2 } := by
  have hrun : ssSearch fuel s.ll fd s.data s.heap =
      some ((a.nodes.find? (a.holds fd)).elim (-1, s.data) (fun n => (0, n.2)), s.heap) :=
    ssSearch_spec s.data r.chain r.fd_node (r.count.trans_lt hfuel)
  rw [hrun, reference]
  refine ⟨_, rfl, ?_⟩
  cases a.nodes.find? (a.holds fd) with
  | none => exact ⟨rfl, r⟩
  | some n => exact ⟨rfl, r.chain, r.stored, r.mem, r.count, rfl, r.freed⟩

/-- The chain without one of its nodes represents the sessions without it. -/
theorem remove {ll' : Addr} (r : Represents z freed₀ a s) (hnodes : a.nodes = pre ++ n :: rest)
    (hchain : Chain z ll' (pre ++ rest) h') (hfreed : h'.freed = s.heap.freed ++ [n.1])
    (hdead : h'.cell n.1 = none)
    (hcell : ∀ x, x ∉ (pre ++ n :: rest).map Prod.fst → h'.cell x = s.heap.cell x) :
    Represents z freed₀ { a with nodes := pre ++ rest } { s with heap := h', ll := ll' } := by
  have hold := r.chain
  rw [hnodes] at hold
  refine ⟨hchain, fun m hm => ?_, fun x rec hx => ?_, ?_, r.data, ?_⟩
  · have hmem : m ∈ a.nodes := by
      rw [hnodes]
      exact List.mem_append.mpr ((List.mem_append.mp hm).imp_right (List.mem_cons_of_mem _))
    obtain ⟨rec, hrec⟩ := r.stored m hmem
    exact ⟨rec, by rw [hcell _ fun hmem =>
      not_mem_of_record hold hrec (List.mem_append_left _ hmem), hrec]⟩
  · have hmem : x ∉ (pre ++ n :: rest).map Prod.fst := by
      have hrest := not_mem_of_record hchain hx
      have hne : x ≠ n.1 := by
        rintro rfl
        rw [hdead] at hx
        cases hx
      simp only [List.map_append, List.map_cons, List.mem_append, List.mem_cons] at hrest ⊢
      tauto
    exact r.mem x rec (by rw [← hcell x hmem, hx])
  · have hcount := r.count
    simp only [hnodes, List.length_append, List.length_cons] at hcount ⊢
    omega
  · obtain ⟨es, hes, hz⟩ := r.freed
    refine ⟨es ++ [n.1], by rw [hfreed, hes, List.append_assoc], ?_⟩
    have hne : z ≠ n.1 := by
      rintro rfl
      exact (List.nodup_cons.mp hold.nodup_cut).1 (by simp)
    simpa [hz] using hne

theorem delete (fd : Fd) (r : Represents z freed₀ a s) (hfuel : s.pushes < fuel) :
    ∃ p h', ssDelete fuel s.ll fd s.heap = some (p, h') ∧
      Ret.status p.1 = (reference a (.delete fd fuel)).1 ∧
      Represents z freed₀ (reference a (.delete fd fuel)).2 { s with heap := h', ll := p.2 } := by
  have hlen := r.count.trans_lt hfuel
  by_cases hany : a.nodes.any (a.holds fd) = true
  · obtain ⟨m, hm, hmatch⟩ := List.any_eq_true.mp hany
    obtain ⟨n, pre, rest, hpre, hn, hnodes, herase⟩ := List.exists_of_eraseP hm hmatch
    have hfd := r.fd_node
    have hchain := r.chain
    rw [hnodes] at hfd hchain hlen
    have hfdn : fdOf.peek s.heap n.2 = some fd := by
      rw [hfd n (by simp), beq_iff_eq.mp hn]
    obtain ⟨ll', h', hrun, hchain', hfreed, hdead, hcell⟩ := ssDelete_hit hchain
      (fun m hm => ⟨_, hfd m (List.mem_append_left _ hm), fun h => hpre m hm (beq_iff_eq.mpr h)⟩)
      hfdn hlen
    refine ⟨(0, ll'), h', hrun, ?_, ?_⟩
    · simp only [reference, hany, if_true]
    · simp only [reference, hany, if_true, herase]
      exact r.remove hnodes hchain' hfreed hdead hcell
  · have hno : ∀ n ∈ a.nodes, (a.mem n.2).fd ≠ fd := by
      intro n hn hfd
      exact hany (List.any_eq_true.mpr ⟨n, hn, beq_iff_eq.mpr hfd⟩)
    have hmiss := ssDelete_miss r.chain (fun n hn => ⟨_, r.fd_node n hn, hno n hn⟩) hlen
    refine ⟨(-1, s.ll), s.heap, hmiss, ?_, ?_⟩
    · simp only [reference, hany, if_false, Bool.false_eq_true]
    · simp only [reference, hany, if_false, Bool.false_eq_true]
      exact r

end Represents

/-- **Step lemma.** Each allowed call answers as the reference does. -/
theorem step_refines {freed₀ : List Addr} (a : Sessions) (s : Store) (c : Call)
    (r : Represents z freed₀ a s) (hok : CallOk s c) :
    ∃ t, step s c = some ((reference a c).1, t) ∧ Represents z freed₀ (reference a c).2 t := by
  cases c with
  | create d rec =>
    exact ⟨_, by simp only [step, malloc_run hok, Option.map_some]; rfl, r.create rec hok⟩
  | push d e jn =>
    obtain ⟨h', hrun, r'⟩ := r.push jn hok.1 hok.2
    exact ⟨_, by simp only [step, hrun, Option.map_some]; rfl, r'⟩
  | search fd fuel =>
    obtain ⟨p, hrun, hret, r'⟩ := r.search fd hok
    exact ⟨_, by simp only [step, hrun, Option.map_some, hret], r'⟩
  | delete fd fuel =>
    obtain ⟨p, h', hrun, hret, r'⟩ := r.delete fd hok
    exact ⟨_, by simp only [step, hrun, Option.map_some, hret], r'⟩

/-- The records of a heap. -/
def recordsOf (h : Heap Block) (d : Addr) : SsData :=
  match h.cell d with
  | some (.record r) => r
  | _ => .zero

/-- **The session list law.** From any heap with `z` not live, `ss_init`
returns, and after every sequence of calls, whatever addresses `malloc`
picks among those not live: the results, and the caller's `data`, are those
of the association list; the nodes reached from the head hold its data
pointers, in its order, and end in `z`, whose `data` nothing was ever stored
in; no allowed call faults, so none reads that `data` or touches a freed
node; every node reached is live; and `z` was not freed. -/
theorem session_list_law (h₀ : Heap Block) (z jn data : Addr) (hz : Fresh h₀ z) :
    ∃ h₁, ssInit z jn h₀ = some (z, h₁) ∧
      ∀ tr s, Exec step CallOk ⟨h₁, z, data, 0⟩ tr s →
        let ref := reference.run ⟨recordsOf h₀, [], data⟩ (tr.map Prod.fst)
        tr.map Prod.snd = ref.1 ∧ s.data = ref.2.data ∧ Chain z s.ll ref.2.nodes s.heap ∧
        (∀ c, CallOk s c → ∃ ret t, step s c = some (ret, t)) ∧
        (∀ x ∈ ref.2.nodes.map Prod.fst ++ [z], s.heap.Live x) ∧
        ∃ es, s.heap.freed = h₀.freed ++ es ∧ z ∉ es := by
  obtain ⟨h₁, hrun, hchain, hfreed, hcell⟩ := ssInit_spec jn hz
  have hmem : ∀ d r, h₁.cell d = some (.record r) → recordsOf h₀ d = r := by
    intro d r hd
    have hne : d ≠ z := fun hdz => not_mem_of_record hchain hd (by simp [hdz])
    rw [hcell d hne] at hd
    rw [recordsOf, hd]
  have hstart : Represents z h₀.freed ⟨recordsOf h₀, [], data⟩ ⟨h₁, z, data, 0⟩ :=
    ⟨hchain, by simp, hmem, Nat.le_refl 0, rfl, [], by simpa using hfreed, by simp⟩
  refine ⟨h₁, hrun, fun tr s hexec => ?_⟩
  obtain ⟨hout, r, hlive⟩ := hexec.simulates reference (Represents z h₀.freed) hstart step_refines
  exact ⟨hout, r.data, r.chain, hlive, r.chain.live, r.freed⟩

/-- A session of the descriptor `fd`. -/
def sessionOf (fd : Fd) : SsData := { SsData.zero with fd := fd }

/-- Three sessions, of which the one in the middle goes; its node is given again, for
another session with the descriptor of the first. -/
def recycled : List Call :=
  [.create 100 (sessionOf 4), .push 100 16 0, .create 108 (sessionOf 5), .push 108 24 1,
    .create 116 (sessionOf 6), .push 116 32 0, .search 4 9, .delete 5 9, .search 5 9,
    .create 124 (sessionOf 4), .push 124 24 7, .search 4 9, .delete 7 9]

/-- The law after these calls: the newest session of the descriptor 4 is found, and
three nodes are left. -/
theorem session_list_law_recycled :
    ∃ h₁ tr s, ssInit 8 0 Heap.empty = some (8, h₁) ∧ Exec step CallOk ⟨h₁, 8, 0, 0⟩ tr s ∧
      tr.map Prod.fst = recycled ∧
      tr.map Prod.snd = [.void, .void, .void, .void, .void, .void, .status 0, .status 0,
        .status (-1), .void, .void, .status 0, .status (-1)] ∧
      s.data = 124 ∧ Chain 8 s.ll [(24, 124), (32, 116), (16, 100)] s.heap := by
  obtain ⟨h₁, hinit, hlaw⟩ := session_list_law Heap.empty 8 0 0 ⟨by decide, rfl⟩
  obtain rfl : h₁ = ((ssInit 8 0 Heap.empty).get rfl).2 := by simp [hinit]
  obtain ⟨tr, s, hexec, hin, -⟩ := exec_such_that step CallOk
    ⟨((ssInit 8 0 Heap.empty).get rfl).2, 8, 0, 0⟩ recycled (fun _ => True) (by decide +kernel)
  obtain ⟨hout, hdata, hchain, -⟩ := hlaw tr s hexec
  rw [hin] at hout hdata hchain
  exact ⟨_, tr, s, hinit, hexec, hin, hout, hdata, hchain⟩

end CCodes.Assignment.SessionList
