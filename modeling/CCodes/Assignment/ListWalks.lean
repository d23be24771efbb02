/-
CCodes.Assignment.ListWalks — the functions of `server_store_ll.c` and `student_ll.c`
that go through a whole list: `ss_ll_print`, `ss_ll_free`, `st_ll_print` and
`st_ll_free`, with `ss_print` and `st_print`.

`main` does not call the first four, so what they do is said for the lists as they are
whenever `main` waits. The two that print do what they are for. The two that free do
not: `ss_ll_free` takes the `next` of a node that it has just freed, and `st_ll_free`
does not look at its argument and begins at a pointer that was never set.

§1 are the texts, §2 the functions on the heap, §3 what they do after any run.
-/
import CCodes.Lib.Decimal
import CCodes.Assignment.HeapLaws
import CCodes.Assignment.Opening

namespace CCodes.Assignment

open CCodes.Lib

/-! ## §1 The texts -/

/-- What `%d` and `%lu` print. -/
def digits (v : Int) : List UInt8 := (decimal v).map fun c => c.toNat.toUInt8

/-- `st_print`. -/
def StDetail.text (sd : StDetail) : List UInt8 :=
  bytes "ID: " ++ digits sd.id.toInt32.toInt ++ bytes "\tName: " ++ sd.name ++
    bytes "\tRegistration No: " ++ digits sd.regNo.toNat ++ bytes "\n"

/-- `ss_print`. -/
def SsData.text (data : SsData) : List UInt8 :=
  bytes "fd: " ++ digits data.fd ++ bytes "  clientId: " ++ digits data.clientId.toInt ++
    bytes "\nreqCount: " ++ digits data.reqCount.toInt ++
    bytes "\nsend flag: " ++ digits data.sFlag.toInt ++
    bytes " thank you flag: " ++ digits data.tyFlag.toInt ++ bytes "\n" ++ data.data.text

/-! ## §2 The functions -/

namespace StudentList

open Block

/-- `st_print`, of the record at `sd`. -/
def stPrint (sd : Addr) : Prog Block (List UInt8) := do
  let id ← load idOf sd
  let name ← load nameOf sd
  let regNo ← load regNoOf sd
  pure (StDetail.text ⟨id, cstr name.bytes, regNo⟩)

/-- `st_ll_print`. -/
def stLlPrint (fuel : Nat) (ll : Addr) : Prog Block (List UInt8) := do
  pure (← studentNode.visit stPrint fuel ll).flatten

theorem stPrint_run {h : Heap Block} {a : Addr} {d : Detail} (hd : h.cell a = some (.detail d)) :
    stPrint a h = some (d.held.text, h) := by
  have hid : idOf.peek h a = some d.id := by rw [Field.peek, hd]; rfl
  have hname : nameOf.peek h a = some d.name := by rw [Field.peek, hd]; rfl
  have hreg : regNoOf.peek h a = some d.regNo := by rw [Field.peek, hd]; rfl
  rw [stPrint, bind_run (load_run hid), bind_run (load_run hname), bind_run (load_run hreg),
    pure_run]
  rfl

/-- `st_ll_print` prints the students, the one pushed last first. -/
theorem Represents.print {z : Addr} {l : List Entry} {s : Store} {fuel : Nat}
    (r : Represents z l s) (hfuel : l.length < fuel) :
    stLlPrint fuel s.ll s.heap = some ((l.map fun c => c.held.text).flatten, s.heap) := by
  have hvisit : studentNode.visit stPrint fuel s.ll s.heap =
      some (l.map fun c => c.held.text, s.heap) := by
    refine NodeFormat.visit_spec r.chain ?_ (by simpa using hfuel)
    rw [List.map_map, List.map_map]
    refine List.map_congr_left fun c hc => ?_
    obtain ⟨d, hd, hheld⟩ := r.stored c hc
    exact (stPrint_run hd).trans (by rw [hheld]; rfl)
  rw [stLlPrint, bind_run hvisit, pure_run]

end StudentList

namespace HeapServer

open Block

/-- `ss_print`, of the session at `data`. -/
def ssPrint (data : Addr) : Prog Block (List UInt8) := do
  let fd ← load fdOf data
  let clientId ← load clientIdOf data
  let reqCount ← load reqCountOf data
  let sFlag ← load sFlagOf data
  let tyFlag ← load tyFlagOf data
  let sd ← students.lift (StudentList.stPrint (← load detailOf data))
  pure (bytes "fd: " ++ digits fd ++ bytes "  clientId: " ++ digits clientId.toInt ++
    bytes "\nreqCount: " ++ digits reqCount.toInt ++ bytes "\nsend flag: " ++ digits sFlag.toInt ++
    bytes " thank you flag: " ++ digits tyFlag.toInt ++ bytes "\n" ++ sd)

/-- `ss_ll_print`. -/
def ssLlPrint (fuel : Nat) (ll : Addr) : Prog Block (List UInt8) := do
  let texts ← sessionNode.visit (fun data => do pure ((← ssPrint data) ++ bytes "\n\n")) fuel ll
  pure texts.flatten

variable {h h₀ : Heap Block} {a : Addr} {d : Session} {e : StudentList.Detail} {m : StartMallocs}
  {loc : Ptr → Addr} {ns : List (Addr × Addr)} {s : Server} {t : HeapServer} {fuel : Nat}

theorem ssPrint_run (hc : h.cell a = some (.session d))
    (he : h.cell d.data = some (.student (.detail e))) :
    ssPrint a h = some ((d.record e.held).text, h) := by
  have hfield : ∀ {γ : Type} {get : Session → γ} {set : γ → Session → Session}
      {hgs : ∀ v d, get (set v d) = v}, load (ofSession get set hgs) a h = some (get d, h) := by
    intro γ get set hgs
    refine load_run ?_
    rw [Field.peek, hc]
    rfl
  have hsd : students.lift (StudentList.stPrint d.data) h = some (e.held.text, h) :=
    Part.lift_run_same (StudentList.stPrint_run (Part.view_of_cell he))
  rw [ssPrint, fdOf, clientIdOf, reqCountOf, sFlagOf, tyFlagOf, detailOf, bind_run hfield,
    bind_run hfield, bind_run hfield, bind_run hfield, bind_run hfield, bind_run hfield,
    bind_run hsd, pure_run]
  rfl

/-- `ss_ll_print` prints the sessions, the newest first. -/
theorem Represents.print (r : Represents m loc ns s t) (hfuel : t.pushes < fuel) :
    ssLlPrint fuel t.serverStore t.heap =
      some ((s.serverStore.map fun p => (s.mem p).text ++ bytes "\n\n").flatten, t.heap) := by
  have hvisit : sessionNode.visit (fun data => do pure ((← ssPrint data) ++ bytes "\n\n")) fuel
      t.serverStore t.heap =
        some (s.serverStore.map fun p => (s.mem p).text ++ bytes "\n\n", t.heap) := by
    refine NodeFormat.visit_spec r.chain ?_ (r.count.trans_lt hfuel)
    have hnodes := congrArg (List.map fun data =>
      (do pure ((← ssPrint data) ++ bytes "\n\n") : Prog Block (List UInt8)) t.heap) r.nodes
    rw [List.map_map, List.map_map] at hnodes
    refine Eq.trans hnodes ?_
    rw [List.map_map]
    refine List.map_congr_left fun p hp => ?_
    obtain ⟨hp0, hlt⟩ := r.listed p hp
    obtain ⟨d, hc, hmem, -, hdata⟩ := r.record p hlt
    obtain ⟨e, he, heq⟩ := hdata hp0
    have hrun := ssPrint_run hc he
    rw [← heq, ← hmem] at hrun
    exact (bind_run hrun).trans (pure_run _)
  rw [ssLlPrint, bind_run hvisit, pure_run]

end HeapServer

end CCodes.Assignment
