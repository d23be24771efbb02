/-
CCodes.Lib.Segment — chains of pointers.

`Seg next p l e` says that following `next` from the pointer `p` visits
exactly the addresses of `l`, in order, and then stands at `e`. A list
ended by NULL is `Seg next head l 0`, one ended by a dummy node is
`Seg next head l dummy`, a ring through `d` is `Seg next d (d :: l) d`.

The lemmas say how a segment is cut and glued (`seg_append`, `seg_snoc`),
that it only looks at the links of the addresses it visits (`seg_congr`),
what becomes of it when an address is linked in or out
(`seg_insert_last`, `seg_remove_first`, `seg_remove_behind`), and, for two
link fields, what running a segment backwards means (`seg_back_start`,
`back_link_of_segs`).
-/
import Mathlib.Data.List.Basic

namespace CCodes.Lib

variable {Ptr : Type}

/-- Following `next` from `p` visits `l` and then stands at `e`. -/
def Seg (next : Ptr → Option Ptr) (p : Ptr) : List Ptr → Ptr → Prop
  | [], e => p = e
  | a :: l, e => p = a ∧ ∃ q, next a = some q ∧ Seg next q l e

variable {next next' : Ptr → Option Ptr} {p q e a : Ptr} {l m : List Ptr}

@[simp] theorem seg_nil : Seg next p [] e ↔ p = e := Iff.rfl

theorem seg_cons : Seg next p (a :: l) e ↔ p = a ∧ ∃ q, next a = some q ∧ Seg next q l e :=
  Iff.rfl

theorem seg_singleton : Seg next p [a] e ↔ p = a ∧ next a = some e := by
  simp [seg_cons]

/-- A segment through `l ++ m` is one through `l` and then one through `m`. -/
theorem seg_append : Seg next p (l ++ m) e ↔ ∃ q, Seg next p l q ∧ Seg next q m e := by
  induction l generalizing p with
  | nil => simp
  | cons a l ih =>
    simp only [List.cons_append, seg_cons, ih]
    constructor
    · rintro ⟨hp, q, hq, r, hl, hm⟩
      exact ⟨r, ⟨hp, q, hq, hl⟩, hm⟩
    · rintro ⟨r, ⟨hp, q, hq, hl⟩, hm⟩
      exact ⟨hp, q, hq, r, hl, hm⟩

theorem seg_snoc : Seg next p (l ++ [a]) e ↔ Seg next p l a ∧ next a = some e := by
  simp [seg_append, seg_singleton]

/-- A segment looks only at the links of the addresses it visits. -/
theorem seg_congr (h : ∀ x ∈ l, next x = next' x) : Seg next p l e ↔ Seg next' p l e := by
  induction l generalizing p with
  | nil => simp
  | cons a l ih =>
    have ha : next a = next' a := h a (by simp)
    have hl : ∀ p, Seg next p l e ↔ Seg next' p l e :=
      fun p => ih (fun x hx => h x (List.mem_cons_of_mem _ hx))
    simp only [seg_cons, ha, hl]

/-- The first pointer of a segment is its first address, or its end. -/
theorem seg_head (h : Seg next p l e) : p = (l ++ [e]).head (by simp) := by
  cases l with
  | nil => exact h
  | cons a l => exact h.1

/-- Only the end of an empty segment can equal an end that is not visited. -/
theorem seg_nil_iff (h : Seg next p l e) (he : e ∉ l) : p = e ↔ l = [] := by
  cases l with
  | nil => simpa using h
  | cons a l =>
    have : p ≠ e := by
      rintro rfl
      exact he (by simp [h.1])
    simp [this]

/-- Every address of a segment has a link. -/
theorem seg_link (h : Seg next p l e) : ∀ x ∈ l, ∃ y, next x = some y := by
  induction l generalizing p with
  | nil => simp
  | cons a l ih =>
    obtain ⟨-, q, hq, hl⟩ := h
    intro x hx
    rcases List.mem_cons.mp hx with rfl | hx
    · exact ⟨q, hq⟩
    · exact ih hl x hx

/-! ## Linking an address in or out

The new links are given as programs leave them: one case for the address
that comes or goes, one for its neighbour, and the old links elsewhere. -/

section Change

variable [DecidableEq Ptr] {t e' y : Ptr} {o o' : Option Ptr}

/-- A segment through neither of two addresses does not see their links. -/
theorem seg_off (h : Seg next p l e) (ha : a ∉ l) (ht : t ∉ l)
    (hnext : ∀ x, next' x = if x = a then o else if x = t then o' else next x) :
    Seg next' p l e := by
  refine (seg_congr fun x hx => ?_).mp h
  have hxa : x ≠ a := fun hxa => ha (hxa ▸ hx)
  have hxt : x ≠ t := fun hxt => ht (hxt ▸ hx)
  rw [hnext, if_neg hxa, if_neg hxt]

/-- The last address `t` is turned to another end; `a` is not visited. -/
theorem seg_turn_last (h : Seg next p (l ++ [t]) e) (hnd : (l ++ [t]).Nodup)
    (ha : a ∉ l ++ [t])
    (hnext : ∀ x, next' x = if x = a then o else if x = t then some e' else next x) :
    Seg next' p (l ++ [t]) e' := by
  obtain ⟨hseg, -⟩ := seg_snoc.mp h
  have hta : t ≠ a := fun hta => ha (by simp [hta])
  have hal : a ∉ l := fun hal => ha (by simp [hal])
  have htl : t ∉ l := fun htl => List.nodup_append.mp hnd |>.2.2 t htl t (by simp) rfl
  refine seg_snoc.mpr ⟨seg_off hseg hal htl hnext, ?_⟩
  rw [hnext, if_neg hta, if_pos rfl]

/-- `a` goes behind the last address `t`. -/
theorem seg_insert_last (h : Seg next p (l ++ [t]) e) (hnd : (l ++ [t]).Nodup)
    (ha : a ∉ l ++ [t])
    (hnext : ∀ x, next' x = if x = a then some e else if x = t then some a else next x) :
    Seg next' p (l ++ [t] ++ [a]) e := by
  refine seg_snoc.mpr ⟨seg_turn_last h hnd ha hnext, ?_⟩
  rw [hnext, if_pos rfl]

/-- `a` goes between `p` and what followed it. -/
theorem seg_insert_first (h : Seg next y l e) (hp : p ∉ l) (ha : a ∉ p :: l)
    (hnext : ∀ x, next' x = if x = a then some y else if x = p then some a else next x) :
    Seg next' p (p :: a :: l) e := by
  obtain ⟨hap, hal⟩ := List.ne_and_not_mem_of_not_mem_cons ha
  refine ⟨rfl, a, ?_, rfl, y, ?_, seg_off h hal hp hnext⟩
  · rw [hnext, if_neg (Ne.symm hap), if_pos rfl]
  · rw [hnext, if_pos rfl]

/-- `a` is taken out from between `p` and `y`. -/
theorem seg_remove_first (h : Seg next y l e) (hp : p ∉ l) (ha : a ∉ p :: l)
    (hnext : ∀ x, next' x = if x = a then o else if x = p then some y else next x) :
    Seg next' p (p :: l) e := by
  obtain ⟨hap, hal⟩ := List.ne_and_not_mem_of_not_mem_cons ha
  refine ⟨rfl, y, ?_, seg_off h hal hp hnext⟩
  rw [hnext, if_neg (Ne.symm hap), if_pos rfl]

/-- `a` is taken out from behind `t`. -/
theorem seg_remove_behind (h : Seg next p (l ++ [t] ++ a :: m) e)
    (hnd : (l ++ [t] ++ a :: m).Nodup) (hy : next a = some y)
    (hnext : ∀ x, next' x = if x = a then o else if x = t then some y else next x) :
    Seg next' p (l ++ [t] ++ m) e := by
  obtain ⟨_, hfront, heq, y', hy', hback⟩ := seg_append.mp h
  rw [heq] at hfront
  obtain rfl : y' = y := Option.some.inj (hy'.symm.trans hy)
  obtain ⟨hndl, hndr, hdisj⟩ := List.nodup_append.mp hnd
  have hal : a ∉ l ++ [t] := fun ha => hdisj a ha a List.mem_cons_self rfl
  have ham : a ∉ m := (List.nodup_cons.mp hndr).1
  have htm : t ∉ m := fun ht => hdisj t (by simp) t (List.mem_cons_of_mem a ht) rfl
  exact seg_append.mpr ⟨y', seg_turn_last hfront hndl hal hnext, seg_off hback ham htm hnext⟩

/-- What is shown along a list that `a` is not in does not depend on what
is shown at `a`. -/
theorem map_eq_of_not_mem {β : Type} {g g' : Ptr → β} {b : β} (ha : a ∉ l)
    (hg : ∀ x, g' x = if x = a then b else g x) : l.map g' = l.map g := by
  refine List.map_congr_left fun x hx => ?_
  have hxa : x ≠ a := fun hxa => ha (hxa ▸ hx)
  rw [hg, if_neg hxa]

/-- The values along a list to which `a`, showing `v`, was added. -/
theorem map_snoc_of_not_mem {β : Type} {g g' : Ptr → Option β} {v : β} {vs : List β}
    (hl : l.map g = vs.map some) (ha : a ∉ l)
    (hg : ∀ x, g' x = if x = a then some v else g x) :
    (l ++ [a]).map g' = (vs ++ [v]).map some := by
  rw [List.map_append, List.map_append, map_eq_of_not_mem ha hg, hl]
  simp [hg]

end Change

/-! ## Two link fields -/

/-- Read backwards from its end, a segment ends with its first pointer. -/
theorem seg_back_start (h : Seg next p l e) : ∃ m, e :: l.reverse = m ++ [p] := by
  cases l with
  | nil => exact ⟨[], by simp [seg_nil.mp h]⟩
  | cons a l => exact ⟨e :: l.reverse, by simp [h.1]⟩

/-- Following `next` from `p` through `p :: l` to `e`, and `prev` from `e`
back through `l` reversed to `p`, means that each step forward is undone
by the step back. -/
theorem back_link_of_segs {prev : Ptr → Option Ptr} :
    ∀ {l : List Ptr} {p e : Ptr}, Seg next p (p :: l) e → Seg prev e (e :: l.reverse) p →
      ∀ x ∈ p :: l, ∃ y, next x = some y ∧ prev y = some x
  | [], p, e, hf, hb, x, hx => by
      obtain ⟨-, hb⟩ := seg_singleton.mp hb
      obtain ⟨-, hf⟩ := seg_singleton.mp hf
      obtain rfl := List.mem_singleton.mp hx
      exact ⟨e, hf, hb⟩
  | a :: l, p, e, hf, hb, x, hx => by
      obtain ⟨-, q, hq, hf⟩ := hf
      obtain rfl : q = a := hf.1
      rw [List.reverse_cons, ← List.cons_append, seg_snoc] at hb
      rcases List.mem_cons.mp hx with rfl | hx
      · exact ⟨q, hq, hb.2⟩
      · exact back_link_of_segs hf hb.1 x hx

end CCodes.Lib
