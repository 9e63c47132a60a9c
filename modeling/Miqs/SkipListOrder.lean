import Miqs.SkipList

/-! The skip list's invariants. Layer 0 is a queue of its own, while the layers above it
may run into each other; every walk ends, and as long as layer 0 is sorted a search ends
at the right item. -/
namespace Miqs.SkipList
open Miqs.TailQueue
variable {K D : Type}

namespace Skiplist

def IsBase : Field Nat Wrapper → Prop
  | .first i => i = 0
  | .next w => w.layer = 0

structure Layered (q : Queues Nat Wrapper) : Prop where
  ptr : ∀ f w, q.ptr f = some w → (IsBase f ↔ w.layer = 0)
  last : ∀ i, IsBase (q.last i) ↔ i = 0

theorem layered_init : Layered Queues.init where
  ptr := by simp [Queues.init]
  last := by simp [Queues.init, IsBase]

variable {q : Queues Nat Wrapper} {i : Nat} {at? : Option Wrapper} {w : Wrapper}

theorem Layered.linkAt (h : Layered q) (hw : w.layer = i)
    (hat : ∀ e, at? = some e → (e.layer = 0 ↔ i = 0)) : Layered (linkAt q i at? w) := by
  cases at? with
  | none =>
    constructor
    · intro f w' hf
      simp only [Skiplist.linkAt, Queues.insertTail, Function.update_apply] at hf
      split_ifs at hf with h₁ h₂
      · obtain rfl := Option.some.inj hf
        rw [h₁, h.last, hw]
      · exact h.ptr f w' hf
    · intro j
      simp only [Skiplist.linkAt, Queues.insertTail, Function.update_apply]
      split_ifs with h₁
      · rw [IsBase, hw, h₁]
      · exact h.last j
  | some e =>
    have he := hat e rfl
    constructor
    · intro f w' hf
      simp only [Skiplist.linkAt, Queues.insertAfter, Function.update_apply] at hf
      split_ifs at hf with h₁ h₂
      · obtain rfl := Option.some.inj hf
        rw [h₁, IsBase, he, hw]
      · have hbase : IsBase (.next e) ↔ w'.layer = 0 := h.ptr _ _ hf
        rw [h₂, IsBase, hw, ← he, ← hbase, IsBase]
      · exact h.ptr f w' hf
    · intro j
      simp only [Skiplist.linkAt, Queues.insertAfter]
      split_ifs
      · exact h.last j
      · simp only [Function.update_apply]
        split_ifs with h₁
        · rw [IsBase, hw, h₁]
        · exact h.last j

/-- Linking into a layer changes no pointer on the other side. -/
theorem Layered.linkAt_ptr (h : Layered q) (hw : w.layer = i)
    (hat : ∀ e, at? = some e → (e.layer = 0 ↔ i = 0)) {f : Field Nat Wrapper}
    (hf : ¬ (IsBase f ↔ i = 0)) : (Skiplist.linkAt q i at? w).ptr f = q.ptr f := by
  have hfw : f ≠ .next w := by
    rintro rfl
    exact hf (by rw [IsBase, hw])
  cases at? with
  | none =>
    have hlast : f ≠ q.last i := by
      rintro rfl
      exact hf (h.last i)
    simp [Skiplist.linkAt, Queues.insertTail, hfw, hlast]
  | some e =>
    have hfe : f ≠ .next e := by
      rintro rfl
      exact hf (hat e rfl)
    simp [Skiplist.linkAt, Queues.insertAfter, hfw, hfe]

structure Linking (n i bound : Nat) (q : Queues Nat Wrapper) : Prop where
  ranked : q.Ranked bound
  ptr : ∀ f w, q.ptr f = some w → w.item < n ∨ w.item = n ∧ w.layer < i
  last : ∀ k w, q.last k = .next w → w.item < n ∨ w.item = n ∧ w.layer < i
  next : ∀ w, n < w.item ∨ w.item = n ∧ i ≤ w.layer → q.ptr (.next w) = none

theorem Linking.fresh {n bound : Nat} (h : Linking n i bound q) : q.Fresh ⟨n, i⟩ where
  next := h.next _ (Or.inr ⟨rfl, Nat.le_refl i⟩)
  ptr := by
    intro f hf
    rcases h.ptr f _ hf with h | h <;> simp at h
  last := by
    intro k hk
    rcases h.last k _ hk with h | h <;> simp at h

theorem Linking.skip {n bound : Nat} (h : Linking n i bound q) : Linking n (i + 1) (bound + 1) q where
  ranked := by
    obtain ⟨rank, hfall, hle⟩ := h.ranked
    exact ⟨rank, hfall, fun e => (hle e).trans (Nat.le_succ bound)⟩
  ptr := fun f w hf => (h.ptr f w hf).imp_right fun h => ⟨h.1, h.2.trans (Nat.lt_succ_self i)⟩
  last := fun k w hk => (h.last k w hk).imp_right fun h => ⟨h.1, h.2.trans (Nat.lt_succ_self i)⟩
  next := by
    intro w hw
    apply h.next
    rcases hw with hw | hw
    · exact Or.inl hw
    · exact Or.inr ⟨hw.1, by omega⟩

theorem Linking.linkAt {n bound : Nat} (h : Linking n i bound q)
    (hat : ∀ e, at? = some e → e.item < n) : Linking n (i + 1) (bound + 1) (linkAt q i at? ⟨n, i⟩) := by
  have hs := h.skip
  have hnew : n < n ∨ n = n ∧ i < i + 1 := Or.inr ⟨rfl, Nat.lt_succ_self i⟩
  cases at? with
  | none =>
    refine ⟨h.ranked.insertTail h.fresh i, ?_, ?_, ?_⟩
    · intro f w hf
      simp only [Skiplist.linkAt, Queues.insertTail, Function.update_apply] at hf
      split_ifs at hf
      · obtain rfl := Option.some.inj hf
        exact hnew
      · exact hs.ptr f w hf
    · intro k w hk
      simp only [Skiplist.linkAt, Queues.insertTail, Function.update_apply] at hk
      split_ifs at hk
      · obtain rfl : Wrapper.mk n i = w := by simpa using hk
        exact hnew
      · exact hs.last k w hk
    · intro w hw
      have hlast : Field.next w ≠ q.last i := by
        intro hl
        rcases h.last i w hl.symm with h' | h' <;> omega
      have hold := hs.next w hw
      simp only [Skiplist.linkAt, Queues.insertTail, Function.update_apply, hlast, if_false, hold,
        ite_self]
  | some e =>
    have he := hat e rfl
    refine ⟨h.ranked.insertAfter h.fresh i ?_, ?_, ?_, ?_⟩
    · rintro rfl
      simp at he
    · intro f w hf
      simp only [Skiplist.linkAt, Queues.insertAfter, Function.update_apply] at hf
      split_ifs at hf
      · obtain rfl := Option.some.inj hf
        exact hnew
      · exact hs.ptr _ w hf
      · exact hs.ptr f w hf
    · intro k w hk
      simp only [Skiplist.linkAt, Queues.insertAfter] at hk
      split_ifs at hk
      · exact hs.last k w hk
      · simp only [Function.update_apply] at hk
        split_ifs at hk
        · obtain rfl : Wrapper.mk n i = w := by simpa using hk
          exact hnew
        · exact hs.last k w hk
    · intro w hw
      have hwe : w ≠ e := by
        rintro rfl
        omega
      have hwn : w ≠ ⟨n, i⟩ := by
        rintro rfl
        simp at hw
      simp [Skiplist.linkAt, Queues.insertAfter, hwe, hwn, hs.next w hw]

def PathOk (n : Nat) (path : Nat → Option Wrapper) : Prop :=
  ∀ i e, 1 ≤ i → path i = some e → e.item < n ∧ e.layer ≠ 0

theorem foldl_promote {n : Nat} (flips : Nat → Bool) {path : Nat → Option Wrapper}
    (hpath : PathOk n path) (m : Nat) {bound : Nat} (coin : Bool) (hi : 1 ≤ i)
    (h : Linking n i bound q) (hl : Layered q) :
    ∃ s, (List.range' i m).foldl (fun s i =>
        let coin := s.1 && flips i
        (coin, if coin then linkAt s.2 i (path i) ⟨n, i⟩ else s.2)) (coin, q) = s ∧
      Linking n (i + m) (bound + m) s.2 ∧ Layered s.2 ∧ ∀ f, IsBase f → s.2.ptr f = q.ptr f := by
  induction m generalizing i bound coin q with
  | zero => exact ⟨_, rfl, h, hl, fun _ _ => rfl⟩
  | succ m ih =>
    rw [List.range'_succ, List.foldl_cons]
    have hsum : i + (m + 1) = i + 1 + m ∧ bound + (m + 1) = bound + 1 + m := by omega
    rw [hsum.1, hsum.2]
    cases hc : (coin && flips i) with
    | false =>
      simp only [Bool.false_eq_true, if_false]
      exact ih false (by omega) h.skip hl
    | true =>
      have hat : ∀ e, path i = some e → (e.layer = 0 ↔ i = 0) := by
        intro e he
        have hne := (hpath i e hi he).2
        omega
      have hlink := h.linkAt fun e he => (hpath i e hi he).1
      obtain ⟨s, hs, hs₁, hs₂, hs₃⟩ := ih true (by omega) hlink (hl.linkAt rfl hat)
      simp only [if_true]
      refine ⟨s, hs, hs₁, hs₂, ?_⟩
      intro f hf
      refine (hs₃ f hf).trans (hl.linkAt_ptr rfl hat ?_)
      intro hb
      have hz : i = 0 := hb.mp hf
      omega

structure Wf (skl : Skiplist K D) : Prop where
  layers : 1 ≤ skl.numLayers
  links : Linking skl.items.length 0 (skl.numLayers * skl.items.length) skl.layers
  layered : Layered skl.layers

theorem wf_create {numLayers : Nat} (h : 1 ≤ numLayers) :
    Wf (skiplistCreate numLayers : Skiplist K D) where
  layers := h
  links := ⟨Queues.ranked_init _, by simp [skiplistCreate, Queues.init],
    by simp [skiplistCreate, Queues.init], by simp [skiplistCreate, Queues.init]⟩
  layered := layered_init

theorem Wf.ptr_lt {skl : Skiplist K D} (h : Wf skl) {f : Field Nat Wrapper} {w : Wrapper}
    (hf : skl.layers.ptr f = some w) : w.item < skl.items.length := by
  rcases h.links.ptr f w hf with h | h
  · exact h
  · omega

theorem Wf.addItem {skl : Skiplist K D} (h : Wf skl) (flips : Nat → Bool) (key : K) (value : D)
    {prevItem : Option Wrapper} (hprev : ∀ w, prevItem = some w → w.item < skl.items.length)
    {path : Nat → Option Wrapper} (hpath : PathOk skl.items.length path) :
    Wf (skl.addItem flips key value prevItem path) ∧
      ∀ f, IsBase f → (skl.addItem flips key value prevItem path).layers.ptr f =
        (linkAt skl.layers 0 (prevItem.map fun w => ⟨w.item, 0⟩) ⟨skl.items.length, 0⟩).ptr f := by
  have hat : ∀ e, (prevItem.map fun w => Wrapper.mk w.item 0) = some e →
      e.item < skl.items.length ∧ e.layer = 0 := by
    intro e he
    obtain ⟨w, hw, rfl⟩ := Option.map_eq_some_iff.mp he
    exact ⟨hprev w hw, rfl⟩
  have hbase := h.links.linkAt fun e he => (hat e he).1
  have hlayered : Layered (linkAt skl.layers 0 (prevItem.map fun w => ⟨w.item, 0⟩)
      ⟨skl.items.length, 0⟩) :=
    h.layered.linkAt rfl fun e he => by simp [(hat e he).2]
  obtain ⟨s, hs, hs₁, hs₂, hs₃⟩ :=
    foldl_promote flips hpath (skl.numLayers - 1) true (Nat.le_refl 1) hbase hlayered
  have hq : (skl.addItem flips key value prevItem path).layers = s.2 := congrArg Prod.snd hs
  refine ⟨⟨h.layers, ?_, hq ▸ hs₂⟩, fun f hf => hq ▸ hs₃ f hf⟩
  have hn := h.layers
  have hlen : (skl.addItem flips key value prevItem path).items.length = skl.items.length + 1 := by
    simp [Skiplist.addItem]
  have hbound : skl.numLayers * skl.items.length + 1 + (skl.numLayers - 1) =
      skl.numLayers * (skl.items.length + 1) := by
    rw [Nat.mul_succ]
    omega
  rw [hlen, hq]
  change Linking (skl.items.length + 1) 0 (skl.numLayers * (skl.items.length + 1)) s.2
  rw [← hbound]
  refine ⟨hs₁.ranked, ?_, ?_, ?_⟩
  · intro f w hf
    have := hs₁.ptr f w hf
    omega
  · intro k w hk
    have := hs₁.last k w hk
    omega
  · intro w hw
    exact hs₁.next w (by omega)

variable {skl : Skiplist K D}

def Passed (skl : Skiplist K D) (test : K → Bool) (w : Wrapper) : Prop :=
  ∃ item, skl.items[w.item]? = some item ∧ test item.1 = true

theorem Passed.lt {test : K → Bool} {w : Wrapper} (h : skl.Passed test w) :
    w.item < skl.items.length := by
  obtain ⟨item, hi, -⟩ := h
  exact (List.getElem?_eq_some_iff.mp hi).1

theorem Wf.start_lt (h : Wf skl) {i : Nat} {prevItem : Option Wrapper} {w : Wrapper}
    (hs : skl.start i prevItem = some w) : w.item < skl.items.length := by
  cases prevItem with
  | none => exact h.ptr_lt hs
  | some prev => exact h.ptr_lt hs

theorem Wf.lt_steps (h : Wf skl) {n : Nat} (hn : n ≤ skl.items.length) : n < skl.steps := by
  have hmul := Nat.le_mul_of_pos_left skl.items.length h.layers
  rw [steps]
  omega

/-- The layer of the wrapper a walk starts with: 0 exactly in layer 0. -/
theorem Wf.start_layer (h : Wf skl) {i : Nat} {prevItem : Option Wrapper} {w : Wrapper}
    (hs : skl.start i prevItem = some w) : i = 0 ↔ w.layer = 0 := by
  cases prevItem with
  | none => exact h.layered.ptr _ _ hs
  | some prev => exact h.layered.ptr _ _ hs

theorem Wf.walkLayer_total (h : Wf skl) (test : K → Bool) (i : Nat) (prevItem : Option Wrapper) :
    ∃ out, skl.walkLayer test i prevItem = some out ∧
      (out = prevItem ∨ ∃ w, out = some w ∧ skl.Passed test w ∧ (i = 0 ↔ w.layer = 0)) := by
  obtain ⟨out, hout, hor⟩ := Queues.advance_total h.links.ranked
    (fun w => w.item < skl.items.length ∧ (i = 0 ↔ w.layer = 0))
    (fun w => skl.items[w.item]?.map fun item => test item.1)
    (fun e e' he hee => ⟨h.ptr_lt hee, he.2.trans (h.layered.ptr _ _ hee)⟩)
    (fun e he => ⟨_, by rw [List.getElem?_eq_getElem he.1, Option.map_some]⟩)
    (Nat.lt_succ_self _) prevItem (fun e he => ⟨h.start_lt he, h.start_layer he⟩)
  refine ⟨out, hout, hor.imp_right ?_⟩
  rintro ⟨w, hw, hP, hgo⟩
  obtain ⟨item, hitem, ht⟩ := Option.map_eq_some_iff.mp hgo
  exact ⟨w, hw, ⟨item, hitem, ht⟩, hP.2⟩

def PrevOk (skl : Skiplist K D) (test : K → Bool) (i : Nat) (prevItem : Option Wrapper) : Prop :=
  ∀ w, prevItem = some w → skl.Passed test w ∧ (i ≠ 0 → w.layer ≠ 0)

theorem Wf.walkLayer_prevOk (h : Wf skl) {test : K → Bool} {i : Nat} {prevItem : Option Wrapper}
    (hprev : skl.PrevOk test (i + 1) prevItem) :
    ∃ out, skl.walkLayer test i prevItem = some out ∧ skl.PrevOk test i out := by
  obtain ⟨out, hout, hor⟩ := h.walkLayer_total test i prevItem
  refine ⟨out, hout, ?_⟩
  intro w hw
  rcases hor with rfl | ⟨w', hw', hpass, hlayer⟩
  · exact ⟨(hprev w hw).1, fun _ => (hprev w hw).2 (Nat.succ_ne_zero i)⟩
  · obtain rfl : w' = w := Option.some.inj (hw'.symm.trans hw)
    exact ⟨hpass, fun hi h0 => hi (hlayer.mpr h0)⟩

theorem PrevOk.pathOk {test : K → Bool} {i : Nat} {out : Option Wrapper} (h : skl.PrevOk test i out)
    {path : Nat → Option Wrapper} (hpath : PathOk skl.items.length path) :
    PathOk skl.items.length (Function.update path i out) := by
  intro j e hj he
  rw [Function.update_apply] at he
  split_ifs at he with hji
  · have hp := h e he
    exact ⟨hp.1.lt, hp.2 (by omega)⟩
  · exact hpath j e hj he

/-- A search through all layers ends at an item that passes the test, or before all. -/
theorem Wf.searchLayers_total (h : Wf skl) (test : K → Bool) (i : Nat) {prevItem : Option Wrapper}
    (hprev : skl.PrevOk test i prevItem) {path : Nat → Option Wrapper}
    (hpath : PathOk skl.items.length path) :
    ∃ out path', skl.searchLayers test i prevItem path = some (out, path') ∧
      skl.PrevOk test 0 out ∧ PathOk skl.items.length path' := by
  induction i generalizing prevItem path with
  | zero => exact ⟨prevItem, path, rfl, hprev, hpath⟩
  | succ i ih =>
    obtain ⟨out, hout, hok⟩ := h.walkLayer_prevOk hprev
    obtain ⟨out', path', hs, hok', hp'⟩ := ih hok (hok.pathOk hpath)
    refine ⟨out', path', ?_, hok', hp'⟩
    simp only [searchLayers, hout, Option.bind_eq_bind, Option.bind_some, hs]

theorem Wf.upperLayers_total (h : Wf skl) (test : K → Bool) (i : Nat) {prevItem : Option Wrapper}
    (hprev : skl.PrevOk test 0 prevItem) :
    ∃ out, skl.upperLayers test i prevItem = some out ∧ skl.PrevOk test 0 out := by
  induction i generalizing prevItem with
  | zero => exact ⟨prevItem, rfl, hprev⟩
  | succ i ih =>
    obtain ⟨out, hout, hor⟩ := h.walkLayer_total test (i + 1) prevItem
    have hok : skl.PrevOk test 0 out := by
      intro w hw
      rcases hor with rfl | ⟨w', hw', hpass, -⟩
      · exact hprev w hw
      · obtain rfl : w' = w := Option.some.inj (hw'.symm.trans hw)
        exact ⟨hpass, fun h0 => absurd rfl h0⟩
    obtain ⟨out', hs, hok'⟩ := ih hok
    refine ⟨out', ?_, hok'⟩
    simp only [upperLayers, hout, Option.bind_eq_bind, Option.bind_some, hs]

section Sorted
variable (val : K → ℤ)

def keyVal (skl : Skiplist K D) (id : Nat) : ℤ := (skl.items[id]?.map fun item => val item.1).getD 0

structure Sorted (skl : Skiplist K D) (ids : List Nat) : Prop where
  chain : skl.layers.Chain (.first 0) (ids.map fun id => ⟨id, 0⟩)
  perm : ids.Perm (List.range skl.items.length)
  sorted : ids.Pairwise fun a b => skl.keyVal val a < skl.keyVal val b

variable {val} {ids : List Nat}

theorem keyVal_of_getElem? {id : Nat} {item : K × D} (h : skl.items[id]? = some item) :
    skl.keyVal val id = val item.1 := by
  simp [keyVal, h]

theorem Sorted.mem_iff (hs : Sorted val skl ids) {id : Nat} : id ∈ ids ↔ id < skl.items.length := by
  rw [hs.perm.mem_iff, List.mem_range]

theorem Sorted.length_eq (hs : Sorted val skl ids) : ids.length = skl.items.length := by
  rw [hs.perm.length_eq, List.length_range]

/-- The last item passed splits layer 0: what a walk finds from there on is the rest. -/
theorem Sorted.split (hs : Sorted val skl ids) {prevItem : Option Wrapper}
    (hprev : ∀ w, prevItem = some w → w.item < skl.items.length) :
    ∃ pre suf f, ids = pre ++ suf ∧ skl.start 0 prevItem = skl.layers.ptr f ∧
      skl.layers.Chain f (suf.map fun id => ⟨id, 0⟩) ∧ prevItem.map Wrapper.item = pre.getLast? ∧
      ∀ id ∈ pre, ∃ w, prevItem = some w ∧ skl.keyVal val id ≤ skl.keyVal val w.item := by
  cases prevItem with
  | none => exact ⟨[], ids, _, rfl, rfl, hs.chain, rfl, by simp⟩
  | some w =>
    obtain ⟨l, r, hlr⟩ := List.append_of_mem (hs.mem_iff.mpr (hprev w rfl))
    have hchain := hs.chain
    rw [hlr, List.map_append, List.map_cons] at hchain
    refine ⟨l ++ [w.item], r, _, by simp [hlr], rfl, hchain.from, by simp, ?_⟩
    intro id hid
    refine ⟨w, rfl, ?_⟩
    have hsorted := hs.sorted
    rw [hlr, List.pairwise_append] at hsorted
    rcases List.mem_append.mp hid with h | h
    · exact (hsorted.2.2 id h w.item (by simp)).le
    · rw [List.mem_singleton.mp h]

theorem lt_of_mem_dropWhile {c : ℤ} {l : List Nat}
    (h : l.Pairwise fun a b => skl.keyVal val a < skl.keyVal val b) :
    ∀ id ∈ l.dropWhile (fun id => decide (skl.keyVal val id ≤ c)), c < skl.keyVal val id := by
  induction l with
  | nil => simp
  | cons a l ih =>
    obtain ⟨ha, hl⟩ := List.pairwise_cons.mp h
    intro id hid
    rw [List.dropWhile_cons] at hid
    split_ifs at hid with hc
    · exact ih hl id hid
    · have hac : c < skl.keyVal val a := by simpa using hc
      rcases List.mem_cons.mp hid with rfl | hmem
      · exact hac
      · exact hac.trans (ha id hmem)

structure Cut (val : K → ℤ) (skl : Skiplist K D) (ids : List Nat) (c : ℤ) (out : Option Wrapper)
    (l r : List Nat) : Prop where
  split : ids = l ++ r
  below : ∀ id ∈ l, skl.keyVal val id ≤ c
  above : ∀ id ∈ r, c < skl.keyVal val id
  last : out.map Wrapper.item = l.getLast?

theorem Sorted.walkBase (h : Wf skl) (hs : Sorted val skl ids) {test : K → Bool} {c : ℤ}
    (htest : ∀ item ∈ skl.items, test item.1 = decide (val item.1 ≤ c)) {prevItem : Option Wrapper}
    (hprev : ∀ w, prevItem = some w → skl.Passed test w) :
    ∃ out l r, skl.walkLayer test 0 prevItem = some out ∧ Cut val skl ids c out l r := by
  obtain ⟨pre, suf, f, hids, hstart, hchain, hlast, hpre⟩ := hs.split fun w hw => (hprev w hw).lt
  have hsuf : suf.length ≤ skl.items.length := by
    rw [← hs.length_eq, hids, List.length_append]
    omega
  have hgo : ∀ e ∈ suf.map (fun id => Wrapper.mk id 0),
      (skl.items[e.item]?.map fun item => test item.1) =
        some (decide (skl.keyVal val e.item ≤ c)) := by
    intro e he
    obtain ⟨id, hid, rfl⟩ := List.mem_map.mp he
    have hlt : id < skl.items.length := hs.mem_iff.mp (by simp [hids, hid])
    have hitem := List.getElem?_eq_getElem hlt
    rw [hitem, Option.map_some, htest _ (List.getElem_mem hlt), keyVal_of_getElem? hitem]
  have hsteps : (suf.map fun id => Wrapper.mk id 0).length < skl.steps := by
    rw [List.length_map]
    exact h.lt_steps hsuf
  have hadv := Queues.advance_chain hchain hgo hsteps prevItem
  rw [List.takeWhile_map] at hadv
  refine ⟨((suf.takeWhile fun id => decide (skl.keyVal val id ≤ c)).map fun id =>
    ⟨id, 0⟩).getLast?.or prevItem, pre ++ suf.takeWhile fun id => decide (skl.keyVal val id ≤ c),
    suf.dropWhile fun id => decide (skl.keyVal val id ≤ c), ?_, ?_⟩
  · rw [walkLayer, hstart]
    exact hadv
  · refine ⟨by rw [hids, List.append_assoc, List.takeWhile_append_dropWhile], ?_, ?_, ?_⟩
    · intro id hid
      rcases List.mem_append.mp hid with hmem | hmem
      · obtain ⟨w, hw, hle⟩ := hpre id hmem
        obtain ⟨item, hitem, ht⟩ := hprev w hw
        have hc := htest item (List.mem_of_getElem? hitem)
        rw [keyVal_of_getElem? hitem] at hle
        rw [ht] at hc
        exact hle.trans (of_decide_eq_true hc.symm)
      · have hle := List.mem_takeWhile_imp hmem
        exact of_decide_eq_true hle
    · have hsorted := hs.sorted
      rw [hids, List.pairwise_append] at hsorted
      exact lt_of_mem_dropWhile hsorted.2.1
    · rw [List.getLast?_append, ← hlast, List.getLast?_map]
      cases (suf.takeWhile fun id => decide (skl.keyVal val id ≤ c)).getLast? <;> rfl

/-- A search through all layers ends at the last item that passes the test. -/
theorem Sorted.searchLayers (h : Wf skl) (hs : Sorted val skl ids) {test : K → Bool} {c : ℤ}
    (htest : ∀ item ∈ skl.items, test item.1 = decide (val item.1 ≤ c)) (i : Nat)
    {prevItem : Option Wrapper} (hprev : skl.PrevOk test (i + 1) prevItem)
    {path : Nat → Option Wrapper} (hpath : PathOk skl.items.length path) :
    ∃ out path' l r, skl.searchLayers test (i + 1) prevItem path = some (out, path') ∧
      PathOk skl.items.length path' ∧ Cut val skl ids c out l r := by
  induction i generalizing prevItem path with
  | zero =>
    obtain ⟨out, l, r, hout, hcut⟩ := hs.walkBase h htest fun w hw => (hprev w hw).1
    refine ⟨out, Function.update path 0 out, l, r, ?_, ?_, hcut⟩
    · rw [Skiplist.searchLayers, hout]
      rfl
    · intro j e hj he
      rw [Function.update_of_ne (by omega)] at he
      exact hpath j e hj he
  | succ i ih =>
    obtain ⟨out, hout, hok⟩ := h.walkLayer_prevOk hprev
    obtain ⟨out', path', l, r, hsearch, hp', hcut⟩ := ih hok (hok.pathOk hpath)
    refine ⟨out', path', l, r, ?_, hp', hcut⟩
    rw [Skiplist.searchLayers, hout]
    exact hsearch

end Sorted

end Skiplist

end Miqs.SkipList
