import Miqs.SkipListOrder

/-! The skip list as a map. As long as no new key goes before all the others, layer 0
stays sorted and the list answers like a map; a key that does is linked at the end. -/
namespace Miqs.SkipList
open Miqs.TailQueue
variable {K D : Type} {val : K → ℤ} {cmp : K → K → Int}

namespace Skiplist
variable {skl : Skiplist K D} {ids : List Nat}

def Compares (val : K → ℤ) (cmp : K → K → Int) (items : List (K × D)) (key : K) : Prop :=
  ∀ item ∈ items, cmp item.1 key = val item.1 - val key

theorem Wf.skiplistSearchInternal (h : Wf skl) (cmp : K → K → Int) (key : K) :
    ∃ out path, skl.skiplistSearchInternal cmp key = some (out, path) ∧
      (∀ w, out = some w → w.item < skl.items.length) ∧ PathOk skl.items.length path := by
  have hnone : skl.PrevOk (fun k => decide (cmp k key ≤ 0)) skl.numLayers none := by simp [PrevOk]
  have hnull : PathOk skl.items.length fun _ => none := by simp [PathOk]
  obtain ⟨out, path, hsearch, hout, hpath⟩ := h.searchLayers_total _ _ hnone hnull
  exact ⟨out, path, hsearch, fun w hw => (hout w hw).1.lt, hpath⟩

theorem Sorted.skiplistSearchInternal (h : Wf skl) (hs : Sorted val skl ids) {key : K}
    (hc : Compares val cmp skl.items key) :
    ∃ out path l r, skl.skiplistSearchInternal cmp key = some (out, path) ∧
      PathOk skl.items.length path ∧ Cut val skl ids (val key) out l r := by
  obtain ⟨n, hn⟩ : ∃ n, skl.numLayers = n + 1 := Nat.exists_eq_succ_of_ne_zero (by
    have := h.layers
    omega)
  rw [Skiplist.skiplistSearchInternal, hn]
  apply hs.searchLayers h ?_ n (by simp [PrevOk]) (by simp [PathOk])
  intro item hi
  rw [hc item hi]
  exact decide_eq_decide.mpr (by omega)

theorem Sorted.eq_of_keyVal (hs : Sorted val skl ids) {a b : Nat} (ha : a ∈ ids) (hb : b ∈ ids)
    (hab : skl.keyVal val a = skl.keyVal val b) : a = b := by
  by_contra hne
  have hp : ids.Pairwise fun a b => skl.keyVal val a ≠ skl.keyVal val b :=
    hs.sorted.imp fun h => h.ne
  have : Std.Symm fun a b => skl.keyVal val a ≠ skl.keyVal val b := ⟨fun _ _ h => h.symm⟩
  exact hp.forall ha hb hne hab

/-- An item with the key sought is the last one before the cut. -/
theorem Cut.eq_last {c : ℤ} {out : Option Wrapper} {l r : List Nat} (hcut : Cut val skl ids c out l r)
    (hs : Sorted val skl ids) {id : Nat} (hid : id ∈ ids) (hc : skl.keyVal val id = c) :
    ∃ w, out = some w ∧ w.item = id := by
  have hl : id ∈ l := by
    rw [hcut.split] at hid
    rcases List.mem_append.mp hid with hl | hr
    · exact hl
    · have habove := hcut.above id hr
      omega
  obtain ⟨l', x, rfl⟩ := List.eq_nil_or_concat l |>.resolve_left (List.ne_nil_of_mem hl)
  have hlast := hcut.last
  rw [List.concat_eq_append, List.getLast?_concat] at hlast
  obtain ⟨w, hw, hx⟩ := Option.map_eq_some_iff.mp hlast
  refine ⟨w, hw, hx.trans ?_⟩
  have hsorted := hs.sorted
  rw [hcut.split, List.concat_eq_append, List.append_assoc, List.pairwise_append] at hsorted
  rw [List.concat_eq_append, List.mem_append, List.mem_singleton] at hl
  rcases hl with hl | hl
  · have hlt := hsorted.2.2 id hl x (by simp)
    have hle := hcut.below x (by simp)
    omega
  · exact hl.symm

/-- A key that compares equal to no item is not found, whatever the order of the items. -/
theorem Wf.skiplistSearch_absent (h : Wf skl) {key : K} (hne : ∀ item ∈ skl.items, cmp item.1 key ≠ 0) :
    skl.skiplistSearch cmp key = some none := by
  obtain ⟨out, path, hsearch, hlt, -⟩ := h.skiplistSearchInternal cmp key
  rw [skiplistSearch, hsearch]
  cases out with
  | none => rfl
  | some w =>
    have hw := hlt w rfl
    simp [List.getElem?_eq_getElem hw, hne _ (List.getElem_mem hw)]

theorem Sorted.nodup_keys (hs : Sorted val skl ids) : (skl.items.map Prod.fst).Nodup := by
  rw [List.nodup_iff_injective_getElem]
  rintro ⟨a, ha⟩ ⟨b, hb⟩ hab
  rw [List.length_map] at ha hb
  simp only [List.getElem_map] at hab
  have hkey : skl.keyVal val a = skl.keyVal val b := by
    rw [keyVal_of_getElem? (List.getElem?_eq_getElem ha), keyVal_of_getElem? (List.getElem?_eq_getElem hb),
      hab]
  exact Fin.ext (hs.eq_of_keyVal (hs.mem_iff.mpr ha) (hs.mem_iff.mpr hb) hkey)

/-- The search for a key that is there ends at its item. -/
theorem Sorted.search_present (h : Wf skl) (hs : Sorted val skl ids) {key : K}
    (hc : Compares val cmp skl.items key) {id : Nat} {v : D} (hid : skl.items[id]? = some (key, v)) :
    ∃ w path, skl.skiplistSearchInternal cmp key = some (some w, path) ∧ w.item = id ∧ cmp key key = 0 := by
  obtain ⟨out, path, l, r, hsearch, -, hcut⟩ := hs.skiplistSearchInternal h hc
  have hmem : id ∈ ids := hs.mem_iff.mpr (List.getElem?_eq_some_iff.mp hid).1
  obtain ⟨w, rfl, hw⟩ := hcut.eq_last hs hmem (keyVal_of_getElem? hid)
  have hself : cmp key key = val key - val key := hc _ (List.mem_of_getElem? hid)
  exact ⟨w, path, hsearch, hw, by omega⟩

theorem keyVal_append (x : K × D) {skl' : Skiplist K D}
    (hitems : skl'.items = skl.items ++ [x]) {id : Nat} (hid : id < skl.items.length) :
    skl'.keyVal val id = skl.keyVal val id := by
  rw [keyVal, hitems, List.getElem?_append_left hid, keyVal]

theorem keyVal_append_last (x : K × D) {skl' : Skiplist K D} (hitems : skl'.items = skl.items ++ [x]) :
    skl'.keyVal val skl.items.length = val x.1 := by
  apply keyVal_of_getElem?
  rw [hitems, List.getElem?_concat_length]

theorem Sorted.nodup (hs : Sorted val skl ids) : ids.Nodup :=
  hs.perm.nodup_iff.mpr List.nodup_range

theorem Wf.addItem_base (h : Wf skl) (flips : Nat → Bool) (key : K) (value : D) {w : Wrapper}
    (hw : w.item < skl.items.length) {path : Nat → Option Wrapper}
    (hpath : PathOk skl.items.length path) {f : Field Nat Wrapper} (hf : IsBase f) :
    (skl.addItem flips key value (some w) path).layers.ptr f =
      (skl.layers.insertAfter 0 ⟨w.item, 0⟩ ⟨skl.items.length, 0⟩).ptr f := by
  have hold : ∀ w', some w = some w' → w'.item < skl.items.length := by
    rintro w' ⟨⟩
    exact hw
  exact (h.addItem flips key value hold hpath).2 f hf

/-- The new item is in layer 0 right after the one at which it was linked. -/
theorem Sorted.addItem_chain (h : Wf skl) (hs : Sorted val skl ids) (flips : Nat → Bool) (key : K)
    (value : D) {w : Wrapper} {path : Nat → Option Wrapper} (hpath : PathOk skl.items.length path)
    {l r : List Nat} (hids : ids = l ++ w.item :: r) :
    (skl.addItem flips key value (some w) path).layers.Chain (.first 0)
      ((l ++ w.item :: skl.items.length :: r).map fun id => ⟨id, 0⟩) := by
  have hw : w.item < skl.items.length := hs.mem_iff.mp (by simp [hids])
  have hinj : Function.Injective fun id => Wrapper.mk id 0 := fun a b hab => by simpa using hab
  have hnodup := hs.nodup.map hinj
  have hfree : Wrapper.mk skl.items.length 0 ∉ ids.map fun id => ⟨id, 0⟩ := by
    rw [List.mem_map_of_injective hinj]
    exact fun hmem => (hs.mem_iff.mp hmem).ne rfl
  have hchain := hs.chain
  rw [hids, List.map_append, List.map_cons] at hchain hnodup hfree
  rw [List.map_append, List.map_cons, List.map_cons]
  refine (hchain.insertAfter hnodup hfree 0 (by simp) (by simp)).congr
    (h.addItem_base flips key value hw hpath rfl) ?_
  intro e he
  apply h.addItem_base flips key value hw hpath
  simp only [List.mem_append, List.mem_map, List.mem_cons] at he
  rcases he with ⟨id, -, rfl⟩ | rfl | rfl | ⟨id, -, rfl⟩ <;> rfl

/-- A new item at the cut for its key keeps the order. -/
theorem Cut.sorted_addItem (hs : Sorted val skl ids) {skl' : Skiplist K D} {key : K} {value : D}
    (hitems : skl'.items = skl.items ++ [(key, value)]) {out : Option Wrapper} {l r : List Nat}
    (hcut : Cut val skl ids (val key) out l r) (hne : ∀ id ∈ ids, skl.keyVal val id ≠ val key) :
    (l ++ skl.items.length :: r).Pairwise fun a b => skl'.keyVal val a < skl'.keyVal val b := by
  have hval : ∀ id ∈ ids, skl'.keyVal val id = skl.keyVal val id :=
    fun id hid => keyVal_append _ hitems (hs.mem_iff.mp hid)
  have hnew : skl'.keyVal val skl.items.length = val key := keyVal_append_last _ hitems
  have hl : ∀ id ∈ l, id ∈ ids := by
    intro id hid
    rw [hcut.split]
    exact List.mem_append_left r hid
  have hr : ∀ id ∈ r, id ∈ ids := by
    intro id hid
    rw [hcut.split]
    exact List.mem_append_right l hid
  have hsorted : ids.Pairwise fun a b => skl'.keyVal val a < skl'.keyVal val b := by
    refine hs.sorted.imp_of_mem ?_
    intro a b ha hb hab
    rwa [hval a ha, hval b hb]
  rw [hcut.split, List.pairwise_append] at hsorted
  rw [List.pairwise_append, List.pairwise_cons]
  refine ⟨hsorted.1, ⟨?_, hsorted.2.1⟩, ?_⟩
  · intro id hid
    rw [hnew, hval id (hr id hid)]
    exact hcut.above id hid
  · intro a ha b hb
    rcases List.mem_cons.mp hb with rfl | hb
    · have hle := hcut.below a ha
      have hneq := hne a (hl a ha)
      rw [hnew, hval a (hl a ha)]
      omega
    · exact hsorted.2.2 a ha b hb

/-- A sorted layer 0 stays sorted where an item goes after one with a smaller key. -/
theorem Sorted.addItem (h : Wf skl) (hs : Sorted val skl ids) (flips : Nat → Bool) {key : K}
    (value : D) {w : Wrapper} {path : Nat → Option Wrapper} (hpath : PathOk skl.items.length path)
    {l r : List Nat} (hcut : Cut val skl ids (val key) (some w) l r)
    (hne : ∀ id ∈ ids, skl.keyVal val id ≠ val key) :
    ∃ ids', Sorted val (skl.addItem flips key value (some w) path) ids' := by
  have hitems : (skl.addItem flips key value (some w) path).items = skl.items ++ [(key, value)] := rfl
  have hsorted := hcut.sorted_addItem hs hitems hne
  obtain ⟨l', rfl⟩ := List.getLast?_eq_some_iff.mp hcut.last.symm
  have hids : ids = l' ++ w.item :: r := by rw [hcut.split, List.append_assoc, List.singleton_append]
  refine ⟨l' ++ w.item :: skl.items.length :: r, hs.addItem_chain h flips key value hpath hids, ?_, ?_⟩
  · have hperm : (l' ++ w.item :: skl.items.length :: r).Perm (ids ++ [skl.items.length]) := by
      rw [hids, List.append_assoc, List.cons_append]
      exact (List.Perm.cons _ (List.perm_append_singleton _ _).symm).append_left l'
    rw [hitems, List.length_append, List.length_singleton, List.range_succ]
    exact hperm.trans (hs.perm.append_right _)
  · rwa [List.append_assoc, List.singleton_append] at hsorted

theorem Sorted.addItem_first (h : Wf skl) (hnil : skl.items = []) (flips : Nat → Bool) (key : K)
    (value : D) {path : Nat → Option Wrapper} (hpath : PathOk skl.items.length path) :
    Sorted val (skl.addItem flips key value none path) [0] := by
  have hlast : skl.layers.last 0 = .first 0 := by
    cases hl : skl.layers.last 0 with
    | next w =>
      have hlt := h.links.last 0 w hl
      rw [hnil, List.length_nil] at hlt
      omega
    | first i =>
      have hbase := h.layered.last 0
      rw [hl] at hbase
      rw [hbase.mpr rfl]
  have hnone : ∀ w, (none : Option Wrapper) = some w → w.item < skl.items.length := by simp
  have hframe := (h.addItem flips key value hnone hpath).2
  refine ⟨⟨?_, ?_⟩, by simp [Skiplist.addItem, hnil], List.pairwise_singleton _ _⟩
  · rw [hframe (.first 0) rfl]
    simp [linkAt, Queues.insertTail, hlast, hnil]
  · change (skl.addItem flips key value none path).layers.ptr (.next ⟨0, 0⟩) = none
    rw [hframe (.next ⟨0, 0⟩) rfl]
    simp [linkAt, Queues.insertTail, hlast, hnil]

/-- An update in place changes nothing but the value. -/
theorem Sorted.set (hs : Sorted val skl ids) {id : Nat} {k : K} {v : D}
    (hid : skl.items[id]? = some (k, v)) (value : D) :
    Sorted val { skl with items := skl.items.set id (k, value) } ids := by
  have hsame : ∀ j, keyVal val { skl with items := skl.items.set id (k, value) } j =
      skl.keyVal val j := by
    intro j
    by_cases hj : id = j
    · subst hj
      have hlt := (List.getElem?_eq_some_iff.mp hid).1
      rw [keyVal_of_getElem? hid, keyVal_of_getElem? (List.getElem?_set_self hlt)]
    · rw [keyVal, keyVal, List.getElem?_set_ne hj]
  refine ⟨hs.chain, ?_, ?_⟩
  · rw [List.length_set]
    exact hs.perm
  · simpa only [hsame] using hs.sorted

/-- The cut is at the very front only if all keys exceed `c`. -/
theorem Cut.above_of_none {c : ℤ} {l r : List Nat} (hcut : Cut val skl ids c none l r) {id : Nat}
    (hid : id ∈ ids) : c < skl.keyVal val id := by
  have hl : l = [] := List.getLast?_eq_none_iff.mp hcut.last.symm
  apply hcut.above
  rwa [hcut.split, hl, List.nil_append] at hid

variable [DecidableEq K]

theorem Sorted.skiplistSearch (h : Wf skl) (hs : Sorted val skl ids) {key : K}
    (hc : key ∈ skl.items.map Prod.fst → Compares val cmp skl.items key)
    (hzero : ∀ item ∈ skl.items, cmp item.1 key = 0 → item.1 = key) :
    skl.skiplistSearch cmp key = some (AssocMap.search skl.items key) := by
  by_cases hkey : key ∈ skl.items.map Prod.fst
  · obtain ⟨⟨k, v⟩, hmem, rfl⟩ := List.mem_map.mp hkey
    obtain ⟨id, hid⟩ := List.mem_iff_getElem?.mp hmem
    obtain ⟨w, path, hsearch, hw, hself⟩ := hs.search_present h (hc hkey) hid
    rw [Skiplist.skiplistSearch, hsearch, AssocMap.search_of_mem hs.nodup_keys hmem]
    simp [hw, hid, hself]
  · rw [(AssocMap.search_eq_none _ _).mpr hkey]
    apply h.skiplistSearch_absent
    intro item hi hz
    exact hkey (List.mem_map.mpr ⟨item, hi, hzero item hi hz⟩)

theorem Sorted.skiplistInsert_present (h : Wf skl) (hs : Sorted val skl ids) (flips : Nat → Bool) {key : K}
    (value : D) (hc : Compares val cmp skl.items key) (hkey : key ∈ skl.items.map Prod.fst) :
    ∃ skl', skl.skiplistInsert cmp flips key value = some skl' ∧ Wf skl' ∧
      Sorted val skl' ids ∧ skl'.items = AssocMap.insert skl.items key value := by
  obtain ⟨⟨k, v⟩, hmem, rfl⟩ := List.mem_map.mp hkey
  obtain ⟨id, hid⟩ := List.mem_iff_getElem?.mp hmem
  obtain ⟨w, path, hsearch, hw, hself⟩ := hs.search_present h hc hid
  refine ⟨{ skl with items := skl.items.set id (k, value) }, ?_, ?_, hs.set hid value, ?_⟩
  · rw [Skiplist.skiplistInsert, hsearch]
    simp [hw, hid, hself]
  · exact ⟨h.layers, by simpa using h.links, h.layered⟩
  · exact (AssocMap.insert_eq_set hs.nodup_keys hid value).symm

omit [DecidableEq K] in
/-- A new key that is above another one goes behind the last key below it. -/
theorem Sorted.skiplistInsert_after (h : Wf skl) (hs : Sorted val skl ids) (flips : Nat → Bool) {key : K}
    (value : D) (hc : Compares val cmp skl.items key) (hne : ∀ item ∈ skl.items, val item.1 ≠ val key)
    {w : Wrapper} {path : Nat → Option Wrapper} {l r : List Nat}
    (hsearch : skl.skiplistSearchInternal cmp key = some (some w, path))
    (hpath : PathOk skl.items.length path) (hcut : Cut val skl ids (val key) (some w) l r) :
    ∃ skl' ids', skl.skiplistInsert cmp flips key value = some skl' ∧ Wf skl' ∧
      Sorted val skl' ids' ∧ skl'.items = skl.items ++ [(key, value)] := by
  have hkeyVal : ∀ id ∈ ids, ∃ item ∈ skl.items, skl.items[id]? = some item ∧
      skl.keyVal val id = val item.1 := by
    intro id hid
    have hlt := hs.mem_iff.mp hid
    exact ⟨_, List.getElem_mem hlt, List.getElem?_eq_getElem hlt,
      keyVal_of_getElem? (List.getElem?_eq_getElem hlt)⟩
  have hw : w.item ∈ ids := by
    rw [hcut.split]
    exact List.mem_append_left r (List.mem_of_getLast? hcut.last.symm)
  obtain ⟨item, hi, hitem, -⟩ := hkeyVal w.item hw
  have hcmp : cmp item.1 key ≠ 0 := by
    have hdiff := hc item hi
    have hneq := hne item hi
    omega
  obtain ⟨ids', hs'⟩ := hs.addItem h flips value hpath hcut (by
    intro id hid
    obtain ⟨item', hi', -, hv⟩ := hkeyVal id hid
    rw [hv]
    exact hne item' hi')
  refine ⟨skl.addItem flips key value (some w) path, ids', ?_, ?_, hs', rfl⟩
  · rw [Skiplist.skiplistInsert, hsearch]
    simp [hitem, hcmp]
  · refine (h.addItem flips key value ?_ hpath).1
    rintro w' ⟨⟩
    exact hs.mem_iff.mp hw

/-- Insertion into a sorted list. The key may be any if the list is empty; otherwise it
is not below all keys. -/
theorem Sorted.skiplistInsert (h : Wf skl) (hs : Sorted val skl ids) (hval : Function.Injective val)
    (flips : Nat → Bool) {key : K} (value : D) (hc : Compares val cmp skl.items key)
    (hmin : skl.items ≠ [] → ∃ item ∈ skl.items, val item.1 ≤ val key) :
    ∃ skl' ids', skl.skiplistInsert cmp flips key value = some skl' ∧ Wf skl' ∧
      Sorted val skl' ids' ∧ skl'.items = AssocMap.insert skl.items key value := by
  by_cases hkey : key ∈ skl.items.map Prod.fst
  · obtain ⟨skl', hinsert, hwf, hsorted, hitems⟩ := hs.skiplistInsert_present h flips value hc hkey
    exact ⟨skl', ids, hinsert, hwf, hsorted, hitems⟩
  · have hne : ∀ item ∈ skl.items, val item.1 ≠ val key := by
      intro item hi hv
      exact hkey (List.mem_map.mpr ⟨item, hi, hval hv⟩)
    rw [AssocMap.insert_of_not_mem hkey]
    obtain ⟨out, path, l, r, hsearch, hpath, hcut⟩ := hs.skiplistSearchInternal h hc
    cases out with
    | none =>
      have hnil : skl.items = [] := by
        by_contra hne'
        obtain ⟨item, hi, hle⟩ := hmin hne'
        obtain ⟨id, hid⟩ := List.mem_iff_getElem?.mp hi
        have hlt := hcut.above_of_none (hs.mem_iff.mpr (List.getElem?_eq_some_iff.mp hid).1)
        rw [keyVal_of_getElem? hid] at hlt
        omega
      refine ⟨skl.addItem flips key value none path, [0], ?_, ?_, ?_, rfl⟩
      · rw [Skiplist.skiplistInsert, hsearch]
        rfl
      · exact (h.addItem flips key value (by simp) hpath).1
      · exact Sorted.addItem_first h hnil flips key value hpath
    | some w => exact hs.skiplistInsert_after h flips value hc hne hsearch hpath hcut

/-- All calls, when no key is below the keys that were there from the start. `S` holds
the keys whose differences the comparator returns. -/
theorem Sorted.insertAll (hval : Function.Injective val) {S : Set K}
    (hfit : ∀ a ∈ S, ∀ b ∈ S, cmp a b = val a - val b) (flips : Nat → Nat → Bool) (n : Nat)
    (h : Wf skl) (hs : Sorted val skl ids) (hitems : ∀ item ∈ skl.items, item.1 ∈ S)
    {kvs : List (K × D)} (hkvs : ∀ x ∈ kvs, x.1 ∈ S)
    (hmin : ∀ x ∈ kvs, ∃ item ∈ skl.items, val item.1 ≤ val x.1) :
    ∃ skl' ids', skl.insertAll cmp flips n kvs = some skl' ∧ Wf skl' ∧ Sorted val skl' ids' ∧
      skl'.items = kvs.foldl (fun m x => AssocMap.insert m x.1 x.2) skl.items := by
  induction kvs generalizing n skl ids with
  | nil => exact ⟨skl, ids, rfl, h, hs, rfl⟩
  | cons x kvs ih =>
    have hx := hkvs x (by simp)
    obtain ⟨skl₁, ids₁, hins, h₁, hs₁, hitems₁⟩ := hs.skiplistInsert h hval (flips n) x.2
      (fun item hi => hfit _ (hitems item hi) _ hx) (fun _ => hmin x (by simp))
    obtain ⟨skl', ids', hall, h', hs', hitems'⟩ := ih (n + 1) h₁ hs₁
      (by
        intro item hi
        rw [hitems₁] at hi
        rcases AssocMap.mem_insert hi with rfl | hi
        · exact hx
        · exact hitems item hi)
      (fun y hy => hkvs y (List.mem_cons_of_mem x hy))
      (by
        intro y hy
        obtain ⟨item, hi, hle⟩ := hmin y (List.mem_cons_of_mem x hy)
        have hmem : item.1 ∈ skl₁.items.map Prod.fst := by
          rw [hitems₁, AssocMap.mem_keys_insert]
          exact Or.inr (List.mem_map_of_mem hi)
        obtain ⟨item', hi', heq⟩ := List.mem_map.mp hmem
        exact ⟨item', hi', by rwa [heq]⟩)
    refine ⟨skl', ids', ?_, h', hs', by rw [hitems', hitems₁, List.foldl_cons]⟩
    simp only [Skiplist.insertAll, hins, Option.bind_eq_bind, Option.bind_some, hall]

omit [DecidableEq K] in
theorem insert_create (cmp : K → K → Int) (numLayers : Nat) (h : 1 ≤ numLayers) (flips : Nat → Bool) (key : K) (value : D) :
    ∃ path, PathOk 0 path ∧ (skiplistCreate numLayers).skiplistInsert cmp flips key value =
      some ((skiplistCreate numLayers).addItem flips key value none path) := by
  obtain ⟨out, path, hsearch, hout, hpath⟩ :=
    (wf_create (K := K) (D := D) h).skiplistSearchInternal cmp key
  refine ⟨path, hpath, ?_⟩
  rw [Skiplist.skiplistInsert, hsearch]
  cases out with
  | none => rfl
  | some w => exact absurd (hout w rfl) (Nat.not_lt_zero _)

/-- All calls on a new list, when the first key is the least. -/
theorem Sorted.insertAll_create (hval : Function.Injective val) {S : Set K}
    (hfit : ∀ a ∈ S, ∀ b ∈ S, cmp a b = val a - val b) (flips : Nat → Nat → Bool) {numLayers : Nat}
    (h : 1 ≤ numLayers) {kvs : List (K × D)} (hkvs : ∀ x ∈ kvs, x.1 ∈ S)
    (hmin : ∀ x ∈ kvs.head?, ∀ y ∈ kvs, val x.1 ≤ val y.1) :
    ∃ skl ids, (skiplistCreate numLayers).insertAll cmp flips 0 kvs = some skl ∧ Wf skl ∧
      Sorted val skl ids ∧ skl.items = kvs.foldl (fun m x => AssocMap.insert m x.1 x.2) [] := by
  cases kvs with
  | nil => exact ⟨_, [], rfl, wf_create h, ⟨rfl, List.Perm.refl _, List.Pairwise.nil⟩, rfl⟩
  | cons x kvs =>
    obtain ⟨path, hpath, hins⟩ := insert_create cmp numLayers h (flips 0) x.1 x.2
    have hnone : ∀ w, (none : Option Wrapper) = some w → w.item < 0 := by simp
    have hwf := ((wf_create h).addItem (flips 0) x.1 x.2 hnone hpath).1
    have hsorted : Sorted val _ [0] := Sorted.addItem_first (wf_create h) rfl (flips 0) x.1 x.2 hpath
    obtain ⟨skl, ids, hall, h', hs', hitems⟩ := hsorted.insertAll hval hfit flips 1 hwf
      (by
        intro item hi
        obtain rfl : item = (x.1, x.2) := by simpa [skiplistCreate, Skiplist.addItem] using hi
        exact hkvs x (by simp))
      (fun y hy => hkvs y (List.mem_cons_of_mem x hy))
      (fun y hy => ⟨(x.1, x.2), by simp [skiplistCreate, Skiplist.addItem],
        hmin x rfl y (List.mem_cons_of_mem x hy)⟩)
    refine ⟨skl, ids, ?_, h', hs', hitems⟩
    simp only [Skiplist.insertAll, hins, Option.bind_eq_bind, Option.bind_some]
    exact hall

omit [DecidableEq K] in
/-- A range search of a sorted list. -/
theorem Sorted.skiplistRangeSearch (h : Wf skl) (hs : Sorted val skl ids) {beginKey endKey : K}
    (hlt : cmp beginKey endKey < 0) (hb : Compares val cmp skl.items beginKey)
    (he : Compares val cmp skl.items endKey) :
    ∃ res, skl.skiplistRangeSearch cmp beginKey endKey = some res ∧ res.Perm ((skl.items.filter
      fun item => val beginKey ≤ val item.1 ∧ val item.1 < val endKey).map Prod.snd) := by
  have hnone : skl.PrevOk (fun k => decide (cmp k beginKey < 0)) 0 none := by simp [PrevOk]
  obtain ⟨out, hout, hok⟩ := h.upperLayers_total _ (skl.numLayers - 1) hnone
  obtain ⟨pre, suf, f, hids, hstart, hchain, -, hpre⟩ := hs.split fun w hw => (hok w hw).1.lt
  have hsuf : ∀ id ∈ suf, id < skl.items.length := fun id hid => hs.mem_iff.mp (by simp [hids, hid])
  have hsteps : (suf.map fun id => Wrapper.mk id 0).length < skl.steps := by
    rw [List.length_map]
    apply h.lt_steps
    rw [← hs.length_eq, hids, List.length_append]
    omega
  have hitems : (suf.map fun id => Wrapper.mk id 0).mapM (fun w => skl.items[w.item]?) =
      some (Reorder.reorder suf skl.items) := by
    rw [List.mapM_map]
    exact Reorder.mapM_getElem? hsuf
  refine ⟨((Reorder.reorder suf skl.items).filter fun item =>
    cmp item.1 beginKey ≥ 0 ∧ cmp item.1 endKey < 0).map Prod.snd, ?_, ?_⟩
  · rw [Skiplist.skiplistRangeSearch, if_neg (by omega), hout]
    simp only [Option.bind_eq_bind, Option.bind_some, hstart, Queues.traverse_chain hchain hsteps, hitems]
  · apply List.Perm.map
    have hfilter : ∀ item ∈ skl.items, decide (cmp item.1 beginKey ≥ 0 ∧ cmp item.1 endKey < 0) =
        decide (val beginKey ≤ val item.1 ∧ val item.1 < val endKey) := by
      intro item hi
      have h₁ := hb item hi
      have h₂ := he item hi
      exact decide_eq_decide.mpr (by omega)
    -- what lies before the starting point is below the range
    have hskip : (Reorder.reorder pre skl.items).filter (fun item =>
        decide (cmp item.1 beginKey ≥ 0 ∧ cmp item.1 endKey < 0)) = [] := by
      rw [List.filter_eq_nil_iff]
      intro item hi
      obtain ⟨id, hid, hget⟩ := Reorder.mem_reorder.mp hi
      obtain ⟨w, hw, hle⟩ := hpre id hid
      obtain ⟨⟨prev, hprev, htest⟩, -⟩ := hok w hw
      rw [keyVal_of_getElem? hget, keyVal_of_getElem? hprev] at hle
      have h₁ := hb item (List.mem_of_getElem? hget)
      have h₂ := hb prev (List.mem_of_getElem? hprev)
      have h₃ := of_decide_eq_true htest
      simp only [decide_eq_true_eq]
      omega
    have hperm : (Reorder.reorder pre skl.items ++ Reorder.reorder suf skl.items).Perm skl.items := by
      rw [← Reorder.reorder_append, ← hids]
      exact Reorder.reorder_perm hs.perm
    have hall := hperm.filter fun item => decide (cmp item.1 beginKey ≥ 0 ∧ cmp item.1 endKey < 0)
    rw [List.filter_append, hskip, List.nil_append] at hall
    rwa [List.filter_congr hfilter] at hall

structure Flat (k₀ : K) (skl : Skiplist K D) : Prop where
  wf : Wf skl
  head : skl.layers.ptr (.first 0) = some ⟨0, 0⟩
  first : (skl.items.map Prod.fst)[0]? = some k₀
  last : skl.layers.last 0 ≠ .first 0
  upper : ∀ f, ¬ IsBase f → skl.layers.ptr f = none

omit [DecidableEq K] in
theorem addItem_layers_tails (skl : Skiplist K D) (key : K) (value : D) (prevItem : Option Wrapper)
    (path : Nat → Option Wrapper) : (skl.addItem (fun _ => false) key value prevItem path).layers =
      linkAt skl.layers 0 (prevItem.map fun w => ⟨w.item, 0⟩) ⟨skl.items.length, 0⟩ := by
  have hfold : ∀ (is : List Nat) (s : Bool × Queues Nat Wrapper), (is.foldl (fun s i =>
      let coin := s.1 && (fun _ => false) i
      (coin, if coin then linkAt s.2 i (path i) ⟨skl.items.length, i⟩ else s.2)) s).2 = s.2 := by
    intro is
    induction is with
    | nil => exact fun _ => rfl
    | cons i is ih =>
      intro s
      rw [List.foldl_cons, ih]
      simp
  exact hfold _ _

omit [DecidableEq K] in
theorem Flat.addItem {k₀ : K} (h : Flat k₀ skl) (key : K) (value : D) {prevItem : Option Wrapper}
    (hprev : ∀ w, prevItem = some w → w.item < skl.items.length) {path : Nat → Option Wrapper}
    (hpath : PathOk skl.items.length path) :
    Flat k₀ (skl.addItem (fun _ => false) key value prevItem path) := by
  have hlayers := skl.addItem_layers_tails key value prevItem path
  have hat : ∀ e, (prevItem.map fun w => Wrapper.mk w.item 0) = some e → (e.layer = 0 ↔ 0 = 0) := by
    intro e he
    obtain ⟨w, -, rfl⟩ := Option.map_eq_some_iff.mp he
    simp
  refine ⟨(h.wf.addItem _ key value hprev hpath).1, ?_, ?_, ?_, ?_⟩
  · rw [hlayers]
    cases prevItem with
    | none => simp [linkAt, Queues.insertTail, h.last.symm, h.head]
    | some w => simp [linkAt, Queues.insertAfter, h.head]
  · have hlt : 0 < (skl.items.map Prod.fst).length := (List.getElem?_eq_some_iff.mp h.first).1
    rw [Skiplist.addItem, List.map_append, List.getElem?_append_left hlt, h.first]
  · rw [hlayers]
    cases prevItem with
    | none => simp [linkAt, Queues.insertTail]
    | some w =>
      simp only [linkAt, Queues.insertAfter, Option.map_some]
      split_ifs
      · exact h.last
      · simp
  · intro f hf
    rw [hlayers]
    refine (h.wf.layered.linkAt_ptr rfl hat ?_).trans (h.upper f hf)
    simpa using hf

omit [DecidableEq K] in
theorem Flat.skiplistInsert {k₀ : K} (h : Flat k₀ skl) (cmp : K → K → Int) (key : K) (value : D) :
    ∃ skl', skl.skiplistInsert cmp (fun _ => false) key value = some skl' ∧ Flat k₀ skl' := by
  obtain ⟨out, path, hsearch, hout, hpath⟩ := h.wf.skiplistSearchInternal cmp key
  rw [Skiplist.skiplistInsert, hsearch]
  cases out with
  | none => exact ⟨_, rfl, h.addItem key value hout hpath⟩
  | some w =>
    have hget := List.getElem?_eq_getElem (hout w rfl)
    simp only [Option.bind_eq_bind, Option.bind_some, hget]
    split_ifs
    · refine ⟨_, rfl, ⟨h.wf.layers, by simpa using h.wf.links, h.wf.layered⟩, h.head, ?_, h.last, h.upper⟩
      have hlt : w.item < (skl.items.map Prod.fst).length := by simpa using hout w rfl
      rw [List.map_set, ← List.getElem_map Prod.fst (h := hlt), List.set_getElem_self]
      exact h.first
    · exact ⟨_, rfl, h.addItem key value hout hpath⟩

omit [DecidableEq K] in
theorem Flat.insertAll {k₀ : K} (h : Flat k₀ skl) (cmp : K → K → Int) (n : Nat) (kvs : List (K × D)) :
    ∃ skl', skl.insertAll cmp (fun _ _ => false) n kvs = some skl' ∧ Flat k₀ skl' := by
  induction kvs generalizing n skl with
  | nil => exact ⟨skl, rfl, h⟩
  | cons x kvs ih =>
    obtain ⟨skl₁, hins, h₁⟩ := h.skiplistInsert cmp x.1 x.2
    obtain ⟨skl', hall, h'⟩ := ih h₁ (n + 1)
    refine ⟨skl', ?_, h'⟩
    simp only [Skiplist.insertAll, hins, Option.bind_eq_bind, Option.bind_some, hall]

omit [DecidableEq K] in
/-- Behind the first item a smaller key is not found. -/
theorem Flat.skiplistSearch {k₀ key : K} (h : Flat k₀ skl) (hlt : 0 < cmp k₀ key) :
    skl.skiplistSearch cmp key = some none := by
  have hfirst : (skl.items[0]?.map fun item => decide (cmp item.1 key ≤ 0)) = some false := by
    have hf := h.first
    rw [List.getElem?_map] at hf
    obtain ⟨item, hitem, rfl⟩ := Option.map_eq_some_iff.mp hf
    rw [hitem, Option.map_some, decide_eq_false (by omega)]
  have hwalk : ∀ i, skl.walkLayer (fun k => decide (cmp k key ≤ 0)) i none = some none := by
    intro i
    rw [walkLayer, steps]
    cases i with
    | zero => simp [start, h.head, Queues.advance, hfirst]
    | succ i => simp [start, h.upper (.first (i + 1)) (Nat.succ_ne_zero i), Queues.advance]
  have hsearch : ∀ i path, ∃ path', skl.searchLayers (fun k => decide (cmp k key ≤ 0)) i none path =
      some (none, path') := by
    intro i
    induction i with
    | zero => exact fun path => ⟨path, rfl⟩
    | succ i ih =>
      intro path
      obtain ⟨path', hp⟩ := ih (Function.update path i none)
      exact ⟨path', by rw [searchLayers, hwalk]; exact hp⟩
  obtain ⟨path', hp⟩ := hsearch skl.numLayers fun _ => none
  rw [Skiplist.skiplistSearch, skiplistSearchInternal, hp]
  rfl

omit [DecidableEq K] in
theorem flat_insert_create (cmp : K → K → Int) (numLayers : Nat) (h : 1 ≤ numLayers) (key : K) (value : D) :
    ∃ skl, (skiplistCreate numLayers).skiplistInsert cmp (fun _ => false) key value = some skl ∧
      Flat key skl := by
  obtain ⟨path, hpath, hins⟩ := insert_create cmp numLayers h (fun _ => false) key value
  have hlayers := (skiplistCreate numLayers).addItem_layers_tails key value none path
  refine ⟨_, hins, ⟨((wf_create h).addItem _ key value (by simp) hpath).1, ?_, rfl, ?_, ?_⟩⟩
  · rw [hlayers]
    rfl
  · rw [hlayers]
    simp [linkAt, Queues.insertTail, skiplistCreate]
  · intro f hf
    rw [hlayers]
    have hat : ∀ e, (none : Option Wrapper) = some e → (e.layer = 0 ↔ 0 = 0) := by simp
    refine (layered_init.linkAt_ptr (w := ⟨0, 0⟩) rfl hat ?_).trans rfl
    simpa using hf

end Skiplist

end Miqs.SkipList
