import Mathlib.Logic.Function.Basic
import Miqs.HashTable

/-! What the hash table stores for a key is a queue of items, of which only the first is found. As
long as no data is NULL the queue has one item at most, and the table is a map. -/
namespace Miqs.Ht
open Miqs.Buckets Miqs.Runs
variable {D : Type}

inductive HtCall (D : Type) where
  | set (key : List UInt8) (data : Option D) (dlen : Nat)
  | getOrSet (key : List UInt8) (data : Option D) (dlen : Nat)
  | get (key : List UInt8)
  | delete (key : List UInt8)
  | unset (key : List UInt8)
  | clear

def htCall (t : HashTable D) : HtCall D → HashTable D × Reply D
  | .set key data dlen => htSet t key data dlen
  | .getOrSet key data dlen => htGetOrSet t key data dlen
  | .get key => htGet t key
  | .delete key => htDelete t key
  | .unset key => htUnset t key
  | .clear => (htClear t, ⟨0, none, 0⟩)

abbrev Queues (D : Type) := List UInt8 → List (Option D × Nat)

def queueSet (q : Queues D) (key : List UInt8) (data : Option D) (dlen : Nat) (inx : Bool) : Queues D × Reply D :=
  if key = [] then (q, ⟨-1, none, 0⟩)
  else
    match q key with
    | [] => (Function.update q key [(data, dlen)], ⟨0, none, 0⟩)
    | (none, len) :: rest => (Function.update q key ((none, len) :: rest ++ [(data, dlen)]), ⟨0, none, len⟩)
    | (some prev, len) :: rest =>
      if inx then (q, ⟨1, some prev, len⟩)
      else (Function.update q key ((data, dlen) :: rest), ⟨0, some prev, len⟩)

def queueFirst (q : Queues D) (key : List UInt8) : Reply D :=
  match q key with
  | [] => ⟨-1, none, 0⟩
  | (data, len) :: _ => ⟨0, data, len⟩

def queueCall (q : Queues D) : HtCall D → Queues D × Reply D
  | .set key data dlen => queueSet q key data dlen false
  | .getOrSet key data dlen => queueSet q key data dlen true
  | .get key => (q, queueFirst q key)
  | .delete key => (Function.update q key (q key).tail, queueFirst q key)
  | .unset key =>
    (if q key = [] then q else Function.update q key ((none, 0) :: (q key).tail), queueFirst q key)
  | .clear => (fun _ => [], ⟨0, none, 0⟩)

def entry (item : HtItem D) : Option D × Nat := (item.data, item.dlen)

def queueOf (t : HashTable D) (key : List UInt8) : List (Option D × Nat) :=
  ((items t.lists).filter (hasKey key)).map entry

structure Inv (t : HashTable D) : Prop where
  size : 0 < t.size
  placed : Placed (fun item => t.index item.key) t.lists
  hash : ∀ item ∈ items t.lists, item.hash = htHashOneAtATime t.seed item.key
  count : t.count = (items t.lists).length

def Loaded (t : HashTable D) : Prop := t.maxSize = 0 → t.count ≤ t.size + t.size / 3

theorem hasKey_iff {key : List UInt8} {item : HtItem D} : hasKey key item = true ↔ item.key = key := decide_eq_true_iff

section Bucket
variable {t : HashTable D} (h : Inv t)
include h

theorem Inv.bucket_filter (key : List UInt8) :
    ((bucket t.lists (t.index key)).filter (hasKey key)).map entry = queueOf t key := by
  rw [queueOf, h.placed.filter_items]
  intro item hitem
  rw [hasKey_iff.mp hitem]

omit h in
theorem mem_items_of_bucket {key : List UInt8} {item : HtItem D} (hitem : item ∈ bucket t.lists (t.index key)) :
    item ∈ items t.lists := by
  rw [bucket] at hitem
  cases hs : AssocMap.search t.lists (t.index key) with
  | none =>
    rw [hs] at hitem
    cases hitem
  | some list =>
    rw [hs] at hitem
    exact List.mem_flatMap.mpr ⟨_, AssocMap.mem_of_search hs, hitem⟩

/-- The list of a key is replaced by one in which the items of other keys are the same. -/
theorem Inv.queueOf_insert {key : List UInt8} {list : List (HtItem D)} (count : Nat)
    (hplace : ∀ item ∈ list, t.index item.key = t.index key)
    (hother : ∀ key', key' ≠ key → list.filter (hasKey key') = (bucket t.lists (t.index key)).filter (hasKey key')) :
    queueOf { t with count := count, lists := AssocMap.insert t.lists (t.index key) list } =
      Function.update (queueOf t) key ((list.filter (hasKey key)).map entry) := by
  funext key'
  have hplaced := h.placed.insert hplace
  have hfix : ∀ item : HtItem D, hasKey key' item = true → t.index item.key = t.index key' := by
    intro item hitem
    rw [hasKey_iff.mp hitem]
  rw [queueOf, hplaced.filter_items hfix, bucket_insert, Function.update_apply]
  by_cases hkey : key' = key
  · rw [if_pos hkey, hkey, if_pos rfl]
  · rw [if_neg hkey, ← h.bucket_filter key']
    split_ifs with hindex
    · rw [hother key' hkey, hindex]
    · rfl

theorem Inv.insert {key : List UInt8} {list : List (HtItem D)} (count : Nat)
    (hplace : ∀ item ∈ list, t.index item.key = t.index key)
    (hhash : ∀ item ∈ list, item.hash = htHashOneAtATime t.seed item.key)
    (hcount : count + (bucket t.lists (t.index key)).length = t.count + list.length) :
    Inv { t with count := count, lists := AssocMap.insert t.lists (t.index key) list } := by
  refine ⟨h.size, h.placed.insert hplace, ?_, ?_⟩
  · intro item hitem
    obtain ⟨e, he, hitem⟩ := List.mem_flatMap.mp hitem
    rcases AssocMap.mem_insert he with rfl | he
    · exact hhash item hitem
    · exact h.hash item (List.mem_flatMap.mpr ⟨e, he, hitem⟩)
  · have hlen := h.placed.length_insert list (k := t.index key)
    have hc := h.count
    show count = (items (AssocMap.insert t.lists (t.index key) list)).length
    omega

end Bucket

section Grow
variable {t : HashTable D} (h : Inv t)
include h

theorem Inv.growTo {newSize : Nat} (hnew : 0 < newSize) :
    Inv { t with size := newSize, lists := distribute (fun item => item.hash.toNat % newSize) (items t.lists) } ∧
      queueOf { t with size := newSize, lists := distribute (fun item => item.hash.toNat % newSize) (items t.lists) } =
        queueOf t := by
  have hplace : ∀ item ∈ items t.lists,
      item.hash.toNat % newSize = (htHashOneAtATime t.seed item.key).toNat % newSize := by
    intro item hitem
    rw [h.hash item hitem]
  rw [distribute_congr hplace]
  have hmem : ∀ item ∈ items (distribute (fun item => (htHashOneAtATime t.seed item.key).toNat % newSize) (items t.lists)),
      item ∈ items t.lists := by
    intro item hitem
    have hitem := List.mem_filter.mpr ⟨hitem, hasKey_iff.mpr (Eq.refl item.key)⟩
    rw [filter_distribute fun x hx => by rw [hasKey_iff.mp hx]] at hitem
    exact List.mem_of_mem_filter hitem
  refine ⟨⟨hnew, placed_distribute _ _, fun item hitem => h.hash item (hmem item hitem), ?_⟩, ?_⟩
  · rw [length_distribute]
    exact h.count
  · funext key
    rw [queueOf, queueOf, filter_distribute]
    intro item hitem
    rw [hasKey_iff.mp hitem]

theorem Inv.grown : Inv (growIfFull t) ∧ queueOf (growIfFull t) = queueOf t := by
  have hsize := h.size
  rw [growIfFull, htGrowTable]
  split_ifs with hfull hmax hcap
  · exact ⟨h, rfl⟩
  · exact h.growTo (by omega)
  · exact h.growTo (by omega)
  · exact ⟨h, rfl⟩

omit h in
/-- One item too many makes the table grow. -/
theorem loaded_growIfFull (hsize : 0 < t.size) (hload : t.maxSize = 0 → t.count ≤ t.size + t.size / 3 + 1) :
    Loaded (growIfFull t) := by
  rw [growIfFull, htGrowTable]
  split_ifs with hfull hmax hcap
  · exact fun hzero => absurd hzero hmax.1
  · exact fun hzero => absurd hzero hcap.1
  · intro hzero
    have hload := hload hzero
    show t.count ≤ 2 * t.size + 2 * t.size / 3
    omega
  · intro hzero
    have hload := hload hzero
    by_contra hgt
    exact hfull ⟨by omega, .inl hzero⟩

end Grow

theorem maxSize_growIfFull (t : HashTable D) : (growIfFull t).maxSize = t.maxSize := by
  rw [growIfFull, htGrowTable]
  split_ifs <;> rfl

structure Stores (maxSize : Nat) (t : HashTable D) (q : Queues D) : Prop where
  limit : t.maxSize = maxSize
  inv : Inv t
  loaded : Loaded t
  queues : queueOf t = q

theorem stores_create (initialSize maxSize : Nat) (seed : UInt32) :
    Stores maxSize (htCreate initialSize maxSize seed : HashTable D) fun _ => [] := by
  refine ⟨rfl, ⟨?_, placed_nil _, fun _ hitem => absurd hitem List.not_mem_nil, rfl⟩, fun _ => Nat.zero_le _, rfl⟩
  show 0 < if initialSize > htSizeMin then initialSize else htSizeMin
  split_ifs with hmin
  · exact Nat.zero_lt_of_lt hmin
  · decide

section Call
variable {maxSize : Nat} {t : HashTable D} {q : Queues D} (h : Stores maxSize t q)
include h

theorem Stores.clear : Stores maxSize (htClear t) fun _ => [] := by
  have hzero : t.count - (items t.lists).length = 0 := by rw [h.inv.count, Nat.sub_self]
  refine ⟨h.limit, ⟨h.inv.size, placed_nil _, fun _ hitem => absurd hitem List.not_mem_nil, hzero⟩, fun _ => ?_, rfl⟩
  exact Nat.le_trans (Nat.le_of_eq hzero) (Nat.zero_le _)

/-- The item that is found is the first of the queue. -/
theorem Stores.find (key : List UInt8) :
    ((bucket t.lists (t.index key)).find? (hasKey key)).map entry = (q key).head? := by
  rw [← h.queues, ← h.inv.bucket_filter key, List.head?_map, List.head?_filter]

theorem Stores.grown : Stores maxSize (growIfFull t) q := by
  obtain ⟨hgrown, hsame⟩ := h.inv.grown
  refine ⟨(maxSize_growIfFull _).trans h.limit, hgrown, loaded_growIfFull h.inv.size ?_, hsame.trans h.queues⟩
  intro hzero
  exact Nat.le_succ_of_le (h.loaded hzero)

/-- A new item stands behind the others of its key. -/
theorem Stores.append (key : List UInt8) (data : Option D) (dlen : Nat) :
    Stores maxSize (growIfFull { t with
      count := t.count + 1
      lists := AssocMap.insert t.lists (t.index key) (bucket t.lists (t.index key) ++
        [{ hash := htHashOneAtATime t.seed key, key := key, data := data, dlen := dlen }]) })
      (Function.update q key (q key ++ [(data, dlen)])) := by
  have hplace : ∀ item ∈ bucket t.lists (t.index key) ++
      [{ hash := htHashOneAtATime t.seed key, key := key, data := data, dlen := dlen }],
      t.index item.key = t.index key := by
    intro item hitem
    rcases List.mem_append.mp hitem with hitem | hitem
    · exact h.inv.placed.mem_bucket hitem
    · rw [List.mem_singleton.mp hitem]
  have hinv := h.inv.insert (t.count + 1) hplace (by
    intro item hitem
    rcases List.mem_append.mp hitem with hitem | hitem
    · exact h.inv.hash item (mem_items_of_bucket hitem)
    · rw [List.mem_singleton.mp hitem]) (by
    rw [List.length_append, List.length_singleton]
    omega)
  have hqueue := h.inv.queueOf_insert (t.count + 1) hplace (by
    intro key' hne
    have hkey : hasKey key' ({ hash := htHashOneAtATime t.seed key, key := key, data := data, dlen := dlen } : HtItem D) =
        false := decide_eq_false (Ne.symm hne)
    rw [List.filter_append, List.filter_cons_of_neg (by rw [hkey]; decide), List.filter_nil, List.append_nil])
  obtain ⟨hgrown, hsame⟩ := hinv.grown
  refine ⟨(maxSize_growIfFull _).trans h.limit, hgrown, loaded_growIfFull h.inv.size ?_, ?_⟩
  · intro hzero
    exact Nat.add_le_add_right (h.loaded hzero) 1
  · rw [hsame, hqueue, List.filter_append, List.map_append, h.inv.bucket_filter, h.queues]
    simp [hasKey, entry]

/-- The first item of a key gets other data. -/
theorem Stores.change (key : List UInt8) (data : Option D) (dlen : Nat) (hne : q key ≠ []) :
    Stores maxSize { t with
      lists := AssocMap.insert t.lists (t.index key)
        (updateFirst (hasKey key) (fun item => { item with data := data, dlen := dlen })
          (bucket t.lists (t.index key))) }
      (Function.update q key ((data, dlen) :: (q key).tail)) := by
  have hplace : ∀ item ∈ updateFirst (hasKey key) (fun item => { item with data := data, dlen := dlen })
      (bucket t.lists (t.index key)), t.index item.key = t.index key := by
    intro item hitem
    rcases mem_updateFirst hitem with hitem | ⟨item', hitem', -, rfl⟩
    · exact h.inv.placed.mem_bucket hitem
    · show t.index item'.key = t.index key
      exact h.inv.placed.mem_bucket hitem'
  have hinv := h.inv.insert t.count hplace (by
    intro item hitem
    rcases mem_updateFirst hitem with hitem | ⟨item', hitem', -, rfl⟩
    · exact h.inv.hash item (mem_items_of_bucket hitem)
    · exact h.inv.hash item' (mem_items_of_bucket hitem')) (by rw [length_updateFirst])
  have hqueue := h.inv.queueOf_insert t.count hplace (by
    intro key' hne
    refine filter_updateFirst_of_disjoint ?_ _
    intro item hitem
    rw [hasKey_iff] at hitem
    subst hitem
    exact ⟨decide_eq_false (Ne.symm hne), decide_eq_false (Ne.symm hne)⟩)
  refine ⟨h.limit, hinv, h.loaded, ?_⟩
  rw [hqueue, h.queues, filter_updateFirst]
  · congr 1
    have hfilter := h.inv.bucket_filter key
    rw [h.queues] at hfilter
    cases hf : (bucket t.lists (t.index key)).filter (hasKey key) with
    | nil =>
      rw [hf] at hfilter
      exact absurd hfilter.symm hne
    | cons item rest =>
      have hitem : hasKey key item = true := by
        have : item ∈ (bucket t.lists (t.index key)).filter (hasKey key) := by simp [hf]
        exact (List.mem_filter.mp this).2
      rw [← hfilter, hf, updateFirst, if_pos hitem]
      rfl
  · intro item hitem
    exact hitem

/-- The first item of a key is removed. -/
theorem Stores.erase (key : List UInt8) (hne : q key ≠ []) :
    Stores maxSize { t with
      count := t.count - 1
      lists := AssocMap.insert t.lists (t.index key) ((bucket t.lists (t.index key)).eraseP (hasKey key)) }
      (Function.update q key (q key).tail) := by
  have hmem : ∀ item ∈ (bucket t.lists (t.index key)).eraseP (hasKey key), item ∈ bucket t.lists (t.index key) :=
    fun item hitem => List.mem_of_mem_eraseP hitem
  have hplace : ∀ item ∈ (bucket t.lists (t.index key)).eraseP (hasKey key), t.index item.key = t.index key :=
    fun item hitem => h.inv.placed.mem_bucket (hmem item hitem)
  have hfilter := h.inv.bucket_filter key
  rw [h.queues] at hfilter
  obtain ⟨item, hitem⟩ : ∃ item, item ∈ (bucket t.lists (t.index key)).filter (hasKey key) := by
    apply List.exists_mem_of_ne_nil
    rintro hnil
    rw [hnil] at hfilter
    exact hne hfilter.symm
  obtain ⟨hitem, hkey⟩ := List.mem_filter.mp hitem
  have hlen := List.length_eraseP_of_mem hitem hkey
  have hpos := List.length_pos_of_mem hitem
  have hcount := h.inv.count
  have hle : 0 < (items t.lists).length := List.length_pos_of_mem (mem_items_of_bucket hitem)
  have hinv := h.inv.insert (t.count - 1) hplace
    (fun item hitem => h.inv.hash item (mem_items_of_bucket (hmem item hitem))) (by omega)
  have hqueue := h.inv.queueOf_insert (t.count - 1) hplace (by
    intro key' hne
    refine filter_eraseP_of_disjoint ?_ _
    intro item hitem
    rw [hasKey_iff] at hitem
    subst hitem
    exact decide_eq_false (Ne.symm hne))
  refine ⟨h.limit, hinv, ?_, ?_⟩
  · intro hzero
    exact (Nat.sub_le _ _).trans (h.loaded hzero)
  · rw [hqueue, h.queues, filter_eraseP, List.map_tail, hfilter]

theorem Stores.call_of_nil {key : List UInt8} (hq : q key = []) (cb : Option D → Nat → Int × Option D × Nat) :
    htCallInternal t key cb = (t, ⟨-1, none, 0⟩) := by
  have hfind := h.find key
  rw [htCallInternal]
  cases hs : AssocMap.search t.lists (t.index key) with
  | none => rfl
  | some list =>
    have hf : list.find? (hasKey key) = none := by simpa [bucket, hs, hq] using hfind
    simp only [hf]

/-- What the callback makes of the first item of a key. -/
theorem Stores.call_of_cons {key : List UInt8} {data : Option D} {len : Nat} {rest : List (Option D × Nat)}
    (hq : q key = (data, len) :: rest) (cb : Option D → Nat → Int × Option D × Nat) :
    (htCallInternal t key cb).2 = ⟨if (cb data len).1 = 1 then 0 else (cb data len).1, data, len⟩ ∧
      Stores maxSize (htCallInternal t key cb).1
        (Function.update q key (if (cb data len).1 = 1 then rest else (cb data len).2 :: rest)) := by
  have hfind := h.find key
  rw [hq, List.head?_cons, Option.map_eq_some_iff] at hfind
  obtain ⟨item, hf, hentry⟩ := hfind
  obtain ⟨rfl, rfl⟩ := Prod.mk.inj hentry
  obtain ⟨list, hs⟩ : ∃ list, AssocMap.search t.lists (t.index key) = some list := by
    cases hs : AssocMap.search t.lists (t.index key) with
    | none => simp [bucket, hs] at hf
    | some list => exact ⟨list, rfl⟩
  have hbucket : bucket t.lists (t.index key) = list := by simp [bucket, hs]
  have hchange := h.change key (cb item.data item.dlen).2.1 (cb item.data item.dlen).2.2 (by simp [hq])
  have herase := h.erase key (by simp [hq])
  rw [hbucket, hq, List.tail_cons] at hchange herase
  rw [hbucket] at hf
  simp only [htCallInternal, hs, hf]
  by_cases hone : (cb item.data item.dlen).1 = 1
  · rw [if_pos hone, if_pos hone, if_pos hone]
    exact ⟨rfl, herase⟩
  · rw [if_neg hone, if_neg hone, if_neg hone]
    exact ⟨rfl, hchange⟩

theorem Stores.set (key : List UInt8) (data : Option D) (dlen : Nat) (inx : Bool) :
    (htSetInternal t key data dlen inx).2 = (queueSet q key data dlen inx).2 ∧
      Stores maxSize (htSetInternal t key data dlen inx).1 (queueSet q key data dlen inx).1 := by
  by_cases hnil : key = []
  · rw [htSetInternal, queueSet, if_pos hnil, if_pos hnil]
    exact ⟨rfl, h⟩
  rw [htSetInternal, queueSet, if_neg hnil, if_neg hnil]
  have hfind := h.find key
  have happend := h.append key data dlen
  cases hf : (bucket t.lists (t.index key)).find? (hasKey key) with
  | none =>
    have hq : q key = [] := by simpa [hf] using hfind.symm
    rw [hq] at happend
    simpa [hf, hq] using happend
  | some item =>
    obtain ⟨rest, hq⟩ : ∃ rest, q key = entry item :: rest := by
      rw [hf, Option.map_some] at hfind
      cases hq : q key with
      | nil => simp [hq] at hfind
      | cons e rest =>
        rw [hq, List.head?_cons, Option.some.injEq] at hfind
        exact ⟨rest, by rw [hfind]⟩
    cases hdata : item.data with
    | none =>
      rw [hq] at happend
      simpa [hf, hq, entry, hdata] using happend
    | some prev =>
      cases inx with
      | true => simpa [hf, hq, entry, hdata] using h
      | false =>
        have hchange := (h.change key data dlen (by simp [hq])).grown
        rw [hq, List.tail_cons] at hchange
        simpa [hf, hq, entry, hdata] using hchange

end Call

theorem stores_call {maxSize : Nat} (t : HashTable D) (q : Queues D) (call : HtCall D) (h : Stores maxSize t q) :
    (htCall t call).2 = (queueCall q call).2 ∧ Stores maxSize (htCall t call).1 (queueCall q call).1 := by
  cases call with
  | set key data dlen => exact h.set key data dlen false
  | getOrSet key data dlen => exact h.set key data dlen true
  | get key =>
    rw [htCall, queueCall, queueFirst, htGet]
    cases hq : q key with
    | nil =>
      rw [h.call_of_nil hq]
      exact ⟨rfl, h⟩
    | cons e rest =>
      have hcall := h.call_of_cons hq htGetHelper
      have hkeep : Function.update q key (e :: rest) = q := by rw [← hq, Function.update_eq_self]
      exact ⟨hcall.1, hkeep ▸ hcall.2⟩
  | delete key =>
    rw [htCall, queueCall, queueFirst, htDelete]
    cases hq : q key with
    | nil =>
      have hkeep : Function.update q key [] = q := by rw [← hq, Function.update_eq_self]
      rw [h.call_of_nil hq, List.tail_nil, hkeep]
      exact ⟨rfl, h⟩
    | cons e rest => exact h.call_of_cons hq (htDeleteHelper false)
  | unset key =>
    rw [htCall, queueCall, queueFirst, htUnset]
    cases hq : q key with
    | nil =>
      rw [h.call_of_nil hq, if_pos rfl]
      exact ⟨rfl, h⟩
    | cons e rest =>
      rw [if_neg (by simp)]
      exact h.call_of_cons hq (htDeleteHelper true)
  | clear => exact ⟨rfl, h.clear⟩

def tableAfter (initialSize maxSize : Nat) (seed : UInt32) (calls : List (HtCall D)) : HashTable D :=
  (trace htCall (htCreate initialSize maxSize seed) calls).1

def queuesAfter (calls : List (HtCall D)) : Queues D := (trace queueCall (fun _ => []) calls).1

theorem stores_after (initialSize maxSize : Nat) (seed : UInt32) (calls : List (HtCall D)) :
    (trace htCall (htCreate initialSize maxSize seed) calls).2 = (trace queueCall (fun _ => []) calls).2 ∧
      Stores maxSize (tableAfter initialSize maxSize seed calls) (queuesAfter calls) :=
  trace_rel (Stores maxSize) (fun _ => True) htCall queueCall (fun t q call _ h => stores_call t q call h)
    (fun _ _ => trivial) (stores_create initialSize maxSize seed)

/-- Whatever the size, its limit and the seed, every call returns what it returns on the queues. A
table without limit has three buckets for four items at any time. -/
theorem ht_calls_are_queue_calls (initialSize maxSize : Nat) (seed : UInt32) (calls : List (HtCall D)) :
    (trace htCall (htCreate initialSize maxSize seed) calls).2 = (trace queueCall (fun _ => []) calls).2 ∧
      (maxSize = 0 → (tableAfter initialSize maxSize seed calls).count ≤
        (tableAfter initialSize maxSize seed calls).size + (tableAfter initialSize maxSize seed calls).size / 3) := by
  obtain ⟨hres, h⟩ := stores_after initialSize maxSize seed calls
  refine ⟨hres, ?_⟩
  intro hzero
  exact h.loaded (h.limit.trans hzero)

def mapSet (m : List UInt8 → Option (Option D × Nat)) (key : List UInt8) (data : Option D) (dlen : Nat) (inx : Bool) :
    (List UInt8 → Option (Option D × Nat)) × Reply D :=
  if key = [] then (m, ⟨-1, none, 0⟩)
  else
    match m key with
    | none => (Function.update m key (some (data, dlen)), ⟨0, none, 0⟩)
    | some (prev, len) =>
      if inx then (m, ⟨1, prev, len⟩) else (Function.update m key (some (data, dlen)), ⟨0, prev, len⟩)

def mapFirst (m : List UInt8 → Option (Option D × Nat)) (key : List UInt8) : Reply D :=
  (m key).elim ⟨-1, none, 0⟩ fun e => ⟨0, e.1, e.2⟩

def mapCall (m : List UInt8 → Option (Option D × Nat)) : HtCall D → (List UInt8 → Option (Option D × Nat)) × Reply D
  | .set key data dlen => mapSet m key data dlen false
  | .getOrSet key data dlen => mapSet m key data dlen true
  | .get key => (m, mapFirst m key)
  | .delete key => (Function.update m key none, mapFirst m key)
  | .unset key => (Function.update m key ((m key).map fun _ => (none, 0)), mapFirst m key)
  | .clear => (fun _ => none, ⟨0, none, 0⟩)

def mapAfter (calls : List (HtCall D)) : List UInt8 → Option (Option D × Nat) := (trace mapCall (fun _ => none) calls).1

/-- A call that stores no NULL, in the state before it. -/
def NoNull (m : List UInt8 → Option (Option D × Nat)) : HtCall D → Prop
  | .set key data _ => key = [] ∨ data ≠ none
  | .getOrSet key data _ => key = [] ∨ m key ≠ none ∨ data ≠ none
  | .unset key => m key = none
  | _ => True

def SameMap (q : Queues D) (m : List UInt8 → Option (Option D × Nat)) : Prop :=
  ∀ key, q key = (m key).toList ∧ ∀ e, m key = some e → e.1 ≠ none

theorem SameMap.update {q : Queues D} {m : List UInt8 → Option (Option D × Nat)} (h : SameMap q m) (key : List UInt8)
    (e : Option (Option D × Nat)) (he : ∀ x, e = some x → x.1 ≠ none) :
    SameMap (Function.update q key e.toList) (Function.update m key e) := by
  intro key'
  by_cases hkey : key' = key
  · rw [hkey, Function.update_self, Function.update_self]
    exact ⟨rfl, he⟩
  · rw [Function.update_of_ne hkey, Function.update_of_ne hkey]
    exact h key'

theorem SameMap.set {q : Queues D} {m : List UInt8 → Option (Option D × Nat)} (h : SameMap q m) (key : List UInt8)
    (data : Option D) (dlen : Nat) (inx : Bool) (hdata : key = [] ∨ inx = true ∧ m key ≠ none ∨ data ≠ none) :
    (queueSet q key data dlen inx).2 = (mapSet m key data dlen inx).2 ∧
      SameMap (queueSet q key data dlen inx).1 (mapSet m key data dlen inx).1 := by
  have hnew (hdata : data ≠ none) := h.update key (some (data, dlen)) fun x hx => by
    obtain rfl := Option.some.inj hx
    exact hdata
  rw [queueSet, mapSet]
  by_cases hnil : key = []
  · rw [if_pos hnil, if_pos hnil]
    exact ⟨rfl, h⟩
  replace hdata := hdata.resolve_left hnil
  rw [if_neg hnil, if_neg hnil, (h key).1]
  cases hm : m key with
  | none => exact ⟨rfl, hnew (hdata.resolve_left fun hinx => hinx.2 hm)⟩
  | some e =>
    obtain ⟨prev, len⟩ := e
    cases prev with
    | none => exact absurd rfl ((h key).2 _ hm)
    | some prev =>
      cases inx with
      | true => exact ⟨rfl, h⟩
      | false => exact ⟨rfl, hnew (hdata.resolve_left fun hinx => nomatch hinx.1)⟩

theorem mapSet_fst {m : List UInt8 → Option (Option D × Nat)} {key : List UInt8} (hkey : key ≠ []) (data : Option D)
    (dlen : Nat) : (mapSet m key data dlen false).1 = Function.update m key (some (data, dlen)) := by
  rw [mapSet, if_neg hkey]
  cases m key <;> rfl

theorem SameMap.first {q : Queues D} {m : List UInt8 → Option (Option D × Nat)} (h : SameMap q m) (key : List UInt8) :
    queueFirst q key = mapFirst m key := by
  rw [queueFirst, mapFirst, (h key).1]
  cases m key <;> rfl

theorem sameMap_call (q : Queues D) (m : List UInt8 → Option (Option D × Nat)) (call : HtCall D) (hcall : NoNull m call)
    (h : SameMap q m) : (queueCall q call).2 = (mapCall m call).2 ∧ SameMap (queueCall q call).1 (mapCall m call).1 := by
  cases call with
  | set key data dlen => exact h.set key data dlen false (hcall.imp_right Or.inr)
  | getOrSet key data dlen => exact h.set key data dlen true (hcall.imp_right (Or.imp_left (And.intro rfl)))
  | get key => exact ⟨h.first key, h⟩
  | delete key =>
    refine ⟨h.first key, ?_⟩
    have htail : (q key).tail = (none : Option (Option D × Nat)).toList := by
      rw [(h key).1]
      cases m key <;> rfl
    rw [queueCall, htail]
    exact h.update key none fun x hx => by cases hx
  | unset key =>
    have hnone : m key = none := hcall
    refine ⟨h.first key, ?_⟩
    have hkeep : Function.update m key ((m key).map fun _ => (none, 0)) = m := by
      rw [hnone, Option.map_none, ← hnone, Function.update_eq_self]
    have hnil : q key = [] := by rw [(h key).1, hnone, Option.toList_none]
    rw [queueCall, mapCall, hkeep, if_pos hnil]
    exact h
  | clear => exact ⟨rfl, fun key => ⟨rfl, fun e he => by cases he⟩⟩

section NoNull
variable (initialSize maxSize : Nat) (seed : UInt32) {calls : List (HtCall D)}
  (hcalls : Along NoNull mapCall (fun _ => none) calls)
include hcalls

theorem sameMap_after :
    (trace queueCall (fun _ => []) calls).2 = (trace mapCall (fun _ => none) calls).2 ∧
      SameMap (queuesAfter calls) (mapAfter calls) :=
  trace_rel_along SameMap NoNull queueCall mapCall sameMap_call hcalls fun key => ⟨rfl, fun e he => by cases he⟩

/-- As long as no call stores NULL the hash table is a map. -/
theorem ht_calls_are_map_calls :
    (trace htCall (htCreate initialSize maxSize seed) calls).2 = (trace mapCall (fun _ => none) calls).2 :=
  (stores_after initialSize maxSize seed calls).1.trans (sameMap_after hcalls).1

end NoNull

theorem ht_calls_are_map_calls_deleted :
    (trace htCall (htCreate 0 0 7) [.set [1] (some 5) 8, .unset [2], .delete [1], .get [1]]).2 =
      (trace mapCall (fun _ => none) [.set [1] (some 5) 8, .unset [2], .delete [1], .get [1]]).2 :=
  ht_calls_are_map_calls 0 0 7 ⟨Or.inr nofun, rfl, trivial, trivial, trivial⟩

section Foreach
variable {σ : Type} {cb : σ → List UInt8 → Option D → Nat → σ × Int} (hcb : ∀ s key data dlen, 0 < (cb s key data dlen).2)
include hcb

theorem foreachItem_of_pos (user : σ) (list : List (HtItem D)) :
    foreachItem cb user list = (list.foldl (fun user item => (cb user item.key item.data item.dlen).1) user, none) := by
  induction list generalizing user with
  | nil => rfl
  | cons item list ih =>
    rw [foreachItem, ih]
    exact if_neg (Int.not_le.mpr (hcb user item.key item.data item.dlen))

theorem foreachList_of_pos (user : σ) (lists : List (Nat × List (HtItem D))) :
    foreachList cb user lists =
      ((items lists).foldl (fun user item => (cb user item.key item.data item.dlen).1) user, lists) := by
  induction lists generalizing user with
  | nil => rfl
  | cons list lists ih =>
    rw [foreachList, foreachItem_of_pos hcb]
    simp only [ih, items, List.flatMap_cons, List.foldl_append]

/-- A callback that always goes on gets all items, and the table stays as it is. -/
theorem htForeachPair_of_pos (t : HashTable D) (user : σ) :
    htForeachPair cb t user =
      (t, (items t.lists).foldl (fun user item => (cb user item.key item.data item.dlen).1) user) := by
  rw [htForeachPair, foreachList_of_pos hcb]

end Foreach

def pairs (t : HashTable D) : List (List UInt8 × (Option D × Nat)) :=
  (items t.lists).map fun item => (item.key, entry item)

theorem pairs_filter (t : HashTable D) (key : List UInt8) :
    ((pairs t).filter fun e => e.1 = key).map Prod.snd = queueOf t key := by
  rw [pairs, List.filter_map, List.map_map]
  rfl

theorem htForeachPair_pairs {σ : Type} {cb : σ → List UInt8 → Option D → Nat → σ × Int}
    (hcb : ∀ s key data dlen, 0 < (cb s key data dlen).2) (t : HashTable D) (user : σ) :
    htForeachPair cb t user = (t, (pairs t).foldl (fun user e => (cb user e.1 e.2.1 e.2.2).1) user) := by
  rw [htForeachPair_of_pos hcb, pairs, List.foldl_map]
  rfl

section Pairs
variable (initialSize maxSize : Nat) (seed : UInt32) {calls : List (HtCall D)}
  (hcalls : Along NoNull mapCall (fun _ => none) calls)
include hcalls

theorem pairs_filter_after (key : List UInt8) :
    ((pairs (tableAfter initialSize maxSize seed calls)).filter fun e => e.1 = key).map Prod.snd =
      (mapAfter calls key).toList := by
  rw [pairs_filter, (stores_after initialSize maxSize seed calls).2.queues]
  exact ((sameMap_after hcalls).2 key).1

theorem nodup_pairs_after : ((pairs (tableAfter initialSize maxSize seed calls)).map Prod.fst).Nodup := by
  apply AssocMap.nodup_of_filter
  intro key
  rw [← List.length_map (f := Prod.snd), pairs_filter_after initialSize maxSize seed hcalls]
  cases mapAfter calls key <;> simp

theorem mem_pairs_after {key : List UInt8} {e : Option D × Nat} :
    (key, e) ∈ pairs (tableAfter initialSize maxSize seed calls) ↔ mapAfter calls key = some e := by
  rw [← Option.mem_toList, ← pairs_filter_after initialSize maxSize seed hcalls, List.mem_map]
  constructor
  · intro he
    exact ⟨(key, e), List.mem_filter.mpr ⟨he, decide_eq_true rfl⟩, rfl⟩
  · rintro ⟨e', he', rfl⟩
    obtain ⟨he', hkey⟩ := List.mem_filter.mp he'
    rw [← of_decide_eq_true hkey]
    exact he'

/-- As long as no call stores NULL, a callback that always goes on is called once for every key
that is stored, with its data. -/
theorem ht_foreach_pair_calls_each_key :
    ∃ visited : List (List UInt8 × (Option D × Nat)), (visited.map Prod.fst).Nodup ∧
      (∀ key e, (key, e) ∈ visited ↔ mapAfter calls key = some e) ∧
      (tableAfter initialSize maxSize seed calls).count = visited.length ∧
      ∀ {σ : Type} (cb : σ → List UInt8 → Option D → Nat → σ × Int) (_ : ∀ s key data dlen, 0 < (cb s key data dlen).2)
        (user : σ), htForeachPair cb (tableAfter initialSize maxSize seed calls) user =
          (tableAfter initialSize maxSize seed calls,
            visited.foldl (fun user e => (cb user e.1 e.2.1 e.2.2).1) user) := by
  refine ⟨pairs (tableAfter initialSize maxSize seed calls), nodup_pairs_after initialSize maxSize seed hcalls,
    fun key e => mem_pairs_after initialSize maxSize seed hcalls, ?_, fun cb hcb user => htForeachPair_pairs hcb _ user⟩
  rw [pairs, List.length_map]
  exact (stores_after initialSize maxSize seed calls).2.inv.count

end Pairs

theorem ht_foreach_pair_calls_each_key_two :
    ∃ visited : List (List UInt8 × (Option Nat × Nat)), (visited.map Prod.fst).Nodup ∧
      (∀ key e, (key, e) ∈ visited ↔ mapAfter [.set [1] (some 5) 8, .set [2] (some 6) 8] key = some e) ∧
      (tableAfter 0 0 7 [.set [1] (some 5) 8, .set [2] (some 6) 8]).count = visited.length ∧
      ∀ {σ : Type} (cb : σ → List UInt8 → Option Nat → Nat → σ × Int)
        (_ : ∀ s key data dlen, 0 < (cb s key data dlen).2) (user : σ),
        htForeachPair cb (tableAfter 0 0 7 [.set [1] (some 5) 8, .set [2] (some 6) 8]) user =
          (tableAfter 0 0 7 [.set [1] (some 5) 8, .set [2] (some 6) 8],
            visited.foldl (fun user e => (cb user e.1 e.2.1 e.2.2).1) user) :=
  ht_foreach_pair_calls_each_key 0 0 7 ⟨Or.inr nofun, Or.inr nofun, trivial⟩

end Miqs.Ht
