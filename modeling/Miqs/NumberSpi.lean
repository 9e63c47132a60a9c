import Miqs.CData
import Miqs.KeyedTree
import Miqs.SkipListMap

/-! The number index interface over two of its data structures, a red-black tree and a
skip list, for keys of type `int`. -/
namespace Miqs.NumberSpi
open Miqs.CData Miqs.SkipList Miqs.KeyedTree
open Miqs.SearchTree (OrderedOn)
variable {D : Type}

def cmpInt (a b : CInt) : Int := libhlCmpKeysInt (.int a) (.int b)

inductive NumIdxImpl where
  | sbst
  | skiplist
  deriving DecidableEq

inductive NumberIndex (D : Type) where
  | rbtree (nodes : List (CInt × D))
  | skiplist (skl : Skiplist CInt D)

def createNumberIndex : NumIdxImpl → NumberIndex D
  | .sbst => .rbtree []
  | .skiplist => .skiplist (skiplistCreate 5)

section Operations
variable [Descent CInt]

def insertNumber (flips : Nat → Bool) (idx : NumberIndex D) (key : CInt) (data : D) :
    Option (NumberIndex D) :=
  match idx with
  | .rbtree nodes => some (.rbtree (add cmpInt nodes key data))
  | .skiplist skl => (skl.skiplistInsert cmpInt flips key data).map .skiplist

/-- What is returned and what is in `*out`, NULL before the call. The skip list's search
does not return whether the key was found. -/
def searchNumber (idx : NumberIndex D) (key : CInt) : Option (Int × Option D) :=
  match idx with
  | .rbtree nodes =>
    match lookup cmpInt nodes key with
    | some data => some (0, some data)
    | none => some (-1, none)
  | .skiplist skl => (skl.skiplistSearch cmpInt key).map fun out => (0, out)

def rbtRangeWalk (nodes : List (CInt × D)) (beginKey endKey : CInt) : List D :=
  if cmpInt beginKey endKey ≥ 0 then []
  else ((walk cmpInt nodes).filter fun node =>
    cmpInt node.1 beginKey = 0 ∨ cmpInt node.1 beginKey > 0 ∧ cmpInt node.1 endKey < 0).map Prod.snd

def searchNumericRange (idx : NumberIndex D) (beginKey endKey : CInt) : Option (List D) :=
  match idx with
  | .rbtree nodes => some (rbtRangeWalk nodes beginKey endKey)
  | .skiplist skl => skl.skiplistRangeSearch cmpInt beginKey endKey

def insertNumbers (flips : Nat → Nat → Bool) : Nat → NumberIndex D → List (CInt × D) →
    Option (NumberIndex D)
  | _, idx, [] => some idx
  | n, idx, x :: kvs => do insertNumbers flips (n + 1) (← insertNumber (flips n) idx x.1 x.2) kvs

omit [Descent CInt] in
theorem cmpInt_eq_zero (a b : CInt) : cmpInt a b = 0 ↔ a = b := libhlCmpKeysInt_int a b

def Fits (a b : CInt) : Prop := -2^31 ≤ a.toInt - b.toInt ∧ a.toInt - b.toInt < 2^31

instance (a b : CInt) : Decidable (Fits a b) := inferInstanceAs (Decidable (_ ∧ _))

omit [Descent CInt] in
theorem cmpInt_eq {a b : CInt} (h : Fits a b) : cmpInt a b = a.toInt - b.toInt := by
  have hdiff : (a - b).toInt = a.toInt - b.toInt := by
    rw [BitVec.toInt_sub]
    apply Int.bmod_eq_of_le
    · simpa using h.1
    · simpa using h.2
  simpa [cmpInt, libhlCmpKeysInt, libhlCmpKeysType, NumKey.size, NumKey.asInt] using hdiff

def contents (kvs : List (CInt × D)) : List (CInt × D) :=
  kvs.foldl (fun m x => AssocMap.insert m x.1 x.2) []

def dataInRange (kvs : List (CInt × D)) (beginKey endKey : CInt) : List D :=
  ((contents kvs).filter fun e => beginKey.toInt ≤ e.1.toInt ∧ e.1.toInt < endKey.toInt).map Prod.snd

theorem insertNumbers_rbtree (flips : Nat → Nat → Bool) (n : Nat) (nodes kvs : List (CInt × D)) :
    insertNumbers flips n (.rbtree nodes) kvs =
      some (.rbtree (kvs.foldl (fun m x => add cmpInt m x.1 x.2) nodes)) := by
  induction kvs generalizing n nodes with
  | nil => rfl
  | cons x kvs ih => exact ih (n + 1) (add cmpInt nodes x.1 x.2)

omit [Descent CInt] in
/-- Ints that lie close together are ordered. -/
theorem orderedOn_cmpInt {S : CInt → Prop} (hfit : ∀ a b, S a → S b → Fits a b) : OrderedOn cmpInt S where
  pos_iff := by
    intro a b ha hb
    rw [cmpInt_eq (hfit a b ha hb), cmpInt_eq (hfit b a hb ha)]
    omega
  trans := by
    intro a b c ha hb hc
    rw [cmpInt_eq (hfit a b ha hb), cmpInt_eq (hfit b c hb hc), cmpInt_eq (hfit a c ha hc)]
    omega

theorem finds_cmpInt {kvs : List (CInt × D)} (hfit : ∀ x ∈ kvs, ∀ y ∈ kvs, Fits x.1 y.1) :
    Finds cmpInt fun k => ∃ x ∈ kvs, x.1 = k := by
  apply finds_of_ordered
  apply orderedOn_cmpInt
  rintro _ _ ⟨x, hx, rfl⟩ ⟨y, hy, rfl⟩
  exact hfit x hx y hy

theorem insertNumbers_sbst (flips : Nat → Nat → Bool) {kvs : List (CInt × D)}
    (hfit : ∀ x ∈ kvs, ∀ y ∈ kvs, Fits x.1 y.1) :
    insertNumbers flips 0 (createNumberIndex .sbst) kvs = some (.rbtree (contents kvs)) := by
  have hadds := foldl_add_eq_insert (finds_cmpInt hfit) cmpInt_eq_zero (m := []) (by simp) List.nodup_nil
    fun x hx => ⟨x, hx, rfl⟩
  rw [createNumberIndex, insertNumbers_rbtree, hadds, contents]

theorem insertNumbers_skiplist (flips : Nat → Nat → Bool) (n : Nat) (skl : Skiplist CInt D)
    (kvs : List (CInt × D)) : insertNumbers flips n (.skiplist skl) kvs =
      (skl.insertAll cmpInt flips n kvs).map .skiplist := by
  induction kvs generalizing n skl with
  | nil => rfl
  | cons x kvs ih =>
    simp only [insertNumbers, insertNumber, Skiplist.insertAll]
    cases hins : skl.skiplistInsert cmpInt (flips n) x.1 x.2 with
    | none => rfl
    | some skl' => simpa using ih (n + 1) skl'

omit [Descent CInt] in
theorem nodup_contents (kvs : List (CInt × D)) : ((contents kvs).map Prod.fst).Nodup :=
  AssocMap.nodup_foldl_insert (m := []) List.nodup_nil kvs

theorem rbtRangeWalk_perm {kvs : List (CInt × D)} {beginKey endKey : CInt}
    (hlt : beginKey.toInt < endKey.toInt) (hrange : Fits beginKey endKey)
    (hb : ∀ e ∈ contents kvs, Fits e.1 beginKey) (he : ∀ e ∈ contents kvs, Fits e.1 endKey) :
    (rbtRangeWalk (contents kvs) beginKey endKey).Perm (dataInRange kvs beginKey endKey) := by
  have hneg : ¬ cmpInt beginKey endKey ≥ 0 := by
    rw [cmpInt_eq hrange]
    omega
  rw [rbtRangeWalk, if_neg hneg]
  have hwalk : (walk cmpInt (contents kvs)).Perm (contents kvs) := walk_perm _
  have hperm := hwalk.filter fun node =>
    cmpInt node.1 beginKey = 0 ∨ cmpInt node.1 beginKey > 0 ∧ cmpInt node.1 endKey < 0
  refine (hperm.map Prod.snd).trans ?_
  have hfilter : ∀ e ∈ contents kvs,
      decide (cmpInt e.1 beginKey = 0 ∨ cmpInt e.1 beginKey > 0 ∧ cmpInt e.1 endKey < 0) =
        decide (beginKey.toInt ≤ e.1.toInt ∧ e.1.toInt < endKey.toInt) := by
    intro e hmem
    rw [cmpInt_eq (hb e hmem), cmpInt_eq (he e hmem)]
    exact decide_eq_decide.mpr (by omega)
  rw [List.filter_congr hfilter, dataInRange]

/-- After the same insertions, whatever the coins show, the skip list and the tree deliver
the same data for every key, and for every range the data of the keys in it. The bounds of
a range are compared to the keys and to each other like keys. -/
def Agree (kvs : List (CInt × D)) : Prop :=
  ∀ flips : Nat → Nat → Bool, ∃ skl rbt,
    insertNumbers flips 0 (createNumberIndex .skiplist) kvs = some skl ∧
    insertNumbers flips 0 (createNumberIndex .sbst) kvs = some rbt ∧
    (∀ key, ∃ found found', searchNumber skl key = some found ∧ searchNumber rbt key = some found' ∧
      found.2 = found'.2) ∧
    ∀ beginKey endKey : CInt, beginKey.toInt < endKey.toInt → Fits beginKey endKey →
      (∀ x ∈ kvs, Fits x.1 beginKey ∧ Fits x.1 endKey) →
      ∃ data data', searchNumericRange skl beginKey endKey = some data ∧
        searchNumericRange rbt beginKey endKey = some data' ∧ data.Perm data' ∧
        data.Perm (dataInRange kvs beginKey endKey)

omit [Descent CInt] in
theorem exists_key_of_mem_contents {kvs : List (CInt × D)} {e : CInt × D} (he : e ∈ contents kvs) :
    ∃ x ∈ kvs, x.1 = e.1 := by
  have hkey := List.mem_map_of_mem (f := Prod.fst) he
  rw [contents, AssocMap.mem_keys_foldl_insert] at hkey
  simpa using hkey

theorem searchNumber_contents {kvs : List (CInt × D)} (hfit : ∀ x ∈ kvs, ∀ y ∈ kvs, Fits x.1 y.1)
    (key : CInt) : ∃ rst, searchNumber (.rbtree (contents kvs)) key =
      some (rst, AssocMap.search (contents kvs) key) := by
  simp only [searchNumber, lookup_eq_search (finds_cmpInt hfit) cmpInt_eq_zero
    (fun _ => exists_key_of_mem_contents) (nodup_contents kvs)]
  cases AssocMap.search (contents kvs) key with
  | none => exact ⟨-1, rfl⟩
  | some data => exact ⟨0, rfl⟩

theorem agree_of_first_least {kvs : List (CInt × D)} (hfit : ∀ x ∈ kvs, ∀ y ∈ kvs, Fits x.1 y.1)
    (hmin : ∀ x ∈ kvs.head?, ∀ y ∈ kvs, x.1.toInt ≤ y.1.toInt) : Agree kvs := by
  intro flips
  obtain ⟨skl, ids, hall, hwf, hsorted, hitems⟩ := Skiplist.Sorted.insertAll_create
    (fun a b => BitVec.eq_of_toInt_eq) (S := { k | ∃ x ∈ kvs, x.1 = k }) (by
      rintro a ⟨x, hx, rfl⟩ b ⟨y, hy, rfl⟩
      exact cmpInt_eq (hfit x hx y hy)) flips (by decide : 1 ≤ 5) (fun x hx => ⟨x, hx, rfl⟩) hmin
  have hitems' : skl.items = contents kvs := hitems
  have hcompares : ∀ key : CInt, (∀ x ∈ kvs, Fits x.1 key) →
      Skiplist.Compares BitVec.toInt cmpInt skl.items key := by
    intro key hkey item hi
    rw [hitems'] at hi
    obtain ⟨x, hx, hxe⟩ := exists_key_of_mem_contents hi
    rw [← hxe]
    exact cmpInt_eq (hkey x hx)
  refine ⟨.skiplist skl, .rbtree (contents kvs), ?_, insertNumbers_sbst flips hfit, ?_, ?_⟩
  · rw [createNumberIndex, insertNumbers_skiplist, hall]
    rfl
  · intro key
    obtain ⟨rst, hrbt⟩ := searchNumber_contents hfit key
    refine ⟨(0, AssocMap.search (contents kvs) key), _, ?_, hrbt, rfl⟩
    have hpresent : key ∈ skl.items.map Prod.fst →
        Skiplist.Compares BitVec.toInt cmpInt skl.items key := by
      intro hkey
      obtain ⟨e, he, rfl⟩ := List.mem_map.mp hkey
      rw [hitems'] at he
      obtain ⟨y, hy, hye⟩ := exists_key_of_mem_contents he
      rw [← hye]
      exact hcompares y.1 fun x hx => hfit x hx y hy
    have hsearch := hsorted.skiplistSearch hwf hpresent fun item _ hz => (cmpInt_eq_zero _ _).mp hz
    simp only [searchNumber, hsearch, hitems', Option.map_some]
  · intro beginKey endKey hlt hrange hbounds
    have hneg : cmpInt beginKey endKey < 0 := by
      rw [cmpInt_eq hrange]
      omega
    obtain ⟨data, hdata, hperm⟩ := hsorted.skiplistRangeSearch hwf hneg
      (hcompares beginKey fun x hx => (hbounds x hx).1) (hcompares endKey fun x hx => (hbounds x hx).2)
    rw [hitems'] at hperm
    have hfits : ∀ e ∈ contents kvs, Fits e.1 beginKey ∧ Fits e.1 endKey := by
      intro e he
      obtain ⟨x, hx, hxe⟩ := exists_key_of_mem_contents he
      rw [← hxe]
      exact hbounds x hx
    have hwalk := rbtRangeWalk_perm hlt hrange (fun e he => (hfits e he).1) fun e he => (hfits e he).2
    exact ⟨data, _, hdata, rfl, hperm.trans hwalk.symm, hperm⟩

theorem first_least_of_agree {kvs : List (CInt × D)} (hfit : ∀ x ∈ kvs, ∀ y ∈ kvs, Fits x.1 y.1)
    (h : Agree kvs) : ∀ x ∈ kvs.head?, ∀ y ∈ kvs, x.1.toInt ≤ y.1.toInt := by
  intro x hx y hy
  by_contra hlt
  -- when no coin comes up, the smaller key stays behind the first one
  obtain ⟨rest, rfl⟩ : ∃ rest, kvs = x :: rest := ⟨_, List.eq_cons_of_mem_head? hx⟩
  obtain ⟨skl₁, hins, hflat⟩ := Skiplist.flat_insert_create cmpInt 5 (by decide) x.1 x.2
  obtain ⟨skl₂, hall, hflat'⟩ := hflat.insertAll cmpInt 1 rest
  obtain ⟨skl, rbt, hskl, hrbt, hsearch, -⟩ := h fun _ _ => false
  obtain ⟨found, found', hfound, hfound', heq⟩ := hsearch y.1
  have hlist : skl = .skiplist skl₂ := by
    rw [createNumberIndex, insertNumbers_skiplist] at hskl
    simp only [Skiplist.insertAll, hins, Option.bind_eq_bind, Option.bind_some, Nat.zero_add, hall,
      Option.map_some, Option.some.injEq] at hskl
    exact hskl.symm
  have hmiss : found = (0, none) := by
    have hcmp : 0 < cmpInt x.1 y.1 := by
      rw [cmpInt_eq (hfit x (by simp) y hy)]
      omega
    rw [hlist] at hfound
    simp only [searchNumber, hflat'.skiplistSearch hcmp, Option.map_some, Option.some.injEq] at hfound
    exact hfound.symm
  have hhit : found'.2 ≠ none := by
    obtain ⟨rst, hrst⟩ := searchNumber_contents hfit y.1
    rw [insertNumbers_sbst _ hfit, Option.some.injEq] at hrbt
    rw [← hrbt, hrst, Option.some.injEq] at hfound'
    rw [← hfound', ne_eq, AssocMap.search_eq_none, not_not, contents, AssocMap.mem_keys_foldl_insert]
    exact Or.inl (List.mem_map_of_mem hy)
  exact hhit (by rw [← heq, hmiss])

/-- For keys whose differences do not overflow, the two structures agree exactly when no
key is less than the one that was inserted first. -/
theorem number_indexes_agree_iff {kvs : List (CInt × D)}
    (hfit : ∀ x ∈ kvs, ∀ y ∈ kvs, Fits x.1 y.1) :
    Agree kvs ↔ ∀ x ∈ kvs.head?, ∀ y ∈ kvs, x.1.toInt ≤ y.1.toInt :=
  ⟨first_least_of_agree hfit, agree_of_first_least hfit⟩

end Operations

/-- After inserting 5 and then 3, the tree finds 3 and the skip list does not. -/
theorem number_indexes_differ :
    ¬ @Agree Nat .oldest [(5, 50), (3, 30)] := by
  intro h
  have hmin := @first_least_of_agree Nat .oldest [(5, 50), (3, 30)] (by decide) h
  exact absurd (hmin (5, 50) rfl (3, 30) (by simp)) (by decide)

theorem number_indexes_agree_iff_three :
    @Agree Nat .oldest [(3, 30), (5, 50), (4, 40)] :=
  (@number_indexes_agree_iff Nat .oldest [(3, 30), (5, 50), (4, 40)] (by decide)).mpr (by decide)

end Miqs.NumberSpi
