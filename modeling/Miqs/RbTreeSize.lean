import Mathlib.Data.List.Dedup
import Miqs.RbTreeWalk

/-! The size counter of the red-black tree against its nodes. A node that is added below a
black one is not counted, and nothing makes up for it later. -/
namespace Miqs.RbTree
open Miqs.SearchTree
variable {K V σ : Type}

def rbtAdds (cmp : K → K → Int) (fuel : Nat) (rbt : Rbt K V) (kvs : List (K × V)) :
    Option (Rbt K V) :=
  kvs.foldlM (fun rbt kv => (rbtAdd cmp fuel rbt kv.1 kv.2).map Prod.snd) rbt

def rbtSize (rbt : Rbt K V) : Nat := rbt.size

def nodeCount (rbt : Rbt K V) : Nat := rbt.root.inorder.length

def countCb (_ : K) (_ : V) (visited : Nat) : WalkReturnCode × Nat := (.walkContinue, visited + 1)

theorem calls_countCb (xs : List (RbtNode K V)) (visited : Nat) :
    calls countCb xs visited = visited + xs.length := by
  induction xs generalizing visited with
  | nil => rfl
  | cons x xs ih =>
    have hcons : calls countCb (x :: xs) visited = calls countCb xs (visited + 1) := rfl
    rw [hcons, ih, List.length_cons]
    omega

/-- A walk visits each node once and returns their number. -/
theorem rbtWalk_countCb (rbt : Rbt K V) :
    rbtWalk rbt countCb 0 = ((nodeCount rbt : Int), nodeCount rbt) := by
  have hlen : (visitOrder false rbt.root).length = nodeCount rbt :=
    rbt.root.preorder_perm_inorder.length_eq
  rw [rbtWalk, rbtWalkInternal_eq (fun _ _ _ => rfl), calls_countCb, hlen, Nat.zero_add]
  rfl

theorem root_eq_nil {rbt : Rbt K V} (h : nodeCount rbt = 0) : rbt.root = .nil := by
  rw [nodeCount] at h
  cases hroot : rbt.root with
  | nil => rfl
  | node l x r => simp [hroot, BinTree.inorder] at h

theorem root_eq_single {rbt : Rbt K V} (h : nodeCount rbt = 1) :
    ∃ x, rbt.root = .node .nil x .nil := by
  rw [nodeCount] at h
  cases hroot : rbt.root with
  | nil => simp [hroot, BinTree.inorder] at h
  | node l x r =>
    rw [hroot, BinTree.inorder, List.length_append, List.length_cons] at h
    have hl : l = .nil := by
      cases l with
      | nil => rfl
      | node l₁ y l₂ =>
        simp only [BinTree.inorder, List.length_append, List.length_cons] at h
        omega
    have hr : r = .nil := by
      cases r with
      | nil => rfl
      | node r₁ y r₂ =>
        simp only [BinTree.inorder, List.length_append, List.length_cons] at h
        omega
    exact ⟨x, by rw [hl, hr]⟩

def SingleBlack (rbt : Rbt K V) : Prop := ∀ x, rbt.root = .node .nil x .nil → x.color = .black

section Order
variable {cmp : K → K → Int} {S : K → Prop}

/-- How far the counter has fallen behind: not at all up to one node, and at least by one from
the second node on. -/
structure SizeOk (cmp : K → K → Int) (S : K → Prop) (rbt : Rbt K V) : Prop where
  ordered : Ordered cmp S rbt.root
  single : SingleBlack rbt
  small : nodeCount rbt ≤ 1 → rbt.size = nodeCount rbt
  behind : 2 ≤ nodeCount rbt → rbt.size < nodeCount rbt

theorem sizeOk_create : SizeOk cmp S (rbtCreate : Rbt K V) where
  ordered := ordered_nil
  single x h := by cases h
  small _ := rfl
  behind h := absurd h (by simp [nodeCount, rbtCreate, BinTree.inorder])

theorem rbtAdd_empty {fuel : Nat} {rbt : Rbt K V} {k : K} {v : V} (hroot : rbt.root = .nil) :
    rbtAdd cmp (fuel + 1) rbt k v = some (0, ⟨.node .nil ⟨.black, k, v⟩ .nil, rbt.size + 1⟩) := by
  rw [rbtAdd, hroot]

/-- On a tree of one black node a call replaces the node in its colour or puts a second one below
it, and counts nothing. -/
theorem rbtAdd_single {fuel : Nat} {rbt rbt' : Rbt K V} {x : RbtNode K V} {k : K} {v : V} {rc : Int}
    (hroot : rbt.root = .node .nil x .nil) (hx : x.color = .black)
    (h : rbtAdd cmp (fuel + 1) rbt k v = some (rc, rbt')) :
    SingleBlack rbt' ∧ rbt'.size = rbt.size := by
  rw [rbtAdd, hroot] at h
  simp only [rbtAddInternal] at h
  by_cases hzero : cmp x.key k = 0
  · simp only [if_pos hzero, isRed, hx] at h
    obtain ⟨-, rfl⟩ := Prod.mk.inj (Option.some.inj h)
    refine ⟨?_, rfl⟩
    intro y hy
    cases hy
    rfl
  by_cases hpos : 0 < cmp x.key k
  · simp only [if_neg hzero, if_pos hpos, isRed, hx] at h
    obtain ⟨-, rfl⟩ := Prod.mk.inj (Option.some.inj h)
    refine ⟨?_, rfl⟩
    intro y hy
    cases hy
  · simp only [if_neg hzero, if_neg hpos, isRed, hx] at h
    obtain ⟨-, rfl⟩ := Prod.mk.inj (Option.some.inj h)
    refine ⟨?_, rfl⟩
    intro y hy
    cases hy

/-- What one call does to the nodes: a node for the key, if there was none. -/
theorem rbtAdd_nodes (hc : StrictOn cmp S) {fuel : Nat} {rbt : Rbt K V} {k : K} (hk : S k) (v : V)
    (h : Ordered cmp S rbt.root) (hfuel : nodeCount rbt < fuel) :
    ∃ rc rbt', rbtAdd cmp fuel rbt k v = some (rc, rbt') ∧ Ordered cmp S rbt'.root ∧
      (∀ k', k' ∈ keys rbt'.root ↔ k' = k ∨ k' ∈ keys rbt.root) ∧
      (nodeCount rbt' = nodeCount rbt ∧ rbt'.size = rbt.size ∨
        nodeCount rbt' = nodeCount rbt + 1 ∧ rbt'.size ≤ rbt.size + 1) := by
  obtain ⟨xs, ys, hplaced, hxs, hys⟩ := rbtAddInternal_placed hc h hk v
  have hlen := (rbtAddInternal_path_length cmp ⟨.red, k, v⟩ rbt.root).trans_lt hfuel
  obtain ⟨rbt', hadd, hentries, hsize⟩ := rbtAdd_entries hc fuel rbt hk v h rfl hlen
  have hkeys : keys rbt'.root = xs.map RbtNode.key ++ k :: ys.map RbtNode.key := by
    rw [keys_eq_entries, hentries, hplaced.entries_eq, List.map_append, List.map_cons, List.map_map,
      List.map_map]
    rfl
  have hcount : nodeCount rbt' = xs.length + (ys.length + 1) := by
    have hlength := congrArg List.length hkeys
    simpa [keys, nodeCount] using hlength
  refine ⟨_, rbt', hadd, (hplaced.ordered hc h hk hxs hys).of_entries hentries, ?_, ?_⟩
  · intro k'
    rw [hkeys, keys]
    rcases hplaced.was with ⟨-, hin⟩ | ⟨-, x, rfl, hin⟩
    · rw [hin]
      simp only [List.map_append, List.mem_append, List.mem_cons]
      tauto
    · rw [hin]
      simp only [List.map_append, List.map_cons, List.mem_append, List.mem_cons]
      tauto
  · rcases hplaced.was with ⟨-, hin⟩ | ⟨hrc, x, -, hin⟩
    · right
      have hle : counted (rbtAddInternal cmp ⟨.red, k, v⟩ rbt.root []) ≤ 1 := by
        rw [counted]
        split_ifs <;> omega
      refine ⟨?_, by omega⟩
      rw [hcount, nodeCount, hin, List.length_append]
      omega
    · left
      refine ⟨?_, by rw [hsize, counted, hrc]; rfl⟩
      rw [hcount, nodeCount, hin, List.length_append, List.length_cons]

theorem SizeOk.rbtAdd (hc : StrictOn cmp S) {fuel : Nat} {rbt : Rbt K V} (h : SizeOk cmp S rbt)
    {k : K} (hk : S k) (v : V) (hfuel : nodeCount rbt < fuel) :
    ∃ rc rbt', rbtAdd cmp fuel rbt k v = some (rc, rbt') ∧ SizeOk cmp S rbt' ∧
      (∀ k', k' ∈ keys rbt'.root ↔ k' = k ∨ k' ∈ keys rbt.root) ∧
      nodeCount rbt' ≤ nodeCount rbt + 1 := by
  obtain ⟨rc, rbt', hadd, hord, hkeys, hnodes⟩ := rbtAdd_nodes hc hk v h.ordered hfuel
  refine ⟨rc, rbt', hadd, ?_, hkeys, by omega⟩
  obtain ⟨fuel, rfl⟩ : ∃ n, fuel = n + 1 := ⟨fuel - 1, by omega⟩
  have hsmall := h.small
  have hbehind := h.behind
  rcases Nat.lt_or_ge (nodeCount rbt) 2 with hlt | hge
  · rcases Nat.lt_or_ge (nodeCount rbt) 1 with hzero | hone
    · -- the first node is the black root
      have hroot : rbt.root = .nil := root_eq_nil (by omega)
      rw [rbtAdd_empty hroot] at hadd
      obtain ⟨-, rfl⟩ := Prod.mk.inj (Option.some.inj hadd)
      have hempty : rbt.size = 0 := by omega
      refine ⟨hord, ?_, ?_, ?_⟩
      · intro x hx
        cases hx
        rfl
      · intro _
        simp [hempty, nodeCount, BinTree.inorder]
      · intro htwo
        simp [nodeCount, BinTree.inorder] at htwo
    · have hnode : nodeCount rbt = 1 := by omega
      obtain ⟨x, hroot⟩ := root_eq_single hnode
      obtain ⟨hblack, hsize⟩ := rbtAdd_single hroot (h.single x hroot) hadd
      exact ⟨hord, hblack, by omega, by omega⟩
  · refine ⟨hord, ?_, by omega, by omega⟩
    intro x hx
    have hone : nodeCount rbt' = 1 := by rw [nodeCount, hx]; rfl
    omega

theorem SizeOk.rbtAdds (hc : StrictOn cmp S) {fuel : Nat} {rbt : Rbt K V} (h : SizeOk cmp S rbt)
    {kvs : List (K × V)} (hkvs : ∀ kv ∈ kvs, S kv.1) (hfuel : nodeCount rbt + kvs.length ≤ fuel) :
    ∃ rbt', rbtAdds cmp fuel rbt kvs = some rbt' ∧ SizeOk cmp S rbt' ∧
      ∀ k, k ∈ keys rbt'.root ↔ k ∈ kvs.map Prod.fst ∨ k ∈ keys rbt.root := by
  induction kvs generalizing rbt with
  | nil => exact ⟨rbt, rfl, h, fun k => by simp⟩
  | cons kv kvs ih =>
    rw [List.length_cons] at hfuel
    have hroom : nodeCount rbt < fuel := by omega
    obtain ⟨rc, rbt₁, hadd, h₁, hkeys₁, hcount⟩ :=
      h.rbtAdd hc (hkvs kv List.mem_cons_self) kv.2 hroom
    obtain ⟨rbt₂, hadds, h₂, hkeys₂⟩ :=
      ih h₁ (fun kv' hkv' => hkvs kv' (List.mem_cons_of_mem kv hkv')) (by omega)
    refine ⟨rbt₂, ?_, h₂, ?_⟩
    · rw [RbTree.rbtAdds, List.foldlM_cons, hadd]
      exact hadds
    · intro k
      rw [hkeys₂, hkeys₁, List.map_cons, List.mem_cons]
      tauto

end Order

def distinctKeys [DecidableEq K] (kvs : List (K × V)) : List K := (kvs.map Prod.fst).dedup

theorem nodeCount_eq_distinct [DecidableEq K] {cmp : K → K → Int} {S : K → Prop}
    (hc : StrictOn cmp S) {rbt : Rbt K V} (h : Ordered cmp S rbt.root) {kvs : List (K × V)}
    (hkeys : ∀ k, k ∈ keys rbt.root ↔ k ∈ kvs.map Prod.fst) :
    nodeCount rbt = (distinctKeys kvs).length := by
  have hperm : (keys rbt.root).Perm (distinctKeys kvs) := by
    rw [distinctKeys, List.perm_ext_iff_of_nodup (h.nodup hc) (List.nodup_dedup _)]
    intro k
    rw [hkeys, List.mem_dedup]
  rw [← hperm.length_eq, keys, List.length_map]
  rfl

/-- After any calls a walk visits one node for each distinct key. The counter tells their number
exactly as long as there is at most one: the second node is put below the black root. -/
theorem rbt_size_iff [DecidableEq K] {cmp : K → K → Int} (hc : StrictOn cmp fun _ => True)
    (kvs : List (K × V)) {fuel : Nat} (hfuel : kvs.length ≤ fuel) :
    ∃ rbt, rbtAdds cmp fuel rbtCreate kvs = some rbt ∧
      rbtWalk rbt countCb 0 = (((distinctKeys kvs).length : Int), (distinctKeys kvs).length) ∧
      (rbtSize rbt = (distinctKeys kvs).length ↔ (distinctKeys kvs).length ≤ 1) := by
  have hstart : nodeCount (rbtCreate : Rbt K V) + kvs.length ≤ fuel := by
    rw [show nodeCount (rbtCreate : Rbt K V) = 0 from rfl]
    omega
  obtain ⟨rbt, hadds, hok, hkeys⟩ := sizeOk_create.rbtAdds hc (fun _ _ => trivial) hstart
  have hcount : nodeCount rbt = (distinctKeys kvs).length := by
    refine nodeCount_eq_distinct hc hok.ordered ?_
    intro k
    rw [hkeys]
    simp [rbtCreate, keys, BinTree.inorder]
  refine ⟨rbt, hadds, ?_, ?_⟩
  · rw [rbtWalk_countCb, hcount]
  · rw [← hcount, rbtSize]
    have hsmall := hok.small
    have hbehind := hok.behind
    constructor <;> omega

/-- One key added twice. -/
theorem rbt_size_iff_update :
    ∃ rbt, rbtAdds (fun a b : Int => a - b) 2 rbtCreate [(7, 10), (7, 20)] = some rbt ∧
      rbtSize rbt = 1 := by
  obtain ⟨rbt, hadds, -, hsize⟩ := rbt_size_iff strictOn_sub [((7 : Int), (10 : Nat)), (7, 20)]
    (show 2 ≤ 2 from le_rfl)
  exact ⟨rbt, hadds, hsize.mpr (by decide)⟩

/-- Of two keys only the first is counted, though a walk visits both. -/
theorem rbt_size_two_keys :
    ∃ rbt, rbtAdds (fun a b : Int => a - b) 2 rbtCreate [((1 : Int), (10 : Nat)), (2, 20)] =
        some rbt ∧
      (distinctKeys [((1 : Int), (10 : Nat)), (2, 20)]).length = 2 ∧
      rbtWalk rbt countCb 0 = (2, 2) ∧ rbtSize rbt = 1 := by
  refine ⟨⟨.node .nil ⟨.black, 1, 10⟩ (.node .nil ⟨.red, 2, 20⟩ .nil), 1⟩, ?_, ?_, ?_, ?_⟩
  · rfl
  · decide
  · rfl
  · rfl

end Miqs.RbTree
