import Miqs.RbTree

/-! The walks over the red-black tree, over all its keys and over a range of them. -/
namespace Miqs.RbTree
open Miqs.SearchTree
variable {K V σ : Type}

inductive WalkReturnCode where
  | walkStop
  | walkContinue
  deriving DecidableEq

def walkChild (walk : σ → Int × σ) : BinTree (RbtNode K V) → Int × σ → Except (Int × σ) (Int × σ)
  | .nil, (rc, s) => .ok (rc, s)
  | .node _ _ _, (rc, s) =>
    let (rrc, s) := walk s
    if rrc = 0 then .error (rc + 1, s) else .ok (rc + rrc, s)

def returned : Except (Int × σ) (Int × σ) → Int × σ
  | .ok out => out
  | .error out => out

def rbtWalkInternal (sorted : Bool) (cb : K → V → σ → WalkReturnCode × σ) :
    BinTree (RbtNode K V) → σ → Int × σ
  | .nil, s => (0, s)
  | .node l x r, s => returned <| do
    let (rc, s) ← if sorted then walkChild (rbtWalkInternal sorted cb l) l (1, s) else pure (1, s)
    let (cbrc, s) := cb x.key x.value s
    if cbrc = .walkStop then throw (0, s)
    let (rc, s) ← if sorted then pure (rc, s) else walkChild (rbtWalkInternal sorted cb l) l (rc, s)
    walkChild (rbtWalkInternal sorted cb r) r (rc, s)

def rbtWalk (rbt : Rbt K V) (cb : K → V → σ → WalkReturnCode × σ) (s : σ) : Int × σ :=
  rbtWalkInternal false cb rbt.root s

/-- The flags `go_for_left` and `go_for_right` are 1 from the start and never cleared. -/
def rbtRangeWalkInternal (cmp : K → K → Int) (beginKey endKey : K) (sorted : Bool)
    (cb : K → V → σ → WalkReturnCode × σ) : BinTree (RbtNode K V) → σ → Int × σ
  | .nil, s => (0, s)
  | .node l x r, s =>
    if 0 ≤ cmp beginKey endKey then (0, s)
    else returned <| do
      let (rc, s) ← if sorted then
          walkChild (rbtRangeWalkInternal cmp beginKey endKey sorted cb l) l (1, s)
        else pure (1, s)
      let (cbrc, s) :=
        if cmp x.key beginKey = 0 then cb x.key x.value s
        else if 0 < cmp x.key beginKey then
          if cmp x.key endKey < 0 then cb x.key x.value s else (.walkContinue, s)
        else (.walkContinue, s)
      if cbrc = .walkStop then throw (0, s)
      let (rc, s) ← if sorted then pure (rc, s)
        else walkChild (rbtRangeWalkInternal cmp beginKey endKey sorted cb l) l (rc, s)
      walkChild (rbtRangeWalkInternal cmp beginKey endKey sorted cb r) r (rc, s)

def rbtRangeWalk (cmp : K → K → Int) (rbt : Rbt K V) (beginKey endKey : K)
    (cb : K → V → σ → WalkReturnCode × σ) (s : σ) : Int × σ :=
  rbtRangeWalkInternal cmp beginKey endKey false cb rbt.root s

def rbtRangeWalkSorted (cmp : K → K → Int) (rbt : Rbt K V) (beginKey endKey : K)
    (cb : K → V → σ → WalkReturnCode × σ) (s : σ) : Int × σ :=
  rbtRangeWalkInternal cmp beginKey endKey true cb rbt.root s

def rbtWalkCb (_ : K) (value : V) (rst : List V) : WalkReturnCode × List V :=
  (.walkContinue, rst ++ [value])

def searchNumericRangeFromRbtree (cmp : K → K → Int) (indexRoot : Option (Rbt K V))
    (beginKey endKey : K) : Option (List V) :=
  indexRoot.map fun rbtree => (rbtRangeWalk cmp rbtree beginKey endKey rbtWalkCb []).2

section Walk
variable {cmp : K → K → Int} {beginKey endKey : K} {cb : K → V → σ → WalkReturnCode × σ}

def collects (cmp : K → K → Int) (beginKey endKey : K) (x : RbtNode K V) : Bool :=
  cmp x.key beginKey = 0 ∨ 0 < cmp x.key beginKey ∧ cmp x.key endKey < 0

def calls (cb : K → V → σ → WalkReturnCode × σ) (xs : List (RbtNode K V)) (s : σ) : σ :=
  xs.foldl (fun s x => (cb x.key x.value s).2) s

theorem calls_append (xs ys : List (RbtNode K V)) (s : σ) :
    calls cb (xs ++ ys) s = calls cb ys (calls cb xs s) := List.foldl_append

def visitOrder (sorted : Bool) (t : BinTree (RbtNode K V)) : List (RbtNode K V) :=
  if sorted then t.inorder else t.preorder

/-- A child whose walk counts its nodes never ends the walk. -/
theorem walkChild_eq {walk : σ → Int × σ} {t : BinTree (RbtNode K V)} {f : σ → σ}
    (h : ∀ s, walk s = ((t.inorder.length : Int), f s)) (hnil : t = .nil → f = id) (rc : Int) (s : σ) :
    walkChild walk t (rc, s) = .ok (rc + t.inorder.length, f s) := by
  cases t with
  | nil => simp [walkChild, hnil rfl, BinTree.inorder]
  | node l x r =>
    have hne : ((BinTree.node l x r).inorder.length : Int) ≠ 0 := by
      simp only [BinTree.inorder, List.length_append, List.length_cons]
      omega
    simp only [walkChild, h, if_neg hne]

/-- A walk that is never stopped counts all nodes and makes one call for each. -/
theorem rbtWalkInternal_eq (hcb : ∀ k v s, (cb k v s).1 = .walkContinue) (sorted : Bool)
    (t : BinTree (RbtNode K V)) (s : σ) :
    rbtWalkInternal sorted cb t s =
      ((t.inorder.length : Int), calls cb (visitOrder sorted t) s) := by
  induction t generalizing s with
  | nil => cases sorted <;> rfl
  | node l x r ihl ihr =>
    have hl := walkChild_eq ihl (by rintro rfl; cases sorted <;> rfl)
    have hr := walkChild_eq ihr (by rintro rfl; cases sorted <;> rfl)
    have hcall : ∀ s, cb x.key x.value s = (.walkContinue, calls cb [x] s) :=
      fun s => Prod.ext (hcb _ _ _) rfl
    have hlen : ((BinTree.node l x r).inorder.length : Int) = 1 + l.inorder.length + r.inorder.length := by
      simp only [BinTree.inorder, List.length_append, List.length_cons]
      omega
    rw [rbtWalkInternal, hlen]
    simp only [hcall]
    cases sorted with
    | false =>
      have hvisit : visitOrder false (.node l x r) = [x] ++ (visitOrder false l ++ visitOrder false r) :=
        rfl
      rw [hvisit, calls_append, calls_append]
      change returned ((walkChild _ l (1, _)).bind fun p => walkChild _ r p) = _
      rw [hl]
      change returned (walkChild _ r _) = _
      rw [hr]
      rfl
    | true =>
      have hvisit : visitOrder true (.node l x r) = visitOrder true l ++ ([x] ++ visitOrder true r) :=
        rfl
      rw [hvisit, calls_append, calls_append]
      change returned ((walkChild _ l (1, _)).bind fun p => walkChild _ r (p.1, _)) = _
      rw [hl]
      change returned (walkChild _ r _) = _
      rw [hr]
      rfl

def rangeWalkCb (cmp : K → K → Int) (beginKey endKey : K) (cb : K → V → σ → WalkReturnCode × σ)
    (key : K) (value : V) (s : σ) : WalkReturnCode × σ :=
  if cmp key beginKey = 0 then cb key value s
  else if 0 < cmp key beginKey then
    if cmp key endKey < 0 then cb key value s else (.walkContinue, s)
  else (.walkContinue, s)

/-- A walk over a range that is not empty is a walk over all nodes. -/
theorem rbtRangeWalkInternal_eq_walk (hlt : cmp beginKey endKey < 0) (sorted : Bool)
    (t : BinTree (RbtNode K V)) :
    rbtRangeWalkInternal cmp beginKey endKey sorted cb t =
      rbtWalkInternal sorted (rangeWalkCb cmp beginKey endKey cb) t := by
  induction t with
  | nil => rfl
  | node l x r ihl ihr =>
    funext s
    rw [rbtRangeWalkInternal, if_neg (Int.not_le.mpr hlt), rbtWalkInternal, ihl, ihr]
    rfl

theorem rangeWalkCb_continue (hcb : ∀ k v s, (cb k v s).1 = .walkContinue) (k : K) (v : V) (s : σ) :
    (rangeWalkCb cmp beginKey endKey cb k v s).1 = .walkContinue := by
  rw [rangeWalkCb]
  split_ifs <;> first | exact hcb k v s | rfl

/-- Only the calls for the nodes of the range reach the callback. -/
theorem calls_rangeWalkCb (xs : List (RbtNode K V)) (s : σ) :
    calls (rangeWalkCb cmp beginKey endKey cb) xs s =
      calls cb (xs.filter (collects cmp beginKey endKey)) s := by
  rw [calls, calls, List.foldl_filter]
  congr 1
  funext s x
  simp only [rangeWalkCb, collects, decide_eq_true_eq]
  by_cases hb : cmp x.key beginKey = 0
  · simp [hb]
  by_cases hp : 0 < cmp x.key beginKey
  · by_cases he : cmp x.key endKey < 0 <;> simp [hb, hp, he]
  · simp [hb, hp]

/-- A walk over a range that is not empty counts all nodes and makes the calls for those in
the range. -/
theorem rbtRangeWalkInternal_eq (hcb : ∀ k v s, (cb k v s).1 = .walkContinue)
    (hlt : cmp beginKey endKey < 0) (sorted : Bool) (t : BinTree (RbtNode K V)) (s : σ) :
    rbtRangeWalkInternal cmp beginKey endKey sorted cb t s =
      ((t.inorder.length : Int),
        calls cb ((visitOrder sorted t).filter (collects cmp beginKey endKey)) s) := by
  rw [rbtRangeWalkInternal_eq_walk hlt, rbtWalkInternal_eq (rangeWalkCb_continue hcb),
    calls_rangeWalkCb]

theorem rbtRangeWalkInternal_empty (hge : 0 ≤ cmp beginKey endKey) (sorted : Bool)
    (t : BinTree (RbtNode K V)) (s : σ) :
    rbtRangeWalkInternal cmp beginKey endKey sorted cb t s = (0, s) := by
  cases t with
  | nil => rfl
  | node l x r => rw [rbtRangeWalkInternal, if_pos hge]

/-- For a strict total order the test is that the key is in the range. -/
theorem collects_iff (hc : StrictOn cmp fun _ => True) (hlt : cmp beginKey endKey < 0)
    (x : RbtNode K V) :
    collects cmp beginKey endKey x = decide (0 ≤ cmp x.key beginKey ∧ cmp x.key endKey < 0) := by
  rw [collects, decide_eq_decide]
  constructor
  · intro h
    rcases h with heq | ⟨hpos, hend⟩
    · have hkey := (hc.zero_iff trivial trivial).mp heq
      exact ⟨heq.ge, by rwa [hkey]⟩
    · exact ⟨hpos.le, hend⟩
  · intro h
    rcases h.1.eq_or_lt with heq | hpos
    · exact Or.inl heq.symm
    · exact Or.inr ⟨hpos, h.2⟩

theorem calls_rbtWalkCb (xs : List (RbtNode K V)) (rst : List V) :
    calls rbtWalkCb xs rst = rst ++ xs.map RbtNode.value := by
  induction xs generalizing rst with
  | nil => simp [calls]
  | cons x xs ih =>
    rw [calls, List.foldl_cons]
    change calls rbtWalkCb xs (rst ++ [x.value]) = _
    rw [ih, List.map_cons, List.append_assoc]
    rfl

end Walk

def nodesInRange (cmp : K → K → Int) (rbt : Rbt K V) (beginKey endKey : K) : List (RbtNode K V) :=
  rbt.root.inorder.filter fun x => 0 ≤ cmp x.key beginKey ∧ cmp x.key endKey < 0

/-- Both walks make one call for each node of the range, the sorted one in ascending order,
and return the number of all nodes; over an empty range they do nothing. The range search
collects the values of the range. -/
theorem range_walk_exact {cmp : K → K → Int} (hc : StrictOn cmp fun _ => True) (rbt : Rbt K V)
    (h : Ordered cmp (fun _ => True) rbt.root) (beginKey endKey : K)
    (cb : K → V → σ → WalkReturnCode × σ) (hcb : ∀ k v s, (cb k v s).1 = .walkContinue) (s : σ) :
    (cmp beginKey endKey < 0 →
      (∃ visited, visited.Perm (nodesInRange cmp rbt beginKey endKey) ∧
        rbtRangeWalk cmp rbt beginKey endKey cb s = ((rbt.root.inorder.length : Int), calls cb visited s)) ∧
      rbtRangeWalkSorted cmp rbt beginKey endKey cb s =
        ((rbt.root.inorder.length : Int), calls cb (nodesInRange cmp rbt beginKey endKey) s) ∧
      Increasing cmp ((nodesInRange cmp rbt beginKey endKey).map RbtNode.key) ∧
      ∃ vs, vs.Perm ((nodesInRange cmp rbt beginKey endKey).map RbtNode.value) ∧
        searchNumericRangeFromRbtree cmp (some rbt) beginKey endKey = some vs) ∧
    (0 ≤ cmp beginKey endKey →
      rbtRangeWalk cmp rbt beginKey endKey cb s = (0, s) ∧
      rbtRangeWalkSorted cmp rbt beginKey endKey cb s = (0, s) ∧
      searchNumericRangeFromRbtree cmp (some rbt) beginKey endKey = some []) := by
  constructor
  · intro hlt
    have hin : collects cmp beginKey endKey = fun x : RbtNode K V =>
        decide (0 ≤ cmp x.key beginKey ∧ cmp x.key endKey < 0) := funext (collects_iff hc hlt)
    have hperm : (rbt.root.preorder.filter (collects cmp beginKey endKey)).Perm
        (nodesInRange cmp rbt beginKey endKey) := by
      rw [hin]
      exact rbt.root.preorder_perm_inorder.filter _
    refine ⟨⟨_, hperm, rbtRangeWalkInternal_eq hcb hlt false rbt.root s⟩, ?_, ?_, ?_⟩
    · rw [rbtRangeWalkSorted, rbtRangeWalkInternal_eq hcb hlt true, hin]
      rfl
    · exact h.increasing.sublist (List.filter_sublist.map RbtNode.key)
    · refine ⟨_, hperm.map RbtNode.value, ?_⟩
      rw [searchNumericRangeFromRbtree, Option.map_some, rbtRangeWalk,
        rbtRangeWalkInternal_eq (fun _ _ _ => rfl) hlt, calls_rbtWalkCb]
      rfl
  · intro hge
    refine ⟨rbtRangeWalkInternal_empty hge _ _ _, rbtRangeWalkInternal_empty hge _ _ _, ?_⟩
    rw [searchNumericRangeFromRbtree, Option.map_some, rbtRangeWalk, rbtRangeWalkInternal_empty hge]

/-- Three keys, from 1 up to but excluding 3. -/
theorem range_walk_exact_three :
    let rbt : Rbt Int Nat := ⟨.node (.node .nil ⟨.red, 1, 10⟩ .nil) ⟨.black, 2, 20⟩
      (.node .nil ⟨.red, 3, 30⟩ .nil), 1⟩
    StrictOn (fun a b : Int => a - b) (fun _ => True) ∧
      Ordered (fun a b : Int => a - b) (fun _ => True) rbt.root ∧
      rbtRangeWalkSorted (fun a b : Int => a - b) rbt 1 3 rbtWalkCb [] = (3, [10, 20]) := by
  intro rbt
  have h : Ordered (fun a b : Int => a - b) (fun _ => True) rbt.root :=
    ⟨fun _ _ => trivial, by simp [rbt, keys, BinTree.inorder, Increasing]⟩
  exact ⟨strictOn_sub, h, ((range_walk_exact strictOn_sub rbt h 1 3 rbtWalkCb (fun _ _ _ => rfl) []).1 (by decide)).2.1⟩

end Miqs.RbTree
