import Miqs.SearchTree

/-! The red-black tree of the library: `rbt_add`, `rbt_find` and the walks over a range
of keys. The counters of comparisons and of memory are left out. -/
namespace Miqs.RbTree
open Miqs.SearchTree
variable {K V σ : Type}

inductive Color where
  | red
  | black
  deriving DecidableEq

structure RbtNode (K V : Type) where
  color : Color
  key : K
  value : V

structure Rbt (K V : Type) where
  root : BinTree (RbtNode K V)
  size : Nat

def rbtCreate : Rbt K V := ⟨.nil, 0⟩

def paint (c : Color) : BinTree (RbtNode K V) → BinTree (RbtNode K V)
  | .nil => .nil
  | .node l x r => .node l { x with color := c } r

def isRed : BinTree (RbtNode K V) → Bool
  | .nil => false
  | .node _ x _ => x.color = .red

/-- What is returned, and where the node is then. A node of an equal key is replaced by the
new one, in its colour. -/
def rbtAddInternal (cmp : K → K → Int) (new : RbtNode K V) :
    BinTree (RbtNode K V) → List (Frame (RbtNode K V)) →
    Int × List (Frame (RbtNode K V)) × BinTree (RbtNode K V)
  | .nil, path => (0, path, .node .nil new .nil)
  | .node l x r, path =>
    if cmp x.key new.key = 0 then (1, path, .node l { new with color := x.color } r)
    else if 0 < cmp x.key new.key then rbtAddInternal cmp new l (⟨.left, x, r⟩ :: path)
    else rbtAddInternal cmp new r (⟨.right, x, l⟩ :: path)

def rbtRotateRight : BinTree (RbtNode K V) → BinTree (RbtNode K V)
  | .node (.node l p r) x sibling => .node l p (.node r x sibling)
  | t => t

def rbtRotateLeft : BinTree (RbtNode K V) → BinTree (RbtNode K V)
  | .node sibling x (.node l p r) => .node (.node sibling x l) p r
  | t => t

/-- Cases 4 and 5 of `rbt_add`: the subtree of the grandparent afterwards. After case 4 the
node is on the same side of its parent as the parent of the grandparent. -/
def rotateCases (node : BinTree (RbtNode K V)) (parent grandparent : Frame (RbtNode K V)) :
    BinTree (RbtNode K V) :=
  let below :=
    if parent.side = .right ∧ grandparent.side = .left then rbtRotateLeft (parent.fill node)
    else if parent.side = .left ∧ grandparent.side = .right then rbtRotateRight (parent.fill node)
    else parent.fill node
  let top := paint .red (grandparent.fill (paint .black below))
  match grandparent.side with
  | .left => rbtRotateRight top
  | .right => rbtRotateLeft top

def paintCase (node : BinTree (RbtNode K V)) (parent grandparent : Frame (RbtNode K V)) :
    BinTree (RbtNode K V) :=
  paint .red ({ grandparent with sibling := paint .black grandparent.sibling }.fill
    (paint .black (parent.fill node)))

/-- `rbt_add`. It calls itself for the key of the grandparent, from the root; `fuel` bounds
these calls. -/
def rbtAdd (cmp : K → K → Int) : Nat → Rbt K V → K → V → Option (Int × Rbt K V)
  | 0, _, _, _ => none
  | fuel + 1, rbt, k, v =>
    match rbt.root with
    | .nil => some (0, ⟨.node .nil ⟨.black, k, v⟩ .nil, rbt.size + 1⟩)
    | root =>
      let (rc, path, node) := rbtAddInternal cmp ⟨.red, k, v⟩ root []
      let size := if rc = 0 then rbt.size + 1 else rbt.size
      if isRed node = false then some (1, ⟨plug path node, rbt.size⟩)
      else
        match path with
        | [] => some (rc, ⟨paint .black node, size⟩)
        | parent :: above =>
          if parent.label.color = .black then some (rc, ⟨plug path node, rbt.size⟩)
          else
            match above with
            | [] => some (rc, ⟨plug path node, size⟩)
            | grandparent :: up =>
              if isRed grandparent.sibling then do
                let painted := plug up (paintCase node parent grandparent)
                let (_, rbt') ← rbtAdd cmp fuel ⟨painted, rbt.size⟩ grandparent.label.key
                  grandparent.label.value
                some (rc, ⟨rbt'.root, if rc = 0 then rbt'.size + 1 else rbt'.size⟩)
              else some (rc, ⟨plug up (rotateCases node parent grandparent), size⟩)

def rbtFindInternal (cmp : K → K → Int) (k : K) : BinTree (RbtNode K V) → Option V
  | .nil => none
  | .node l x r =>
    if cmp x.key k = 0 then some x.value
    else if 0 < cmp x.key k then rbtFindInternal cmp k l
    else rbtFindInternal cmp k r

def rbtFind (cmp : K → K → Int) (rbt : Rbt K V) (k : K) : Option V :=
  rbtFindInternal cmp k rbt.root

def RbtNode.entry (x : RbtNode K V) : K × V := (x.key, x.value)

def entries (t : BinTree (RbtNode K V)) : List (K × V) := t.inorder.map RbtNode.entry

def keys (t : BinTree (RbtNode K V)) : List K := t.inorder.map RbtNode.key

theorem keys_eq_entries (t : BinTree (RbtNode K V)) : keys t = (entries t).map Prod.fst := by
  rw [keys, entries, List.map_map]
  rfl

theorem mem_keys_of_entry {t : BinTree (RbtNode K V)} {k : K} {v : V} (h : (k, v) ∈ entries t) :
    k ∈ keys t := by
  rw [keys_eq_entries]
  exact List.mem_map_of_mem h

@[simp] theorem entries_nil : entries (.nil : BinTree (RbtNode K V)) = [] := rfl

@[simp] theorem entries_node (l : BinTree (RbtNode K V)) (x : RbtNode K V) (r : BinTree (RbtNode K V)) :
    entries (.node l x r) = entries l ++ (x.key, x.value) :: entries r := by
  simp [entries, BinTree.inorder, RbtNode.entry]

@[simp] theorem entries_paint (c : Color) (t : BinTree (RbtNode K V)) :
    entries (paint c t) = entries t := by
  cases t <;> simp [paint]

theorem entries_fill (f : Frame (RbtNode K V)) (t : BinTree (RbtNode K V)) :
    entries (f.fill t) = match f.side with
      | .left => entries t ++ (f.label.key, f.label.value) :: entries f.sibling
      | .right => entries f.sibling ++ (f.label.key, f.label.value) :: entries t := by
  cases hside : f.side <;> simp [Frame.fill, hside]

theorem entries_fill_congr (f : Frame (RbtNode K V)) {t u : BinTree (RbtNode K V)}
    (h : entries t = entries u) : entries (f.fill t) = entries (f.fill u) := by
  rw [entries_fill, entries_fill, h]

theorem entries_plug_congr (path : List (Frame (RbtNode K V))) {t u : BinTree (RbtNode K V)}
    (h : entries t = entries u) : entries (plug path t) = entries (plug path u) := by
  induction path generalizing t u with
  | nil => exact h
  | cons f path ih => exact ih (entries_fill_congr f h)

@[simp] theorem entries_rotateRight (t : BinTree (RbtNode K V)) :
    entries (rbtRotateRight t) = entries t := by
  unfold rbtRotateRight
  split <;> simp

@[simp] theorem entries_rotateLeft (t : BinTree (RbtNode K V)) :
    entries (rbtRotateLeft t) = entries t := by
  unfold rbtRotateLeft
  split <;> simp

/-- Rotating does not move an entry. -/
theorem entries_rotateCases (node : BinTree (RbtNode K V)) (parent grandparent : Frame (RbtNode K V)) :
    entries (rotateCases node parent grandparent) = entries (grandparent.fill (parent.fill node)) := by
  have hbelow : ∀ below : BinTree (RbtNode K V), entries below = entries (parent.fill node) →
      entries (match grandparent.side with
        | .left => rbtRotateRight (paint .red (grandparent.fill (paint .black below)))
        | .right => rbtRotateLeft (paint .red (grandparent.fill (paint .black below)))) =
      entries (grandparent.fill (parent.fill node)) := by
    intro below h
    have hfill : entries (grandparent.fill (paint .black below)) =
        entries (grandparent.fill (parent.fill node)) :=
      entries_fill_congr _ (by rw [entries_paint, h])
    cases grandparent.side <;> simp [hfill]
  apply hbelow
  split_ifs <;> simp

theorem entries_paintCase (node : BinTree (RbtNode K V)) (parent grandparent : Frame (RbtNode K V)) :
    entries (paintCase node parent grandparent) = entries (grandparent.fill (parent.fill node)) := by
  rw [paintCase, entries_paint, entries_fill, entries_fill]
  simp

/-- The grandparent is the root of its subtree, red. -/
theorem paintCase_root (node : BinTree (RbtNode K V)) (parent grandparent : Frame (RbtNode K V)) :
    ∃ l r, paintCase node parent grandparent =
      .node l { grandparent.label with color := .red } r := by
  cases hside : grandparent.side <;> simp [paintCase, Frame.fill, hside, paint]

def toward (cmp : K → K → Int) (k : K) (x : RbtNode K V) : Int := cmp x.key k

def rootValue : BinTree (RbtNode K V) → Option V
  | .nil => none
  | .node _ x _ => some x.value

def place (new : RbtNode K V) : List (Frame (RbtNode K V)) × BinTree (RbtNode K V) →
    Int × List (Frame (RbtNode K V)) × BinTree (RbtNode K V)
  | (path, .nil) => (0, path, .node .nil new .nil)
  | (path, .node l x r) => (1, path, .node l { new with color := x.color } r)

theorem place_path (new : RbtNode K V) (d : List (Frame (RbtNode K V)) × BinTree (RbtNode K V)) :
    (place new d).2.1 = d.1 := by
  obtain ⟨path, sub⟩ := d
  cases sub <;> rfl

theorem rbtFindInternal_eq (cmp : K → K → Int) (k : K) (t : BinTree (RbtNode K V))
    (path : List (Frame (RbtNode K V))) :
    rbtFindInternal cmp k t = rootValue (descend (toward cmp k) t path).2 := by
  induction t generalizing path with
  | nil => rfl
  | node l x r ihl ihr =>
    rw [rbtFindInternal, descend]
    change _ = rootValue (Prod.snd (if cmp x.key k = 0 then _ else if 0 < cmp x.key k then _ else _))
    split_ifs
    · rfl
    · exact ihl _
    · exact ihr _

theorem rbtAddInternal_eq (cmp : K → K → Int) (new : RbtNode K V) (t : BinTree (RbtNode K V))
    (path : List (Frame (RbtNode K V))) :
    rbtAddInternal cmp new t path = place new (descend (toward cmp new.key) t path) := by
  induction t generalizing path with
  | nil => rfl
  | node l x r ihl ihr =>
    rw [rbtAddInternal, descend]
    change _ = place new (if cmp x.key new.key = 0 then _ else if 0 < cmp x.key new.key then _ else _)
    split_ifs
    · rfl
    · exact ihl _
    · exact ihr _

/-- What `rbt_find` finds is the value of a node that compares equal. -/
theorem exists_entry_of_find {cmp : K → K → Int} {k : K} {t : BinTree (RbtNode K V)} {v : V}
    (h : rbtFindInternal cmp k t = some v) : ∃ k', (k', v) ∈ entries t ∧ cmp k' k = 0 := by
  rw [rbtFindInternal_eq cmp k t []] at h
  rcases @descend_stop _ (toward cmp k) t [] with hnil | ⟨l, x, r, hnode, hzero⟩
  · simp [hnil, rootValue] at h
  · simp only [hnode, rootValue, Option.some.injEq] at h
    have hx : x ∈ t.inorder := by
      have hplug := @plug_descend _ (toward cmp k) t []
      rw [hnode, plug] at hplug
      rw [← hplug, inorder_plug]
      simp [BinTree.inorder]
    exact ⟨x.key, List.mem_map.mpr ⟨x, hx, by rw [RbtNode.entry, h]⟩, hzero⟩

section Order
variable {cmp : K → K → Int} {S : K → Prop}

structure Ordered (cmp : K → K → Int) (S : K → Prop) (t : BinTree (RbtNode K V)) : Prop where
  keys_in : ∀ k ∈ keys t, S k
  increasing : Increasing cmp (keys t)

theorem ordered_nil : Ordered cmp S (.nil : BinTree (RbtNode K V)) := ⟨by simp [keys, BinTree.inorder],
  List.Pairwise.nil⟩

theorem Ordered.of_entries {t u : BinTree (RbtNode K V)} (h : Ordered cmp S t)
    (he : entries u = entries t) : Ordered cmp S u := by
  have hkeys : keys u = keys t := by rw [keys_eq_entries, he, ← keys_eq_entries]
  exact ⟨hkeys ▸ h.keys_in, hkeys ▸ h.increasing⟩

theorem Ordered.splits (hc : StrictOn cmp S) {t : BinTree (RbtNode K V)} (h : Ordered cmp S t)
    {k : K} (hk : S k) : Splits (toward cmp k) t.inorder :=
  hc.splits (fun x hx => h.keys_in x.key (List.mem_map_of_mem hx)) h.increasing hk

theorem Ordered.nodup (hc : StrictOn cmp S) {t : BinTree (RbtNode K V)} (h : Ordered cmp S t) :
    (keys t).Nodup := hc.nodup h.keys_in h.increasing

/-- In a search tree `rbt_find` finds exactly the entries. -/
theorem rbtFindInternal_iff (hc : StrictOn cmp S) {t : BinTree (RbtNode K V)} (h : Ordered cmp S t)
    {k : K} (hk : S k) (v : V) : rbtFindInternal cmp k t = some v ↔ (k, v) ∈ entries t := by
  constructor
  · intro hfind
    obtain ⟨k', hmem, hzero⟩ := exists_entry_of_find hfind
    obtain rfl := (hc.zero_iff (h.keys_in k' (mem_keys_of_entry hmem)) hk).mp hzero
    exact hmem
  · intro hmem
    obtain ⟨x, hx, hxe⟩ := List.mem_map.mp hmem
    obtain ⟨rfl, rfl⟩ := Prod.mk.inj hxe
    have hzero : toward cmp x.key x = 0 := (hc.zero_iff hk hk).mpr rfl
    obtain ⟨path, l, r, hd⟩ := descend_of_mem (h.splits hc hk) hx hzero
    rw [rbtFindInternal_eq cmp x.key t [], hd]
    rfl

/-- Where `rbt_add_internal` puts an entry: between the nodes `xs` and `ys`, in place of the
one with its key if there is one. -/
structure Placed (t : BinTree (RbtNode K V)) (k : K) (v : V)
    (p : Int × List (Frame (RbtNode K V)) × BinTree (RbtNode K V)) (xs ys : List (RbtNode K V)) :
    Prop where
  entries_eq : entries (plug p.2.1 p.2.2) = xs.map RbtNode.entry ++ (k, v) :: ys.map RbtNode.entry
  was : p.1 = 0 ∧ t.inorder = xs ++ ys ∨ p.1 = 1 ∧ ∃ x, x.key = k ∧ t.inorder = xs ++ x :: ys
  red_of_new : p.1 = 0 → isRed p.2.2

/-- The keys of the nodes before the entry are less and those after it greater. -/
theorem rbtAddInternal_placed (hc : StrictOn cmp S) {t : BinTree (RbtNode K V)} (h : Ordered cmp S t)
    {k : K} (hk : S k) (v : V) : ∃ xs ys,
      Placed t k v (rbtAddInternal cmp ⟨.red, k, v⟩ t []) xs ys ∧
      (∀ x ∈ xs, cmp x.key k < 0) ∧ ∀ y ∈ ys, 0 < cmp y.key k := by
  have hdir : DirectedBy (toward cmp k) (descend (toward cmp k) t []).1 :=
    descend_directed t (by simp [DirectedBy])
  have hplug := @plug_descend _ (toward cmp k) t []
  have hstop := @descend_stop _ (toward cmp k) t []
  have hsplits := h.splits hc hk
  rw [rbtAddInternal_eq]
  change ∃ xs ys, Placed t k v (place _ (descend (toward cmp k) t [])) xs ys ∧ _
  generalize descend (toward cmp k) t [] = d at *
  obtain ⟨path, sub⟩ := d
  obtain rfl : plug path sub = t := hplug
  rcases hstop with hnil | ⟨l, x, r, hnode, hzero⟩
  · obtain rfl : sub = .nil := hnil
    refine ⟨before path, after path, ⟨?_, Or.inl ⟨rfl, ?_⟩, fun _ => rfl⟩, ?_, ?_⟩
    · simp [place, entries, inorder_plug, BinTree.inorder, RbtNode.entry]
    · simp [inorder_plug, BinTree.inorder]
    · exact fun x hx => before_neg hdir hsplits hx
    · exact fun y hy => after_pos hdir hsplits hy
  · obtain rfl : sub = .node l x r := hnode
    have hin : (plug path (.node l x r)).inorder =
        (before path ++ l.inorder) ++ x :: (r.inorder ++ after path) := by
      simp [inorder_plug, BinTree.inorder]
    have hkey : x.key = k :=
      (hc.zero_iff (h.keys_in _ (List.mem_map_of_mem (by simp [hin]))) hk).mp hzero
    rw [hin] at hsplits
    refine ⟨_, _, ⟨?_, Or.inr ⟨rfl, x, hkey, hin⟩, fun h0 => absurd h0 (by simp [place])⟩,
      hsplits.sides hzero⟩
    simp [place, entries, inorder_plug, BinTree.inorder, RbtNode.entry]

/-- The tree with the entry in its place is a search tree again. -/
theorem Placed.ordered (hc : StrictOn cmp S) {t : BinTree (RbtNode K V)} (h : Ordered cmp S t)
    {k : K} (hk : S k) {v : V} {p : Int × List (Frame (RbtNode K V)) × BinTree (RbtNode K V)}
    {xs ys : List (RbtNode K V)} (hp : Placed t k v p xs ys) (hxs : ∀ x ∈ xs, cmp x.key k < 0)
    (hys : ∀ y ∈ ys, 0 < cmp y.key k) : Ordered cmp S (plug p.2.1 p.2.2) := by
  have hkeys : keys (plug p.2.1 p.2.2) = xs.map RbtNode.key ++ k :: ys.map RbtNode.key := by
    rw [keys_eq_entries, hp.entries_eq, List.map_append, List.map_cons, List.map_map, List.map_map]
    rfl
  rcases hp.was with ⟨-, hin⟩ | ⟨-, x, rfl, hin⟩
  · have hall : ∀ z ∈ xs ++ ys, S z.key := fun z hz =>
      h.keys_in z.key (List.mem_map_of_mem (by rwa [hin]))
    have hinc := h.increasing
    rw [keys, hin, Increasing, List.pairwise_map, List.pairwise_append] at hinc
    obtain ⟨hx, hy, hcross⟩ := hinc
    constructor
    · intro k' hk'
      rw [hkeys] at hk'
      simp only [List.mem_append, List.mem_cons, List.mem_map] at hk'
      rcases hk' with ⟨x, hx, rfl⟩ | rfl | ⟨y, hy, rfl⟩
      · exact hall x (by simp [hx])
      · exact hk
      · exact hall y (by simp [hy])
    · rw [hkeys, Increasing, List.pairwise_append, List.pairwise_cons, List.pairwise_map,
        List.pairwise_map]
      simp only [List.forall_mem_map, List.forall_mem_cons]
      refine ⟨hx, ⟨fun y hmem => ?_, hy⟩, fun x hmem => ⟨hxs x hmem, hcross x hmem⟩⟩
      exact (hc.pos_iff (hall y (by simp [hmem])) hk).mp (hys y hmem)
  · have hsame : keys (plug p.2.1 p.2.2) = keys t := by
      rw [hkeys, keys, hin, List.map_append, List.map_cons]
    exact ⟨hsame ▸ h.keys_in, hsame ▸ h.increasing⟩

/-- A search for the key of a node of a search tree ends at the node. -/
theorem rbtAddInternal_at (hc : StrictOn cmp S) {path : List (Frame (RbtNode K V))}
    {l r : BinTree (RbtNode K V)} {x new : RbtNode K V} (h : Ordered cmp S (plug path (.node l x r)))
    (hkey : new.key = x.key) : rbtAddInternal cmp new (plug path (.node l x r)) [] =
      (1, path, .node l { new with color := x.color } r) := by
  have hx : S x.key :=
    h.keys_in _ (List.mem_map_of_mem (by simp [inorder_plug, BinTree.inorder]))
  have hzero : toward cmp x.key x = 0 := (hc.zero_iff hx hx).mpr rfl
  have hat : descend (toward cmp x.key) (plug path (.node l x r)) [] = (path, .node l x r) := by
    rw [descend_plug (directed_of_splits hzero (h.splits hc hx)), descend, if_pos hzero,
      List.append_nil]
  rw [← hkey] at hat
  rw [rbtAddInternal_eq, hat]
  rfl

def blackParent : List (Frame (RbtNode K V)) → Bool
  | [] => false
  | parent :: _ => parent.label.color = .black

def counted (p : Int × List (Frame (RbtNode K V)) × BinTree (RbtNode K V)) : Nat :=
  if p.1 = 0 ∧ blackParent p.2.1 = false then 1 else 0

/-- `rbt_add` ends, returns whether the key was there and leaves the entries that
`rbt_add_internal` made. The calls for the keys of grandparents start at ever shorter paths, and
count nothing. -/
theorem rbtAdd_entries (hc : StrictOn cmp S) (fuel : Nat) (rbt : Rbt K V) {k : K} (hk : S k) (v : V)
    (h : Ordered cmp S rbt.root) {p : Int × List (Frame (RbtNode K V)) × BinTree (RbtNode K V)}
    (hp : rbtAddInternal cmp ⟨.red, k, v⟩ rbt.root [] = p) (hfuel : p.2.1.length < fuel) :
    ∃ rbt', rbtAdd cmp fuel rbt k v = some (p.1, rbt') ∧
      entries rbt'.root = entries (plug p.2.1 p.2.2) ∧ rbt'.size = rbt.size + counted p := by
  induction fuel generalizing rbt k v p with
  | zero => exact absurd hfuel (by omega)
  | succ fuel ih =>
    obtain ⟨xs, ys, hplaced, hxs, hys⟩ := rbtAddInternal_placed hc h hk v
    rw [hp] at hplaced
    have hord := hplaced.ordered hc h hk hxs hys
    obtain ⟨rc, path, node⟩ := p
    cases hroot : rbt.root with
    | nil =>
      rw [hroot] at hp
      cases hp
      exact ⟨_, by rw [rbtAdd, hroot], rfl, rfl⟩
    | node l x r =>
      rw [hroot] at hp
      simp only [rbtAdd, hroot, hp]
      by_cases hred : isRed node = false
      · have hrc : rc = 1 := by
          rcases hplaced.was with ⟨h0, -⟩ | ⟨h1, -⟩
          · simp [hplaced.red_of_new h0] at hred
          · exact h1
        exact ⟨_, by rw [if_pos hred, hrc], rfl, by simp [counted, hrc]⟩
      rw [if_neg hred]
      match path with
      | [] =>
        refine ⟨_, rfl, entries_paint _ _, ?_⟩
        simp only [counted, blackParent]
        split_ifs <;> simp_all
      | parent :: above =>
        by_cases hblack : parent.label.color = .black
        · simp only [if_pos hblack]
          exact ⟨_, rfl, rfl, by simp [counted, blackParent, hblack]⟩
        simp only [if_neg hblack]
        have hsize : ∀ n : Nat, (if rc = 0 then n + 1 else n) =
            n + counted (rc, parent :: above, node) := by
          intro n
          simp only [counted, blackParent, hblack]
          split_ifs <;> simp_all
        match above with
        | [] => exact ⟨_, rfl, rfl, hsize rbt.size⟩
        | grandparent :: up =>
          by_cases huncle : isRed grandparent.sibling
          · -- the grandparent is found again, so that its own subtree stays as it is
            have hsame := entries_plug_congr up (entries_paintCase node parent grandparent)
            obtain ⟨l, r, hpaint⟩ := paintCase_root node parent grandparent
            rw [hpaint] at hsame
            have hord' := hord.of_entries hsame
            have hg : S grandparent.label.key := hord'.keys_in _
              (List.mem_map.mpr ⟨{ grandparent.label with color := .red },
                by simp [inorder_plug, BinTree.inorder], rfl⟩)
            obtain ⟨rbt', hadd, hentries, hcount⟩ := ih ⟨_, rbt.size⟩ hg grandparent.label.value
              hord' (rbtAddInternal_at hc hord' rfl) (by simp only [List.length_cons] at hfuel ⊢; omega)
            have hsame' : rbt'.size = rbt.size := hcount
            simp only [if_pos huncle, hpaint, hadd]
            exact ⟨_, rfl, hentries.trans hsame, by rw [← hsize, ← hsame']⟩
          · simp only [if_neg huncle]
            exact ⟨_, rfl, entries_plug_congr up (entries_rotateCases _ _ _), hsize rbt.size⟩

/-- The path to the place of a key is no longer than the tree has nodes. -/
theorem rbtAddInternal_path_length (cmp : K → K → Int) (node : RbtNode K V)
    (t : BinTree (RbtNode K V)) :
    (rbtAddInternal cmp node t []).2.1.length ≤ t.inorder.length := by
  have hle := @descend_length _ (toward cmp node.key) t []
  rw [List.length_nil, Nat.zero_add] at hle
  rw [rbtAddInternal_eq, place_path]
  exact hle

/-- In a search tree with fewer nodes than `fuel`, `rbt_add` of a key that is not found adds
its entry and nothing else. -/
theorem rbtAdd_new (hc : StrictOn cmp S) {fuel : Nat} {rbt : Rbt K V} {k : K} (hk : S k) (v : V)
    (h : Ordered cmp S rbt.root) (hnew : rbtFind cmp rbt k = none)
    (hfuel : rbt.root.inorder.length < fuel) :
    ∃ rbt' xs ys, rbtAdd cmp fuel rbt k v = some (0, rbt') ∧ Ordered cmp S rbt'.root ∧
      entries rbt.root = xs ++ ys ∧ entries rbt'.root = xs ++ (k, v) :: ys := by
  obtain ⟨xs, ys, hplaced, hxs, hys⟩ := rbtAddInternal_placed hc h hk v
  have hlen := (rbtAddInternal_path_length cmp ⟨.red, k, v⟩ rbt.root).trans_lt hfuel
  obtain ⟨rbt', hadd, hentries, -⟩ := rbtAdd_entries hc fuel rbt hk v h rfl hlen
  rcases hplaced.was with ⟨hrc, hin⟩ | ⟨-, x, rfl, hin⟩
  · refine ⟨rbt', xs.map RbtNode.entry, ys.map RbtNode.entry, by rw [hadd, hrc], ?_, ?_, ?_⟩
    · exact (hplaced.ordered hc h hk hxs hys).of_entries hentries
    · rw [entries, hin, List.map_append]
    · rw [hentries, hplaced.entries_eq]
  · have hfound : rbtFind cmp rbt x.key = some x.value :=
      (rbtFindInternal_iff hc h hk _).mpr (List.mem_map.mpr ⟨x, by simp [hin], rfl⟩)
    rw [hnew] at hfound
    exact absurd hfound (by simp)

end Order

/-- More fuel does not change what `rbt_add` does. -/
theorem rbtAdd_mono {cmp : K → K → Int} {n m : Nat} (hnm : n ≤ m) {rbt : Rbt K V} {k : K} {v : V}
    {out : Int × Rbt K V} (h : rbtAdd cmp n rbt k v = some out) :
    rbtAdd cmp m rbt k v = some out := by
  induction n generalizing m rbt k v out with
  | zero => simp [rbtAdd] at h
  | succ n ih =>
    obtain ⟨m, rfl⟩ : ∃ m', m = m' + 1 := ⟨m - 1, by omega⟩
    have hsub : ∀ (rbt : Rbt K V) (k : K) (v : V) (f : Int × Rbt K V → Option (Int × Rbt K V)),
        (rbtAdd cmp n rbt k v >>= f) = some out → (rbtAdd cmp m rbt k v >>= f) = some out := by
      intro rbt k v f hbind
      obtain ⟨mid, hmid, hf⟩ := Option.bind_eq_some_iff.mp hbind
      exact Option.bind_eq_some_iff.mpr ⟨mid, ih (by omega) hmid, hf⟩
    cases hroot : rbt.root with
    | nil =>
      simp only [rbtAdd, hroot] at h ⊢
      exact h
    | node l x r =>
      simp only [rbtAdd, hroot] at h ⊢
      generalize rbtAddInternal cmp ⟨.red, k, v⟩ (.node l x r) [] = p at h ⊢
      obtain ⟨rc, path, node⟩ := p
      match path with
      | [] => exact h
      | [parent] => exact h
      | parent :: grandparent :: up =>
        simp only at h ⊢
        split_ifs at h ⊢
        all_goals first
          | exact h
          | exact hsub _ _ _ _ h

end Miqs.RbTree
