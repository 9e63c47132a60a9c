import Mathlib.Algebra.Order.Ring.Int
import Mathlib.Data.List.Basic
import Mathlib.Tactic.Common

/-! Binary trees with a label at each node. A position in a tree is the subtree there and
the frames above it; a descent is directed by the sign of an integer at each label. -/
namespace Miqs.SearchTree
variable {ν : Type}

inductive BinTree (ν : Type) where
  | nil
  | node (left : BinTree ν) (label : ν) (right : BinTree ν)

namespace BinTree

def inorder : BinTree ν → List ν
  | nil => []
  | node l x r => l.inorder ++ x :: r.inorder

def preorder : BinTree ν → List ν
  | nil => []
  | node l x r => x :: (l.preorder ++ r.preorder)

def height : BinTree ν → Nat
  | .nil => 0
  | .node l _ r => max l.height r.height + 1

theorem preorder_perm_inorder (t : BinTree ν) : t.preorder.Perm t.inorder := by
  induction t with
  | nil => exact List.Perm.refl _
  | node l x r ihl ihr => exact (List.Perm.cons x (ihl.append ihr)).trans List.perm_middle.symm

end BinTree

inductive Side where
  | left
  | right
  deriving DecidableEq

structure Frame (ν : Type) where
  side : Side
  label : ν
  sibling : BinTree ν

def Frame.fill (f : Frame ν) (t : BinTree ν) : BinTree ν :=
  match f.side with
  | .left => .node t f.label f.sibling
  | .right => .node f.sibling f.label t

def plug : List (Frame ν) → BinTree ν → BinTree ν
  | [], t => t
  | f :: path, t => plug path (f.fill t)

theorem plug_append (path out : List (Frame ν)) (t : BinTree ν) :
    plug (path ++ out) t = plug out (plug path t) := by
  induction path generalizing t with
  | nil => rfl
  | cons f path ih => exact ih (f.fill t)

def before : List (Frame ν) → List ν
  | [] => []
  | f :: path => before path ++ match f.side with
    | .left => []
    | .right => f.sibling.inorder ++ [f.label]

def after : List (Frame ν) → List ν
  | [] => []
  | f :: path => (match f.side with
    | .left => f.label :: f.sibling.inorder
    | .right => []) ++ after path

theorem inorder_plug (path : List (Frame ν)) (t : BinTree ν) :
    (plug path t).inorder = before path ++ t.inorder ++ after path := by
  induction path generalizing t with
  | nil => simp [plug, before, after]
  | cons f path ih =>
    rw [plug, ih, before, after]
    cases hside : f.side <;> simp [Frame.fill, hside, BinTree.inorder]

/-- Every label of a tree is at a position of it. -/
theorem exists_plug_of_mem {t : BinTree ν} {x : ν} (h : x ∈ t.inorder) :
    ∃ path l r, t = plug path (.node l x r) := by
  induction t with
  | nil => simp [BinTree.inorder] at h
  | node l y r ihl ihr =>
    rw [BinTree.inorder, List.mem_append, List.mem_cons] at h
    rcases h with hl | rfl | hr
    · obtain ⟨path, l', r', rfl⟩ := ihl hl
      exact ⟨path ++ [⟨.left, y, r⟩], l', r', by rw [plug_append]; rfl⟩
    · exact ⟨[], l, r, rfl⟩
    · obtain ⟨path, l', r', rfl⟩ := ihr hr
      exact ⟨path ++ [⟨.right, y, l⟩], l', r', by rw [plug_append]; rfl⟩

def descend (dir : ν → Int) : BinTree ν → List (Frame ν) → List (Frame ν) × BinTree ν
  | .nil, path => (path, .nil)
  | .node l x r, path =>
    if dir x = 0 then (path, .node l x r)
    else if 0 < dir x then descend dir l (⟨.left, x, r⟩ :: path)
    else descend dir r (⟨.right, x, l⟩ :: path)

def DirectedBy (dir : ν → Int) (path : List (Frame ν)) : Prop :=
  ∀ f ∈ path, match f.side with
    | .left => 0 < dir f.label
    | .right => dir f.label < 0

def Splits (dir : ν → Int) (xs : List ν) : Prop :=
  xs.Pairwise fun x y => 0 ≤ dir x → 0 < dir y

variable {dir : ν → Int}

theorem directed_cons {f : Frame ν} {path : List (Frame ν)} :
    DirectedBy dir (f :: path) ↔ (match f.side with
      | .left => 0 < dir f.label
      | .right => dir f.label < 0) ∧ DirectedBy dir path := by
  simp [DirectedBy]

theorem plug_descend (t : BinTree ν) (path : List (Frame ν)) :
    plug (descend dir t path).1 (descend dir t path).2 = plug path t := by
  induction t generalizing path with
  | nil => rfl
  | node l x r ihl ihr =>
    rw [descend]
    split_ifs
    · rfl
    · exact ihl _
    · exact ihr _

/-- A descent ends below the tree or at a label where it does not turn. -/
theorem descend_stop (t : BinTree ν) (path : List (Frame ν)) :
    (descend dir t path).2 = .nil ∨
      ∃ l x r, (descend dir t path).2 = .node l x r ∧ dir x = 0 := by
  induction t generalizing path with
  | nil => exact Or.inl rfl
  | node l x r ihl ihr =>
    rw [descend]
    split_ifs with hzero
    · exact Or.inr ⟨l, x, r, rfl, hzero⟩
    · exact ihl _
    · exact ihr _

theorem descend_directed (t : BinTree ν) {path : List (Frame ν)} (h : DirectedBy dir path) :
    DirectedBy dir (descend dir t path).1 := by
  induction t generalizing path with
  | nil => exact h
  | node l x r ihl ihr =>
    rw [descend]
    split_ifs with hzero hpos
    · exact h
    · exact ihl (directed_cons.mpr ⟨hpos, h⟩)
    · exact ihr (directed_cons.mpr ⟨by simp only; omega, h⟩)

/-- The path of a descent is no longer than the tree is large. -/
theorem descend_length (t : BinTree ν) (path : List (Frame ν)) :
    (descend dir t path).1.length ≤ path.length + t.inorder.length := by
  induction t generalizing path with
  | nil => simp [descend]
  | node l x r ihl ihr =>
    rw [descend, BinTree.inorder, List.length_append, List.length_cons]
    split_ifs
    · simp only
      omega
    · have h := ihl (⟨.left, x, r⟩ :: path)
      rw [List.length_cons] at h
      omega
    · have h := ihr (⟨.right, x, l⟩ :: path)
      rw [List.length_cons] at h
      omega

/-- Nor is it longer than the tree is high. -/
theorem descend_length_le_height (t : BinTree ν) (path : List (Frame ν)) :
    (descend dir t path).1.length ≤ path.length + t.height := by
  induction t generalizing path with
  | nil => simp [descend]
  | node l x r ihl ihr =>
    rw [descend, BinTree.height]
    split_ifs
    · exact Nat.le_add_right _ _
    · have h := ihl (⟨.left, x, r⟩ :: path)
      rw [List.length_cons] at h
      omega
    · have h := ihr (⟨.right, x, l⟩ :: path)
      rw [List.length_cons] at h
      omega

/-- A descent from the root follows a path directed by it. -/
theorem descend_plug {path : List (Frame ν)} (h : DirectedBy dir path) (t : BinTree ν) (out : List (Frame ν)) :
    descend dir (plug path t) out = descend dir t (path ++ out) := by
  induction path generalizing t with
  | nil => rfl
  | cons f path ih =>
    obtain ⟨hf, hpath⟩ := directed_cons.mp h
    rw [plug, ih hpath]
    obtain ⟨side, label, sibling⟩ := f
    cases side with
    | left =>
      have hlabel : 0 < dir label := hf
      rw [Frame.fill, descend]
      simp only [if_neg hlabel.ne', if_pos hlabel]
      rfl
    | right =>
      have hlabel : dir label < 0 := hf
      rw [Frame.fill, descend]
      simp only [if_neg hlabel.ne, if_neg hlabel.not_gt]
      rfl

theorem before_neg {path : List (Frame ν)} {t : BinTree ν} (hd : DirectedBy dir path)
    (hs : Splits dir (plug path t).inorder) {y : ν} (hy : y ∈ before path) : dir y < 0 := by
  induction path generalizing t with
  | nil => simp [before] at hy
  | cons f path ih =>
    obtain ⟨hf, hpath⟩ := directed_cons.mp hd
    rw [before, List.mem_append] at hy
    rcases hy with hy | hy
    · exact ih hpath hs hy
    obtain ⟨side, label, sibling⟩ := f
    cases side with
    | left => simp at hy
    | right =>
      simp only [List.mem_append, List.mem_singleton] at hy hf
      rcases hy with hy | rfl
      · -- the sibling's labels stand before the frame's own
        rw [plug, inorder_plug] at hs
        have hfill := (List.pairwise_append.mp (List.pairwise_append.mp hs).1).2.1
        have hlabel := (List.pairwise_append.mp hfill).2.2 y hy label (by simp)
        omega
      · exact hf

theorem after_pos {path : List (Frame ν)} {t : BinTree ν} (hd : DirectedBy dir path)
    (hs : Splits dir (plug path t).inorder) {y : ν} (hy : y ∈ after path) : 0 < dir y := by
  induction path generalizing t with
  | nil => simp [after] at hy
  | cons f path ih =>
    obtain ⟨hf, hpath⟩ := directed_cons.mp hd
    rw [after, List.mem_append] at hy
    rcases hy with hy | hy
    · obtain ⟨side, label, sibling⟩ := f
      cases side with
      | right => simp at hy
      | left =>
        simp only [List.mem_cons] at hy hf
        rcases hy with rfl | hy
        · exact hf
        · rw [plug, inorder_plug] at hs
          have hfill := (List.pairwise_append.mp (List.pairwise_append.mp hs).1).2.1
          have hlabel := (List.pairwise_cons.mp (List.pairwise_append.mp hfill).2.1).1 y hy
          exact hlabel hf.le
    · exact ih hpath hs hy

/-- Where the labels are split, the way to a label that stops a descent is the descent's. -/
theorem directed_of_splits {path : List (Frame ν)} {l r : BinTree ν} {x : ν} (hx : dir x = 0)
    (hs : Splits dir (plug path (.node l x r)).inorder) : DirectedBy dir path := by
  have hmem : ∀ t : BinTree ν, x ∈ t.inorder → Splits dir (plug path t).inorder →
      DirectedBy dir path := by
    clear hs
    induction path with
    | nil => simp [DirectedBy]
    | cons f path ih =>
      intro t ht hs
      have hfill : x ∈ (f.fill t).inorder := by
        cases hside : f.side <;> simp [Frame.fill, hside, BinTree.inorder, ht]
      refine directed_cons.mpr ⟨?_, ih (f.fill t) hfill hs⟩
      rw [plug, inorder_plug] at hs
      have hsf := (List.pairwise_append.mp (List.pairwise_append.mp hs).1).2.1
      obtain ⟨side, label, sibling⟩ := f
      cases side with
      | left => exact (List.pairwise_append.mp hsf).2.2 x ht label (by simp) (by omega)
      | right =>
        have hlabel := (List.pairwise_cons.mp (List.pairwise_append.mp hsf).2.1).1 x ht
        exact Int.not_le.mp fun hle => (hlabel hle).ne' hx
  exact hmem _ (by simp [BinTree.inorder]) hs

/-- A label that stops a descent splits the labels. -/
theorem Splits.sides {xs ys : List ν} {x : ν} (hs : Splits dir (xs ++ x :: ys)) (hx : dir x = 0) :
    (∀ y ∈ xs, dir y < 0) ∧ ∀ y ∈ ys, 0 < dir y := by
  obtain ⟨-, hys, hcross⟩ := List.pairwise_append.mp hs
  constructor
  · intro y hy
    exact Int.not_le.mp fun hle => (hcross y hy x (by simp) hle).ne' hx
  · intro y hy
    exact (List.pairwise_cons.mp hys).1 y hy hx.ge

def Ascends (dir : ν → Int) (xs : List ν) : Prop :=
  xs.Pairwise fun x y => (0 < dir x → 0 < dir y) ∧ (dir y < 0 → dir x < 0)

/-- A descent over ascending labels stops at one of those that stop it. -/
theorem descend_ne_nil {t : BinTree ν} (hs : Ascends dir t.inorder) {x : ν} (hx : x ∈ t.inorder)
    (hzero : dir x = 0) (path : List (Frame ν)) : (descend dir t path).2 ≠ .nil := by
  induction t generalizing path with
  | nil => simp [BinTree.inorder] at hx
  | node l y r ihl ihr =>
    obtain ⟨hl, hyr, hcross⟩ := List.pairwise_append.mp hs
    obtain ⟨hy, hr⟩ := List.pairwise_cons.mp hyr
    rw [BinTree.inorder, List.mem_append, List.mem_cons] at hx
    rw [descend]
    split_ifs with hstop hpos
    · simp
    · -- the labels to the right of this one turn the descent left too
      rcases hx with hx | rfl | hx
      · exact ihl hl hx _
      · exact absurd hzero hstop
      · have hright := (hy x hx).1 hpos
        omega
    · rcases hx with hx | rfl | hx
      · have hleft := (hcross x hx y (by simp)).2 (by omega)
        omega
      · exact absurd hzero hstop
      · exact ihr hr hx _

/-- A descent over split labels finds the label that stops it. -/
theorem descend_of_mem {t : BinTree ν} (hs : Splits dir t.inorder) {x : ν} (hx : x ∈ t.inorder)
    (hzero : dir x = 0) : ∃ path l r, descend dir t [] = (path, .node l x r) := by
  obtain ⟨path, l, r, rfl⟩ := exists_plug_of_mem hx
  refine ⟨path, l, r, ?_⟩
  rw [descend_plug (directed_of_splits hzero hs), descend, if_pos hzero, List.append_nil]

section Comparator
variable {K : Type} {cmp : K → K → Int} {S : K → Prop}

/-- On the keys of `S`, the sign of the comparator is that of an order, in which a key may
stand level with others that are not level with each other. -/
structure OrderedOn (cmp : K → K → Int) (S : K → Prop) : Prop where
  pos_iff : ∀ {a b}, S a → S b → (0 < cmp a b ↔ cmp b a < 0)
  trans : ∀ {a b c}, S a → S b → S c → cmp a b < 0 → cmp b c < 0 → cmp a c < 0

structure StrictOn (cmp : K → K → Int) (S : K → Prop) : Prop extends OrderedOn cmp S where
  zero_iff : ∀ {a b}, S a → S b → (cmp a b = 0 ↔ a = b)

theorem OrderedOn.mono {T : K → Prop} (hc : OrderedOn cmp S) (h : ∀ k, T k → S k) : OrderedOn cmp T :=
  ⟨fun ha hb => hc.pos_iff (h _ ha) (h _ hb), fun ha hb hd => hc.trans (h _ ha) (h _ hb) (h _ hd)⟩

theorem OrderedOn.zero_comm (hc : OrderedOn cmp S) {a b : K} (ha : S a) (hb : S b) :
    cmp a b = 0 ↔ cmp b a = 0 := by
  have hab := hc.pos_iff ha hb
  have hba := hc.pos_iff hb ha
  omega

theorem OrderedOn.self (hc : OrderedOn cmp S) {a : K} (ha : S a) : cmp a a = 0 := by
  have haa := hc.pos_iff ha ha
  omega

/-- An order on keys none of which is level with another is strict. -/
theorem OrderedOn.strict {ks : List K} (hc : OrderedOn cmp (· ∈ ks))
    (hsep : ks.Pairwise fun a b => cmp a b ≠ 0) : StrictOn cmp (· ∈ ks) where
  toOrderedOn := hc
  zero_iff := by
    intro a b ha hb
    refine ⟨fun hab => ?_, fun heq => heq ▸ hc.self ha⟩
    obtain ⟨i, hi, rfl⟩ := List.mem_iff_getElem.mp ha
    obtain ⟨j, hj, rfl⟩ := List.mem_iff_getElem.mp hb
    have hp := List.pairwise_iff_getElem.mp hsep
    rcases Nat.lt_trichotomy i j with hlt | rfl | hgt
    · exact absurd hab (hp i j hi hj hlt)
    · rfl
    · exact absurd ((hc.zero_comm ha hb).mp hab) (hp j i hj hi hgt)

theorem strictOn_sub : StrictOn (fun a b : Int => a - b) (fun _ => True) where
  zero_iff := by
    intro a b _ _
    exact sub_eq_zero
  pos_iff := by
    intro a b _ _
    omega
  trans := by
    intro a b c _ _ _
    omega

def Increasing (cmp : K → K → Int) (ks : List K) : Prop := ks.Pairwise fun a b => cmp a b < 0

/-- Increasing keys are split by every key. -/
theorem StrictOn.splits (hc : StrictOn cmp S) {key : ν → K} {xs : List ν}
    (hxs : ∀ x ∈ xs, S (key x)) (h : Increasing cmp (xs.map key)) {k : K} (hk : S k) :
    Splits (fun x => cmp (key x) k) xs := by
  refine (List.pairwise_map.mp h).imp_of_mem ?_
  intro x y hx hy hxy hxk
  have hsx := hxs x hx
  have hsy := hxs y hy
  rcases Int.lt_or_eq_of_le hxk with hpos | heq
  · exact (hc.pos_iff hsy hk).mpr (hc.trans hk hsx hsy ((hc.pos_iff hsx hk).mp hpos) hxy)
  · obtain rfl := (hc.zero_iff hsx hk).mp heq.symm
    exact (hc.pos_iff hsy hsx).mpr hxy

/-- Increasing keys ascend towards every key, whether it is level with some of them or not. -/
theorem OrderedOn.ascends (hc : OrderedOn cmp S) {key : ν → K} {xs : List ν}
    (hxs : ∀ x ∈ xs, S (key x)) (h : Increasing cmp (xs.map key)) {k : K} (hk : S k) :
    Ascends (fun x => cmp (key x) k) xs := by
  refine (List.pairwise_map.mp h).imp_of_mem ?_
  intro x y hx hy hxy
  have hsx := hxs x hx
  have hsy := hxs y hy
  constructor
  · intro hxk
    exact (hc.pos_iff hsy hk).mpr (hc.trans hk hsx hsy ((hc.pos_iff hsx hk).mp hxk) hxy)
  · intro hyk
    exact hc.trans hsx hsy hk hxy hyk

theorem StrictOn.nodup (hc : StrictOn cmp S) {ks : List K} (hks : ∀ k ∈ ks, S k)
    (h : Increasing cmp ks) : ks.Nodup := by
  refine List.Pairwise.imp_of_mem ?_ h
  intro a b ha _ hab heq
  subst heq
  have hzero := (hc.zero_iff (hks a ha) (hks a ha)).mpr rfl
  omega

end Comparator

end Miqs.SearchTree
