import Mathlib.Data.Nat.Log
import Miqs.RbTreeSize

/-! The red-black tree stays balanced, though `rbt_add` goes on from the root with the key of a
grandparent that it painted red. -/
namespace Miqs.RbTree
open Miqs.SearchTree
variable {K V : Type}

def RedBlack : Nat → BinTree (RbtNode K V) → Prop
  | n, .nil => n = 0
  | n, .node l x r =>
    match x.color with
    | .red => isRed l = false ∧ isRed r = false ∧ RedBlack n l ∧ RedBlack n r
    | .black => ∃ m, n = m + 1 ∧ RedBlack m l ∧ RedBlack m r

theorem redBlack_red {n : Nat} {l r : BinTree (RbtNode K V)} {x : RbtNode K V} (hx : x.color = .red) :
    RedBlack n (.node l x r) ↔ isRed l = false ∧ isRed r = false ∧ RedBlack n l ∧ RedBlack n r := by
  simp only [RedBlack, hx]

theorem redBlack_black {n : Nat} {l r : BinTree (RbtNode K V)} {x : RbtNode K V} (hx : x.color = .black) :
    RedBlack n (.node l x r) ↔ ∃ m, n = m + 1 ∧ RedBlack m l ∧ RedBlack m r := by
  simp only [RedBlack, hx]

/-- The surroundings of a subtree with `n` black nodes on every way down. A red node has a black
parent. -/
def Around : Nat → List (Frame (RbtNode K V)) → Prop
  | _, [] => True
  | n, f :: path =>
    RedBlack n f.sibling ∧
      match f.label.color with
      | .red => isRed f.sibling = false ∧ blackParent path = true ∧ Around n path
      | .black => Around (n + 1) path

structure Balanced (t : BinTree (RbtNode K V)) : Prop where
  black : isRed t = false
  redBlack : ∃ n, RedBlack n t

theorem redBlack_fill {n : Nat} {f : Frame (RbtNode K V)} {t : BinTree (RbtNode K V)} (hx : f.label.color = .red) :
    RedBlack n (f.fill t) ↔ isRed t = false ∧ isRed f.sibling = false ∧ RedBlack n t ∧ RedBlack n f.sibling := by
  cases hside : f.side with
  | left => rw [Frame.fill, hside, redBlack_red hx]
  | right =>
    rw [Frame.fill, hside, redBlack_red hx]
    tauto

theorem redBlack_fill_black {n : Nat} {f : Frame (RbtNode K V)} {t : BinTree (RbtNode K V)}
    (hx : f.label.color = .black) : RedBlack n (f.fill t) ↔ ∃ m, n = m + 1 ∧ RedBlack m t ∧ RedBlack m f.sibling := by
  cases hside : f.side with
  | left => rw [Frame.fill, hside, redBlack_black hx]
  | right =>
    rw [Frame.fill, hside, redBlack_black hx]
    simp only [and_comm]

theorem isRed_fill (f : Frame (RbtNode K V)) (t : BinTree (RbtNode K V)) :
    isRed (f.fill t) = decide (f.label.color = .red) := by
  cases hside : f.side <;> rw [Frame.fill, hside] <;> rfl

/-- In its surroundings a subtree makes a red-black tree, if it is black or below a black node. -/
theorem balanced_plug {n : Nat} {path : List (Frame (RbtNode K V))} {t : BinTree (RbtNode K V)}
    (hpath : Around n path) (ht : RedBlack n t) (hred : isRed t = true → blackParent path = true) :
    Balanced (plug path t) := by
  induction path generalizing n t with
  | nil =>
    refine ⟨?_, n, ht⟩
    cases hcolor : isRed t with
    | false => exact hcolor
    | true => exact absurd (hred hcolor) (by simp [blackParent])
  | cons f path ih =>
    obtain ⟨hsibling, habove⟩ := hpath
    rw [plug]
    cases hcolor : f.label.color with
    | red =>
      rw [hcolor] at habove
      have hblack : isRed t = false := by
        cases ht' : isRed t with
        | false => rfl
        | true => exact absurd (hred ht') (by simp [blackParent, hcolor])
      exact ih habove.2.2 ((redBlack_fill hcolor).mpr ⟨hblack, habove.1, ht, hsibling⟩) fun _ => habove.2.1
    | black =>
      rw [hcolor] at habove
      refine ih habove ((redBlack_fill_black hcolor).mpr ⟨n, rfl, ht, hsibling⟩) ?_
      rw [isRed_fill, hcolor]
      simp

/-- The way back: what is below a position of a red-black tree, and around it. -/
theorem Balanced.around {path : List (Frame (RbtNode K V))} {t : BinTree (RbtNode K V)} (h : Balanced (plug path t)) :
    ∃ n, Around n path ∧ RedBlack n t ∧ (isRed t = true → blackParent path = true) := by
  induction path generalizing t with
  | nil =>
    obtain ⟨hblack, n, hn⟩ := h
    refine ⟨n, trivial, hn, fun hred => ?_⟩
    rw [plug] at hblack
    rw [hblack] at hred
    cases hred
  | cons f path ih =>
    obtain ⟨n, hpath, hfill, hred⟩ := ih h
    cases hcolor : f.label.color with
    | red =>
      obtain ⟨hblack, hsibling, ht, hs⟩ := (redBlack_fill hcolor).mp hfill
      have hparent : blackParent path = true := hred (by rw [isRed_fill, hcolor]; rfl)
      refine ⟨n, ⟨hs, ?_⟩, ht, fun hcontra => ?_⟩
      · rw [hcolor]
        exact ⟨hsibling, hparent, hpath⟩
      · rw [hblack] at hcontra
        cases hcontra
    | black =>
      obtain ⟨m, rfl, ht, hs⟩ := (redBlack_fill_black hcolor).mp hfill
      refine ⟨m, ⟨hs, ?_⟩, ht, fun _ => by simp [blackParent, hcolor]⟩
      rw [hcolor]
      exact hpath

theorem redBlack_paint_black {n : Nat} {t : BinTree (RbtNode K V)} (h : RedBlack n t) (hred : isRed t = true) :
    RedBlack (n + 1) (paint .black t) ∧ isRed (paint .black t) = false := by
  cases t with
  | nil => cases hred
  | node l x r =>
    have hx : x.color = .red := of_decide_eq_true hred
    obtain ⟨-, -, hl, hr⟩ := (redBlack_red hx).mp h
    exact ⟨(redBlack_black rfl).mpr ⟨n, rfl, hl, hr⟩, rfl⟩

/-- With a red uncle the grandparent becomes red. -/
theorem redBlack_paintCase {n : Nat} {node : BinTree (RbtNode K V)} {parent grandparent : Frame (RbtNode K V)}
    (hnode : RedBlack n node) (hparent : RedBlack n parent.sibling) (huncle : RedBlack n grandparent.sibling)
    (hred : isRed grandparent.sibling = true) : RedBlack (n + 1) (paintCase node parent grandparent) := by
  obtain ⟨hpainted, hblack⟩ := redBlack_paint_black huncle hred
  obtain ⟨side, p, sibling⟩ := parent
  obtain ⟨side', g, uncle⟩ := grandparent
  have hbelow : ∀ l r : BinTree (RbtNode K V), RedBlack n l → RedBlack n r →
      RedBlack (n + 1) (.node l { p with color := .black } r) :=
    fun l r hl hr => (redBlack_black rfl).mpr ⟨n, rfl, hl, hr⟩
  cases side <;> cases side'
  · exact (redBlack_red rfl).mpr ⟨rfl, hblack, hbelow _ _ hnode hparent, hpainted⟩
  · exact (redBlack_red rfl).mpr ⟨hblack, rfl, hpainted, hbelow _ _ hnode hparent⟩
  · exact (redBlack_red rfl).mpr ⟨rfl, hblack, hbelow _ _ hparent hnode, hpainted⟩
  · exact (redBlack_red rfl).mpr ⟨hblack, rfl, hpainted, hbelow _ _ hparent hnode⟩

/-- With a black uncle the subtree gets a black root over two red nodes. -/
theorem redBlack_rotateCases {n : Nat} {node : BinTree (RbtNode K V)} {parent grandparent : Frame (RbtNode K V)}
    (hnode : RedBlack n node) (hred : isRed node = true) (hcolor : parent.label.color = .red)
    (hparent : RedBlack n parent.sibling) (hsibling : isRed parent.sibling = false)
    (huncle : RedBlack n grandparent.sibling) (hblack : isRed grandparent.sibling = false) :
    RedBlack (n + 1) (rotateCases node parent grandparent) ∧ isRed (rotateCases node parent grandparent) = false := by
  cases node with
  | nil => cases hred
  | node l x r =>
    have hx : x.color = .red := of_decide_eq_true hred
    obtain ⟨hl, hr, hln, hrn⟩ := (redBlack_red hx).mp hnode
    obtain ⟨side, p, sibling⟩ := parent
    obtain ⟨side', g, uncle⟩ := grandparent
    have hp : p.color = .red := hcolor
    have htop : ∀ (y : RbtNode K V) {a b : BinTree (RbtNode K V)}, RedBlack n a → RedBlack n b →
        RedBlack (n + 1) (.node a { y with color := .black } b) :=
      fun y _ _ ha hb => (redBlack_black rfl).mpr ⟨n, rfl, ha, hb⟩
    have hlow : RedBlack n (.node uncle { g with color := .red } sibling) :=
      (redBlack_red rfl).mpr ⟨hblack, hsibling, huncle, hparent⟩
    cases side <;> cases side'
    · exact ⟨htop p hnode ((redBlack_red rfl).mpr ⟨hsibling, hblack, hparent, huncle⟩), rfl⟩
    · exact ⟨htop x ((redBlack_red rfl).mpr ⟨hblack, hl, huncle, hln⟩)
        ((redBlack_red hp).mpr ⟨hr, hsibling, hrn, hparent⟩), rfl⟩
    · exact ⟨htop x ((redBlack_red hp).mpr ⟨hsibling, hl, hparent, hln⟩)
        ((redBlack_red rfl).mpr ⟨hr, hblack, hrn, huncle⟩), rfl⟩
    · exact ⟨htop p hlow hnode, rfl⟩

section Order
variable {cmp : K → K → Int} {S : K → Prop}

/-- A new node, or one in the place of another, may be red below a red one. The call paints and
rotates until no node is, and calls itself at most once for every second node above. -/
theorem rbtAdd_balanced (hc : StrictOn cmp S) (fuel : Nat) (rbt : Rbt K V) {k : K} (hk : S k) (v : V)
    (h : Ordered cmp S rbt.root) {p : Int × List (Frame (RbtNode K V)) × BinTree (RbtNode K V)}
    (hp : rbtAddInternal cmp ⟨.red, k, v⟩ rbt.root [] = p) (hfuel : p.2.1.length < 2 * fuel) {n : Nat}
    (haround : Around n p.2.1) (hnode : RedBlack n p.2.2) :
    ∃ rc rbt', rbtAdd cmp fuel rbt k v = some (rc, rbt') ∧ Balanced rbt'.root := by
  induction fuel generalizing rbt k v p n with
  | zero => exact absurd hfuel (by omega)
  | succ fuel ih =>
    obtain ⟨xs, ys, hplaced, hxs, hys⟩ := rbtAddInternal_placed hc h hk v
    rw [hp] at hplaced
    have hord := hplaced.ordered hc h hk hxs hys
    obtain ⟨rc, path, node⟩ := p
    cases hroot : rbt.root with
    | nil =>
      refine ⟨0, _, by rw [rbtAdd, hroot], rfl, 1, ?_⟩
      exact (redBlack_black rfl).mpr ⟨0, rfl, rfl, rfl⟩
    | node l x r =>
      rw [hroot] at hp
      simp only [rbtAdd, hroot, hp]
      cases hred : isRed node with
      | false =>
        refine ⟨1, _, rfl, balanced_plug haround hnode ?_⟩
        rw [hred]
        simp
      | true =>
        rw [if_neg (by simp)]
        cases path with
        | nil =>
          obtain ⟨hpainted, hblack⟩ := redBlack_paint_black hnode hred
          exact ⟨rc, _, rfl, hblack, n + 1, hpainted⟩
        | cons parent above =>
          obtain ⟨hsibling, habove⟩ := haround
          cases hcolor : parent.label.color with
          | black =>
            refine ⟨rc, _, if_pos hcolor, balanced_plug ?_ hnode ?_⟩
            · exact ⟨hsibling, habove⟩
            · simp [blackParent, hcolor]
          | red =>
            rw [hcolor] at habove
            obtain ⟨hblack, hgrand, habove⟩ := habove
            cases above with
            | nil => exact absurd hgrand (by simp [blackParent])
            | cons grandparent up =>
              have hg : grandparent.label.color = .black := of_decide_eq_true hgrand
              obtain ⟨huncle, hup⟩ := habove
              rw [hg] at hup
              have hnot : ¬ parent.label.color = .black := by simp [hcolor]
              simp only [if_neg hnot]
              by_cases hu : isRed grandparent.sibling = true
              · -- the grandparent is red now, and is found again
                have hsame := entries_plug_congr up (entries_paintCase node parent grandparent)
                have hpainted := redBlack_paintCase hnode hsibling huncle hu
                obtain ⟨l, r, hpaint⟩ := paintCase_root node parent grandparent
                rw [hpaint] at hsame hpainted
                have hord' := hord.of_entries hsame
                have hkey : S grandparent.label.key := hord'.keys_in _
                  (List.mem_map.mpr ⟨{ grandparent.label with color := .red },
                    by simp [inorder_plug, BinTree.inorder], rfl⟩)
                obtain ⟨rc', rbt', hadd, hbalanced⟩ := ih ⟨_, rbt.size⟩ hkey grandparent.label.value hord'
                  (rbtAddInternal_at hc hord' rfl) (by simp only [List.length_cons] at hfuel ⊢; omega) hup hpainted
                simp only [if_pos hu, hpaint, hadd]
                exact ⟨rc, _, rfl, hbalanced⟩
              · simp only [if_neg hu]
                rw [Bool.not_eq_true] at hu
                obtain ⟨htop, hroot⟩ := redBlack_rotateCases hnode hred hcolor hsibling hblack huncle hu
                refine ⟨rc, _, rfl, balanced_plug hup htop ?_⟩
                rw [hroot]
                simp

/-- Where a call puts its node in a balanced tree. -/
theorem Balanced.placed {t : BinTree (RbtNode K V)} (h : Balanced t) (new : RbtNode K V) (hnew : new.color = .red) :
    ∃ n, Around n (rbtAddInternal cmp new t []).2.1 ∧ RedBlack n (rbtAddInternal cmp new t []).2.2 := by
  rw [rbtAddInternal_eq]
  have hplug := @plug_descend _ (toward cmp new.key) t []
  rw [plug] at hplug
  rw [← hplug] at h
  obtain ⟨n, haround, hsub, -⟩ := h.around
  refine ⟨n, ?_, ?_⟩
  · rw [place_path]
    exact haround
  · generalize descend (toward cmp new.key) t [] = d at hsub
    obtain ⟨path, sub⟩ := d
    cases sub with
    | nil =>
      obtain rfl : n = 0 := hsub
      exact (redBlack_red hnew).mpr ⟨rfl, rfl, rfl, rfl⟩
    | node l x r => exact hsub

theorem height_le_of_redBlack {n : Nat} {t : BinTree (RbtNode K V)} (h : RedBlack n t) :
    t.height ≤ 2 * n + if isRed t then 1 else 0 := by
  induction t generalizing n with
  | nil => exact Nat.zero_le _
  | node l x r ihl ihr =>
    rw [BinTree.height]
    cases hx : x.color with
    | red =>
      obtain ⟨hl, hr, hln, hrn⟩ := (redBlack_red hx).mp h
      have hleft := ihl hln
      have hright := ihr hrn
      simp only [hl, hr, Bool.false_eq_true, if_false] at hleft hright
      simp only [isRed, hx, decide_true, if_true]
      omega
    | black =>
      obtain ⟨m, rfl, hln, hrn⟩ := (redBlack_black hx).mp h
      have hleft := ihl hln
      have hright := ihr hrn
      split_ifs at hleft hright ⊢ <;> omega

theorem nodes_ge_of_redBlack {n : Nat} {t : BinTree (RbtNode K V)} (h : RedBlack n t) :
    2^n ≤ t.inorder.length + 1 := by
  induction t generalizing n with
  | nil =>
    obtain rfl : n = 0 := h
    exact Nat.le_refl _
  | node l x r ihl ihr =>
    rw [BinTree.inorder, List.length_append, List.length_cons]
    cases hx : x.color with
    | red =>
      have hleft := ihl ((redBlack_red hx).mp h).2.2.1
      omega
    | black =>
      obtain ⟨m, rfl, hln, hrn⟩ := (redBlack_black hx).mp h
      have hleft := ihl hln
      have hright := ihr hrn
      rw [Nat.pow_succ]
      omega

theorem Balanced.height_le {t : BinTree (RbtNode K V)} (h : Balanced t) :
    t.height ≤ 2 * Nat.log 2 (t.inorder.length + 1) := by
  obtain ⟨hblack, n, hn⟩ := h
  have hheight := height_le_of_redBlack hn
  have hlog : n ≤ Nat.log 2 (t.inorder.length + 1) := Nat.le_log_of_pow_le (by omega) (nodes_ge_of_redBlack hn)
  rw [hblack] at hheight
  simp only [Bool.false_eq_true, if_false] at hheight
  omega

theorem Balanced.rbtAdd (hc : StrictOn cmp S) {fuel : Nat} {rbt : Rbt K V} (h : Balanced rbt.root)
    (hord : Ordered cmp S rbt.root) {k : K} (hk : S k) (v : V) (hfuel : Nat.log 2 (nodeCount rbt + 1) < fuel) :
    ∃ rc rbt', RbTree.rbtAdd cmp fuel rbt k v = some (rc, rbt') ∧ Balanced rbt'.root ∧ Ordered cmp S rbt'.root ∧
      (∀ k', k' ∈ keys rbt'.root ↔ k' = k ∨ k' ∈ keys rbt.root) ∧ nodeCount rbt' ≤ nodeCount rbt + 1 := by
  obtain ⟨n, haround, hnode⟩ := h.placed ⟨.red, k, v⟩ rfl
  have hpath := @descend_length_le_height _ (toward cmp k) rbt.root []
  have hheight := h.height_le
  have hlength : (rbtAddInternal cmp ⟨.red, k, v⟩ rbt.root []).2.1.length < 2 * fuel := by
    rw [rbtAddInternal_eq, place_path]
    change (descend (toward cmp k) rbt.root []).1.length < _
    rw [nodeCount] at hfuel
    rw [List.length_nil] at hpath
    omega
  obtain ⟨rc, rbt', hadd, hbalanced⟩ := rbtAdd_balanced hc fuel rbt hk v hord rfl hlength haround hnode
  -- the same call with more fuel
  obtain ⟨rc₁, rbt₁, hadd₁, hord₁, hkeys, hcount⟩ :=
    rbtAdd_nodes hc hk v hord (Nat.lt_of_lt_of_le (Nat.lt_succ_self _) (Nat.le_max_right fuel (nodeCount rbt + 1)))
  have hmore := rbtAdd_mono (Nat.le_max_left fuel (nodeCount rbt + 1)) hadd
  rw [hmore] at hadd₁
  obtain ⟨rfl, rfl⟩ := Prod.mk.inj (Option.some.inj hadd₁)
  exact ⟨rc, rbt', hadd, hbalanced, hord₁, hkeys, by omega⟩

theorem Balanced.rbtAdds (hc : StrictOn cmp S) {fuel : Nat} {rbt : Rbt K V} (h : Balanced rbt.root)
    (hord : Ordered cmp S rbt.root) {kvs : List (K × V)} (hkvs : ∀ kv ∈ kvs, S kv.1)
    (hfuel : Nat.log 2 (nodeCount rbt + kvs.length) < fuel) :
    ∃ rbt', RbTree.rbtAdds cmp fuel rbt kvs = some rbt' ∧ Balanced rbt'.root ∧ Ordered cmp S rbt'.root ∧
      ∀ k, k ∈ keys rbt'.root ↔ k ∈ kvs.map Prod.fst ∨ k ∈ keys rbt.root := by
  induction kvs generalizing rbt with
  | nil => exact ⟨rbt, rfl, h, hord, fun k => by simp⟩
  | cons kv kvs ih =>
    rw [List.length_cons] at hfuel
    have hlog : ∀ m, m ≤ nodeCount rbt + (kvs.length + 1) → Nat.log 2 m < fuel :=
      fun m hm => Nat.lt_of_le_of_lt (Nat.log_mono_right hm) hfuel
    obtain ⟨rc, rbt₁, hadd, h₁, hord₁, hkeys₁, hcount⟩ :=
      h.rbtAdd hc hord (hkvs kv List.mem_cons_self) kv.2 (hlog _ (by omega))
    obtain ⟨rbt₂, hadds, h₂, hord₂, hkeys₂⟩ :=
      ih h₁ hord₁ (fun kv' hkv' => hkvs kv' (List.mem_cons_of_mem kv hkv')) (hlog _ (by omega))
    refine ⟨rbt₂, ?_, h₂, hord₂, ?_⟩
    · rw [RbTree.rbtAdds, List.foldlM_cons, hadd]
      exact hadds
    · intro k
      rw [hkeys₂, hkeys₁, List.map_cons, List.mem_cons]
      tauto

end Order

/-- After any calls the tree is a red-black tree of the keys that were added, so that no node is deeper
than twice the logarithm of their number. A call calls itself no more often than that logarithm. -/
theorem rbt_stays_balanced {cmp : K → K → Int} (hc : StrictOn cmp fun _ => True) (kvs : List (K × V)) :
    ∃ rbt, rbtAdds cmp (Nat.log 2 kvs.length + 1) rbtCreate kvs = some rbt ∧ Balanced rbt.root ∧
      rbt.root.height ≤ 2 * Nat.log 2 (nodeCount rbt + 1) ∧ Increasing cmp (keys rbt.root) ∧
      ∀ k, k ∈ keys rbt.root ↔ k ∈ kvs.map Prod.fst := by
  have hempty : Balanced (rbtCreate : Rbt K V).root := ⟨rfl, 0, rfl⟩
  have hfuel : Nat.log 2 (nodeCount (rbtCreate : Rbt K V) + kvs.length) < Nat.log 2 kvs.length + 1 := by
    rw [show nodeCount (rbtCreate : Rbt K V) = 0 from rfl, Nat.zero_add]
    exact Nat.lt_succ_self _
  obtain ⟨rbt, hadds, hbalanced, hord, hkeys⟩ := hempty.rbtAdds hc ordered_nil (fun _ _ => trivial) hfuel
  refine ⟨rbt, hadds, hbalanced, hbalanced.height_le, hord.increasing, ?_⟩
  intro k
  rw [hkeys]
  simp [rbtCreate, keys, BinTree.inorder]

theorem rbt_stays_balanced_three :
    ∃ rbt, rbtAdds (fun a b : Int => a - b) (Nat.log 2 [((1 : Int), 'a'), (2, 'b'), (3, 'c')].length + 1) rbtCreate
        [(1, 'a'), (2, 'b'), (3, 'c')] = some rbt ∧
      Balanced rbt.root ∧ rbt.root.height ≤ 2 * Nat.log 2 (nodeCount rbt + 1) ∧
      Increasing (fun a b : Int => a - b) (keys rbt.root) ∧
      ∀ k, k ∈ keys rbt.root ↔ k ∈ [((1 : Int), 'a'), (2, 'b'), (3, 'c')].map Prod.fst :=
  rbt_stays_balanced strictOn_sub [((1 : Int), 'a'), (2, 'b'), (3, 'c')]

end Miqs.RbTree
