import Miqs.AssocMap

/-! Items in buckets: every item stands in the bucket of its place, so that all items with a
property that fixes the place are found in one bucket, in order. -/
namespace Miqs.Buckets
variable {K α : Type*} [DecidableEq K]

def items (b : List (K × List α)) : List α := b.flatMap Prod.snd

def bucket (b : List (K × List α)) (k : K) : List α := (AssocMap.search b k).getD []

structure Placed (place : α → K) (b : List (K × List α)) : Prop where
  nodup : (b.map Prod.fst).Nodup
  there : ∀ e ∈ b, ∀ x ∈ e.2, place x = e.1

omit [DecidableEq K] in
theorem placed_nil (place : α → K) : Placed place ([] : List (K × List α)) := ⟨List.nodup_nil, by simp⟩

theorem bucket_cons (e : K × List α) (b : List (K × List α)) (k : K) :
    bucket (e :: b) k = if e.1 = k then e.2 else bucket b k := by
  rw [bucket, AssocMap.search]
  split_ifs <;> rfl

theorem bucket_insert (b : List (K × List α)) (k k' : K) (l : List α) :
    bucket (AssocMap.insert b k l) k' = if k = k' then l else bucket b k' := by
  rw [bucket, AssocMap.search_insert]
  split_ifs <;> rfl

section Placed
variable {place : α → K} {b : List (K × List α)} (h : Placed place b)
include h

theorem Placed.mem_bucket {k : K} {x : α} (hx : x ∈ bucket b k) : place x = k := by
  rw [bucket] at hx
  cases hs : AssocMap.search b k with
  | none =>
    rw [hs] at hx
    cases hx
  | some l =>
    rw [hs] at hx
    exact h.there (k, l) (AssocMap.mem_of_search hs) x hx

theorem Placed.insert {k : K} {l : List α} (hl : ∀ x ∈ l, place x = k) : Placed place (AssocMap.insert b k l) := by
  refine ⟨AssocMap.nodup_insert h.nodup k l, ?_⟩
  intro e he
  rcases AssocMap.mem_insert he with heq | he
  · rw [heq]
    exact hl
  · exact h.there e he

/-- The items with a property that fixes their place. -/
theorem Placed.filter_items {k : K} {p : α → Bool} (hp : ∀ x, p x = true → place x = k) :
    (items b).filter p = (bucket b k).filter p := by
  induction b with
  | nil => rfl
  | cons e b ih =>
    have hn := List.nodup_cons.mp h.nodup
    have hb : Placed place b := ⟨hn.2, fun e' he' => h.there e' (List.mem_cons_of_mem _ he')⟩
    rw [items, List.flatMap_cons, List.filter_append, ← items, ih hb, bucket_cons]
    by_cases hk : e.1 = k
    · have hnone : AssocMap.search b k = none := (AssocMap.search_eq_none b k).mpr (hk ▸ hn.1)
      rw [if_pos hk, bucket, hnone]
      simp
    · have hnil : e.2.filter p = [] := by
        rw [List.filter_eq_nil_iff]
        intro x hx hpx
        exact hk ((h.there e (by simp) x hx).symm.trans (hp x hpx))
      rw [if_neg hk, hnil, List.nil_append]

theorem Placed.length_insert {k : K} (l : List α) :
    (items (AssocMap.insert b k l)).length + (bucket b k).length = (items b).length + l.length := by
  induction b with
  | nil => simp [items, AssocMap.insert, bucket, AssocMap.search]
  | cons e b ih =>
    have hn := List.nodup_cons.mp h.nodup
    have ih := ih ⟨hn.2, fun e' he' => h.there e' (List.mem_cons_of_mem _ he')⟩
    rw [items, items] at ih
    by_cases hk : e.1 = k
    · simp only [items, AssocMap.insert, if_pos hk, List.flatMap_cons, List.length_append, bucket_cons]
      omega
    · simp only [items, AssocMap.insert, if_neg hk, List.flatMap_cons, List.length_append, bucket_cons]
      omega

end Placed

def distribute (place : α → K) (xs : List α) : List (K × List α) :=
  xs.foldl (fun b x => AssocMap.insert b (place x) (bucket b (place x) ++ [x])) []

theorem distribute_append (place : α → K) (xs : List α) (x : α) :
    distribute place (xs ++ [x]) = AssocMap.insert (distribute place xs) (place x)
      (bucket (distribute place xs) (place x) ++ [x]) := by
  rw [distribute, List.foldl_append, ← distribute]
  rfl

theorem placed_distribute (place : α → K) (xs : List α) : Placed place (distribute place xs) := by
  induction xs using List.reverseRecOn with
  | nil => exact placed_nil place
  | append_singleton xs x ih =>
    rw [distribute_append]
    apply ih.insert
    intro y hy
    rcases List.mem_append.mp hy with hy | hy
    · exact ih.mem_bucket hy
    · rw [List.mem_singleton.mp hy]

theorem bucket_distribute (place : α → K) (xs : List α) (k : K) :
    bucket (distribute place xs) k = xs.filter fun x => place x = k := by
  induction xs using List.reverseRecOn with
  | nil => rfl
  | append_singleton xs x ih =>
    rw [distribute_append, bucket_insert, List.filter_append]
    by_cases hk : place x = k
    · rw [if_pos hk, hk, ih]
      simp [hk]
    · rw [if_neg hk, ih]
      simp [hk]

theorem length_distribute (place : α → K) (xs : List α) : (items (distribute place xs)).length = xs.length := by
  induction xs using List.reverseRecOn with
  | nil => rfl
  | append_singleton xs x ih =>
    have hlen := (placed_distribute place xs).length_insert (bucket (distribute place xs) (place x) ++ [x])
      (k := place x)
    rw [distribute_append, List.length_append, List.length_singleton]
    rw [List.length_append, List.length_singleton] at hlen
    omega

/-- Items with a property that fixes their place keep their order. -/
theorem filter_distribute {place : α → K} {k : K} {p : α → Bool} (hp : ∀ x, p x = true → place x = k) (xs : List α) :
    (items (distribute place xs)).filter p = xs.filter p := by
  rw [(placed_distribute place xs).filter_items hp, bucket_distribute, List.filter_filter]
  apply List.filter_congr
  intro x _
  cases hpx : p x with
  | false => rfl
  | true => simp [hp x hpx]

theorem distribute_congr {place place' : α → K} {xs : List α} (h : ∀ x ∈ xs, place x = place' x) :
    distribute place xs = distribute place' xs := by
  induction xs using List.reverseRecOn with
  | nil => rfl
  | append_singleton xs x ih =>
    rw [distribute_append, distribute_append, ih fun y hy => h y (List.mem_append_left _ hy), h x (by simp)]

section First
variable {p q : α → Bool} {f : α → α}

def updateFirst (p : α → Bool) (f : α → α) : List α → List α
  | [] => []
  | x :: xs => if p x then f x :: xs else x :: updateFirst p f xs

theorem filter_updateFirst (hf : ∀ x, p x = true → p (f x) = true) (xs : List α) :
    (updateFirst p f xs).filter p = updateFirst p f (xs.filter p) := by
  induction xs with
  | nil => rfl
  | cons x xs ih =>
    cases hx : p x with
    | true => simp [updateFirst, hx, hf x hx]
    | false => simp [updateFirst, hx, ih]

theorem filter_updateFirst_of_disjoint (hf : ∀ x, p x = true → q x = false ∧ q (f x) = false) (xs : List α) :
    (updateFirst p f xs).filter q = xs.filter q := by
  induction xs with
  | nil => rfl
  | cons x xs ih =>
    cases hx : p x with
    | true => simp [updateFirst, hx, hf x hx]
    | false => simp [updateFirst, hx, ih, List.filter_cons]

theorem length_updateFirst (xs : List α) : (updateFirst p f xs).length = xs.length := by
  induction xs with
  | nil => rfl
  | cons x xs ih =>
    rw [updateFirst]
    split_ifs
    · rfl
    · rw [List.length_cons, ih, List.length_cons]

theorem mem_updateFirst {x : α} {xs : List α} (h : x ∈ updateFirst p f xs) :
    x ∈ xs ∨ ∃ y ∈ xs, p y = true ∧ x = f y := by
  induction xs with
  | nil => cases h
  | cons y xs ih =>
    rw [updateFirst] at h
    split_ifs at h with hy
    · rcases List.mem_cons.mp h with rfl | h
      · exact .inr ⟨y, by simp, hy, rfl⟩
      · exact .inl (List.mem_cons_of_mem _ h)
    · rcases List.mem_cons.mp h with rfl | h
      · exact .inl (by simp)
      · rcases ih h with h | ⟨z, hz, hpz, hx⟩
        · exact .inl (List.mem_cons_of_mem _ h)
        · exact .inr ⟨z, List.mem_cons_of_mem _ hz, hpz, hx⟩

theorem filter_eraseP (xs : List α) : (xs.eraseP p).filter p = (xs.filter p).tail := by
  induction xs with
  | nil => rfl
  | cons x xs ih => cases hx : p x <;> simp [hx, ih]

theorem filter_eraseP_of_disjoint (h : ∀ x, p x = true → q x = false) (xs : List α) :
    (xs.eraseP p).filter q = xs.filter q := by
  induction xs with
  | nil => rfl
  | cons x xs ih =>
    cases hx : p x with
    | true => simp [hx, h x hx]
    | false => simp [hx, ih, List.filter_cons]

end First

end Miqs.Buckets
