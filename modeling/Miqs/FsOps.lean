import Mathlib.Data.List.Nodup
import Mathlib.Data.List.Perm.Basic
import Mathlib.Data.List.Sort
import Miqs.CData

/-! The traversal of a directory tree. What `scandir` finds is a parameter; running out of
steps stands for a descent that does not end. -/
namespace Miqs.FsOps
open Miqs.CData
variable {σ : Type}

structure Dirent where
  dName : CString
  /-- `d_type == DT_DIR` -/
  isDir : Bool
  deriving DecidableEq

abbrev FileSystem := CString → Option (List Dirent)

/-- `scandir`: the accepted entries, sorted; `none` is an error. -/
def scandir (fs : FileSystem) (filter : Dirent → Bool) (cmp : Dirent → Dirent → Bool)
    (dirPath : CString) : Option (List Dirent) :=
  (fs dirPath).map fun entries => (entries.filter filter).insertionSort fun a b => cmp a b

def joinPath (dirPath name : CString) : CString where
  bytes := dirPath.bytes ++ 47 :: name.bytes
  nulFree := by
    intro h
    rcases List.mem_append.mp h with h | h
    · exact dirPath.nulFree h
    · rcases List.mem_cons.mp h with h | h
      · exact absurd h (by decide)
      · exact name.nulFree h

def truncate (n : Nat) (s : CString) : CString where
  bytes := s.bytes.take n
  nulFree := fun h => s.nulFree (List.mem_of_mem_take h)

inductive SortingDirection where
  | asc
  | desc
  deriving DecidableEq

def SortingDirection.order (namelist : List Dirent) : SortingDirection → List Dirent
  | .asc => namelist
  | .desc => namelist.reverse

structure Callbacks (σ : Type) where
  onFile : Option (Dirent → CString → σ → Option σ)
  onDir : Option (Dirent → CString → σ → Option σ)
  preOp : Option (σ → Option σ)
  postOp : Option (σ → Option σ)

def callOp (op : Option (σ → Option σ)) (s : σ) : Option σ :=
  match op with
  | some f => f s
  | none => some s

def callOn (on : Option (Dirent → CString → σ → Option σ)) (entry : Dirent) (parentPath : CString)
    (s : σ) : Option σ :=
  match on with
  | some f => f entry parentPath s
  | none => some s

def whileLoop (topk : Int) (body : Dirent → σ → Option σ) : Nat → List Dirent → σ → Option σ
  | _, [], s => some s
  | count, entry :: rest, s =>
    if (if topk > 0 then (count : Int) < topk else True) then do
      whileLoop topk body (count + 1) rest (← body entry s)
    else some s

def subPath (dirPath : CString) (entry : Dirent) : CString := truncate 1022 (joinPath dirPath entry.dName)

def collectDir (scan : CString → Option (List Dirent)) (sd : SortingDirection) (topk : Int)
    (cb : Callbacks σ) : Nat → CString → σ → Option σ
  | 0, _, _ => none
  | fuel+1, dirPath, s =>
    match scan dirPath with
    | none => some s
    | some namelist =>
      whileLoop topk (fun entry s => do
        let s ← callOp cb.preOp s
        let s ← if entry.isDir then do
            let s ← callOn cb.onDir entry dirPath s
            collectDir scan sd topk cb fuel (subPath dirPath entry) s
          else callOn cb.onFile entry dirPath s
        callOp cb.postOp s) 0 (sd.order namelist) s

def selected (sd : SortingDirection) (topk : Int) (namelist : List Dirent) : List Dirent :=
  if topk > 0 then (sd.order namelist).take topk.toNat else sd.order namelist

def visits (scan : CString → Option (List Dirent)) (sd : SortingDirection) (topk : Int) :
    Nat → CString → Option (List (Dirent × CString))
  | 0, _ => none
  | fuel+1, dirPath =>
    match scan dirPath with
    | none => some []
    | some namelist =>
      ((selected sd topk namelist).mapM fun entry : Dirent =>
        if entry.isDir then visits scan sd topk fuel (subPath dirPath entry)
        else some [(entry, dirPath)]).map List.flatten

theorem whileLoop_eq_foldlM (topk : Int) (body : Dirent → σ → Option σ) (count : Nat)
    (entries : List Dirent) (s : σ) : whileLoop topk body count entries s =
      (if topk > 0 then entries.take (topk.toNat - count) else entries).foldlM (fun s e => body e s) s := by
  induction entries generalizing count s with
  | nil => simp [whileLoop]
  | cons entry rest ih =>
    rw [whileLoop]
    by_cases htop : topk > 0
    · by_cases hcount : (count : Int) < topk
      · obtain ⟨n, hn⟩ : ∃ n, topk.toNat - count = n + 1 := Nat.exists_eq_succ_of_ne_zero (by omega)
        have hnext : topk.toNat - (count + 1) = n := by omega
        simp only [htop, hcount, if_true, hn, List.take_succ_cons, List.foldlM_cons, Option.bind_eq_bind]
        congr 1
        funext s'
        rw [ih, if_pos htop, hnext]
      · have hzero : topk.toNat - count = 0 := by omega
        simp [htop, hcount, hzero]
    · simp only [htop, if_true, if_false, List.foldlM_cons, Option.bind_eq_bind]
      congr 1
      funext s'
      rw [ih, if_neg htop]

/-- A fold over lists that are computed one by one is a fold over all of them. -/
theorem foldlM_flatten {α β : Type} (g : α → Option (List β)) (step : σ → β → Option σ)
    (body : α → σ → Option σ) (hbody : ∀ a s, body a s = (g a).bind fun bs => bs.foldlM step s)
    (l : List α) (s : σ) : l.foldlM (fun s a => body a s) s =
      ((l.mapM g).map List.flatten).bind fun bs => bs.foldlM step s := by
  induction l generalizing s with
  | nil => rfl
  | cons a l ih =>
    rw [List.foldlM_cons, List.mapM_cons, hbody]
    cases hg : g a with
    | none => rfl
    | some bs =>
      simp only [Option.bind_eq_bind, Option.bind_some]
      cases hs : bs.foldlM step s with
      | none =>
        cases l.mapM g with
        | none => rfl
        | some bss => simp [List.foldlM_append, hs]
      | some s' =>
        rw [Option.bind_some, ih]
        cases l.mapM g with
        | none => rfl
        | some bss => simp [List.foldlM_append, hs]

def fileCallbacks (onFile : Dirent → CString → σ → Option σ) : Callbacks σ :=
  ⟨some onFile, some fun _ _ s => some s, none, none⟩

/-- A traversal makes its calls one after another. -/
theorem collectDir_eq_visits (scan : CString → Option (List Dirent)) (sd : SortingDirection)
    (topk : Int) (onFile : Dirent → CString → σ → Option σ) (fuel : Nat) (dirPath : CString) (s : σ) :
    collectDir scan sd topk (fileCallbacks onFile) fuel dirPath s =
      (visits scan sd topk fuel dirPath).bind fun calls =>
        calls.foldlM (fun s call => onFile call.1 call.2 s) s := by
  induction fuel generalizing dirPath s with
  | zero => rfl
  | succ fuel ih =>
    rw [collectDir, visits]
    cases scan dirPath with
    | none => rfl
    | some namelist =>
      dsimp only
      rw [whileLoop_eq_foldlM]
      refine foldlM_flatten _ _ _ ?_ _ s
      intro entry s
      cases hdir : entry.isDir with
      | true => simp [fileCallbacks, callOp, callOn, ← ih]
      | false => simp [fileCallbacks, callOp, callOn]

def NamesOk (fs : FileSystem) : Prop :=
  ∀ dirPath entries, fs dirPath = some entries →
    (entries.map Dirent.dName).Nodup ∧ ∀ entry ∈ entries, 47 ∉ entry.dName.bytes

theorem NamesOk.scandir {fs : FileSystem} (h : NamesOk fs) (filter : Dirent → Bool)
    (cmp : Dirent → Dirent → Bool) : NamesOk (scandir fs filter cmp) := by
  intro dirPath entries hscan
  obtain ⟨all, hall, rfl⟩ := Option.map_eq_some_iff.mp hscan
  obtain ⟨hnodup, hslash⟩ := h dirPath all hall
  have hperm := List.perm_insertionSort (fun a b => cmp a b = true) (all.filter filter)
  constructor
  · rw [(hperm.map _).nodup_iff]
    exact hnodup.sublist (List.filter_sublist.map _)
  · intro entry he
    exact hslash entry (List.mem_of_mem_filter (hperm.mem_iff.mp he))

def callPath (call : Dirent × CString) : CString := joinPath call.2 call.1.dName

def entryVisits (scan : CString → Option (List Dirent)) (sd : SortingDirection) (topk : Int)
    (fuel : Nat) (dirPath : CString) (entry : Dirent) : Option (List (Dirent × CString)) :=
  if entry.isDir then visits scan sd topk fuel (subPath dirPath entry) else some [(entry, dirPath)]

theorem mem_flatten_of_mapM {α β : Type} {g : α → Option (List β)} {l : List α} {bss : List (List β)}
    (h : l.mapM g = some bss) {b : β} (hb : b ∈ bss.flatten) : ∃ a ∈ l, ∃ bs, g a = some bs ∧ b ∈ bs := by
  induction l generalizing bss with
  | nil =>
    obtain rfl : bss = [] := by simpa using h.symm
    simp at hb
  | cons a l ih =>
    rw [List.mapM_cons] at h
    obtain ⟨bs, hbs, h⟩ := Option.bind_eq_some_iff.mp h
    obtain ⟨bss', hbss', h⟩ := Option.bind_eq_some_iff.mp h
    obtain rfl : bs :: bss' = bss := by simpa using h
    rcases List.mem_append.mp hb with hb | hb
    · exact ⟨a, by simp, bs, hbs, hb⟩
    · obtain ⟨a', ha', hrest⟩ := ih hbss' hb
      exact ⟨a', List.mem_cons_of_mem a ha', hrest⟩

/-- A path that is shorter than the buffer was not cut. -/
theorem subPath_of_lt {dirPath : CString} {entry : Dirent}
    (h : (subPath dirPath entry).bytes.length < 1022) :
    (subPath dirPath entry).bytes = dirPath.bytes ++ 47 :: entry.dName.bytes := by
  have hsub : (subPath dirPath entry).bytes = (dirPath.bytes ++ 47 :: entry.dName.bytes).take 1022 := rfl
  rw [hsub, List.length_take] at h
  rw [hsub]
  exact List.take_of_length_le (by omega)

theorem visits_path {scan : CString → Option (List Dirent)} {sd : SortingDirection} {topk : Int}
    {fuel : Nat} {dirPath : CString} {calls : List (Dirent × CString)}
    (h : visits scan sd topk fuel dirPath = some calls) {call : Dirent × CString} (hc : call ∈ calls)
    (hlen : (callPath call).bytes.length < 1022) :
    ∃ rest, (callPath call).bytes = dirPath.bytes ++ 47 :: rest := by
  induction fuel generalizing dirPath calls with
  | zero => simp [visits] at h
  | succ fuel ih =>
    rw [visits] at h
    cases hscan : scan dirPath with
    | none =>
      rw [hscan] at h
      obtain rfl : calls = [] := by simpa using h.symm
      simp at hc
    | some namelist =>
      rw [hscan] at h
      obtain ⟨bss, hbss, rfl⟩ := Option.map_eq_some_iff.mp h
      obtain ⟨entry, -, bs, hbs, hmem⟩ := mem_flatten_of_mapM hbss hc
      split_ifs at hbs with hdir
      · obtain ⟨rest, hrest⟩ := ih hbs hmem
        have hsub : (subPath dirPath entry).bytes.length < 1022 := by
          rw [hrest, List.length_append] at hlen
          omega
        rw [subPath_of_lt hsub] at hrest
        exact ⟨entry.dName.bytes ++ 47 :: rest, by rw [hrest]; simp⟩
      · obtain rfl := Option.some.inj hbs
        obtain rfl := List.mem_singleton.mp hmem
        exact ⟨entry.dName.bytes, rfl⟩

def nameBelow (dirPath path : CString) : List UInt8 :=
  (path.bytes.drop (dirPath.bytes.length + 1)).takeWhile (· ≠ 47)

theorem nameBelow_of_eq {dirPath path : CString} {name rest : List UInt8} (hname : 47 ∉ name)
    (hrest : rest = [] ∨ ∃ tail, rest = 47 :: tail)
    (h : path.bytes = dirPath.bytes ++ 47 :: (name ++ rest)) : nameBelow dirPath path = name := by
  have hdrop : path.bytes.drop (dirPath.bytes.length + 1) = name ++ rest := by
    rw [h, List.drop_append, List.drop_of_length_le (by omega)]
    simp
  have hall : ∀ b ∈ name, decide (b ≠ 47) = true := by
    intro b hb
    exact decide_eq_true fun h47 => hname (h47 ▸ hb)
  rw [nameBelow, hdrop, List.takeWhile_append_of_pos hall]
  rcases hrest with rfl | ⟨tail, rfl⟩ <;> simp

/-- A call's path goes through the entry that led to it. -/
theorem nameBelow_of_entryVisits {scan : CString → Option (List Dirent)} {sd : SortingDirection}
    {topk : Int} {fuel : Nat} {dirPath : CString} {entry : Dirent} (hname : 47 ∉ entry.dName.bytes)
    {calls : List (Dirent × CString)} (h : entryVisits scan sd topk fuel dirPath entry = some calls)
    {call : Dirent × CString} (hc : call ∈ calls) (hlen : (callPath call).bytes.length < 1022) :
    nameBelow dirPath (callPath call) = entry.dName.bytes := by
  rw [entryVisits] at h
  split_ifs at h with hdir
  · obtain ⟨rest, hrest⟩ := visits_path h hc hlen
    have hsub : (subPath dirPath entry).bytes.length < 1022 := by
      rw [hrest, List.length_append] at hlen
      omega
    rw [subPath_of_lt hsub] at hrest
    exact nameBelow_of_eq hname (Or.inr ⟨rest, rfl⟩) (by rw [hrest]; simp)
  · obtain rfl := Option.some.inj h
    obtain rfl := List.mem_singleton.mp hc
    exact nameBelow_of_eq hname (Or.inl rfl) (by simp [callPath, joinPath])

theorem order_perm (sd : SortingDirection) (namelist : List Dirent) :
    (sd.order namelist).Perm namelist := by
  cases sd with
  | asc => exact List.Perm.refl _
  | desc => exact List.reverse_perm _

theorem selected_sublist (sd : SortingDirection) (topk : Int) (namelist : List Dirent) :
    (selected sd topk namelist).Sublist (sd.order namelist) := by
  rw [selected]
  split_ifs
  · exact List.take_sublist _ _
  · exact List.Sublist.refl _

/-- The paths below different entries have different first names. -/
theorem nodup_entries {dirPath : CString} {g : Dirent → Option (List (Dirent × CString))}
    {entries : List Dirent} (hnames : (entries.map Dirent.dName).Nodup)
    (hnodup : ∀ entry ∈ entries, ∀ calls, g entry = some calls →
      (∀ call ∈ calls, (callPath call).bytes.length < 1022) → (calls.map callPath).Nodup)
    (hbelow : ∀ entry ∈ entries, ∀ calls, g entry = some calls → ∀ call ∈ calls,
      (callPath call).bytes.length < 1022 → nameBelow dirPath (callPath call) = entry.dName.bytes)
    {bss : List (List (Dirent × CString))} (h : entries.mapM g = some bss)
    (hlen : ∀ call ∈ bss.flatten, (callPath call).bytes.length < 1022) :
    (bss.flatten.map callPath).Nodup := by
  induction entries generalizing bss with
  | nil =>
    obtain rfl : bss = [] := by simpa using h.symm
    exact List.nodup_nil
  | cons entry rest ih =>
    rw [List.map_cons, List.nodup_cons] at hnames
    rw [List.mapM_cons] at h
    obtain ⟨bs, hbs, h⟩ := Option.bind_eq_some_iff.mp h
    obtain ⟨bss', hbss', h⟩ := Option.bind_eq_some_iff.mp h
    obtain rfl : bs :: bss' = bss := by simpa using h
    rw [List.flatten_cons] at hlen ⊢
    have hlen₁ : ∀ call ∈ bs, (callPath call).bytes.length < 1022 :=
      fun call hc => hlen call (List.mem_append_left _ hc)
    have hlen₂ : ∀ call ∈ bss'.flatten, (callPath call).bytes.length < 1022 :=
      fun call hc => hlen call (List.mem_append_right _ hc)
    have htail := ih hnames.2 (fun e he => hnodup e (List.mem_cons_of_mem entry he))
      (fun e he => hbelow e (List.mem_cons_of_mem entry he)) hbss' hlen₂
    rw [List.map_append]
    refine (hnodup entry (by simp) bs hbs hlen₁).append htail ?_
    intro path hp hp'
    obtain ⟨call, hc, rfl⟩ := List.mem_map.mp hp
    obtain ⟨call', hc', heq⟩ := List.mem_map.mp hp'
    obtain ⟨entry', he', bs', hbs', hmem'⟩ := mem_flatten_of_mapM hbss' hc'
    have hname := hbelow entry (by simp) bs hbs call hc (hlen₁ call hc)
    have hname' := hbelow entry' (List.mem_cons_of_mem entry he') bs' hbs' call' hmem' (hlen₂ call' hc')
    rw [heq, hname] at hname'
    exact hnames.1 (List.mem_map.mpr ⟨entry', he', CString.ext hname'.symm⟩)

/-- No path is handed over twice. -/
theorem nodup_visits {scan : CString → Option (List Dirent)} (hscan : NamesOk scan)
    {sd : SortingDirection} {topk : Int} {fuel : Nat} {dirPath : CString}
    {calls : List (Dirent × CString)} (h : visits scan sd topk fuel dirPath = some calls)
    (hlen : ∀ call ∈ calls, (callPath call).bytes.length < 1022) : (calls.map callPath).Nodup := by
  induction fuel generalizing dirPath calls with
  | zero => simp [visits] at h
  | succ fuel ih =>
    rw [visits] at h
    cases hs : scan dirPath with
    | none =>
      rw [hs] at h
      obtain rfl : calls = [] := by simpa using h.symm
      exact List.nodup_nil
    | some namelist =>
      rw [hs] at h
      obtain ⟨bss, hbss, rfl⟩ := Option.map_eq_some_iff.mp h
      obtain ⟨hnodup, hslash⟩ := hscan dirPath namelist hs
      have hnames : ((selected sd topk namelist).map Dirent.dName).Nodup :=
        (((order_perm sd namelist).map _).nodup_iff.mpr hnodup).sublist
          ((selected_sublist sd topk namelist).map _)
      have hmem : ∀ entry ∈ selected sd topk namelist, entry ∈ namelist := fun entry he =>
        (order_perm sd namelist).mem_iff.mp ((selected_sublist sd topk namelist).subset he)
      refine nodup_entries hnames ?_ (fun entry he bs hbs call hc hshort =>
        nameBelow_of_entryVisits (hslash entry (hmem entry he)) hbs hc hshort) hbss hlen
      intro entry _ bs hbs hshort
      rw [entryVisits] at hbs
      split_ifs at hbs with hdir
      · exact ih hbs hshort
      · obtain rfl := Option.some.inj hbs
        exact List.nodup_singleton _

end Miqs.FsOps
