import Miqs.HashTable
import Miqs.Threads

/-! The status of the hash table as a lock. Readers add themselves to it and writers replace it, all by
compare and swap. A step is one such access. -/
namespace Miqs.HtLock
open Miqs.Threads
variable {ι : Type}

inductive Writer where
  | clear
  | write
  | grow

def Writer.status : Writer → Nat
  | .clear => 0
  | .write => 1
  | .grow => 2

def idle : Nat := 3

def read : Nat := 4

/-- Where a thread is. A reader has chosen the index of its list before it has the table. -/
inductive At where
  | outside
  /-- In `ht_get_list`, before `ATOMIC_CAS_RETURN(status, IDLE, READ)`. -/
  | trying (index : Nat)
  /-- Other readers were there, before `ATOMIC_CAS(status, seen, seen + 1)`. -/
  | joining (index seen : Nat)
  /-- Before it takes the list. `status` is what it has set the status to. -/
  | reading (index status : Nat)
  /-- Before `ATOMIC_CAS(status, status, status - 1)`. -/
  | releasing (status : Nat)
  /-- Before `ATOMIC_CAS_RETURN(status, READ, IDLE)`. -/
  | retrying
  /-- After the loop, though the status was not decremented. -/
  | astray
  /-- Before `ATOMIC_CAS(status, IDLE, w)`. -/
  | wanting (w : Writer)
  | writing (w : Writer)
  /-- `ht_grow_table` after it has set the size. -/
  | moving

structure Table (ι : Type) where
  status : Nat
  size : Nat
  maxSize : Nat
  thread : ι → At

def init (initialSize maxSize : Nat) : Table ι where
  status := idle
  size := if initialSize > Ht.htSizeMin then initialSize else Ht.htSizeMin
  maxSize := maxSize
  thread _ := .outside

def newSize (t : Table ι) : Nat :=
  if t.maxSize ≠ 0 ∧ t.maxSize < t.size * 2 then t.maxSize else t.size * 2

def Full (t : Table ι) : Prop := t.maxSize ≠ 0 ∧ t.maxSize ≤ t.size

inductive Acts (t : Table ι) : At → Nat → Nat → At → Prop where
  | getList (hash : Nat) : Acts t .outside t.status t.size (.trying (hash % t.size))
  | first {index : Nat} : t.status = idle → Acts t (.trying index) read t.size (.reading index read)
  | others {index : Nat} : read ≤ t.status → Acts t (.trying index) t.status t.size (.joining index t.status)
  | wait {index : Nat} : t.status < idle → Acts t (.trying index) t.status t.size (.trying index)
  | join {index seen : Nat} : t.status = seen →
      Acts t (.joining index seen) (seen + 1) t.size (.reading index (seen + 1))
  | changed {index seen : Nat} : t.status ≠ seen → Acts t (.joining index seen) t.status t.size (.trying index)
  | listTaken {index status : Nat} : Acts t (.reading index status) t.status t.size (.releasing status)
  | release {status : Nat} : t.status = status → Acts t (.releasing status) (status - 1) t.size .outside
  | notLast {status : Nat} : t.status ≠ status → Acts t (.releasing status) t.status t.size .retrying
  | last : t.status = read → Acts t .retrying idle t.size .outside
  | again : read < t.status → Acts t .retrying t.status t.size (.releasing t.status)
  | stray : t.status < read → Acts t .retrying t.status t.size .astray
  | want (w : Writer) : Acts t .outside t.status t.size (.wanting w)
  | acquire {w : Writer} : t.status = idle → Acts t (.wanting w) w.status t.size (.writing w)
  | busy {w : Writer} : t.status ≠ idle → Acts t (.wanting w) t.status t.size (.wanting w)
  /-- `ht_grow_table` leaves it to the next call. -/
  | giveUp : t.status ≠ idle → Acts t (.wanting .grow) t.status t.size .outside
  | resize : ¬ Full t → Acts t (.writing .grow) t.status (newSize t) .moving
  | done {w : Writer} : Acts t (.writing w) (if t.status = w.status then idle else t.status) t.size .outside
  | moved : Acts t .moving (if t.status = Writer.grow.status then idle else t.status) t.size .outside

variable [DecidableEq ι]

inductive Step : Table ι → Table ι → Prop where
  | act {t : Table ι} {i : ι} {status size : Nat} {a : At} : Acts t (t.thread i) status size a →
      Step t { t with status := status, size := size, thread := Function.update t.thread i a }

def Reachable (initialSize maxSize : Nat) (t : Table ι) : Prop :=
  Relation.ReflTransGen Step (init initialSize maxSize) t

def At.readers : At → Nat
  | .reading _ _ => 1
  | .releasing _ => 1
  | .retrying => 1
  | .astray => 1
  | _ => 0

def At.writers : At → Nat
  | .writing _ => 1
  | .moving => 1
  | _ => 0

def AtOk (t : Table ι) : At → Prop
  | .trying index => index < t.size
  | .joining index seen => index < t.size ∧ read ≤ seen
  | .reading index status => index < t.size ∧ read ≤ status
  | .releasing status => read ≤ status
  | .astray => False
  | .writing w => t.status = w.status
  | .moving => t.status = Writer.grow.status
  | _ => True

/-- The status tells how many readers there are, or which writer. -/
structure StatusOk [Fintype ι] (t : Table ι) : Prop where
  readers : ∑ i, (t.thread i).writers = 0 → t.status = idle + ∑ i, (t.thread i).readers
  alone : ∑ i, (t.thread i).writers ≠ 0 → ∑ i, (t.thread i).writers = 1 ∧ ∑ i, (t.thread i).readers = 0
  threads : ∀ i, AtOk t (t.thread i)
  pos : 0 < t.size

omit [DecidableEq ι] in
theorem size_le_newSize {t : Table ι} (h : ¬ Full t) : t.size ≤ newSize t := by
  simp only [Full, ne_eq] at h
  rw [newSize]
  split_ifs <;> omega

omit [DecidableEq ι] in
theorem AtOk.keep {t t' : Table ι} {a : At} (h : AtOk t a) (hsize : t.size ≤ t'.size)
    (hstatus : 0 < a.writers → t'.status = t.status) : AtOk t' a := by
  cases a with
  | trying index => exact Nat.lt_of_lt_of_le h hsize
  | joining index seen => exact ⟨Nat.lt_of_lt_of_le h.1 hsize, h.2⟩
  | reading index status => exact ⟨Nat.lt_of_lt_of_le h.1 hsize, h.2⟩
  | releasing status => exact h
  | astray => exact h
  | writing w => exact (hstatus Nat.one_pos).trans h
  | moving => exact (hstatus Nat.one_pos).trans h
  | _ => trivial

omit [DecidableEq ι] in
theorem AtOk.writers_eq_zero {t : Table ι} {a : At} (h : AtOk t a) (hidle : idle ≤ t.status) : a.writers = 0 := by
  cases a with
  | writing w =>
    have hstatus : t.status = w.status := h
    cases w <;> simp only [Writer.status, idle] at hstatus hidle <;> omega
  | moving =>
    have hstatus : t.status = 2 := h
    simp only [idle] at hidle
    omega
  | _ => rfl

inductive Effect (t : Table ι) (status : Nat) (a b : At) : Prop where
  | stay : status = t.status → b.readers = a.readers → b.writers = a.writers → Effect t status a b
  | enter : idle ≤ t.status → status = t.status + 1 → b.readers = a.readers + 1 → b.writers = a.writers →
      Effect t status a b
  | leave : t.status = status + 1 → b.readers + 1 = a.readers → b.writers = a.writers → Effect t status a b
  | acquire : t.status = idle → b.readers = a.readers → b.writers = a.writers + 1 → Effect t status a b
  | done : status = idle → b.readers = a.readers → b.writers + 1 = a.writers → Effect t status a b

omit [DecidableEq ι] in
theorem acts_effect {t : Table ι} {a b : At} {status size : Nat} (hact : Acts t a status size b) (ha : AtOk t a) :
    Effect t status a b := by
  cases hact with
  | first hidle => exact .enter (Nat.le_of_eq hidle.symm) (by rw [hidle]; rfl) rfl rfl
  | @join _ seen hseen =>
    have hread : read ≤ seen := ha.2
    refine .enter ?_ (by rw [hseen]) rfl rfl
    rw [hseen]
    exact Nat.le_trans (by decide) hread
  | @release status heq =>
    have hread : read ≤ status := ha
    refine .leave ?_ rfl rfl
    rw [heq]
    simp only [read] at hread
    omega
  | last heq => exact .leave (by rw [heq]; rfl) rfl rfl
  | acquire hidle => exact .acquire hidle rfl rfl
  | done => exact .done (if_pos ha) rfl rfl
  | moved => exact .done (if_pos ha) rfl rfl
  | _ => exact .stay rfl rfl rfl

omit [DecidableEq ι] in
/-- A reader that holds the table finds its count in the status, so it cannot go astray. -/
theorem acts_ok {t : Table ι} {a b : At} {status size : Nat} (hact : Acts t a status size b) (ha : AtOk t a)
    (hpos : 0 < t.size) (hread : 0 < a.readers → read ≤ t.status) (thread : ι → At) :
    t.size ≤ size ∧ AtOk { t with status := status, size := size, thread := thread } b := by
  cases hact with
  | getList hash => exact ⟨Nat.le_refl _, Nat.mod_lt _ hpos⟩
  | first _ => exact ⟨Nat.le_refl _, ha, Nat.le_refl _⟩
  | others hle => exact ⟨Nat.le_refl _, ha, hle⟩
  | wait _ => exact ⟨Nat.le_refl _, ha⟩
  | join _ => exact ⟨Nat.le_refl _, ha.1, Nat.le_succ_of_le ha.2⟩
  | changed _ => exact ⟨Nat.le_refl _, ha.1⟩
  | listTaken => exact ⟨Nat.le_refl _, ha.2⟩
  | again hlt => exact ⟨Nat.le_refl _, Nat.le_of_lt hlt⟩
  | stray hlt => exact absurd (hread Nat.one_pos) (Nat.not_le_of_lt hlt)
  | acquire _ => exact ⟨Nat.le_refl _, rfl⟩
  | resize hfull => exact ⟨size_le_newSize hfull, ha⟩
  | _ => exact ⟨Nat.le_refl _, trivial⟩

section Sums
variable [Fintype ι] {t : Table ι}

/-- What is to be shown of an action. A writer elsewhere keeps the table if the status stays, or if there is
none. -/
theorem StatusOk.act (h : StatusOk t) {i : ι} {status size : Nat} {b : At} (hsize : t.size ≤ size)
    (hb : AtOk { t with status := status, size := size, thread := Function.update t.thread i b } b)
    (hreaders : ∑ j, (Function.update t.thread i b j).writers = 0 →
      status = idle + ∑ j, (Function.update t.thread i b j).readers)
    (halone : ∑ j, (Function.update t.thread i b j).writers ≠ 0 →
      ∑ j, (Function.update t.thread i b j).writers = 1 ∧ ∑ j, (Function.update t.thread i b j).readers = 0)
    (hother : status = t.status ∨ ∑ j, (t.thread j).writers = 0 ∨ ∑ j, (Function.update t.thread i b j).writers = 0) :
    StatusOk { t with status := status, size := size, thread := Function.update t.thread i b } := by
  refine ⟨hreaders, halone, fun j => ?_, Nat.lt_of_lt_of_le h.pos hsize⟩
  change AtOk _ (Function.update t.thread i b j)
  by_cases hj : j = i
  · subst hj
    rw [Function.update_self]
    exact hb
  · have hsame : Function.update t.thread i b j = t.thread j := Function.update_of_ne hj _ _
    rw [hsame]
    refine (h.threads j).keep hsize fun hw => ?_
    rcases hother with heq | hzero | hzero
    · exact heq
    · have hle := le_sum t.thread j At.writers
      omega
    · have hle := le_sum (Function.update t.thread i b) j At.writers
      rw [hsame] at hle
      omega

omit [DecidableEq ι] in
/-- A writer has set the status below `HT_STATUS_IDLE`. -/
theorem StatusOk.no_writer (h : StatusOk t) (hidle : idle ≤ t.status) : ∑ i, (t.thread i).writers = 0 :=
  Finset.sum_eq_zero fun i _ => (h.threads i).writers_eq_zero hidle

theorem statusOk_step {t' : Table ι} (h : StatusOk t) (hs : Step t t') : StatusOk t' := by
  obtain @⟨i, status, size, b, hact⟩ := hs
  have hwriters := sum_update_add t.thread i b At.writers
  have hreaders := sum_update_add t.thread i b At.readers
  have hsomeW := le_sum t.thread i At.writers
  have hsomeR := le_sum t.thread i At.readers
  have hfree := h.readers
  have halone := h.alone
  have hread : 0 < (t.thread i).readers → read ≤ t.status := by
    have hsucc : read = idle + 1 := rfl
    omega
  obtain ⟨hsize, hb⟩ := acts_ok hact (h.threads i) h.pos hread (Function.update t.thread i b)
  cases acts_effect hact (h.threads i) with
  | stay heq hr hw => refine h.act hsize hb ?_ ?_ (Or.inl heq) <;> omega
  | enter hle heq hr hw =>
    have hnone := h.no_writer hle
    refine h.act hsize hb ?_ ?_ (Or.inr (Or.inl hnone)) <;> omega
  | leave heq hr hw =>
    have hnone : ∑ j, (t.thread j).writers = 0 := by omega
    refine h.act hsize hb ?_ ?_ (Or.inr (Or.inl hnone)) <;> omega
  | acquire hidle hr hw =>
    have hnone := h.no_writer hidle.symm.le
    refine h.act hsize hb ?_ ?_ (Or.inr (Or.inl hnone)) <;> omega
  | done heq hr hw =>
    have hnone : ∑ j, (Function.update t.thread i b j).writers = 0 := by omega
    refine h.act hsize hb ?_ ?_ (Or.inr (Or.inr hnone)) <;> omega

omit [DecidableEq ι] in
theorem statusOk_init (initialSize maxSize : Nat) : StatusOk (init initialSize maxSize : Table ι) where
  readers _ := by simp [init, At.readers]
  alone hne := absurd (by simp [init, At.writers]) hne
  threads _ := trivial
  pos := by
    change 0 < if initialSize > 128 then initialSize else 128
    split_ifs <;> omega

theorem reachable_statusOk {initialSize maxSize : Nat} (h : Reachable initialSize maxSize t) : StatusOk t :=
  invariant_of_step StatusOk (statusOk_init initialSize maxSize) (fun _ _ hok hs => statusOk_step hok hs) h

end Sums

/-- A writer is alone, and otherwise the status counts the readers. Each reader takes its list from
inside the table, and counts itself out again: it never leaves the loop with the status as it was. -/
theorem ht_status_excludes [Fintype ι] {initialSize maxSize : Nat} {t : Table ι}
    (h : Reachable initialSize maxSize t) :
    (∀ i, 0 < (t.thread i).writers → ∀ j, (t.thread j).readers = 0 ∧ (j ≠ i → (t.thread j).writers = 0)) ∧
      ((∀ i, (t.thread i).writers = 0) → t.status = idle + ∑ i, (t.thread i).readers) ∧
      (∀ i index status, t.thread i = .reading index status → index < t.size) ∧ ∀ i, t.thread i ≠ .astray := by
  have hok := reachable_statusOk h
  refine ⟨fun i hi j => ?_, fun hnone => hok.readers (Finset.sum_eq_zero fun i _ => hnone i), ?_, ?_⟩
  · have hle := le_sum t.thread i At.writers
    obtain ⟨hone, hzero⟩ := hok.alone (by omega)
    have hreads := le_sum t.thread j At.readers
    refine ⟨by omega, fun hji => ?_⟩
    have hboth := add_le_sum t.thread hji At.writers
    omega
  · intro i index status hi
    have hplace := hok.threads i
    rw [hi] at hplace
    exact hplace.1
  · intro i hi
    have hplace := hok.threads i
    rw [hi] at hplace
    exact hplace

/-- Two threads read lists 2 and 3 of 128, and the second one came while the first was reading. -/
theorem ht_status_excludes_readers : ∃ t : Table Bool, t.thread false = .reading 2 4 ∧ t.thread true = .reading 3 5 ∧
    t.status = 5 ∧
    ((∀ i, 0 < (t.thread i).writers → ∀ j, (t.thread j).readers = 0 ∧ (j ≠ i → (t.thread j).writers = 0)) ∧
      ((∀ i, (t.thread i).writers = 0) → t.status = idle + ∑ i, (t.thread i).readers) ∧
      (∀ i index status, t.thread i = .reading index status → index < t.size) ∧ ∀ i, t.thread i ≠ .astray) := by
  have h₀ := Relation.ReflTransGen.refl (r := Step) (a := (init 0 0 : Table Bool))
  have h₁ := h₀.tail (Step.act (i := false) (.getList 130))
  have h₂ := h₁.tail (Step.act (i := true) (.getList 131))
  have h₃ := h₂.tail (Step.act (i := false) (.first rfl))
  have h₄ := h₃.tail (Step.act (i := true) (.others (Nat.le_refl _)))
  have h₅ := h₄.tail (Step.act (i := true) (.join rfl))
  exact ⟨_, rfl, rfl, rfl, ht_status_excludes h₅⟩

end Miqs.HtLock
