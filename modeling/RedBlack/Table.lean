/-!
# Tables with a value at every index

A `Table α` is a finite array read as a function on all of `Nat`: an index
that was never written holds the default value.  Writing past the end fills
the gap with defaults.  So a read needs no bound, and `get_set` is the one law
that says everything about a write.
-/

namespace RedBlack

/-- A finite list of cells; every index beyond them holds `default`. -/
structure Table (α : Type) where
  /-- The cells written so far, and the defaults between them. -/
  cells : Array α := #[]
  deriving Repr

namespace Table

variable {α : Type} [Inhabited α]

instance : Inhabited (Table α) := ⟨{}⟩

/-- The number of cells.  Every index from here on holds `default`. -/
def size (t : Table α) : Nat := t.cells.size

/-- The value at an index. -/
def get (t : Table α) (i : Nat) : α := t.cells.getD i default

/-- Writes one value; the table grows when the index lies beyond its cells. -/
def set (t : Table α) (i : Nat) (a : α) : Table α :=
  ⟨(t.cells.rightpad (i + 1) default).setIfInBounds i a⟩

/-- Changes one value in terms of the old one. -/
def modify (t : Table α) (i : Nat) (f : α → α) : Table α := t.set i (f (t.get i))

/-- A table of `n` defaults. -/
def blank (n : Nat) : Table α := ⟨Array.replicate n default⟩

/-! ## What a read sees -/

theorem get_eq_getElem? (t : Table α) (i : Nat) : t.get i = t.cells[i]?.getD default := by
  simp [get]

/-- A read beyond the cells answers the default. -/
theorem get_of_size_le (t : Table α) {i : Nat} (h : t.size ≤ i) : t.get i = default := by
  simp only [size] at h
  simp [get, Array.getD, Nat.not_lt.mpr h]

/-- A write is seen at its own index and nowhere else. -/
theorem get_set (t : Table α) (i j : Nat) (a : α) :
    (t.set i a).get j = if j = i then a else t.get j := by
  simp only [get_eq_getElem?, set, Array.rightpad, Array.getElem?_setIfInBounds,
    Array.getElem?_append, Array.getElem?_replicate, Array.size_append, Array.size_replicate]
  by_cases hij : i = j
  · subst hij
    have hlt : i < t.cells.size + (i + 1 - t.cells.size) := by omega
    simp [hlt]
  · rw [if_neg hij, if_neg (Ne.symm hij)]
    by_cases hj : j < t.cells.size
    · simp [hj]
    · have hnone : t.cells[j]? = none := Array.getElem?_eq_none (Nat.not_lt.mp hj)
      rw [if_neg hj, hnone]
      split <;> rfl

@[simp] theorem get_set_self (t : Table α) (i : Nat) (a : α) : (t.set i a).get i = a := by
  simp [get_set]

/-- A change is seen at its own index and nowhere else. -/
theorem get_modify (t : Table α) (i j : Nat) (f : α → α) :
    (t.modify i f).get j = if j = i then f (t.get i) else t.get j := by
  simp [modify, get_set]

/-- A write makes room for its index and drops no cell. -/
@[simp] theorem size_set (t : Table α) (i : Nat) (a : α) :
    (t.set i a).size = max t.size (i + 1) := by
  simp only [size, set, Array.size_setIfInBounds, Array.rightpad, Array.size_append,
    Array.size_replicate]
  omega

@[simp] theorem size_modify (t : Table α) (i : Nat) (f : α → α) :
    (t.modify i f).size = max t.size (i + 1) := by
  simp [modify]

@[simp] theorem get_blank (n i : Nat) : (blank n : Table α).get i = default := by
  simp only [get_eq_getElem?, blank, Array.getElem?_replicate]
  split <;> rfl

@[simp] theorem size_blank (n : Nat) : (blank n : Table α).size = n := by
  simp [size, blank]

/-- Tables of one size that answer every read alike are equal. -/
theorem ext_get {s t : Table α} (hsize : s.size = t.size) (hget : ∀ i, s.get i = t.get i) :
    s = t := by
  cases s with
  | mk xs =>
    cases t with
    | mk ys =>
      congr 1
      apply Array.ext hsize
      intro i hx hy
      have := hget i
      simpa [get, Array.getD, hx, hy] using this

/-- Of two writes to one index the second counts. -/
theorem set_set (t : Table α) (i : Nat) (a b : α) : (t.set i a).set i b = t.set i b := by
  apply ext_get
  · simp
  · intro j
    rw [get_set, get_set, get_set]
    split <;> rfl

/-- Two changes that commute at one index commute in the table. -/
theorem modify_comm (t : Table α) (i j : Nat) {f g : α → α} (h : ∀ a, f (g a) = g (f a)) :
    (t.modify i f).modify j g = (t.modify j g).modify i f := by
  apply ext_get
  · simp only [size_modify]
    omega
  · intro k
    simp only [get_modify]
    by_cases hi : k = i
    · by_cases hj : k = j
      · simp [← hi, ← hj, h]
      · simp [← hi, hj]
    · by_cases hj : k = j
      · simp [hi, ← hj]
      · simp [hi, hj]

end Table

end RedBlack
