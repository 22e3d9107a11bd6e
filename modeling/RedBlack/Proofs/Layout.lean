import RedBlack.Layout

/-!
# Fields are aligned and apart

A layout is made from the sizes and the alignments of its fields.  This module says what
comes out, for any list of fields whose alignments are positive.

* `dvd_roundUp`, `le_roundUp` and `roundUp_lt` say that `roundUp` goes to the next multiple.
* `placed_place` is the induction over the fields: each of them is at a multiple of its
  alignment, behind those before it.
* `wellPlaced_ofFields` is the result, and `isCompatible_compare_iff` says what a comparison
  of layouts finds.
-/

namespace RedBlack

/-! ## The next multiple -/

theorem dvd_roundUp (n align : Nat) : align ∣ roundUp n align :=
  Nat.dvd_mul_left align ((n + align - 1) / align)

theorem le_roundUp (n : Nat) {align : Nat} (h : 0 < align) : n ≤ roundUp n align := by
  have hdiv := Nat.div_add_mod (n + align - 1) align
  have hmod := Nat.mod_lt (n + align - 1) h
  rw [roundUp, Nat.mul_comm]
  omega

/-- There is no multiple between `n` and `roundUp n align`. -/
theorem roundUp_lt (n : Nat) {align : Nat} (h : 0 < align) : roundUp n align < n + align := by
  have hdiv := Nat.div_add_mod (n + align - 1) align
  rw [roundUp, Nat.mul_comm]
  omega

namespace Layout

variable {fields : List Extent} {start : Nat}

/-! ## Fields in a row -/

/-- The offsets of some fields between `start` and `stop`: each field is at a multiple of its
alignment, and ends before the next one begins. -/
structure Placed (start : Nat) (fields : List Extent) (offsets : List Nat) (stop : Nat) :
    Prop where
  length : offsets.length = fields.length
  aligned : ∀ p ∈ offsets.zip fields, p.2.align ∣ p.1
  inside : ∀ p ∈ offsets.zip fields, start ≤ p.1 ∧ p.1 + p.2.size ≤ stop
  apart : (offsets.zip fields).Pairwise fun p q => p.1 + p.2.size ≤ q.1
  start_le : start ≤ stop

theorem placed_place (h : ∀ f ∈ fields, 0 < f.align) :
    Placed start fields (place start fields).1 (place start fields).2 := by
  induction fields generalizing start with
  | nil =>
    exact ⟨rfl, fun p hp => (List.not_mem_nil hp).elim, fun p hp => (List.not_mem_nil hp).elim,
      .nil, Nat.le_refl start⟩
  | cons f rest ih =>
    have hstart : start ≤ roundUp start f.align := le_roundUp start (h f List.mem_cons_self)
    have hrest : Placed (roundUp start f.align + f.size) rest _ _ :=
      ih fun g hg => h g (List.mem_cons_of_mem f hg)
    obtain ⟨hlength, haligned, hinside, hapart, hstop⟩ := hrest
    refine ⟨congrArg (· + 1) hlength, ?_, ?_, ?_, ?_⟩
    · exact List.forall_mem_cons.mpr ⟨dvd_roundUp start f.align, haligned⟩
    · refine List.forall_mem_cons.mpr ⟨⟨hstart, hstop⟩, fun p hp => ?_⟩
      obtain ⟨hle, hend⟩ := hinside p hp
      exact ⟨by omega, hend⟩
    · exact .cons (fun p hp => (hinside p hp).1) hapart
    · show start ≤ (place (roundUp start f.align + f.size) rest).2
      omega

/-! ## Layouts -/

/-- The alignment of a layout, which is at least that of each field. -/
theorem le_foldl_align (a : Nat) (fields : List Extent) :
    a ≤ fields.foldl (fun a f => max a f.align) a ∧
      ∀ f ∈ fields, f.align ≤ fields.foldl (fun a f => max a f.align) a := by
  induction fields generalizing a with
  | nil => exact ⟨Nat.le_refl a, fun f hf => (List.not_mem_nil hf).elim⟩
  | cons f rest ih =>
    obtain ⟨hle, hrest⟩ := ih (max a f.align)
    rw [List.foldl_cons]
    refine ⟨by omega, List.forall_mem_cons.mpr ⟨by omega, hrest⟩⟩

/-- A layout for these fields: they lie in it without overlap, each at a multiple of its
alignment, and the next record of the kind can follow at once. -/
structure WellPlaced (l : Layout) (fields : List Extent) : Prop where
  placed : Placed 0 fields l.offsets l.extent.size
  align_le : ∀ f ∈ fields, f.align ≤ l.extent.align
  padded : l.extent.align ∣ l.extent.size

theorem Placed.mono {offsets : List Nat} {stop stop' : Nat} (h : Placed start fields offsets stop)
    (hle : stop ≤ stop') : Placed start fields offsets stop' where
  length := h.length
  aligned := h.aligned
  inside p hp := ⟨(h.inside p hp).1, Nat.le_trans (h.inside p hp).2 hle⟩
  apart := h.apart
  start_le := Nat.le_trans h.start_le hle

theorem wellPlaced_ofFields (name : String) (h : ∀ f ∈ fields, 0 < f.align) :
    (ofFields name fields).WellPlaced fields := by
  obtain ⟨hone, halign⟩ := le_foldl_align 1 fields
  exact ⟨(placed_place h).mono (le_roundUp _ hone), halign, dvd_roundUp _ _⟩

/-- The link record of a node, whose colour is followed by a gap. -/
example : node = ⟨"rb_node", ⟨32, 8⟩, [0, 8, 16]⟩ := rfl

/-! ## Comparisons -/

/-- A layout is compatible with an expected one exactly when the sizes, the alignments and
all pairs of offsets agree. -/
theorem isCompatible_compare_iff (l : Layout) (expected : Extent) (pairs : List (Nat × Nat)) :
    (l.compare expected pairs).isCompatible = true ↔
      l.extent = expected ∧ ∀ p ∈ pairs, p.1 = p.2 := by
  have hextent : l.extent = expected ↔
      l.extent.size = expected.size ∧ l.extent.align = expected.align := by
    cases l.extent
    cases expected
    simp
  rw [hextent]
  simp only [Comparison.isCompatible, compare, Bool.and_eq_true, beq_iff_eq, Option.isNone_iff_eq_none,
    List.findIdx?_eq_none_iff, bne_eq_false_iff_eq]

end Layout

end RedBlack
