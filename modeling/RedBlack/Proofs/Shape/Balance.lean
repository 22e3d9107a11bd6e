import RedBlack.Shape.Path
import RedBlack.Shape.Rules

/-!
# Black heights of shapes and of places

The rules of red-black shapes speak of all paths at once.  A repair works on one
place, so this module restates them piece by piece.

* `HasBlackHeight` follows the recursion of shapes.  `evenPaths_iff` says that it
  is the rule on paths.
* `Balanced s h` is everything that is asked of a shape below the top: black height
  `h`, and no red node with a red child.
* `Path.Accepts p red h` is everything that is asked of the nodes around a place,
  when a shape of black height `h` goes into it, red at its top or not.

`isRedBlack_fill_iff` puts the pieces together.  `Path.accepts_iff` splits what a place
asks for the other way, into colours and black heights (`Path.Level`).
-/

namespace RedBlack

namespace Shape

/-! ## Black heights -/

/-- Every path from the top to an absent child passes `h` black nodes, and so below
every node. -/
def HasBlackHeight : Shape → Nat → Prop
  | leaf, h => h = 0
  | node c l _ r, h => ∃ k, h = k + c.weight ∧ l.HasBlackHeight k ∧ r.HasBlackHeight k

theorem HasBlackHeight.eq_of_mem_pathWeights {s : Shape} {h a : Nat} (hs : s.HasBlackHeight h)
    (ha : a ∈ s.pathWeights) : a = h := by
  induction s generalizing h a with
  | leaf =>
    rw [pathWeights, List.mem_singleton] at ha
    rw [ha, hs]
  | node c l n r ihl ihr =>
    obtain ⟨k, rfl, hl, hr⟩ := hs
    simp only [pathWeights, List.mem_map, List.mem_append] at ha
    obtain ⟨b, hb | hb, rfl⟩ := ha
    · rw [ihl hl hb]
    · rw [ihr hr hb]

theorem HasBlackHeight.evenPaths {s : Shape} {h : Nat} (hs : s.HasBlackHeight h) :
    s.EvenPaths := by
  induction s generalizing h with
  | leaf => trivial
  | node c l n r ihl ihr =>
    have hall := fun a => hs.eq_of_mem_pathWeights (a := a)
    obtain ⟨k, -, hl, hr⟩ := hs
    exact ⟨fun a ha b hb => (hall a ha).trans (hall b hb).symm, ihl hl, ihr hr⟩

theorem EvenPaths.hasBlackHeight {s : Shape} (hs : s.EvenPaths) :
    s.HasBlackHeight s.blackHeight := by
  induction s with
  | leaf => rfl
  | node c l n r ihl ihr =>
    obtain ⟨heven, hl, hr⟩ := hs
    have hmem : r.blackHeight + c.weight ∈ (node c l n r).pathWeights := by
      simp only [pathWeights, List.mem_map, List.mem_append]
      exact ⟨_, .inr r.blackHeight_mem_pathWeights, rfl⟩
    have hw : l.blackHeight + c.weight = r.blackHeight + c.weight :=
      heven _ (node c l n r).blackHeight_mem_pathWeights _ hmem
    have hlr : l.blackHeight = r.blackHeight := Nat.add_right_cancel hw
    exact ⟨l.blackHeight, rfl, ihl hl, hlr ▸ ihr hr⟩

/-- All paths are even exactly when the shape has some black height. -/
theorem evenPaths_iff {s : Shape} : s.EvenPaths ↔ ∃ h, s.HasBlackHeight h :=
  ⟨fun hs => ⟨_, hs.hasBlackHeight⟩, fun ⟨_, hs⟩ => hs.evenPaths⟩

theorem HasBlackHeight.blackHeight_eq {s : Shape} {h : Nat} (hs : s.HasBlackHeight h) :
    s.blackHeight = h :=
  hs.eq_of_mem_pathWeights s.blackHeight_mem_pathWeights

/-! ## Balanced shapes -/

/-- The shape has black height `h`, and no red node of it has a red child. -/
structure Balanced (s : Shape) (h : Nat) : Prop where
  noRedRed : s.NoRedRed
  height : s.HasBlackHeight h

@[simp] theorem balanced_leaf {h : Nat} : leaf.Balanced h ↔ h = 0 :=
  ⟨fun hs => hs.height, fun hh => ⟨trivial, hh⟩⟩

theorem balanced_node {c : Color} {l r : Shape} {n : NodeId} {h : Nat} :
    (node c l n r).Balanced h ↔
      (c = .red → l.isRed = false ∧ r.isRed = false) ∧
        ∃ k, h = k + c.weight ∧ l.Balanced k ∧ r.Balanced k := by
  constructor
  · rintro ⟨⟨hc, hl, hr⟩, k, hk, hlk, hrk⟩
    exact ⟨hc, k, hk, ⟨hl, hlk⟩, ⟨hr, hrk⟩⟩
  · rintro ⟨hc, k, hk, ⟨hl, hlk⟩, ⟨hr, hrk⟩⟩
    exact ⟨⟨hc, hl, hr⟩, k, hk, hlk, hrk⟩

/-- Balance does not depend on the side. -/
theorem balanced_branch {d : Side} {c : Color} {n : NodeId} {x y : Shape} {h : Nat} :
    (branch d c n x y).Balanced h ↔
      (c = .red → x.isRed = false ∧ y.isRed = false) ∧
        ∃ k, h = k + c.weight ∧ x.Balanced k ∧ y.Balanced k := by
  cases d with
  | left => exact balanced_node
  | right =>
    rw [branch, balanced_node]
    constructor
    · rintro ⟨hc, k, hk, hx, hy⟩
      exact ⟨fun h => (hc h).symm, k, hk, hy, hx⟩
    · rintro ⟨hc, k, hk, hx, hy⟩
      exact ⟨fun h => (hc h).symm, k, hk, hy, hx⟩

@[simp] theorem isRed_branch {d : Side} {c : Color} {n : NodeId} {x y : Shape} :
    (branch d c n x y).isRed = decide (c = .red) := by
  cases d <;> rfl

@[simp] theorem paint_branch (d : Side) (c c' : Color) (n : NodeId) (x y : Shape) :
    (branch d c n x y).paint c' = branch d c' n x y := by
  cases d <;> rfl

/-- What stands in a node and hangs from it can be read off. -/
theorem branch_inj {d : Side} {c c' : Color} {n n' : NodeId} {x x' y y' : Shape}
    (h : branch d c n x y = branch d c' n' x' y') : c = c' ∧ n = n' ∧ x = x' ∧ y = y' := by
  cases d <;> cases h <;> exact ⟨rfl, rfl, rfl, rfl⟩

theorem isRedBlack_iff {s : Shape} : s.IsRedBlack ↔ s.isRed = false ∧ ∃ h, s.Balanced h := by
  constructor
  · rintro ⟨htop, hred, heven⟩
    obtain ⟨h, hheight⟩ := evenPaths_iff.mp heven
    exact ⟨htop, h, hred, hheight⟩
  · rintro ⟨htop, h, hs⟩
    exact ⟨htop, hs.noRedRed, evenPaths_iff.mpr ⟨h, hs.height⟩⟩

/-- A balanced shape without black nodes on its paths is a leaf or one red node. -/
theorem Balanced.eq_of_zero {s : Shape} (hs : s.Balanced 0) :
    s = leaf ∨ ∃ n, s = node .red leaf n leaf := by
  cases s with
  | leaf => exact .inl rfl
  | node c l n r =>
    obtain ⟨hc, k, hk, hl, hr⟩ := balanced_node.mp hs
    cases c with
    | black => simp [Color.weight] at hk
    | red =>
      obtain ⟨hlred, hrred⟩ := hc rfl
      obtain rfl : k = 0 := by simpa [Color.weight] using hk.symm
      have hleaf : ∀ t : Shape, t.isRed = false → t.Balanced 0 → t = leaf := by
        intro t ht hb
        cases t with
        | leaf => rfl
        | node c' =>
          obtain ⟨-, j, hj, -⟩ := balanced_node.mp hb
          cases c' with
          | red => simp [isRed] at ht
          | black => simp [Color.weight] at hj
      exact .inr ⟨n, by rw [hleaf l hlred hl, hleaf r hrred hr]⟩

/-- Where there are black nodes on the paths, there is a node at the top. -/
theorem Balanced.ne_leaf {s : Shape} {h : Nat} (hs : s.Balanced (h + 1)) : s ≠ leaf := by
  rintro rfl
  cases balanced_leaf.mp hs

/-- A black node over a shape adds one to its black height. -/
theorem Balanced.paint_black {s : Shape} {h : Nat} (hs : s.Balanced h) (hred : s.isRed = true) :
    (s.paint .black).Balanced (h + 1) := by
  cases s with
  | leaf => simp [isRed] at hred
  | node c l n r =>
    obtain ⟨-, k, rfl, hl, hr⟩ := balanced_node.mp hs
    have hc : c = .red := by simpa [isRed] using hred
    subst hc
    exact balanced_node.mpr ⟨by simp, k, rfl, hl, hr⟩

@[simp] theorem isRed_paint_black (s : Shape) : (s.paint .black).isRed = false := by
  cases s <;> rfl

end Shape

/-! ## Places -/

namespace Path

open Shape

/-- The nodes around a place follow the rules when a shape of black height `h` goes
into it; `red` says whether its top is red. -/
def Accepts : Path → (red : Bool) → Nat → Prop
  | [], red, _ => red = false
  | f :: up, red, h =>
    (f.color = .red → red = false ∧ f.other.isRed = false) ∧ f.other.Balanced h ∧
      Accepts up (f.color = .red) (h + f.color.weight)

/-- A place that accepts a red top accepts a black one. -/
theorem Accepts.mono {p : Path} {red red' : Bool} {h : Nat} (hp : p.Accepts red h)
    (hred : red' = true → red = true) : p.Accepts red' h := by
  have himp : red = false → red' = false := by
    intro hfalse
    rw [← Bool.not_eq_true]
    intro htrue
    simp [hred htrue] at hfalse
  cases p with
  | nil => exact himp hp
  | cons f up => exact ⟨fun hf => ⟨himp (hp.1 hf).1, (hp.1 hf).2⟩, hp.2⟩

theorem Accepts.of_false {p : Path} {red : Bool} {h : Nat} (hp : p.Accepts red h) :
    p.Accepts false h :=
  hp.mono (by simp)

/-- Which node stands in a frame is no matter of balance. -/
theorem Accepts.congr_frame {down up : Path} {f g : Frame} {red : Bool} {h : Nat}
    (hp : Accepts (down ++ f :: up) red h) (hcolor : g.color = f.color)
    (hother : g.other = f.other) : Accepts (down ++ g :: up) red h := by
  induction down generalizing red h with
  | nil =>
    rw [List.nil_append, Accepts] at hp ⊢
    rw [hcolor, hother]
    exact hp
  | cons e down ih => exact ⟨hp.1, hp.2.1, ih hp.2.2⟩

theorem fill_append (p q : Path) (s : Shape) : fill (p ++ q) s = fill q (fill p s) := by
  induction p generalizing s with
  | nil => rfl
  | cons f up ih => exact ih _

end Path

namespace Shape

theorem balanced_close {f : Frame} {s : Shape} {h : Nat} :
    (f.close s).Balanced h ↔
      (f.color = .red → s.isRed = false ∧ f.other.isRed = false) ∧
        ∃ k, h = k + f.color.weight ∧ s.Balanced k ∧ f.other.Balanced k :=
  balanced_branch

@[simp] theorem isRed_close (f : Frame) (s : Shape) :
    (f.close s).isRed = decide (f.color = .red) :=
  isRed_branch

/-- A shape in a place follows the rules when it is balanced and the place accepts
it. -/
theorem isRedBlack_fill_iff {p : Path} {s : Shape} :
    (p.fill s).IsRedBlack ↔ ∃ h, p.Accepts s.isRed h ∧ s.Balanced h := by
  induction p generalizing s with
  | nil => simp [Path.fill, Path.Accepts, isRedBlack_iff]
  | cons f up ih =>
    rw [Path.fill, ih]
    constructor
    · rintro ⟨h, hup, hclose⟩
      obtain ⟨hred, k, rfl, hs, hother⟩ := balanced_close.mp hclose
      exact ⟨k, ⟨hred, hother, by simpa using hup⟩, hs⟩
    · rintro ⟨h, ⟨hred, hother, hup⟩, hs⟩
      exact ⟨h + f.color.weight, by simpa using hup, balanced_close.mpr ⟨hred, h, rfl, hs, hother⟩⟩

end Shape

/-! ## Colours and black heights apart -/

namespace Shape

theorem noRedRed_branch {d : Side} {c : Color} {n : NodeId} {x y : Shape} :
    (branch d c n x y).NoRedRed ↔
      (c = .red → x.isRed = false ∧ y.isRed = false) ∧ x.NoRedRed ∧ y.NoRedRed := by
  cases d with
  | left => exact Iff.rfl
  | right =>
    rw [branch, NoRedRed]
    simp only [and_comm]

theorem hasBlackHeight_branch {d : Side} {c : Color} {n : NodeId} {x y : Shape} {h : Nat} :
    (branch d c n x y).HasBlackHeight h ↔
      ∃ k, h = k + c.weight ∧ x.HasBlackHeight k ∧ y.HasBlackHeight k := by
  cases d with
  | left => exact Iff.rfl
  | right =>
    rw [branch, HasBlackHeight]
    simp only [and_comm]

end Shape

namespace Path

open Shape

/-- With a shape of black height `h` in the place, both sides of every node over it have the
same black height. -/
def Level : Path → Nat → Prop
  | [], _ => True
  | f :: up, h => f.other.HasBlackHeight h ∧ Level up (h + f.color.weight)

/-- A place asks for black heights around it, and for colours that are right in the whole
shape. -/
theorem accepts_iff {p : Path} {s : Shape} {h : Nat} :
    p.Accepts s.isRed h ∧ s.NoRedRed ↔
      p.Level h ∧ (p.fill s).isRed = false ∧ (p.fill s).NoRedRed := by
  induction p generalizing s h with
  | nil => simp [Accepts, Level, fill]
  | cons f up ih =>
    constructor
    · rintro ⟨⟨hcolor, hother, hup⟩, hs⟩
      have hclose : (f.close s).NoRedRed := noRedRed_branch.mpr ⟨hcolor, hs, hother.noRedRed⟩
      obtain ⟨hlevel, hcolors⟩ := ih.mp ⟨by rwa [isRed_close], hclose⟩
      exact ⟨⟨hother.height, hlevel⟩, hcolors⟩
    · rintro ⟨⟨hheight, hlevel⟩, hcolors⟩
      obtain ⟨hup, hclose⟩ := ih.mpr ⟨hlevel, hcolors⟩
      obtain ⟨hcolor, hs, hother⟩ := noRedRed_branch.mp hclose
      rw [isRed_close] at hup
      exact ⟨⟨hcolor, ⟨hother, hheight⟩, hup⟩, hs⟩

/-- Where a place accepts the colour of what hangs there, the colours are right, whatever the
black heights are. -/
theorem Accepts.noRedRed_fill {p : Path} {s : Shape} {h : Nat} (hp : p.Accepts s.isRed h)
    (hs : s.NoRedRed) : (p.fill s).isRed = false ∧ (p.fill s).NoRedRed :=
  (accepts_iff.mp ⟨hp, hs⟩).2

/-- In a shape of even paths every place is level with what hangs there. -/
theorem exists_level {p : Path} {s : Shape} {k : Nat} (hs : (p.fill s).HasBlackHeight k) :
    ∃ h, p.Level h ∧ s.HasBlackHeight h := by
  induction p generalizing s with
  | nil => exact ⟨k, trivial, hs⟩
  | cons f up ih =>
    obtain ⟨_, hup, hclose⟩ := ih hs
    obtain ⟨h, rfl, hs, hother⟩ := hasBlackHeight_branch.mp hclose
    exact ⟨h, ⟨hother, hup⟩, hs⟩

end Path

end RedBlack
