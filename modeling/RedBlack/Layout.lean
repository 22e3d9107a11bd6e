/-!
# Memory layouts of the records

A record that is shared with other programs has a fixed layout: its size, its
alignment and the offsets of its fields.  Fields follow each other in order, each
at the next multiple of its alignment, and the size is a multiple of the largest
alignment.  `Layout.compare` holds a layout against the one somebody expects.
-/

namespace RedBlack

/-- The size and the alignment of a type, in bytes. -/
structure Extent where
  size : Nat
  align : Nat
  deriving DecidableEq, Repr

/-- The smallest multiple of `align` that is not below `n`. -/
def roundUp (n align : Nat) : Nat := (n + align - 1) / align * align

/-- The layout of a type. -/
structure Layout where
  name : String
  extent : Extent
  /-- The offsets of the fields, in order. -/
  offsets : List Nat
  deriving DecidableEq, Repr

namespace Layout

/-- The offsets of fields that start at `start`, and where the last one ends. -/
def place (start : Nat) : List Extent → List Nat × Nat
  | [] => ([], start)
  | f :: rest =>
    let offset := roundUp start f.align
    let (offsets, stop) := place (offset + f.size) rest
    (offset :: offsets, stop)

/-- The layout of a record with these fields. -/
def ofFields (name : String) (fields : List Extent) : Layout :=
  let align := fields.foldl (fun a f => max a f.align) 1
  let (offsets, stop) := place 0 fields
  { name, extent := ⟨roundUp stop align, align⟩, offsets }

/-- A link, or a number of the same width. -/
def word : Extent := ⟨8, 8⟩

/-- A small number: a colour or an error code. -/
def int : Extent := ⟨4, 4⟩

/-- The link record of a node: its parent, its colour and its two children. -/
def node : Layout := ofFields "rb_node" [word, int, ⟨2 * word.size, word.align⟩]

/-- A tree: the link to its top. -/
def root : Layout := ofFields "rb_root" [word]

/-- A colour. -/
def color : Layout := ofFields "rb_color" [int]

/-- An element: its link record, and a word for its value. -/
def entry : Layout := ofFields "rb_entry" [node.extent, word]

/-- An error code. -/
def errorCode : Layout := ofFields "kernel_error" [int]

/-- How a layout compares with the expected one. -/
structure Comparison where
  name : String
  sizeAgrees : Bool
  alignAgrees : Bool
  /-- The first field whose two offsets differ. -/
  fieldMismatch : Option Nat
  deriving DecidableEq, Repr

/-- Whether everything agrees. -/
def Comparison.isCompatible (c : Comparison) : Bool :=
  c.sizeAgrees && c.alignAgrees && c.fieldMismatch.isNone

/-- Compares a layout with an expected extent, and pairs of field offsets with
each other. -/
def compare (l : Layout) (expected : Extent) (fields : List (Nat × Nat)) : Comparison where
  name := l.name
  sizeAgrees := l.extent.size == expected.size
  alignAgrees := l.extent.align == expected.align
  fieldMismatch := fields.findIdx? fun (own, other) => own != other

end Layout

end RedBlack
