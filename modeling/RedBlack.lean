import RedBlack.Forest.Status
import RedBlack.KeyOrder
import RedBlack.Layout
import RedBlack.Pool
import RedBlack.Proofs.Entries.Lookup
import RedBlack.Proofs.Entries.Runs
import RedBlack.Proofs.Forest.Footprint
import RedBlack.Proofs.Forest.Height
import RedBlack.Proofs.Forest.Interfaces
import RedBlack.Proofs.Forest.Runs
import RedBlack.Proofs.Pool.Elements
import RedBlack.Proofs.Pool.Overflow
import RedBlack.Proofs.Pool.Raising
import RedBlack.Proofs.Pool.Runs
import RedBlack.Proofs.Shape.Balance
import RedBlack.Proofs.Shape.Insertion
import RedBlack.Proofs.Shape.InsertionCases
import RedBlack.Proofs.Shape.Nodes
import RedBlack.Proofs.Shape.Order
import RedBlack.Proofs.Shape.Removal
import RedBlack.Proofs.Shape.RemovalCases
import RedBlack.Proofs.Shape.Rotations
import RedBlack.Proofs.Tree.Around
import RedBlack.Proofs.Tree.Calls
import RedBlack.Proofs.Tree.Cases
import RedBlack.Proofs.Tree.Check
import RedBlack.Proofs.Tree.Deficit
import RedBlack.Proofs.Tree.Descent
import RedBlack.Proofs.Tree.Diagnosis
import RedBlack.Proofs.Tree.Fields
import RedBlack.Proofs.Tree.Insertion
import RedBlack.Proofs.Tree.Lookup
import RedBlack.Proofs.Tree.Mirror
import RedBlack.Proofs.Tree.Placement
import RedBlack.Proofs.Tree.Postorder
import RedBlack.Proofs.Tree.Removal
import RedBlack.Proofs.Tree.Renaming
import RedBlack.Proofs.Tree.Repairs
import RedBlack.Proofs.Tree.Replacement
import RedBlack.Proofs.Tree.Restructuring
import RedBlack.Proofs.Tree.Rotation
import RedBlack.Proofs.Tree.Rules
import RedBlack.Proofs.Tree.Safety
import RedBlack.Proofs.Tree.Sharing
import RedBlack.Proofs.Tree.Splice
import RedBlack.Proofs.Tree.Strict
import RedBlack.Proofs.Tree.Sweep
import RedBlack.Proofs.Tree.Termination
import RedBlack.Proofs.Tree.Walk
import RedBlack.Proofs.Tree.Weeding
import RedBlack.Shape.Insertion
import RedBlack.Shape.Removal
import RedBlack.Shape.Rules
import RedBlack.Tree.Text
import RedBlack.Proofs.Tree.Counting
import RedBlack.Proofs.Layout
