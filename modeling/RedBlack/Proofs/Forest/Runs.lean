import Mathlib.Data.List.InsertIdx
import Mathlib.Logic.Function.Basic
import RedBlack.Forest.Status
import RedBlack.Proofs.Tree.Calls

/-!
# Runs of calls on several trees

Several trees share one store, and callers mix both interfaces on all of them.  A
`Ledger` is what a caller knows: for each tree the list of its nodes in order.

* `Request` is one call of either interface, and `Request.perform` makes it.
* `Move` is what a caller may do between two moments at which all trees are in order: one
  call, or a link with the repair that belongs to it.  `Move.Allowed` is the contract,
  `Move.Does` says that the calls come to what is expected, and `Move.record` keeps the ledger.
* `Forest.Keeps` is the invariant.  `Keeps.step` says that an allowed move succeeds and
  keeps it, and `Run.keeps` is the induction over a run.
* `run_in_order` is the result, from empty trees on.
-/

namespace RedBlack

/-! ## Calls of both interfaces -/

/-- Which of the two interfaces a call goes through. -/
inductive Interface where
  | plain
  | status
  deriving DecidableEq, Repr

/-- What a call answers: a result, or the status of one. -/
inductive Reply where
  | result (r : Except ErrorCode Unit)
  | status (code : Int)
  deriving Repr

namespace Interface

/-- The answer to a call that did its work. -/
def done : Interface → Reply
  | plain => .result (.ok ())
  | status => .status 0

/-- The answer to a call that lacks an argument. -/
def refused : Interface → Reply
  | plain => .result (.error .invalidArgument)
  | status => .status ErrorCode.invalidArgument.negated

end Interface

/-- The interface of a call that changes a tree, and the tree; only the status interface
takes one that may be absent. -/
inductive Target where
  | plain (root : RootId)
  | status (root : Option RootId)
  deriving DecidableEq, Repr

/-- A tree, through an interface. -/
def Interface.on (via : Interface) (r : RootId) : Target :=
  match via with
  | plain => .plain r
  | status => .status (some r)

def Target.interface : Target → Interface
  | plain _ => .plain
  | status _ => .status

namespace Outcome

/-- A refusal is an answer, other failures are not. -/
def toReply : Outcome Forest Unit → Outcome Forest Reply
  | .ok () f => .ok (.result (.ok ())) f
  | .error (.refused code) f => .ok (.result (.error code)) f
  | .error failure f => .error failure f

def toStatus (o : Outcome Forest Int) : Outcome Forest Reply :=
  o.andThen fun code f => .ok (.status code) f

end Outcome

/-- Makes a call on a tree. -/
def Target.edit (target : Target) (f : Forest) (call : Tree → Outcome Tree Unit) :
    Outcome Forest Reply :=
  match target with
  | plain r => (f.edit r call).toReply
  | status r => (f.call r call).toStatus

/-- One call that changes something, with all its arguments. -/
inductive Request where
  | insert (r : RootId) (compare : NodeId → NodeId → Ordering) (n : Option NodeId)
  | link (r : RootId) (n parent : Option NodeId) (d : Side)
  | linkSlot (r : RootId) (n parent : Option NodeId) (slot : Option Slot)
  | rebalance (target : Target) (n : Option NodeId)
  | remove (target : Target) (n : Option NodeId)
  | replace (target : Target) (old new : Option NodeId)

namespace Request

def interface : Request → Interface
  | insert .. | link .. => .plain
  | linkSlot .. => .status
  | rebalance target _ | remove target _ | replace target _ _ => target.interface

/-- Makes the call. -/
def perform (f : Forest) : Request → Outcome Forest Reply
  | insert r compare n => (f.edit r fun t => t.insert compare n).toReply
  | link r n parent d => (f.edit r fun t => t.linkNode n parent d).toReply
  | linkSlot r n parent slot => (f.linkNode r n parent slot).toStatus
  | rebalance target n => target.edit f fun t => t.rebalance n
  | remove target n => target.edit f fun t => t.remove n
  | replace target old new => target.edit f fun t => t.replace old new

/-- Makes calls one after the other, up to one that fails. -/
def performAll (f : Forest) : List Request → Outcome Forest (List Reply)
  | [] => .ok [] f
  | q :: rest =>
    (q.perform f).andThen fun reply f =>
      (performAll f rest).andThen fun replies f => .ok (reply :: replies) f

/-- An argument is absent that the call needs. -/
def LacksArgument : Request → Prop
  | insert _ _ n | link _ n _ _ => n = none
  | linkSlot _ n _ slot => n = none ∨ slot = none
  | rebalance target n | remove target n => target = .status none ∨ n = none
  | replace target old new => target = .status none ∨ old = none ∨ new = none

end Request

/-! ## The contract -/

/-- For each tree, its nodes in order. -/
abbrev Ledger := RootId → List NodeId

/-- A node that is linked nowhere. -/
def Ledger.Unlinked (L : Ledger) (n : NodeId) : Prop := ∀ r, n ∉ L r

/-- What a caller does between two moments at which all trees are in order. -/
inductive Move where
  | insert (r : RootId) (compare : NodeId → NodeId → Ordering) (n : NodeId)
  /-- Links a node below a parent, or at the top, and repairs. -/
  | link (r : RootId) (n : NodeId) (parent : Option NodeId) (d : Side) (repairVia : Interface)
  /-- Links a node into a slot through the status interface, and repairs. -/
  | linkSlot (r : RootId) (n : NodeId) (slot : Slot) (repairVia : Interface)
  | remove (via : Interface) (r : RootId) (n : NodeId)
  | replace (via : Interface) (r : RootId) (old new : NodeId)
  /-- Makes a call that lacks an argument. -/
  | decline (q : Request)

namespace Move

/-- The calls of a move. -/
def requests : Move → List Request
  | insert r compare n => [.insert r compare (some n)]
  | link r n parent d via => [.link r (some n) parent d, .rebalance (via.on r) (some n)]
  | linkSlot r n slot via =>
    [.linkSlot r (some n) slot.parent (some slot), .rebalance (via.on r) (some n)]
  | remove via r n => [.remove (via.on r) (some n)]
  | replace via r old new => [.replace (via.on r) (some old) (some new)]
  | decline q => [q]

/-- The answers that a caller expects. -/
def replies : Move → List Reply
  | decline q => [q.interface.refused]
  | m => m.requests.map fun q => q.interface.done

/-- The move leads from the forest `f` to `g`, with the answers that a caller expects. -/
def Does (m : Move) (f g : Forest) : Prop := Request.performAll f m.requests = .ok m.replies g

/-- What the caller of a move promises. -/
def Allowed (f : Forest) (L : Ledger) : Move → Prop
  | insert _ _ n => L.Unlinked n
  | link r n parent d _ => L.Unlinked n ∧ (f.tree r).Vacant (L r) (.below parent d)
  | linkSlot r n slot _ => L.Unlinked n ∧ (f.tree r).Vacant (L r) slot
  | remove _ r n => n ∈ L r
  | replace _ r old new => old ∈ L r ∧ L.Unlinked new
  | decline q => q.LacksArgument

/-- The ledger after a move.  A node goes to the position of its slot; for an insertion
by comparison that is the slot at the end of the way down. -/
def record (f : Forest) (L : Ledger) : Move → Ledger
  | insert r compare n =>
    match (f.tree r).slotFor (compare n) with
    | .ok slot => Function.update L r ((L r).insertIdx (slot.position (L r)) n)
    | .error _ => L
  | link r n parent d _ =>
    Function.update L r ((L r).insertIdx ((Slot.below parent d).position (L r)) n)
  | linkSlot r n slot _ => Function.update L r ((L r).insertIdx (slot.position (L r)) n)
  | remove _ r n => Function.update L r ((L r).erase n)
  | replace _ r old new => Function.update L r ((L r).replace old new)
  | decline _ => L

end Move

/-- The moves lead from one forest and its ledger to another, each of them allowed where
it is made. -/
inductive Run : Forest → Ledger → List Move → Forest → Ledger → Prop where
  | nil {f : Forest} {L : Ledger} : Run f L [] f L
  | cons {f f' : Forest} {L L' : Ledger} {m : Move} {rest : List Move}
      (allowed : m.Allowed f L)
      (run : Run (Request.performAll f m.requests).state (m.record f L) rest f' L') :
      Run f L (m :: rest) f' L'

/-! ## What a call answers -/

namespace Forest

/-- The records and the tops are the same. -/
structure Same (f g : Forest) : Prop where
  store : g.store = f.store
  tops : ∀ r, g.tops.get r = f.tops.get r

theorem Same.refl (f : Forest) : f.Same f := ⟨rfl, fun _ => rfl⟩

theorem same_put_self (f : Forest) (r : RootId) : f.Same (f.put r (f.tree r)) where
  store := rfl
  tops r' := by
    rw [put, Table.get_set]
    split
    · next h => rw [h]; rfl
    · rfl

@[simp] theorem tree_put_self (f : Forest) (r : RootId) (t : Tree) : (f.put r t).tree r = t := by
  simp [tree, put]

theorem put_put (f : Forest) (r : RootId) (t t' : Tree) : (f.put r t).put r t' = f.put r t' := by
  rw [put, put, put, Table.set_set]

theorem tops_put_of_ne {f : Forest} {r r' : RootId} (h : r' ≠ r) (t : Tree) :
    (f.put r t).tops.get r' = f.tops.get r' := by
  rw [put, Table.get_set, if_neg h]

variable {f : Forest} {r : RootId} {call : Tree → Outcome Tree Unit} {t' : Tree}

theorem toReply_edit (h : call (f.tree r) = .ok () t') :
    (f.edit r call).toReply = .ok Interface.plain.done (f.put r t') := by
  rw [edit, h]
  rfl

/-- A call that does its work answers so, in either interface. -/
theorem edit_on (via : Interface) (h : call (f.tree r) = .ok () t') :
    (via.on r).edit f call = .ok via.done (f.put r t') := by
  cases via with
  | plain => exact toReply_edit h
  | status =>
    simp only [Interface.on, Target.edit, Forest.call, edit, h]
    rfl

theorem toReply_edit_refused
    (h : call (f.tree r) = .error (.refused .invalidArgument) (f.tree r)) :
    (f.edit r call).toReply = .ok Interface.plain.refused (f.put r (f.tree r)) := by
  rw [edit, h]
  rfl

theorem edit_refused {target : Target} (h : target = .status none ∨
      ∀ t, call t = .error (.refused .invalidArgument) t) :
    ∃ g, target.edit f call = .ok target.interface.refused g ∧ f.Same g := by
  cases target with
  | plain r =>
    have hcall := h.resolve_left (by simp)
    exact ⟨_, toReply_edit_refused (hcall _), same_put_self f r⟩
  | status root =>
    cases root with
    | none => exact ⟨f, rfl, .refl f⟩
    | some r =>
      have hcall := h.resolve_left (by simp)
      refine ⟨f.put r (f.tree r), ?_, same_put_self f r⟩
      simp only [Target.edit, Forest.call, edit, hcall]
      rfl

end Forest

/-- A call that lacks an argument is refused, and changes nothing. -/
theorem Request.perform_of_lacksArgument {q : Request} (h : q.LacksArgument) (f : Forest) :
    ∃ g, q.perform f = .ok q.interface.refused g ∧ f.Same g := by
  cases q with
  | insert r compare n =>
    cases h
    exact ⟨_, Forest.toReply_edit_refused rfl, f.same_put_self r⟩
  | link r n parent d =>
    cases h
    exact ⟨_, Forest.toReply_edit_refused rfl, f.same_put_self r⟩
  | linkSlot r n parent slot =>
    refine ⟨f, ?_, .refl f⟩
    rcases h with rfl | rfl
    · rfl
    · cases n <;> rfl
  | rebalance target n => exact Forest.edit_refused (h.imp_right fun hn t => by rw [hn]; rfl)
  | remove target n => exact Forest.edit_refused (h.imp_right fun hn t => by rw [hn]; rfl)
  | replace target old new =>
    refine Forest.edit_refused (h.imp_right fun hn t => ?_)
    rcases hn with rfl | rfl
    · rfl
    · cases old <;> rfl

/-! ## The invariant -/

/-- Every tree is red-black and holds its nodes of the ledger, and no two trees share a
node. -/
structure Forest.Keeps (f : Forest) (L : Ledger) : Prop where
  trees : ∀ r, (f.tree r).Holds (L r)
  disjoint : ∀ r r', r ≠ r' → (L r).Disjoint (L r')

namespace Forest

variable {f g : Forest} {L : Ledger}

theorem Keeps.congr (h : f.Keeps L) (hg : f.Same g) : g.Keeps L where
  trees r := (h.trees r).congr (hg.tops r) fun i _ => by
    rw [Tree.record, Tree.record, tree, tree, hg.store]
  disjoint := h.disjoint

theorem keeps_of_empty (h : ∀ r, f.tops.get r = none) : f.Keeps fun _ => [] where
  trees r := Tree.holds_nil (h r)
  disjoint _ _ _ := List.disjoint_nil_left _

/-- A change of one tree that takes nodes from that tree or from nowhere keeps all
others. -/
theorem Keeps.update {r : RootId} {xs : List NodeId} (h : f.Keeps L)
    (ht : (f.tree r).Becomes (g.tree r) xs) (htops : ∀ r', r' ≠ r → g.tops.get r' = f.tops.get r')
    (hxs : ∀ i ∈ xs, i ∈ L r ∨ L.Unlinked i) : g.Keeps (Function.update L r xs) := by
  -- A node of another tree is not among the new ones.
  have hother : ∀ r', r' ≠ r → (L r').Disjoint xs := by
    intro r' hr i hi hx
    rcases hxs i hx with hir | hun
    · exact h.disjoint r' r hr hi hir
    · exact hun r' hi
  constructor
  · intro r'
    by_cases hr : r' = r
    · subst hr
      rw [Function.update_self]
      exact ht.holds
    · rw [Function.update_of_ne hr]
      refine (h.trees r').congr (htops r' hr) fun i hi => ?_
      exact ht.frame i fun hx => hother r' hr hi hx
  · intro r₁ r₂ hne
    by_cases h₁ : r₁ = r
    · subst h₁
      rw [Function.update_self, Function.update_of_ne hne.symm]
      exact List.disjoint_symm (hother r₂ hne.symm)
    · by_cases h₂ : r₂ = r
      · subst h₂
        rw [Function.update_self, Function.update_of_ne h₁]
        exact hother r₁ h₁
      · rw [Function.update_of_ne h₁, Function.update_of_ne h₂]
        exact h.disjoint r₁ r₂ hne

theorem Keeps.put {r : RootId} {t' : Tree} {xs : List NodeId} (h : f.Keeps L)
    (ht : (f.tree r).Becomes t' xs) (hxs : ∀ i ∈ xs, i ∈ L r ∨ L.Unlinked i) :
    (f.put r t').Keeps (Function.update L r xs) :=
  h.update (by rw [tree_put_self]; exact ht) (fun _ hr => tops_put_of_ne hr t') hxs

theorem mem_insertIdx_ledger {r : RootId} {n : NodeId} {k : Nat} (hn : L.Unlinked n) :
    ∀ i ∈ (L r).insertIdx k n, i ∈ L r ∨ L.Unlinked i := by
  intro i hi
  rcases List.eq_or_mem_of_mem_insertIdx hi with rfl | hi
  · exact .inr hn
  · exact .inl hi

theorem mem_of_mem_replace {xs : List NodeId} {old new i : NodeId}
    (hi : i ∈ xs.replace old new) : i ∈ xs ∨ i = new := by
  induction xs with
  | nil => cases hi
  | cons a xs ih =>
    rw [List.replace_cons] at hi
    split at hi
    · rcases List.mem_cons.mp hi with rfl | hi
      · exact .inr rfl
      · exact .inl (List.mem_cons_of_mem a hi)
    · rcases List.mem_cons.mp hi with rfl | hi
      · exact .inl List.mem_cons_self
      · exact (ih hi).imp_left (List.mem_cons_of_mem a)

/-! ## One move -/

section Does

variable {r : RootId} {n old new : NodeId} {slot : Slot} {t' : Tree}

theorem does_insert {compare : NodeId → NodeId → Ordering}
    (h : (f.tree r).insert compare (some n) = .ok () t') :
    (Move.insert r compare n).Does f (f.put r t') := by
  simp only [Move.Does, Move.requests, Request.performAll, Request.perform]
  rw [toReply_edit h]
  rfl

/-- Linking and repairing, through either interface for the repair. -/
theorem performAll_link {q : Request} {reply : Reply}
    (hq : q.perform f = .ok reply (f.put r ((f.tree r).link n slot)))
    (h : ((f.tree r).link n slot).rebalance (some n) = .ok () t') (via : Interface) :
    Request.performAll f [q, .rebalance (via.on r) (some n)] =
      .ok [reply, via.done] (f.put r t') := by
  have hrepair : (Request.rebalance (via.on r) (some n)).perform
      (f.put r ((f.tree r).link n slot)) = .ok via.done (f.put r t') := by
    rw [← put_put f r ((f.tree r).link n slot) t']
    refine edit_on via ?_
    rw [tree_put_self]
    exact h
  simp only [Request.performAll, hq, Outcome.andThen, hrepair]

theorem does_link {parent : Option NodeId} {d : Side}
    (h : ((f.tree r).link n (.below parent d)).rebalance (some n) = .ok () t')
    (via : Interface) : (Move.link r n parent d via).Does f (f.put r t') := by
  have hq : (Request.link r (some n) parent d).perform f =
      .ok Interface.plain.done (f.put r ((f.tree r).link n (.below parent d))) := rfl
  refine (performAll_link hq h via).trans ?_
  cases via <;> rfl

theorem does_linkSlot (h : ((f.tree r).link n slot).rebalance (some n) = .ok () t')
    (via : Interface) : (Move.linkSlot r n slot via).Does f (f.put r t') := by
  have hq : (Request.linkSlot r (some n) slot.parent (some slot)).perform f =
      .ok Interface.status.done (f.put r ((f.tree r).link n slot)) := rfl
  refine (performAll_link hq h via).trans ?_
  cases via <;> rfl

theorem does_remove (h : (f.tree r).remove (some n) = .ok () t') (via : Interface) :
    (Move.remove via r n).Does f (f.put r t') := by
  simp only [Move.Does, Move.requests, Request.performAll, Request.perform]
  rw [edit_on via h]
  cases via <;> rfl

theorem does_replace (h : (f.tree r).replace (some old) (some new) = .ok () t')
    (via : Interface) : (Move.replace via r old new).Does f (f.put r t') := by
  simp only [Move.Does, Move.requests, Request.performAll, Request.perform]
  rw [edit_on via h]
  cases via <;> rfl

end Does

/-- An allowed move succeeds, and leaves what the ledger says. -/
theorem Keeps.step {m : Move} (h : f.Keeps L) (hm : m.Allowed f L) :
    ∃ g, Request.performAll f m.requests = .ok m.replies g ∧ g.Keeps (m.record f L) := by
  cases m with
  | insert r compare n =>
    obtain ⟨slot, t', hslot, hinsert, ht'⟩ := (h.trees r).insert compare (hm r)
    refine ⟨f.put r t', does_insert hinsert, ?_⟩
    simp only [Move.record, hslot]
    exact h.put ht' (mem_insertIdx_ledger hm)
  | link r n parent d via =>
    obtain ⟨t', hrebalance, ht'⟩ := (h.trees r).rebalance_link hm.2 (hm.1 r)
    exact ⟨_, does_link hrebalance via, h.put ht' (mem_insertIdx_ledger hm.1)⟩
  | linkSlot r n slot via =>
    obtain ⟨t', hrebalance, ht'⟩ := (h.trees r).rebalance_link hm.2 (hm.1 r)
    exact ⟨_, does_linkSlot hrebalance via, h.put ht' (mem_insertIdx_ledger hm.1)⟩
  | remove via r n =>
    obtain ⟨t', hremove, ht'⟩ := (h.trees r).remove hm
    exact ⟨_, does_remove hremove via, h.put ht' fun i hi => .inl (List.mem_of_mem_erase hi)⟩
  | replace via r old new =>
    obtain ⟨hold, hnew⟩ := hm
    obtain ⟨t', hreplace, ht'⟩ := (h.trees r).replace hold (hnew r)
    refine ⟨_, does_replace hreplace via, h.put ht' fun i hi => ?_⟩
    rcases mem_of_mem_replace hi with hi | rfl
    · exact .inl hi
    · exact .inr hnew
  | decline q =>
    obtain ⟨g, hperform, hg⟩ := Request.perform_of_lacksArgument hm f
    refine ⟨g, ?_, h.congr hg⟩
    simp only [Move.requests, Request.performAll, hperform]
    rfl

end Forest

/-! ## Whole runs -/

theorem Run.keeps {f f' : Forest} {L L' : Ledger} {moves : List Move} (h : Run f L moves f' L')
    (hf : f.Keeps L) : f'.Keeps L' := by
  induction h with
  | nil => exact hf
  | cons allowed _ ih =>
    obtain ⟨g, hperform, hg⟩ := hf.step allowed
    rw [hperform] at ih
    exact ih hg

/-- What callers can rely on, where `L` is their ledger. -/
structure Forest.InOrder (f : Forest) (L : Ledger) : Prop where
  /-- Every move within the contract succeeds. -/
  succeeds : ∀ m : Move, m.Allowed f L → ∃ g, Request.performAll f m.requests = .ok m.replies g
  /-- Every tree passes the check, which counts its nodes. -/
  valid : ∀ r, ∃ blackHeight height,
    (f.tree r).validate = .ok ⟨(L r).length, blackHeight, height⟩
  /-- No two trees share a node. -/
  disjoint : ∀ r r', r ≠ r' → (L r).Disjoint (L r')
  /-- The links of a linked node lead to nodes of the same tree. -/
  closed : ∀ r, ∀ n ∈ L r, ∀ m,
    f.links.parent n = some m ∨ (∃ d, f.links.child n d = some m) → m ∈ L r
  /-- The nodes of a tree stand in the order of the ledger. -/
  order : ∀ r, ∃ s, (f.tree r).Spells s ∧ s.toList = L r

/-- After any run from empty trees, whatever the records of the nodes said, everything is
in order. -/
theorem run_in_order {f₀ f : Forest} {L : Ledger} {moves : List Move}
    (hempty : ∀ r, f₀.tops.get r = none) (h : Run f₀ (fun _ => []) moves f L) : f.InOrder L := by
  have hkeeps : f.Keeps L := h.keeps (Forest.keeps_of_empty hempty)
  refine ⟨fun m hm => ?_, fun r => (hkeeps.trees r).validate, hkeeps.disjoint,
    fun r n hn m hm => (hkeeps.trees r).mem_of_link hn hm, fun r => ?_⟩
  · obtain ⟨g, hperform, -⟩ := hkeeps.step hm
    exact ⟨g, hperform⟩
  · obtain ⟨s, hs, -, hlist⟩ := hkeeps.trees r
    exact ⟨s, hs, hlist⟩

/-- Two trees over four nodes, and a node that moves from the one to the other. -/
theorem run_in_order_of_two_trees :
    ∃ f L, Run (.detached 4) (fun _ => [])
        [.linkSlot 0 2 .top .plain, .link 1 3 none .left .status, .remove .status 0 2,
          .replace .plain 1 3 0, .decline (.remove (.status none) (some 2)),
          .link 1 2 (some 0) .left .plain, .insert 1 (fun n m => compare n m) 1] f L ∧
      f.InOrder L := by
  have hrun : ∃ f L, Run (.detached 4) (fun _ => [])
      [.linkSlot 0 2 .top .plain, .link 1 3 none .left .status, .remove .status 0 2,
        .replace .plain 1 3 0, .decline (.remove (.status none) (some 2)),
        .link 1 2 (some 0) .left .plain, .insert 1 (fun n m => compare n m) 1] f L := by
    refine ⟨_, _, .cons ?_ (.cons ?_ (.cons ?_ (.cons ?_ (.cons ?_ (.cons ?_ (.cons ?_ .nil))))))⟩
    · exact ⟨fun r => List.not_mem_nil, rfl⟩
    · exact ⟨fun
        | 0 => by decide +kernel
        | _ + 1 => List.not_mem_nil, rfl⟩
    · exact .head _
    · exact ⟨.head _, fun
        | 0 | 1 => by decide +kernel
        | _ + 2 => List.not_mem_nil⟩
    · exact .inl rfl
    · exact ⟨fun
        | 0 | 1 => by decide +kernel
        | _ + 2 => List.not_mem_nil, .head _, by decide +kernel⟩
    · exact fun
        | 0 | 1 => by decide +kernel
        | _ + 2 => List.not_mem_nil
  obtain ⟨f, L, h⟩ := hrun
  have hempty : ∀ r, (Forest.detached 4).tops.get r = none := fun _ => rfl
  exact ⟨f, L, h, run_in_order hempty h⟩

end RedBlack
