import Mathlib.Data.Nat.Basic
import Mathlib.Order.Lattice
import RedBlack.Proofs.Forest.Runs

/-!
# One tree behind two interfaces

The status interface links a node in steps of the caller's own: the caller goes down from
slot to slot, has the node written into the last one, and then has the tree balanced.  The
plain interface does all of this in one call.  This module compares the two, on any records
and not only on those of a valid tree.

* `Outcome.Agree` says that two outcomes have the same answer and leave the same records and
  tops.
* `descend_eq_slotFor` compares the two ways down round by round, and `insertBefore_agrees`
  the two insertions.
* `RefusesExactly` says when a call is refused, and that it has then written nothing.
* `Call` is a call without the interface it goes through, and `Call.run` makes a list of
  calls, each through an interface of its own.  `Call.perform_tells` says that a call does
  the same work through either, and `Call.run_congr` is the induction over a run.
* `interfaces_agree` is the result.
-/

namespace RedBlack

namespace Forest

variable {f g : Forest}

/-! ## The same records and tops -/

theorem Same.symm (h : f.Same g) : g.Same f := ⟨h.store.symm, fun r => (h.tops r).symm⟩

theorem Same.trans {g' : Forest} (h : f.Same g) (h' : g.Same g') : f.Same g' :=
  ⟨h'.store.trans h.store, fun r => (h'.tops r).trans (h.tops r)⟩

theorem Same.tree_eq (h : f.Same g) (r : RootId) : g.tree r = f.tree r := by
  rw [tree, tree, h.store, h.tops]

/-- Putting a tree back leaves the same, whichever of the two it is put into. -/
theorem Same.put (h : f.Same g) (r : RootId) (t : Tree) : (f.put r t).Same (g.put r t) where
  store := rfl
  tops r' := by
    show (g.tops.set r t.top).get r' = (f.tops.set r t.top).get r'
    rw [Table.get_set, Table.get_set, h.tops]

end Forest

/-- Two outcomes with the same answer or failure, which leave the same records and tops. -/
structure Outcome.Agree {α : Type} (o o' : Outcome Forest α) : Prop where
  answer : o'.answer = o.answer
  state : o.state.Same o'.state

namespace Outcome.Agree

variable {α β : Type} {o o' : Outcome Forest α}

theorem of_eq (h : o = o') : o.Agree o' := by
  subst h
  exact ⟨rfl, .refl _⟩

/-- Reading the answers in one way keeps outcomes in agreement. -/
theorem map (h : o.Agree o') (read : α → β) :
    (o.andThen fun a g => .ok (read a) g).Agree (o'.andThen fun a g => .ok (read a) g) := by
  obtain ⟨hanswer, hstate⟩ := h
  cases o with
  | ok a f =>
    cases o' with
    | ok a' f' =>
      cases hanswer
      exact ⟨rfl, hstate⟩
    | error failure f' => cases hanswer
  | error failure f =>
    cases o' with
    | ok a' f' => cases hanswer
    | error failure' f' =>
      cases hanswer
      exact ⟨rfl, hstate⟩

end Outcome.Agree

namespace Forest

variable {f : Forest} {r : RootId} {n : NodeId}

/-! ## The two ways down -/

/-- From a node on, the caller's slot is the one of the plain way down, in any number of
rounds. -/
theorem loop_go (f : Forest) (r : RootId) (order : NodeId → Ordering) (rounds : Nat)
    (n : NodeId) :
    loop (descend.go f r fun m => order m = .lt) rounds
        (some n, .under n (if order n = .lt then .left else .right)) =
      (fun slot => (slot.parent, slot)) <$>
        loop (Tree.slotFor.descend (f.tree r) order) rounds n := by
  induction rounds generalizing n with
  | zero => rfl
  | succ rounds ih =>
    generalize hd : (if order n = .lt then Side.left else .right) = d
    have hheld : f.held r (.under n d) = (f.tree r).child n d := rfl
    cases hchild : (f.tree r).child n d with
    | none =>
      have hgo : descend.go f r (fun m => order m = .lt) (some n, .under n d) =
          .ok (.done (some n, .under n d)) := by
        simp only [descend.go, hheld, hchild]
      have hdescend : Tree.slotFor.descend (f.tree r) order n = .ok (.done (.under n d)) := by
        simp only [Tree.slotFor.descend, hd, hchild]
      rw [loop_of_done hgo, loop_of_done hdescend]
      rfl
    | some c =>
      have hgo : descend.go f r (fun m => order m = .lt) (some n, .under n d) =
          .ok (.again (some c, .under c (if order c = .lt then .left else .right))) := by
        simp only [descend.go, hheld, hchild, decide_eq_true_eq]
      have hdescend : Tree.slotFor.descend (f.tree r) order n = .ok (.again c) := by
        simp only [Tree.slotFor.descend, hd, hchild]
      rw [loop_of_again hgo, loop_of_again hdescend, ih]

/-- Both ways down end at the same slot, or come to no end alike. -/
theorem descend_eq_slotFor (f : Forest) (r : RootId) (order : NodeId → Ordering) :
    f.descend r (fun m => order m = .lt) =
      (fun slot => (slot.parent, slot)) <$> (f.tree r).slotFor order := by
  have hheld : f.held r .top = (f.tree r).top := rfl
  rw [descend, Tree.slotFor]
  cases htop : (f.tree r).top with
  | none =>
    have hgo : descend.go f r (fun m => order m = .lt) (none, .top) =
        .ok (.done (none, .top)) := by
      simp only [descend.go, hheld, htop]
    rw [loop_of_done hgo]
    rfl
  | some n =>
    have hgo : descend.go f r (fun m => order m = .lt) (none, .top) =
        .ok (.again (some n, .under n (if order n = .lt then .left else .right))) := by
      simp only [descend.go, hheld, htop, decide_eq_true_eq]
    rw [loop_of_again hgo]
    exact loop_go f r order _ n

/-! ## The two insertions -/

/-- A call on a tree that has just been put back is a call on that tree. -/
theorem edit_put {α : Type} (f : Forest) (r : RootId) (t : Tree) (work : Tree → Outcome Tree α) :
    (f.put r t).edit r work = (work t).inside (f.put r) := by
  have hput : (f.put r t).put r = f.put r := funext fun t' => put_put f r t t'
  rw [edit, tree_put_self, hput]

/-- Work with a check at its end is never refused. -/
theorem commit_ne_refused (t : Tree) (work : Except Fault Tree) (code : ErrorCode) (t' : Tree) :
    t.commit work ≠ .error (.refused code) t' := by
  intro h
  cases work with
  | error fault => cases h
  | ok done =>
    rw [Tree.commit, Tree.checked] at h
    split at h
    · cases h
    · next violation _ =>
      injection h with h
      exact Failure.ofViolation_ne_refused violation code h

theorem insert_ne_refused (t : Tree) (compare : NodeId → NodeId → Ordering) (n : NodeId)
    (code : ErrorCode) (t' : Tree) : t.insert compare (some n) ≠ .error (.refused code) t' := by
  rw [Tree.insert, Tree.given]
  cases t.slotFor (compare n) with
  | error fault =>
    intro h
    cases h
  | ok slot => exact commit_ne_refused (t.link n slot) _ code t'

/-- With a slot to link into, inserting in the caller's own steps is the insertion by the
comparator, and its statuses are zero. -/
theorem insertBefore_of_slotFor {compare : NodeId → NodeId → Ordering} {slot : Slot}
    (hslot : (f.tree r).slotFor (compare n) = .ok slot) :
    f.insertBefore r (fun m => compare n m = .lt) n =
      (f.edit r fun t => t.insert compare (some n)).andThen fun () g =>
        .ok ((0, 0) : Int × Int) g := by
  let u := (f.tree r).link n slot
  have hplain : f.edit r (fun t => t.insert compare (some n)) =
      (u.rebalance (some n)).inside (f.put r) := by
    rw [edit, Tree.insert, Tree.given, hslot]
    rfl
  have hrepair : (f.put r u).edit r (fun t => t.rebalance (some n)) =
      (u.rebalance (some n)).inside (f.put r) := edit_put ..
  have hsteps : f.insertBefore r (fun m => compare n m = .lt) n =
      (withStatus ((u.rebalance (some n)).inside (f.put r))).andThen fun balanced g =>
        .ok (0, balanced) g := by
    rw [← hrepair, insertBefore, descend_eq_slotFor, hslot]
    rfl
  rw [hplain, hsteps]
  cases h : u.rebalance (some n) with
  | ok a t' => rfl
  | error failure t' =>
    cases failure with
    | refused code => exact absurd h (commit_ne_refused u _ code t')
    | broken violation => rfl
    | overflow => rfl
    | lost fault => rfl

/-- On any records the two insertions agree: both do their work, or both fail alike. -/
theorem insertBefore_agrees (f : Forest) (r : RootId) (compare : NodeId → NodeId → Ordering)
    (n : NodeId) :
    ((f.edit r fun t => t.insert compare (some n)).andThen fun () g =>
        .ok ((0, 0) : Int × Int) g).Agree
      (f.insertBefore r (fun m => compare n m = .lt) n) := by
  cases hslot : (f.tree r).slotFor (compare n) with
  | ok slot => exact .of_eq (insertBefore_of_slotFor hslot).symm
  | error fault =>
    rw [edit, Tree.insert, Tree.given, insertBefore, descend_eq_slotFor, hslot]
    exact ⟨rfl, (f.same_put_self r).symm⟩

/-- On a red-black tree both insertions succeed, and leave the very same forest. -/
theorem insertBefore_eq_insert {s : Shape} (h : (f.tree r).Spells s) (hs : s.IsRedBlack)
    (hn : n ∉ s.toList) (compare : NodeId → NodeId → Ordering) :
    ∃ g, f.edit r (fun t => t.insert compare (some n)) = .ok () g ∧
      f.insertBefore r (fun m => compare n m = .lt) n = .ok (0, 0) g := by
  obtain ⟨t', hinsert, -⟩ := h.insert hs compare hn
  have hplain : f.edit r (fun t => t.insert compare (some n)) = .ok () (f.put r t') := by
    rw [edit, hinsert]
    rfl
  refine ⟨f.put r t', hplain, ?_⟩
  rw [insertBefore_of_slotFor (h.slotFor (compare n)), hplain]
  rfl

/-! ## Refusals -/

/-- A call answers the status of an invalid argument exactly when an argument is missing, and
then it has changed no record and no top. -/
def RefusesExactly (f : Forest) (o : Outcome Forest Int) (missing : Prop) : Prop :=
  (o.answer = .ok (-22) ↔ missing) ∧ (missing → f.Same o.state)

theorem refusesExactly_refuse {missing : Prop} (h : missing) :
    f.RefusesExactly f.refuse missing :=
  ⟨⟨fun _ => h, fun _ => rfl⟩, fun _ => .refl f⟩

theorem refusesExactly_of_ne {o : Outcome Forest Int} {missing : Prop} (h : ¬ missing)
    (ho : o.answer ≠ .ok (-22)) : f.RefusesExactly o missing :=
  ⟨⟨fun hanswer => absurd hanswer ho, fun hmissing => absurd hmissing h⟩,
    fun hmissing => absurd hmissing h⟩

/-- A call on a tree is refused without the tree, and when its work is. -/
theorem refusesExactly_call {work : Tree → Outcome Tree Unit} {missing : Prop}
    (hmissing : missing → ∀ t, work t = .error (.refused .invalidArgument) t)
    (hpresent : ¬ missing → ∀ t code t', work t ≠ .error (.refused code) t')
    (f : Forest) (root : Option RootId) :
    f.RefusesExactly (f.call root work) (root = none ∨ missing) := by
  cases root with
  | none => exact refusesExactly_refuse (.inl rfl)
  | some r =>
    rw [call, edit]
    by_cases h : missing
    · rw [hmissing h]
      exact ⟨⟨fun _ => .inr h, fun _ => rfl⟩, fun _ => f.same_put_self r⟩
    · refine refusesExactly_of_ne (by simpa using h) ?_
      cases hwork : work (f.tree r) with
      | ok a t' =>
        intro hanswer
        cases hanswer
      | error failure t' =>
        cases failure with
        | refused code => exact absurd hwork (hpresent h _ code t')
        | broken _ | overflow | lost _ =>
          intro hanswer
          cases hanswer

theorem resetNode_refuses (f : Forest) (n : Option NodeId) :
    f.RefusesExactly (f.resetNode n) (n = none) := by
  cases n with
  | none => exact refusesExactly_refuse rfl
  | some n =>
    refine refusesExactly_of_ne (by simp) ?_
    intro hanswer
    cases hanswer

theorem linkNode_refuses (f : Forest) (r : RootId) (n parent : Option NodeId)
    (slot : Option Slot) :
    f.RefusesExactly (f.linkNode r n parent slot) (n = none ∨ slot = none) := by
  cases n with
  | none => exact refusesExactly_refuse (.inl rfl)
  | some n =>
    cases slot with
    | none => exact refusesExactly_refuse (.inr rfl)
    | some slot =>
      refine refusesExactly_of_ne (by simp) ?_
      intro hanswer
      cases hanswer

/-- Work on one node, with a check at its end. -/
theorem refusesExactly_call_commit (work : Tree → NodeId → Except Fault Tree) (f : Forest)
    (root : Option RootId) (n : Option NodeId) :
    f.RefusesExactly (f.call root fun t => t.given n fun n => t.commit (work t n))
      (root = none ∨ n = none) := by
  refine refusesExactly_call ?_ ?_ f root
  · rintro rfl t
    rfl
  · intro h t code t'
    obtain ⟨n, rfl⟩ := Option.ne_none_iff_exists'.mp h
    exact commit_ne_refused t (work t n) code t'

theorem replace_refuses (f : Forest) (root : Option RootId) (old new : Option NodeId) :
    f.RefusesExactly (f.replace root old new) (root = none ∨ old = none ∨ new = none) := by
  refine refusesExactly_call ?_ ?_ f root
  · rintro (rfl | rfl) t
    · rfl
    · cases old <;> rfl
  · intro h t code t'
    rw [not_or] at h
    obtain ⟨old, rfl⟩ := Option.ne_none_iff_exists'.mp h.1
    obtain ⟨new, rfl⟩ := Option.ne_none_iff_exists'.mp h.2
    exact commit_ne_refused t (.ok (t.swapIn old new)) code t'

/-- Linking into the slot on one side of a parent, with what the caller of the status
interface says about the slot. -/
theorem linkNode_agrees (f : Forest) (r : RootId) (n parent : Option NodeId) (d : Side) :
    (withStatus (f.edit r fun t => t.linkNode n parent d)).Agree
      (f.linkNode r n parent (some (.below parent d))) := by
  cases n with
  | none => exact ⟨rfl, (f.same_put_self r).symm⟩
  | some n => cases parent <;> exact .of_eq rfl

end Forest

/-! ## Runs that change the interface on the way -/

/-- The result that an answer stands for. -/
def Reply.read : Reply → Except ErrorCode Unit
  | .result r => r
  | .status code => ofStatus code

/-- A call without the interface it goes through. -/
inductive Call where
  | insert (r : RootId) (compare : NodeId → NodeId → Ordering) (n : NodeId)
  | link (r : RootId) (n parent : Option NodeId) (d : Side)
  | rebalance (r : RootId) (n : Option NodeId)
  | remove (r : RootId) (n : Option NodeId)
  | replace (r : RootId) (old new : Option NodeId)

namespace Call

/-- Makes a call.  Through the status interface an insertion is made in the caller's own
steps, and the first status that is not zero stands for both. -/
def perform (via : Interface) (f : Forest) : Call → Outcome Forest Reply
  | insert r compare n =>
    match via with
    | .plain => (Request.insert r compare (some n)).perform f
    | .status =>
      (f.insertBefore r (fun m => compare n m = .lt) n).andThen fun (linked, balanced) g =>
        .ok (.status (if linked = 0 then balanced else linked)) g
  | link r n parent d =>
    match via with
    | .plain => (Request.link r n parent d).perform f
    | .status => (Request.linkSlot r n parent (some (.below parent d))).perform f
  | rebalance r n => (Request.rebalance (via.on r) n).perform f
  | remove r n => (Request.remove (via.on r) n).perform f
  | replace r old new => (Request.replace (via.on r) old new).perform f

/-- Makes calls one after the other, each through an interface of its own.  The answers are
the results, and the failures of calls that came to none.  A failure leaves what was done
until then, and the next call starts from there. -/
def run (f : Forest) :
    List (Interface × Call) → List (Except Failure (Except ErrorCode Unit)) × Forest
  | [] => ([], f)
  | (via, c) :: rest =>
    let o := c.perform via f
    let (answers, g) := run o.state rest
    (o.answer.map Reply.read :: answers, g)

/-- The tree that a call works on. -/
def root : Call → RootId
  | insert r .. | link r .. | rebalance r _ | remove r _ | replace r .. => r

/-- What a call does to its tree. -/
def work (t : Tree) : Call → Outcome Tree Unit
  | insert _ compare n => t.insert compare (some n)
  | link _ n parent d => t.linkNode n parent d
  | rebalance _ n => t.rebalance n
  | remove _ n => t.remove n
  | replace _ old new => t.replace old new

end Call

/-- The result of work on a tree.  A refusal is a result, other failures are not. -/
def Outcome.result : Outcome Tree Unit → Except Failure (Except ErrorCode Unit)
  | .ok () _ => .ok (.ok ())
  | .error (.refused code) _ => .ok (.error code)
  | .error failure _ => .error failure

/-- The outcome `o` in a forest tells of work on tree `r`: it leaves the forest with that
tree put back, and its answer stands for the result of the work. -/
structure Outcome.Tells (o : Outcome Forest Reply) (f : Forest) (r : RootId)
    (work : Outcome Tree Unit) : Prop where
  answer : o.answer.map Reply.read = work.result
  state : (f.put r work.state).Same o.state

namespace Outcome

variable {f g : Forest} {r : RootId} {work : Tree → Outcome Tree Unit}

theorem Tells.of_agree {o o' : Outcome Forest Reply} {w : Outcome Tree Unit}
    (h : o.Tells f r w) (ho : o.Agree o') : o'.Tells f r w where
  answer := by rw [ho.answer, h.answer]
  state := h.state.trans ho.state

theorem tells_toReply (f : Forest) (r : RootId) (work : Tree → Outcome Tree Unit) :
    (f.edit r work).toReply.Tells f r (work (f.tree r)) := by
  rw [Forest.edit]
  cases work (f.tree r) with
  | ok a t' => exact ⟨rfl, .refl _⟩
  | error failure t' => cases failure <;> exact ⟨rfl, .refl _⟩

/-- A status stands for the result that it was made from. -/
theorem tells_toStatus {o : Outcome Forest Int} (h : (Forest.withStatus (f.edit r work)).Agree o) :
    o.toStatus.Tells f r (work (f.tree r)) := by
  have hmade : (Forest.withStatus (f.edit r work)).toStatus.Tells f r (work (f.tree r)) := by
    rw [Forest.edit]
    cases work (f.tree r) with
    | ok a t' => exact ⟨rfl, .refl _⟩
    | error failure t' =>
      cases failure with
      | refused code => exact ⟨congrArg Except.ok (ofStatus_status (.error code)), .refl _⟩
      | broken _ | overflow | lost _ => exact ⟨rfl, .refl _⟩
  exact hmade.of_agree (h.map Reply.status)

/-- Both statuses of an insertion stand for its result. -/
theorem tells_insertBefore (f : Forest) (r : RootId) (compare : NodeId → NodeId → Ordering)
    (n : NodeId) :
    ((f.insertBefore r (fun m => compare n m = .lt) n).andThen fun (linked, balanced) g =>
        .ok (Reply.status (if linked = 0 then balanced else linked)) g).Tells f r
      ((f.tree r).insert compare (some n)) := by
  let first (statuses : Int × Int) : Reply :=
    .status (if statuses.1 = 0 then statuses.2 else statuses.1)
  have hmade : (((f.edit r fun t => t.insert compare (some n)).andThen fun () g =>
      .ok ((0, 0) : Int × Int) g).andThen fun statuses g => .ok (first statuses) g).Tells f r
        ((f.tree r).insert compare (some n)) := by
    rw [Forest.edit]
    cases h : (f.tree r).insert compare (some n) with
    | ok a t' => exact ⟨rfl, .refl _⟩
    | error failure t' =>
      cases failure with
      | refused code => exact absurd h (Forest.insert_ne_refused _ compare n code t')
      | broken _ | overflow | lost _ => exact ⟨rfl, .refl _⟩
  exact hmade.of_agree ((Forest.insertBefore_agrees f r compare n).map first)

end Outcome

namespace Call

variable {f g : Forest}

/-- Through either interface a call does the same work, and answers for it. -/
theorem perform_tells (via : Interface) (f : Forest) (c : Call) :
    (c.perform via f).Tells f c.root (c.work (f.tree c.root)) := by
  cases via with
  | plain => cases c <;> exact Outcome.tells_toReply f _ _
  | status =>
    cases c with
    | insert r compare n => exact Outcome.tells_insertBefore f r compare n
    | link r n parent d => exact Outcome.tells_toStatus (Forest.linkNode_agrees f r n parent d)
    | rebalance r n => exact Outcome.tells_toStatus (.of_eq rfl)
    | remove r n => exact Outcome.tells_toStatus (.of_eq rfl)
    | replace r old new => exact Outcome.tells_toStatus (.of_eq rfl)

/-- One call, from two forests that are the same and through any two interfaces. -/
theorem perform_congr (h : f.Same g) (via via' : Interface) (c : Call) :
    (c.perform via' g).answer.map Reply.read = (c.perform via f).answer.map Reply.read ∧
      (c.perform via f).state.Same (c.perform via' g).state := by
  have hf := c.perform_tells via f
  have hg := c.perform_tells via' g
  rw [h.tree_eq] at hg
  refine ⟨hg.answer.trans hf.answer.symm, ?_⟩
  exact hf.state.symm.trans ((h.put c.root _).trans hg.state)

/-- A run, from two forests that are the same and through any interfaces. -/
theorem run_congr {script script' : List (Interface × Call)}
    (hcalls : script'.map Prod.snd = script.map Prod.snd) (h : f.Same g) :
    (run g script').1 = (run f script).1 ∧ (run f script).2.Same (run g script').2 := by
  induction script generalizing f g script' with
  | nil =>
    rw [List.map_nil, List.map_eq_nil_iff] at hcalls
    subst hcalls
    exact ⟨rfl, h⟩
  | cons step script ih =>
    obtain ⟨step', script', rfl, hstep, hrest⟩ := List.map_eq_cons_iff.mp hcalls
    obtain ⟨hanswer, hstate⟩ := perform_congr h step.1 step'.1 step.2
    obtain ⟨hanswers, hend⟩ := ih hrest hstate
    simp only [run, hstep]
    exact ⟨List.cons_eq_cons.mpr ⟨hanswer, hanswers⟩, hend⟩

end Call

namespace Forest

/-! ## One tree -/

/-- The two interfaces are one tree.

* On a red-black tree, inserting by key in the caller's own steps answers zero twice and
  leaves the very forest that the insertion by comparison leaves, ties included.
* On any records, linking into a child slot or at the top, balancing, removing and
  replacing leave what the plain calls leave, and answer the status of their result.
* So any two runs of the same calls leave the same records and tops and come to the same
  results, whichever interface each of the calls goes through.
* On any records, a call has the status of an invalid argument exactly when one of the
  arguments that it needs is missing, and then nothing was written. -/
theorem interfaces_agree {α : Type} [LinearOrder α] :
    (∀ (f : Forest) (r : RootId) (s : Shape) (n : NodeId) (key : NodeId → α),
      (f.tree r).Spells s → s.IsRedBlack → n ∉ s.toList →
        ∃ g, f.insertBefore r (fun m => key n < key m) n = .ok (0, 0) g ∧
          f.edit r (fun t => t.insert (fun a b => compare (key a) (key b)) (some n)) =
            .ok () g) ∧
    (∀ (f : Forest) (r : RootId),
      (∀ n parent d, (withStatus (f.edit r fun t => t.linkNode n parent d)).Agree
        (f.linkNode r n parent (some (.below parent d)))) ∧
      (∀ n, (withStatus (f.edit r fun t => t.rebalance n)).Agree (f.balance (some r) n)) ∧
      (∀ n, (withStatus (f.edit r fun t => t.remove n)).Agree (f.remove (some r) n)) ∧
      (∀ old new, (withStatus (f.edit r fun t => t.replace old new)).Agree
        (f.replace (some r) old new))) ∧
    (∀ (f : Forest) (script script' : List (Interface × Call)),
      script'.map Prod.snd = script.map Prod.snd →
        (Call.run f script').1 = (Call.run f script).1 ∧
          (Call.run f script).2.Same (Call.run f script').2) ∧
    (∀ f : Forest,
      (∀ n, f.RefusesExactly (f.resetNode n) (n = none)) ∧
      (∀ r n parent slot,
        f.RefusesExactly (f.linkNode r n parent slot) (n = none ∨ slot = none)) ∧
      (∀ root n, f.RefusesExactly (f.balance root n) (root = none ∨ n = none)) ∧
      (∀ root n, f.RefusesExactly (f.remove root n) (root = none ∨ n = none)) ∧
      (∀ root old new,
        f.RefusesExactly (f.replace root old new) (root = none ∨ old = none ∨ new = none))) := by
  refine ⟨?_, ?_, ?_, ?_⟩
  · intro f r s n key h hs hn
    obtain ⟨g, hinsert, hsteps⟩ :=
      insertBefore_eq_insert h hs hn fun a b => compare (key a) (key b)
    refine ⟨g, ?_, hinsert⟩
    simpa only [compare_lt_iff_lt] using hsteps
  · intro f r
    exact ⟨f.linkNode_agrees r, fun n => .of_eq rfl, fun n => .of_eq rfl,
      fun old new => .of_eq rfl⟩
  · intro f script script' hcalls
    exact Call.run_congr hcalls (.refl f)
  · intro f
    exact ⟨f.resetNode_refuses, f.linkNode_refuses,
      refusesExactly_call_commit (fun t n => t.repairRed n) f,
      refusesExactly_call_commit (fun t n => t.unlink n) f, f.replace_refuses⟩

/-- A node that still names other nodes has the key of two nodes of the tree.  It is inserted,
one of those is removed, and a call lacks its node. -/
theorem interfaces_agree_of_ties :
    let s : Shape := .node .black (.node .red .leaf 3 .leaf) 5 (.node .red .leaf 7 .leaf)
    let f := ofTree ((Tree.build {} s).setRecord 4 ⟨some 3, .black, some 5, none⟩)
    let key (n : NodeId) : Nat := if n = 7 then 2 else 1
    let insert : Call := .insert 0 (fun a b => compare (key a) (key b)) 4
    let calls : List Call := [insert, .remove 0 (some 5), .remove 0 none]
    let plain := calls.map fun c => (Interface.plain, c)
    let mixed := [Interface.status, .plain, .status].zip calls
    (f.tree 0).Spells s ∧ s.IsRedBlack ∧ 4 ∉ s.toList ∧
      (∃ g, f.insertBefore 0 (fun m => key 4 < key m) 4 = .ok (0, 0) g ∧
        f.edit 0 (fun t => t.insert (fun a b => compare (key a) (key b)) (some 4)) =
          .ok () g) ∧
      (Call.run f mixed).1 = (Call.run f plain).1 ∧
      (Call.run f plain).2.Same (Call.run f mixed).2 ∧
      (f.remove (some 0) none).answer = .ok (-22) ∧ f.Same (f.remove (some 0) none).state := by
  intro s f key insert calls plain mixed
  have h : (f.tree 0).Spells s :=
    ⟨rfl, (Tree.hangs_setRecord (by decide)).mpr (Tree.spells_build {} (by decide)).hangs,
      by decide⟩
  have hs : s.IsRedBlack := by decide
  have hn : 4 ∉ s.toList := by decide
  obtain ⟨hinsert, -, hrun, hrefuse⟩ := @interfaces_agree Nat _
  obtain ⟨hanswers, hsame⟩ := hrun f plain mixed rfl
  obtain ⟨-, -, -, hremove, -⟩ := hrefuse f
  obtain ⟨hstatus, hkept⟩ := hremove (some 0) none
  exact ⟨h, hs, hn, hinsert f 0 s 4 key h hs hn, hanswers, hsame, hstatus.mpr (.inr rfl),
    hkept (.inr rfl)⟩

end Forest

end RedBlack
