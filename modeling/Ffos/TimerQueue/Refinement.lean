/-
Module: Ffos.TimerQueue.Refinement
Purpose: Inside a window shorter than half the 32-bit range the in-order
  sequence of the tree is the sequence of the ideal queue, and every run of the
  code is a run of the ideal queue.
Trusted boundary: none
Main exports: Tracks, Refines, TimedStep.refines, timerqueue_refines_ideal
-/
import Ffos.TimerQueue.Ideal
import Ffos.TimerQueue.Membership

namespace Ffos.TimerQueue

open Ffos.Lib

variable {Node Func Param : Type} [DecidableEq Node]

theorem Before.trans {first second third : Nat × Nat} (one : Before first second)
    (two : Before second third) : Before first third := by
  unfold Before at *
  omega

theorem Before.deadline_le {first second : Nat × Nat} (before : Before first second) :
    first.1 ≤ second.1 := by
  unfold Before at before
  omega

/-! ### The tree tracks the live timers -/

/-- The linked nodes are the live timers, their keys are the wrapped deadlines,
and the tree holds them in the order of the ideal queue. -/
structure Tracks (queue : Fftimerqueue Node Func Param)
    (live : Node → Option (Nat × Nat)) : Prop where
  wellLinked : WellLinked queue
  linked_iff : ∀ node, queue.Linked node ↔ ∃ entry, live node = some entry
  key : ∀ node entry, live node = some entry →
    (queue.nodes node).key = BitVec.ofNat 32 entry.1
  order : (inorder queue.tree).Pairwise fun first second =>
    ∀ firstEntry secondEntry, live first = some firstEntry → live second = some secondEntry →
      Before firstEntry secondEntry

namespace Tracks

variable (rbt : Ffrbt Node) {queue : Fftimerqueue Node Func Param}
  {live : Node → Option (Nat × Nat)} {node : Node}

theorem not_linked (tracks : Tracks queue live) (dead : live node = none) :
    ¬ queue.Linked node := by
  rw [tracks.linked_iff]
  rintro ⟨entry, alive⟩
  simp [dead] at alive

/-- A live timer other than the updated one is still live with the same entry. -/
private theorem live_of_update_none {other : Node} {entry : Nat × Nat}
    (alive : Function.update live node none other = some entry) :
    other ≠ node ∧ live other = some entry := by
  by_cases here : other = node
  · subst here
    simp at alive
  · rw [Function.update_of_ne here] at alive
    exact ⟨here, alive⟩

/-- Unlinking a node drops its timer. -/
theorem unlink (tracks : Tracks queue live) (member : queue.Linked node) :
    Tracks (unlink rbt queue node) (Function.update live node none) where
  wellLinked := tracks.wellLinked.unlink rbt member
  linked_iff other := by
    rw [linked_unlink_iff rbt tracks.wellLinked member, tracks.linked_iff]
    by_cases here : other = node
    · subst here
      simp
    · simp [here]
  key other entry alive := by
    obtain ⟨different, alive⟩ := live_of_update_none alive
    rw [unlink_nodes_of_ne rbt queue different]
    exact tracks.key other entry alive
  order := by
    rw [inorder_unlink rbt tracks.wellLinked member]
    apply (tracks.order.sublist List.erase_sublist).imp
    intro first second ordered firstEntry secondEntry firstAlive secondAlive
    exact ordered _ _ (live_of_update_none firstAlive).2 (live_of_update_none secondAlive).2

/-- `fftimerqueue_remove` drops the timer, whether or not it was live. -/
theorem remove (tracks : Tracks queue live) (node : Node) :
    Tracks (fftimerqueueRemove rbt queue node).2 (Function.update live node none) := by
  rcases fftimerqueueRemove_eq rbt tracks.wellLinked node with
    ⟨member, equation⟩ | ⟨absent, equation⟩
  · rw [equation]
    exact tracks.unlink rbt member
  · have dead : live node = none := by
      rw [tracks.linked_iff] at absent
      exact Option.eq_none_iff_forall_ne_some.mpr fun entry alive => absent ⟨entry, alive⟩
    rw [equation, Function.update_eq_self_iff.mpr dead.symm]
    exact tracks

/-- Fields of a node that is not live may be overwritten. -/
theorem write (tracks : Tracks queue live) (dead : live node = none)
    (change : TimerNode Func Param → TimerNode Func Param)
    (keepsFlag : ∀ fields, (change fields).active = fields.active) :
    Tracks (queue.write node change) live where
  wellLinked := tracks.wellLinked.write node change keepsFlag
  linked_iff := tracks.linked_iff
  key other entry alive := by
    have different : other ≠ node := by
      rintro rfl
      simp [dead] at alive
    rw [Fftimerqueue.write_nodes_of_ne _ different]
    exact tracks.key other entry alive
  order := tracks.order

/-- The walk of `_fftmrq_node_insert` goes left exactly at later deadlines, so it
splits the sequence at the place of the new timer. -/
private theorem inorder_link_eq (tracks : Tracks queue live) {deadline : Nat}
    (keyed : (queue.nodes node).key = BitVec.ofNat 32 deadline)
    (near : ∀ other entry, live other = some entry → Near 32 deadline entry.1) :
    ∃ before after, inorder queue.tree = before ++ after ∧
      inorder (link rbt queue node).tree = before ++ node :: after ∧
      (∀ other ∈ before, ∀ entry, live other = some entry → entry.1 ≤ deadline) ∧
      ∀ other ∈ after, ∀ entry, live other = some entry → deadline < entry.1 := by
  have compare : ∀ other ∈ inorder queue.tree, ∀ entry, live other = some entry →
      (serialDiff (queue.nodes node).key (queue.nodes other).key < 0 ↔ deadline < entry.1) := by
    intro other _ entry alive
    rw [keyed, tracks.key other entry alive]
    exact serialDiff_ofNat_neg_iff (near other entry alive)
  let stays : Node → Bool := fun other =>
    !decide (serialDiff (queue.nodes node).key (queue.nodes other).key < 0)
  have downward : (inorder queue.tree).Pairwise fun first second =>
      stays second = true → stays first = true := by
    refine List.Pairwise.imp_of_mem ?_ tracks.order
    intro first second firstMember secondMember ordered
    obtain ⟨firstEntry, firstAlive⟩ := (tracks.linked_iff first).mp firstMember
    obtain ⟨secondEntry, secondAlive⟩ := (tracks.linked_iff second).mp secondMember
    have deadlines := (ordered _ _ firstAlive secondAlive).deadline_le
    have firstCompare := compare first firstMember firstEntry firstAlive
    have secondCompare := compare second secondMember secondEntry secondAlive
    simp only [stays, Bool.not_eq_true', decide_eq_false_iff_not, firstCompare, secondCompare]
    omega
  refine ⟨_, _, filter_append_filter_not downward, ?_, ?_, ?_⟩
  · rw [inorder_link]
    apply inorder_insertLeaf (filter_append_filter_not downward)
    · intro other member
      simpa [stays] using (List.mem_filter.mp member).2
    · intro other member
      simpa [stays] using (List.mem_filter.mp member).2
  · intro other member entry alive
    obtain ⟨inTree, stay⟩ := List.mem_filter.mp member
    have compared := compare other inTree entry alive
    simp only [stays, Bool.not_eq_true', decide_eq_false_iff_not, compared] at stay
    omega
  · intro other member entry alive
    obtain ⟨inTree, stay⟩ := List.mem_filter.mp member
    have compared := compare other inTree entry alive
    simpa [stays, compared] using stay

/-- Linking a node that is not live makes its timer live as the latest inserted
one. Every tree shape is covered, since only the sequence matters. -/
theorem link (tracks : Tracks queue live) {deadline stamp : Nat} (dead : live node = none)
    (keyed : (queue.nodes node).key = BitVec.ofNat 32 deadline)
    (near : ∀ other entry, live other = some entry → Near 32 deadline entry.1)
    (latest : ∀ other entry, live other = some entry → entry.2 < stamp) :
    Tracks (link rbt queue node) (Function.update live node (some (deadline, stamp))) := by
  have absent := tracks.not_linked dead
  obtain ⟨before, after, split, linked, earlier, later⟩ :=
    inorder_link_eq rbt tracks keyed near
  have others : ∀ other ∈ inorder queue.tree, other ≠ node := by
    rintro other member rfl
    exact absent member
  have order := tracks.order
  rw [split, List.pairwise_append] at order
  obtain ⟨beforeOrder, afterOrder, cross⟩ := order
  have keep : ∀ other ∈ before ++ after, ∀ entry,
      Function.update live node (some (deadline, stamp)) other = some entry →
        live other = some entry := by
    intro other member entry alive
    rwa [Function.update_of_ne (others other (split ▸ member))] at alive
  refine
    { wellLinked := tracks.wellLinked.link rbt absent
      linked_iff := ?_
      key := ?_
      order := ?_ }
  · intro other
    rw [linked_link_iff, tracks.linked_iff]
    by_cases here : other = node
    · subst here
      simp
    · simp [here]
  · intro other entry alive
    by_cases here : other = node
    · subst here
      rw [Function.update_self] at alive
      obtain rfl := Option.some.inj alive
      rw [link_nodes_self]
      exact keyed
    · rw [Function.update_of_ne here] at alive
      rw [link_nodes_of_ne rbt queue here]
      exact tracks.key other entry alive
  · rw [linked, List.pairwise_append, List.pairwise_cons]
    refine ⟨?_, ⟨?_, ?_⟩, ?_⟩
    · refine beforeOrder.imp_of_mem ?_
      intro first second firstMember secondMember ordered firstEntry secondEntry one two
      exact ordered _ _ (keep first (by simp [firstMember]) _ one)
        (keep second (by simp [secondMember]) _ two)
    · intro other member firstEntry otherEntry one two
      rw [Function.update_self] at one
      obtain rfl := Option.some.inj one
      exact Or.inl (later other member _ (keep other (by simp [member]) _ two))
    · refine afterOrder.imp_of_mem ?_
      intro first second firstMember secondMember ordered firstEntry secondEntry one two
      exact ordered _ _ (keep first (by simp [firstMember]) _ one)
        (keep second (by simp [secondMember]) _ two)
    · intro first firstMember second secondMember firstEntry secondEntry one two
      have oldFirst := keep first (by simp [firstMember]) _ one
      rcases List.mem_cons.mp secondMember with rfl | secondMember
      · rw [Function.update_self] at two
        obtain rfl := Option.some.inj two
        have deadlines := earlier first firstMember _ oldFirst
        have stamps := latest first _ oldFirst
        unfold Before
        omega
      · exact cross first firstMember second secondMember _ _ oldFirst
          (keep second (by simp [secondMember]) _ two)

/-- The leftmost node is the least live timer. -/
theorem least_of_leftmost (tracks : Tracks queue live)
    (minimum : leftmost queue.tree = some node) :
    ∃ entry, live node = some entry ∧
      ∀ other otherEntry, live other = some otherEntry → other ≠ node →
        Before entry otherEntry := by
  obtain ⟨entry, alive⟩ := (tracks.linked_iff node).mp (linked_of_leftmost minimum)
  refine ⟨entry, alive, ?_⟩
  intro other otherEntry otherAlive different
  have member : queue.Linked other := (tracks.linked_iff other).mpr ⟨otherEntry, otherAlive⟩
  have order := tracks.order
  rw [leftmost_eq_head] at minimum
  unfold Fftimerqueue.Linked at member
  cases sequence : inorder queue.tree with
  | nil => simp [sequence] at minimum
  | cons first rest =>
      rw [sequence] at minimum member order
      obtain rfl : first = node := by simpa using minimum
      rcases List.mem_cons.mp member with rfl | later
      · exact absurd rfl different
      · exact (List.pairwise_cons.mp order).1 other later _ _ alive otherAlive

/-- When the loop of `fftimerqueue_process` stops, no live timer's deadline has come. -/
theorem future_of_stopped (tracks : Tracks queue live) {now : Nat}
    (near : ∀ other entry, live other = some entry → Near 32 entry.1 now)
    (stopped : processIteration rbt queue (BitVec.ofNat 32 now) = none)
    {entry : Nat × Nat} (alive : live node = some entry) : now < entry.1 := by
  have member : queue.Linked node := (tracks.linked_iff node).mpr ⟨entry, alive⟩
  unfold processIteration at stopped
  cases minimum : leftmost queue.tree with
  | none =>
      rw [leftmost_eq_head, List.head?_eq_none_iff] at minimum
      simp [Fftimerqueue.Linked, minimum] at member
  | some first =>
      obtain ⟨firstEntry, firstAlive, least⟩ := tracks.least_of_leftmost minimum
      have future : now < firstEntry.1 := by
        simp only [minimum] at stopped
        split at stopped
        · rename_i positive
          rwa [tracks.key first firstEntry firstAlive,
            serialDiff_ofNat_pos_iff (near first firstEntry firstAlive)] at positive
        · simp at stopped
      by_cases here : node = first
      · subst here
        rw [firstAlive] at alive
        obtain rfl := Option.some.inj alive
        exact future
      · exact Nat.lt_of_lt_of_le future (least node entry alive here).deadline_le

end Tracks

/-! ### The operations on the ideal queue -/

section Operations

variable (rbt : Ffrbt Node)

/-- `fftimerqueue_add` overwrites the key of a node that may still be linked. As
the removal that follows does not look at the key, the write might as well come
after it. -/
theorem fftimerqueueAdd_eq (queue : Fftimerqueue Node Func Param) (node : Node)
    (nowMsec intervalMsec : BitVec 32) (func : Func) (param : Param) :
    fftimerqueueAdd rbt queue node nowMsec intervalMsec func param =
      link rbt
        ((fftimerqueueRemove rbt queue node).2.write node
          (setFields nowMsec intervalMsec func param))
        node := by
  have flag : ((queue.write node (setFields nowMsec intervalMsec func param)).nodes node).active =
      (queue.nodes node).active := by
    rw [Fftimerqueue.write_nodes_self]
    rfl
  have commute : unlink rbt
      (queue.write node (setFields nowMsec intervalMsec func param)) node =
        (unlink rbt queue node).write node (setFields nowMsec intervalMsec func param) := by
    simp only [unlink, Fftimerqueue.write, ffrbtRm, Function.update_self, Function.update_idem]
    rfl
  unfold fftimerqueueAdd fftimerqueueAddnode fftimerqueueRemove
  rw [flag]
  split
  · rw [commute]
  · rfl

/-- The key written by `fftimerqueue_add` is the wrapped true deadline. -/
theorem setFields_key (time : Nat) (intervalMsec : BitVec 32) (func : Func) (param : Param)
    (fields : TimerNode Func Param) :
    (setFields (BitVec.ofNat 32 time) intervalMsec func param fields).key =
      BitVec.ofNat 32 (time + intervalMsec.toInt.natAbs) := by
  rw [BitVec.ofNat_add, ← abs_eq_ofNat_natAbs]
  rfl

/-- A one-shot node is not put back. -/
theorem rearm_oneShot {queue : Fftimerqueue Node Func Param} {node : Node}
    (oneShot : OneShot (queue.nodes node).intervalMsec) (key nowMsec : BitVec 32) :
    rearm rbt queue node key nowMsec = queue :=
  if_neg (by have := oneShot.1; omega)

end Operations

/-! ### The machine on the ideal queue -/

/-- The code's state against the observer's record. The counts differ by one
inside a callback, because `n++` comes after it. -/
structure Refines (state : Timed Node Func Param) : Prop where
  tracks : Tracks state.machine.queue state.ideal.live
  stamps : ∀ node entry, state.ideal.live node = some entry → entry.2 < state.ideal.inserted
  oneShot : ∀ node, OneShot (state.machine.queue.nodes node).intervalMsec
  loop : ∀ nowMsec count, state.machine.position = .loop nowMsec count →
    nowMsec = BitVec.ofNat 32 state.ideal.now ∧ count = BitVec.ofNat 32 state.ideal.made
  callback : ∀ nowMsec count, state.machine.position = .callback nowMsec count →
    nowMsec = BitVec.ofNat 32 state.ideal.now ∧ count + 1 = BitVec.ofNat 32 state.ideal.made

theorem Refines.start {nodes : Node → TimerNode Func Param}
    (zeroed : ∀ node, (nodes node).active = 0)
    (oneShot : ∀ node, OneShot (nodes node).intervalMsec) :
    Refines (Timed.start nodes) where
  tracks :=
    { wellLinked := WellLinked.start zeroed
      linked_iff := by simp [Timed.start, Machine.start, fftimerqueueInit, Ideal.start,
        Fftimerqueue.Linked]
      key := by simp [Timed.start, Ideal.start]
      order := List.Pairwise.nil }
  stamps := by simp [Timed.start, Ideal.start]
  oneShot := oneShot
  loop := by simp [Timed.start, Machine.start]
  callback := by simp [Timed.start, Machine.start]

omit [DecidableEq Node] in
/-- Any two times of the window are near each other on the 32-bit clock. -/
theorem Ideal.InWindow.near {ideal : Ideal Node} {more : List Nat} (window : ideal.InWindow more)
    {first second : Nat}
    (one : first = ideal.time ∨ first ∈ more ∨ ∃ node order, ideal.live node = some (first, order))
    (two : second = ideal.time ∨ second ∈ more ∨
      ∃ node order, ideal.live node = some (second, order)) :
    Near 32 first second := by
  obtain ⟨low, bounds⟩ := window
  have firstBounds := bounds first one
  have secondBounds := bounds second two
  unfold Near
  omega

section Insertion

variable {rbt : Ffrbt Node} {queue : Fftimerqueue Node Func Param} {ideal : Ideal Node}
  {node : Node}

/-- Entries of a queue without the node are entries of the queue with it. -/
private theorem live_insert_of_drop {deadline : Nat} {other : Node} {entry : Nat × Nat}
    (alive : Function.update ideal.live node none other = some entry) :
    (ideal.insert node deadline).live other = some entry := by
  by_cases here : other = node
  · subst here
    simp at alive
  · rw [Function.update_of_ne here] at alive
    rw [Ideal.insert_live, Function.update_of_ne here]
    exact alive

/-- Linking a removed node with the key of its new deadline follows the ideal
insertion, if the result lies in a window. -/
theorem Tracks.insert (tracks : Tracks queue (Function.update ideal.live node none))
    {deadline : Nat} {more : List Nat}
    (keyed : (queue.nodes node).key = BitVec.ofNat 32 deadline)
    (stamps : ∀ other entry, ideal.live other = some entry → entry.2 < ideal.inserted)
    (window : (ideal.insert node deadline).InWindow more) :
    Tracks (TimerQueue.link rbt queue node) (ideal.insert node deadline).live := by
  have renewed : (ideal.insert node deadline).live =
      Function.update (Function.update ideal.live node none) node
        (some (deadline, ideal.inserted)) := by
    rw [Function.update_idem, Ideal.insert_live]
  rw [renewed]
  apply tracks.link rbt (Function.update_self ..) keyed
  · intro other entry alive
    apply window.near
    · exact Or.inr (Or.inr ⟨node, ideal.inserted, Function.update_self ..⟩)
    · exact Or.inr (Or.inr ⟨other, entry.2, live_insert_of_drop alive⟩)
  · intro other entry alive
    by_cases here : other = node
    · subst here
      simp at alive
    · rw [Function.update_of_ne here] at alive
      exact stamps other entry alive

theorem stamps_insert {deadline : Nat}
    (stamps : ∀ other entry, ideal.live other = some entry → entry.2 < ideal.inserted) :
    ∀ other entry, (ideal.insert node deadline).live other = some entry →
      entry.2 < (ideal.insert node deadline).inserted := by
  intro other entry alive
  by_cases here : other = node
  · subst here
    rw [Ideal.insert_live, Function.update_self] at alive
    obtain rfl := Option.some.inj alive
    exact Nat.lt_succ_self _
  · rw [Ideal.insert_live, Function.update_of_ne here] at alive
    exact Nat.lt_succ_of_lt (stamps other entry alive)

theorem stamps_drop
    (stamps : ∀ other entry, ideal.live other = some entry → entry.2 < ideal.inserted) :
    ∀ other entry, (ideal.drop node).live other = some entry → entry.2 < ideal.inserted := by
  intro other entry alive
  by_cases here : other = node
  · subst here
    simp at alive
  · rw [Ideal.drop_live, Function.update_of_ne here] at alive
    exact stamps other entry alive

end Insertion

section Steps

variable {rbt : Ffrbt Node} {before after : Timed Node Func Param}
  {event : TimedEvent Node Func Param}

/-- Every position in which the client may call keeps its meaning when an
operation changes only the queue and the live timers. -/
private theorem Refines.insertion (refines : Refines before) {node : Node} {deadline : Nat}
    {queue : Fftimerqueue Node Func Param}
    (tracks : Tracks queue (before.ideal.insert node deadline).live)
    (oneShot : ∀ other, OneShot (queue.nodes other).intervalMsec) :
    Refines ⟨{ before.machine with queue := queue }, before.ideal.insert node deadline⟩ where
  tracks := tracks
  stamps := stamps_insert refines.stamps
  oneShot := oneShot
  loop := refines.loop
  callback := refines.callback

/-- Linking and unlinking change no interval. -/
theorem link_interval (queue : Fftimerqueue Node Func Param) (node other : Node) :
    ((link rbt queue node).nodes other).intervalMsec = (queue.nodes other).intervalMsec := by
  by_cases here : other = node
  · subst here
    rw [link_nodes_self]
  · rw [link_nodes_of_ne rbt queue here]

theorem unlink_interval (queue : Fftimerqueue Node Func Param) (node other : Node) :
    ((unlink rbt queue node).nodes other).intervalMsec = (queue.nodes other).intervalMsec := by
  by_cases here : other = node
  · subst here
    rw [unlink_nodes_self]
  · rw [unlink_nodes_of_ne rbt queue here]

theorem link_oneShot {queue : Fftimerqueue Node Func Param}
    (oneShot : ∀ other, OneShot (queue.nodes other).intervalMsec) (node other : Node) :
    OneShot ((link rbt queue node).nodes other).intervalMsec := by
  rw [link_interval]
  exact oneShot other

theorem unlink_oneShot {queue : Fftimerqueue Node Func Param}
    (oneShot : ∀ other, OneShot (queue.nodes other).intervalMsec) (node other : Node) :
    OneShot ((unlink rbt queue node).nodes other).intervalMsec := by
  rw [unlink_interval]
  exact oneShot other

theorem remove_oneShot {queue : Fftimerqueue Node Func Param}
    (oneShot : ∀ other, OneShot (queue.nodes other).intervalMsec) (node other : Node) :
    OneShot ((fftimerqueueRemove rbt queue node).2.nodes other).intervalMsec := by
  unfold fftimerqueueRemove
  split
  · exact unlink_oneShot oneShot node other
  · exact oneShot other

/-- Removing a node reads and writes no field but `active`. -/
theorem remove_key (queue : Fftimerqueue Node Func Param) (node : Node) :
    ((fftimerqueueRemove rbt queue node).2.nodes node).key = (queue.nodes node).key := by
  unfold fftimerqueueRemove
  split
  · simp only [unlink_nodes_self]
  · rfl

/-- A callback is for the least live timer and its deadline has come. -/
theorem Refines.call (refines : Refines before) {nowMsec count : BitVec 32} {node : Node}
    {queue : Fftimerqueue Node Func Param}
    (window : before.ideal.InWindow before.processing)
    (looping : before.machine.position = .loop nowMsec count)
    (expired : processIteration rbt before.machine.queue nowMsec = some (node, queue)) :
    (∃ entry, before.ideal.Least node entry ∧ entry.1 ≤ before.ideal.now) ∧
      queue = unlink rbt before.machine.queue node := by
  obtain ⟨minimum, due, rfl⟩ := processIteration_some rbt expired
  obtain ⟨entry, alive, least⟩ := refines.tracks.least_of_leftmost minimum
  obtain ⟨nowEq, -⟩ := refines.loop nowMsec count looping
  have near : Near 32 entry.1 before.ideal.now := by
    apply window.near (Or.inr (Or.inr ⟨node, entry.2, alive⟩))
    simp [Timed.processing, looping]
  constructor
  · refine ⟨entry, ⟨alive, least⟩, ?_⟩
    rw [nowEq, refines.tracks.key node entry alive, serialDiff_ofNat_pos_iff near] at due
    omega
  · exact rearm_oneShot rbt (unlink_oneShot refines.oneShot node node) _ _

/-- When the loop stops, no live timer's deadline has come. -/
theorem Refines.finished (refines : Refines before) {nowMsec count : BitVec 32}
    (window : before.ideal.InWindow before.processing)
    (looping : before.machine.position = .loop nowMsec count)
    (finished : processIteration rbt before.machine.queue nowMsec = none)
    {node : Node} {entry : Nat × Nat} (alive : before.ideal.live node = some entry) :
    before.ideal.now < entry.1 := by
  obtain ⟨nowEq, -⟩ := refines.loop nowMsec count looping
  rw [nowEq] at finished
  refine refines.tracks.future_of_stopped rbt ?_ finished alive
  intro other otherEntry otherAlive
  apply window.near (Or.inr (Or.inr ⟨other, otherEntry.2, otherAlive⟩))
  simp [Timed.processing, looping]

/-- Every step of the code, taken between states that lie in a window, is a step
of the ideal queue. -/
theorem TimedStep.refines (refines : Refines before)
    (windowBefore : before.ideal.InWindow before.processing)
    (windowAfter : after.ideal.InWindow after.processing)
    (next : TimedStep rbt before event after) :
    before.ideal.Step event after.ideal ∧ Refines after := by
  cases next with
  | tick later =>
      exact ⟨⟨trivial, rfl⟩, ⟨refines.tracks, refines.stamps, refines.oneShot,
        refines.loop, refines.callback⟩⟩
  | @add node intervalMsec func param _ oneShot next =>
      refine ⟨⟨trivial, rfl⟩, ?_⟩
      cases next
      apply refines.insertion
      · rw [fftimerqueueAdd_eq]
        refine Tracks.insert ?_ ?_ refines.stamps windowAfter
        · exact (refines.tracks.remove rbt node).write (Function.update_self ..) _ fun _ => rfl
        · rw [Fftimerqueue.write_nodes_self]
          exact setFields_key ..
      · intro other
        rw [fftimerqueueAdd_eq]
        apply link_oneShot
        intro other
        by_cases here : other = node
        · subst here
          rw [Fftimerqueue.write_nodes_self]
          exact oneShot
        · rw [Fftimerqueue.write_nodes_of_ne _ here]
          exact remove_oneShot refines.oneShot node other
  | @addnode node deadline _ keyed next =>
      refine ⟨⟨trivial, rfl⟩, ?_⟩
      cases next
      apply refines.insertion
      · refine Tracks.insert (refines.tracks.remove rbt node) ?_ refines.stamps windowAfter
        rw [remove_key]
        exact keyed
      · exact link_oneShot (remove_oneShot refines.oneShot node) node
  | @remove node result _ next =>
      cases next
      refine ⟨⟨?_, rfl⟩, ⟨refines.tracks.remove rbt node, stamps_drop refines.stamps,
        remove_oneShot refines.oneShot node, refines.loop, refines.callback⟩⟩
      change (fftimerqueueRemove rbt before.machine.queue node).1 = 1 ↔ _
      rw [fftimerqueueRemove_result rbt refines.tracks.wellLinked, refines.tracks.linked_iff,
        Option.isSome_iff_exists]
  | process next =>
      cases next
      refine ⟨⟨trivial, rfl⟩, ⟨refines.tracks, refines.stamps, refines.oneShot, ?_, ?_⟩⟩
      · rintro nowMsec count position
        cases position
        exact ⟨rfl, rfl⟩
      · rintro nowMsec count position
        cases position
  | @call node func param _ next =>
      cases next with
      | @call nowMsec count _ queue looping expired =>
          obtain ⟨allowed, rfl⟩ := refines.call windowBefore looping expired
          obtain ⟨nowEq, countEq⟩ := refines.loop nowMsec count looping
          have member : before.machine.queue.Linked node :=
            linked_of_leftmost (processIteration_some rbt expired).1
          refine ⟨⟨allowed, rfl⟩, ⟨refines.tracks.unlink rbt member, stamps_drop refines.stamps,
            unlink_oneShot refines.oneShot node, ?_, ?_⟩⟩
          · rintro nowMsec count position
            cases position
          · rintro nowMsec count position
            cases position
            refine ⟨nowEq, ?_⟩
            rw [countEq]
            exact (BitVec.ofNat_add ..).symm
  | callbackReturn next =>
      cases next with
      | @callbackReturn nowMsec count calling =>
          refine ⟨⟨trivial, rfl⟩, ⟨refines.tracks, refines.stamps, refines.oneShot, ?_, ?_⟩⟩
          · rintro _ _ position
            cases position
            exact refines.callback nowMsec count calling
          · rintro _ _ position
            cases position
  | processReturn next =>
      cases next with
      | processReturn looping finished =>
          refine ⟨⟨⟨?_, ?_⟩, rfl⟩, ⟨refines.tracks, refines.stamps, refines.oneShot, ?_, ?_⟩⟩
          · intro node entry alive
            exact refines.finished windowBefore looping finished alive
          · rw [(refines.loop _ _ looping).2, BitVec.toNat_ofNat]
          · rintro _ _ position
            cases position
          · rintro _ _ position
            cases position

end Steps

/-! ### Runs -/

/-- The literal window of a run: the current time and the live deadlines. -/
def LooseStep (rbt : Ffrbt Node) (before : Timed Node Func Param)
    (event : TimedEvent Node Func Param) (after : Timed Node Func Param) : Prop :=
  TimedStep rbt before event after ∧ after.ideal.InWindow []

/-- The window that also holds the time of the `process` call under way. -/
def WindowedStep (rbt : Ffrbt Node) (before : Timed Node Func Param)
    (event : TimedEvent Node Func Param) (after : Timed Node Func Param) : Prop :=
  TimedStep rbt before event after ∧ after.ideal.InWindow after.processing

/-- Every run of one-shot timers whose states lie in a window is a run of the
ideal queue with the same events. So each callback is for the least live timer
and its deadline has come, `process` returns only when no live timer's deadline
has come, and it returns the number of its callbacks modulo 2^32. -/
theorem timerqueue_refines_ideal (rbt : Ffrbt Node) {nodes : Node → TimerNode Func Param}
    (zeroed : ∀ node, (nodes node).active = 0)
    (oneShot : ∀ node, OneShot (nodes node).intervalMsec)
    {trace : List (TimedEvent Node Func Param)} {state : Timed Node Func Param}
    (run : Run (WindowedStep rbt) (Timed.start nodes) trace state) :
    Run Ideal.Step Ideal.start trace state.ideal := by
  have windowed : (Timed.start nodes).ideal.InWindow (Timed.start nodes).processing := by
    refine ⟨0, ?_⟩
    rintro time (rfl | member | ⟨node, order, alive⟩)
    · simp [Timed.start, Ideal.start]
    · simp [Timed.start, Machine.start, Timed.processing] at member
    · simp [Timed.start, Ideal.start] at alive
  have simulated : ∃ ideal, Run Ideal.Step Ideal.start trace ideal ∧ state.ideal = ideal ∧
      Refines state ∧ state.ideal.InWindow state.processing := by
    apply run.simulation fun concrete ideal => concrete.ideal = ideal ∧
      Refines concrete ∧ concrete.ideal.InWindow concrete.processing
    · exact ⟨rfl, Refines.start zeroed oneShot, windowed⟩
    · rintro before event after _ ⟨rfl, refines, windowBefore⟩ ⟨next, windowAfter⟩
      obtain ⟨idealNext, refinesAfter⟩ := next.refines refines windowBefore windowAfter
      exact ⟨after.ideal, idealNext, rfl, refinesAfter, windowAfter⟩
  obtain ⟨ideal, idealRun, rfl, -⟩ := simulated
  exact idealRun

/-! ### Concrete runs

A run across the wrap, and the two ways in which a run can leave the ideal queue
when only the current time and the live deadlines are kept in a window: the time
of the `process` call can fall out of it, and the 32-bit count can wrap. -/

omit [DecidableEq Node] in
theorem Ideal.inWindow_of {ideal : Ideal Node} {more : List Nat} (low : Nat)
    (current : low ≤ ideal.time ∧ ideal.time < low + 2 ^ 31)
    (given : ∀ time ∈ more, low ≤ time ∧ time < low + 2 ^ 31)
    (deadlines : ∀ node, (ideal.live node).all fun entry =>
      decide (low ≤ entry.1 ∧ entry.1 < low + 2 ^ 31)) :
    ideal.InWindow more := by
  refine ⟨low, ?_⟩
  rintro time (rfl | member | ⟨node, order, alive⟩)
  · exact current
  · exact given time member
  · simpa [alive] using deadlines node

omit [DecidableEq Node] in
/-- A window for states that have not left time zero. -/
theorem Ideal.inWindow_zero {ideal : Ideal Node} (current : ideal.time = 0)
    (deadlines : ∀ node, (ideal.live node).all fun entry => entry.1 == 0) :
    ideal.InWindow [] := by
  apply Ideal.inWindow_of 0
  · omega
  · simp
  · intro node
    have zero := deadlines node
    cases alive : ideal.live node with
    | none => rfl
    | some entry =>
        have zero' : entry.1 = 0 := by simpa [alive] using zero
        simp [zero']

/-- Node objects as the client zeroes them. -/
def zeroedNodes (Node : Type) : Node → TimerNode Unit Unit :=
  fun _ => ⟨0, 0, 0, (), ()⟩

/-- A timer added just before the clock wraps and fired just after it. -/
theorem timerqueue_refines_ideal_across_wrap :
    ∃ (trace : List (TimedEvent Unit Unit Unit)) (state : Timed Unit Unit Unit),
      Run (WindowedStep (Ffrbt.unbalanced Unit)) (Timed.start (zeroedNodes Unit))
        (trace ++ [.processReturn 1]) state ∧
      state.ideal.time = 2 ^ 32 + 3 ∧
      Run Ideal.Step Ideal.start (trace ++ [.processReturn 1]) state.ideal := by
  have start : Run (WindowedStep (Ffrbt.unbalanced Unit)) (Timed.start (zeroedNodes Unit)) [] _ :=
    Run.refl
  have early := start.snoc
    ⟨(.tick (by decide) : TimedStep _ _ (.tick (2 ^ 32 - 3)) _),
      Ideal.inWindow_of (2 ^ 32 - 3) (by decide) (by decide) (by decide)⟩
  have added := early.snoc
    ⟨.add (by decide : OneShot (-5)) (.add () _ _ () () rfl),
      Ideal.inWindow_of (2 ^ 32 - 3) (by decide) (by decide) (by decide)⟩
  have late := added.snoc
    ⟨(.tick (by decide) : TimedStep _ _ (.tick (2 ^ 32 + 3)) _),
      Ideal.inWindow_of (2 ^ 32 - 3) (by decide) (by decide) (by decide)⟩
  have processing := late.snoc ⟨.process (.process _ rfl),
    Ideal.inWindow_of (2 ^ 32 - 3) (by decide) (by decide) (by decide)⟩
  have called := processing.snoc ⟨.call (.call rfl rfl),
    Ideal.inWindow_of (2 ^ 32 - 3) (by decide) (by decide) (by decide)⟩
  have returned := called.snoc ⟨.callbackReturn (.callbackReturn rfl),
    Ideal.inWindow_of (2 ^ 32 - 3) (by decide) (by decide) (by decide)⟩
  have finished := returned.snoc ⟨.processReturn (.processReturn rfl rfl),
    Ideal.inWindow_of (2 ^ 32 - 3) (by decide) (by decide) (by decide)⟩
  exact ⟨_, _, finished, rfl,
    timerqueue_refines_ideal (Ffrbt.unbalanced Unit) (fun _ => rfl) (by decide) finished⟩

/-- One timer whose deadline is time zero. -/
def renewed : Fftimerqueue Unit Unit Unit :=
  fftimerqueueAdd (Ffrbt.unbalanced Unit) (fftimerqueueInit (zeroedNodes Unit)) () 0 0 () ()

/-- The same timer taken out of the queue. -/
def fired : Fftimerqueue Unit Unit Unit :=
  unlink (Ffrbt.unbalanced Unit) renewed ()

private theorem processIteration_renewed :
    processIteration (Ffrbt.unbalanced Unit) renewed 0 = some ((), fired) := rfl

private theorem processIteration_fired (nowMsec : BitVec 32) :
    processIteration (Ffrbt.unbalanced Unit) fired nowMsec = none := rfl

private theorem add_fired :
    fftimerqueueAdd (Ffrbt.unbalanced Unit) fired () 0 0 () () = renewed := by
  have sameNodes : ∀ first second : Unit → TimerNode Unit Unit,
      first () = second () → first = second := fun _ _ same => funext fun _ => same
  unfold renewed
  rw [Fftimerqueue.mk.injEq]
  exact ⟨sameNodes _ _ rfl, rfl, rfl⟩

/-- `process(0)` has made `made` callbacks for one timer, which its own function
adds again with interval 0 each time. -/
def renewing (made : Nat) : Timed Unit Unit Unit where
  machine := { queue := renewed, position := .loop 0 (BitVec.ofNat 32 made) }
  ideal :=
    { time := 0, now := 0, made := made, inserted := made + 1, live := fun _ => some (0, made) }

private theorem renewing_start :
    ∃ trace, Run (LooseStep (Ffrbt.unbalanced Unit)) (Timed.start (zeroedNodes Unit)) trace
      (renewing 0) := by
  have start : Run (LooseStep (Ffrbt.unbalanced Unit)) (Timed.start (zeroedNodes Unit)) [] _ :=
    Run.refl
  have added := start.snoc ⟨.add (by decide : OneShot 0) (.add () 0 0 () () rfl),
    Ideal.inWindow_zero rfl fun _ => rfl⟩
  have processing := added.snoc ⟨.process (.process 0 rfl),
    Ideal.inWindow_zero rfl fun _ => rfl⟩
  exact ⟨_, processing⟩

private theorem renewing_succ (made : Nat) :
    ∃ trace, Run (LooseStep (Ffrbt.unbalanced Unit)) (renewing made) trace
      (renewing (made + 1)) := by
  have start : Run (LooseStep (Ffrbt.unbalanced Unit)) (renewing made) [] (renewing made) :=
    Run.refl
  have called := start.snoc ⟨.call (.call rfl processIteration_renewed),
    Ideal.inWindow_zero rfl fun _ => rfl⟩
  have added := called.snoc ⟨.add (by decide : OneShot 0) (.add () 0 0 () () rfl),
    Ideal.inWindow_zero rfl fun _ => rfl⟩
  have returned := added.snoc ⟨.callbackReturn (.callbackReturn rfl),
    Ideal.inWindow_zero rfl fun _ => rfl⟩
  have reached : ∃ state, state = renewing (made + 1) ∧ ∃ trace,
      Run (LooseStep (Ffrbt.unbalanced Unit)) (renewing made) trace state := by
    refine ⟨_, ?_, _, returned⟩
    simp only [renewing, add_fired, BitVec.ofNat_add]
    rfl
  obtain ⟨_, rfl, run⟩ := reached
  exact run

private theorem renewing_many (made : Nat) :
    ∃ trace, Run (LooseStep (Ffrbt.unbalanced Unit)) (renewing 0) trace (renewing made) := by
  induction made with
  | zero => exact ⟨[], Run.refl⟩
  | succ made inductionHypothesis =>
      obtain ⟨first, firstRun⟩ := inductionHypothesis
      obtain ⟨second, secondRun⟩ := renewing_succ made
      exact ⟨first ++ second, firstRun.append secondRun⟩

/-- With only the current time and the live deadlines in a window, a callback that
takes more than 2^31 ms makes `process(0)` call a timer whose deadline is far in
the future; and a timer that is added again by its own function 2^32 - 1 times
makes `process` return 0 after 2^32 callbacks. -/
theorem loose_window_leaves_ideal :
    (∃ (trace : List (TimedEvent Bool Unit Unit)) (before after : Timed Bool Unit Unit)
        (entry : Nat × Nat),
      Run (LooseStep (Ffrbt.unbalanced Bool)) (Timed.start (zeroedNodes Bool)) trace before ∧
        LooseStep (Ffrbt.unbalanced Bool) before (.call true () ()) after ∧
        before.ideal.live true = some entry ∧ before.ideal.now < entry.1) ∧
      ∃ (trace : List (TimedEvent Unit Unit Unit)) (state : Timed Unit Unit Unit),
        Run (LooseStep (Ffrbt.unbalanced Unit)) (Timed.start (zeroedNodes Unit))
          (trace ++ [.processReturn 0]) state ∧ state.ideal.made = 2 ^ 32 := by
  constructor
  · have start : Run (LooseStep (Ffrbt.unbalanced Bool)) (Timed.start (zeroedNodes Bool)) [] _ :=
      Run.refl
    have added := start.snoc ⟨.add (by decide : OneShot 0) (.add false 0 0 () () rfl),
      Ideal.inWindow_zero rfl (by decide)⟩
    have processing := added.snoc ⟨.process (.process 0 rfl),
      Ideal.inWindow_zero rfl (by decide)⟩
    have called := processing.snoc ⟨.call (.call rfl rfl),
      Ideal.inWindow_zero rfl (by decide)⟩
    have later := called.snoc
      ⟨(.tick (by decide) : TimedStep _ _ (.tick (2 ^ 31 + 10)) _),
        Ideal.inWindow_of (2 ^ 31) (by decide) (by decide) (by decide)⟩
    have more := later.snoc ⟨.add (by decide : OneShot (-1)) (.add true _ _ () () rfl),
      Ideal.inWindow_of (2 ^ 31) (by decide) (by decide) (by decide)⟩
    have returned := more.snoc ⟨.callbackReturn (.callbackReturn rfl),
      Ideal.inWindow_of (2 ^ 31) (by decide) (by decide) (by decide)⟩
    refine ⟨_, _, _, (2 ^ 31 + 11, 1), returned, ⟨.call (.call rfl rfl), ?_⟩, rfl, by decide⟩
    exact Ideal.inWindow_of (2 ^ 31) (by decide) (by decide) (by decide)
  · obtain ⟨first, starting⟩ := renewing_start
    obtain ⟨second, repeating⟩ := renewing_many (2 ^ 32 - 1)
    have called := (starting.append repeating).snoc
      ⟨.call (.call rfl processIteration_renewed), Ideal.inWindow_zero rfl fun _ => rfl⟩
    have returned := called.snoc ⟨.callbackReturn (.callbackReturn rfl),
      Ideal.inWindow_zero rfl fun _ => rfl⟩
    have finished := returned.snoc
      ⟨.processReturn (.processReturn rfl (processIteration_fired _)),
        Ideal.inWindow_zero rfl fun _ => rfl⟩
    have wrapped : BitVec.ofNat 32 (2 ^ 32 - 1) + 1 = 0 := by decide
    rw [wrapped] at finished
    exact ⟨_, _, finished, rfl⟩

end Ffos.TimerQueue
