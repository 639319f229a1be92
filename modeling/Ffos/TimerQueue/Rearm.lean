/-
Module: Ffos.TimerQueue.Rearm
Purpose: Whole calls of `fftimerqueue_process` with callbacks that leave the queue
  alone: the deadline that a periodic timer is put back with, and when it is the right
  one across the wrap of the 32-bit clock.
Trusted boundary: none
Main exports: nextDeadline, Spread, RearmedOnce, rearmedOnce_iff_same_epoch
-/
import Ffos.TimerQueue.Refinement
import Ffos.TimerQueue.Termination

namespace Ffos.TimerQueue

open Ffos.Lib

variable {Node Func Param : Type} [DecidableEq Node]

/-! ### The new deadline -/

/-- What the unsigned maximum chooses for a periodic timer: the later of the two
candidates if both are in one epoch of 2^32 ms, else the earlier one. -/
def nextDeadline (deadline interval now : Nat) : Nat :=
  if (deadline + interval) / 2 ^ 32 = (now + 1) / 2 ^ 32 then max (deadline + interval) (now + 1)
  else min (deadline + interval) (now + 1)

theorem ffmax_ofNat {deadline interval now : Nat} (expired : deadline ≤ now)
    (recent : now < deadline + 2 ^ 31) (short : interval < 2 ^ 31) :
    ffmax (BitVec.ofNat 32 (deadline + interval)) (BitVec.ofNat 32 (now + 1)) =
      BitVec.ofNat 32 (nextDeadline deadline interval now) := by
  unfold ffmax nextDeadline
  rw [BitVec.toNat_ofNat, BitVec.toNat_ofNat]
  by_cases epoch : (deadline + interval) / 2 ^ 32 = (now + 1) / 2 ^ 32
  · rw [if_pos epoch]
    by_cases later : now + 1 < deadline + interval
    · rw [if_pos (by omega), Nat.max_eq_left (by omega)]
    · rw [if_neg (by omega), Nat.max_eq_right (by omega)]
  · -- one of the two has wrapped, so the earlier one is the greater unsigned number
    rw [if_neg epoch]
    by_cases later : now + 1 < deadline + interval
    · rw [if_neg (by omega), Nat.min_eq_right (by omega)]
    · rw [if_pos (by omega), Nat.min_eq_left (by omega)]

theorem nextDeadline_bounds {deadline interval now : Nat} (expired : deadline ≤ now)
    (periodic : 0 < interval) :
    deadline < nextDeadline deadline interval now ∧
      nextDeadline deadline interval now ≤ now + interval := by
  unfold nextDeadline
  split <;> omega

/-! ### The timers stay near each other -/

/-- The deadlines between which each timer stays during a call at `now`: all of them
are less than half the clock's range from `now` and from each other. -/
structure Bounded (now : Nat) (low high : Node → Nat) (queue : Fftimerqueue Node Func Param)
    (live : Node → Option (Nat × Nat)) : Prop where
  tracks : Tracks queue live
  within : ∀ node entry, live node = some entry → low node ≤ entry.1 ∧ entry.1 ≤ high node
  reach : ∀ node entry, live node = some entry → entry.1 ≤ now →
    0 < (queue.nodes node).intervalMsec.toInt →
      now + (queue.nodes node).intervalMsec.toNat ≤ high node
  aroundNow : ∀ node entry, live node = some entry →
    now < low node + 2 ^ 31 ∧ high node < now + 2 ^ 31
  apart : ∀ first second firstEntry secondEntry, first ≠ second → live first = some firstEntry →
    live second = some secondEntry → high first < low second + 2 ^ 31

section Iteration

variable {rbt : Ffrbt Node} {now : Nat} {low high : Node → Nat}
  {queue after : Fftimerqueue Node Func Param} {live : Node → Option (Nat × Nat)} {node : Node}

/-- There is an insertion number after those of all live timers. -/
theorem Tracks.exists_stamp (tracks : Tracks queue live) :
    ∃ stamp, ∀ node entry, live node = some entry → entry.2 < stamp := by
  have bounded : ∀ nodes : List Node, ∃ stamp, ∀ node ∈ nodes, ∀ entry,
      live node = some entry → entry.2 < stamp := by
    intro nodes
    induction nodes with
    | nil => exact ⟨0, fun _ member => absurd member List.not_mem_nil⟩
    | cons first rest inductionHypothesis =>
      obtain ⟨stamp, later⟩ := inductionHypothesis
      refine ⟨max stamp (((live first).map Prod.snd).getD 0 + 1), ?_⟩
      intro node member entry alive
      rcases List.mem_cons.mp member with rfl | member
      · simp [alive]
      · have := later node member entry alive
        omega
  obtain ⟨stamp, later⟩ := bounded (inorder queue.tree)
  exact ⟨stamp, fun node entry alive =>
    later node ((tracks.linked_iff node).mpr ⟨entry, alive⟩) entry alive⟩

/-- An update of one live timer keeps the bounds, if its new deadline is in its own. -/
theorem Bounded.update (bounded : Bounded now low high queue live)
    (intervals : ∀ other, (after.nodes other).intervalMsec = (queue.nodes other).intervalMsec)
    {entry : Nat × Nat} (alive : live node = some entry) {renewed : Option (Nat × Nat)}
    (tracks : Tracks after (Function.update live node renewed))
    (inside : ∀ new, renewed = some new → low node ≤ new.1 ∧ new.1 ≤ high node ∧
      (new.1 ≤ now → entry.1 ≤ now)) :
    Bounded now low high after (Function.update live node renewed) := by
  have wasLive : ∀ other new, Function.update live node renewed other = some new →
      ∃ old, live other = some old := by
    intro other new isLive
    by_cases here : other = node
    · exact ⟨entry, here ▸ alive⟩
    · rw [Function.update_of_ne here] at isLive
      exact ⟨new, isLive⟩
  refine ⟨tracks, ?_, ?_, ?_, ?_⟩
  · intro other new isLive
    by_cases here : other = node
    · subst here
      rw [Function.update_self] at isLive
      obtain ⟨above, below, _⟩ := inside new isLive
      exact ⟨above, below⟩
    · rw [Function.update_of_ne here] at isLive
      exact bounded.within other new isLive
  · intro other new isLive expired periodic
    rw [intervals] at periodic ⊢
    by_cases here : other = node
    · subst here
      rw [Function.update_self] at isLive
      exact bounded.reach other entry alive ((inside new isLive).2.2 expired) periodic
    · rw [Function.update_of_ne here] at isLive
      exact bounded.reach other new isLive expired periodic
  · intro other new isLive
    obtain ⟨old, oldLive⟩ := wasLive other new isLive
    exact bounded.aroundNow other old oldLive
  · intro first second firstNew secondNew different firstLive secondLive
    obtain ⟨firstOld, firstOldLive⟩ := wasLive first firstNew firstLive
    obtain ⟨secondOld, secondOldLive⟩ := wasLive second secondNew secondLive
    exact bounded.apart first second firstOld secondOld different firstOldLive secondOldLive

/-- No iteration changes an interval. -/
theorem rearm_unlink_interval (rbt : Ffrbt Node) (queue : Fftimerqueue Node Func Param)
    (node other : Node) (key nowMsec : BitVec 32) :
    ((rearm rbt (unlink rbt queue node) node key nowMsec).nodes other).intervalMsec =
      (queue.nodes other).intervalMsec := by
  unfold rearm
  split
  · rw [link_interval]
    by_cases here : other = node
    · subst here
      rw [Fftimerqueue.write_nodes_self]
      exact unlink_interval queue other other
    · rw [Fftimerqueue.write_nodes_of_ne _ here, unlink_interval]
  · rw [unlink_interval]

theorem positive_toNat {interval : BitVec 32} (periodic : 0 < interval.toInt) :
    0 < interval.toNat ∧ interval.toNat < 2 ^ 31 := by
  have bound := interval.isLt
  rw [BitVec.toInt_eq_toNat_cond] at periodic
  split at periodic <;> omega

/-- The new key of an expired periodic node is that of its next deadline. -/
theorem advanceKey_key {deadline : Nat} {fields : TimerNode Func Param}
    (expired : deadline ≤ now) (recent : now < deadline + 2 ^ 31)
    (periodic : 0 < fields.intervalMsec.toInt) :
    (advanceKey (BitVec.ofNat 32 deadline) (BitVec.ofNat 32 now) fields).key =
      BitVec.ofNat 32 (nextDeadline deadline fields.intervalMsec.toNat now) := by
  rw [← ffmax_ofNat expired recent (positive_toNat periodic).2, BitVec.ofNat_add,
    BitVec.ofNat_add, BitVec.ofNat_toNat, BitVec.setWidth_eq]
  rfl

/-- A live timer is near the time of the call, -/
theorem Bounded.near (bounded : Bounded now low high queue live) {entry : Nat × Nat}
    (alive : live node = some entry) : Near 32 entry.1 now := by
  have within := bounded.within node entry alive
  have around := bounded.aroundNow node entry alive
  unfold Near
  omega

/-- and near any deadline in the bounds of another one. -/
theorem Bounded.near_other (bounded : Bounded now low high queue live) {entry : Nat × Nat}
    (alive : live node = some entry) {deadline : Nat} (above : low node ≤ deadline)
    (below : deadline ≤ high node) {other : Node} {otherEntry : Nat × Nat}
    (different : other ≠ node) (otherAlive : live other = some otherEntry) :
    Near 32 deadline otherEntry.1 := by
  have within := bounded.within other otherEntry otherAlive
  have one := bounded.apart node other entry otherEntry different.symm alive otherAlive
  have two := bounded.apart other node otherEntry entry different otherAlive alive
  unfold Near
  omega

/-- The next deadline of an expired periodic timer is later, and in its bounds. -/
theorem Bounded.nextDeadline_within (bounded : Bounded now low high queue live)
    {entry : Nat × Nat} (alive : live node = some entry) (expired : entry.1 ≤ now)
    (periodic : 0 < (queue.nodes node).intervalMsec.toInt) :
    entry.1 < nextDeadline entry.1 (queue.nodes node).intervalMsec.toNat now ∧
      nextDeadline entry.1 (queue.nodes node).intervalMsec.toNat now ≤ high node := by
  obtain ⟨later, reached⟩ := nextDeadline_bounds expired (positive_toNat periodic).1
  have top := bounded.reach node entry alive expired periodic
  omega

/-- An expired periodic timer is put back with its next deadline. -/
theorem Bounded.tracks_periodic (bounded : Bounded now low high queue live)
    (minimum : leftmost queue.tree = some node) {entry : Nat × Nat}
    (alive : live node = some entry) (expired : entry.1 ≤ now)
    (periodic : 0 < (queue.nodes node).intervalMsec.toInt) :
    ∃ stamp, Tracks
      (rearm rbt (unlink rbt queue node) node (queue.nodes node).key (BitVec.ofNat 32 now))
      (Function.update live node
        (some (nextDeadline entry.1 (queue.nodes node).intervalMsec.toNat now, stamp))) := by
  have dropped := bounded.tracks.unlink rbt (linked_of_leftmost minimum)
  obtain ⟨stamp, latest⟩ := dropped.exists_stamp
  obtain ⟨later, reached⟩ := bounded.nextDeadline_within alive expired periodic
  have above := (bounded.within node entry alive).1
  have recent := (bounded.aroundNow node entry alive).1
  have sameInterval := @unlink_interval _ _ _ _ rbt queue node node
  rw [rearm, if_pos (by rw [sameInterval]; exact periodic)]
  have newKey : (((unlink rbt queue node).write node (advanceKey (queue.nodes node).key
      (BitVec.ofNat 32 now))).nodes node).key =
        BitVec.ofNat 32 (nextDeadline entry.1 (queue.nodes node).intervalMsec.toNat now) := by
    rw [Fftimerqueue.write_nodes_self, bounded.tracks.key node entry alive,
      advanceKey_key expired (by omega) (by rw [sameInterval]; exact periodic), sameInterval]
  have renewed := (dropped.write (Function.update_self ..)
    (advanceKey (queue.nodes node).key (BitVec.ofNat 32 now)) fun _ => rfl).link rbt
      (Function.update_self ..) newKey ?_ latest
  · rw [Function.update_idem] at renewed
    exact ⟨stamp, renewed⟩
  · intro other otherEntry otherLive
    have different : other ≠ node := by
      rintro rfl
      rw [Function.update_self] at otherLive
      cases otherLive
    rw [Function.update_of_ne different] at otherLive
    exact bounded.near_other alive (by omega) reached different otherLive

/-- An iteration that does not stop calls the function of an expired timer, and puts
it back with its next deadline if it is periodic. -/
theorem Bounded.iteration (bounded : Bounded now low high queue live)
    (fired : processIteration rbt queue (BitVec.ofNat 32 now) = some (node, after)) :
    ∃ entry renewed, live node = some entry ∧ entry.1 ≤ now ∧
      (∀ other, (after.nodes other).intervalMsec = (queue.nodes other).intervalMsec) ∧
      Bounded now low high after (Function.update live node renewed) ∧
      (0 < (queue.nodes node).intervalMsec.toInt → ∃ stamp, renewed =
        some (nextDeadline entry.1 (queue.nodes node).intervalMsec.toNat now, stamp)) := by
  obtain ⟨minimum, due, rfl⟩ := processIteration_some rbt fired
  obtain ⟨entry, alive, _⟩ := bounded.tracks.least_of_leftmost minimum
  have expired : entry.1 ≤ now := by
    rw [bounded.tracks.key node entry alive, serialDiff_ofNat_pos_iff (bounded.near alive)] at due
    omega
  have intervals := fun other => rearm_unlink_interval rbt queue node other
    (queue.nodes node).key (BitVec.ofNat 32 now)
  by_cases periodic : 0 < (queue.nodes node).intervalMsec.toInt
  · obtain ⟨stamp, tracks⟩ := @Bounded.tracks_periodic _ _ _ _ rbt _ _ _ _ _ _ bounded minimum
      _ alive expired periodic
    obtain ⟨later, reached⟩ := bounded.nextDeadline_within alive expired periodic
    have above := (bounded.within node entry alive).1
    refine ⟨entry, some (_, stamp), alive, expired, intervals, ?_, fun _ => ⟨stamp, rfl⟩⟩
    apply bounded.update intervals alive tracks
    rintro new isNew
    obtain rfl := Option.some.inj isNew
    exact ⟨Nat.le_trans above (Nat.le_of_lt later), reached, fun _ => expired⟩
  · refine ⟨entry, none, alive, expired, intervals, ?_, ?_⟩
    · have stays : rearm rbt (unlink rbt queue node) node (queue.nodes node).key
          (BitVec.ofNat 32 now) = unlink rbt queue node := by
        rw [rearm, if_neg (by rw [unlink_interval]; exact periodic)]
      have dropped := bounded.tracks.unlink rbt (linked_of_leftmost minimum)
      refine bounded.update intervals alive (by rw [stays]; exact dropped) ?_
      intro new isNew
      cases isNew
    · intro isPeriodic
      exact absurd isPeriodic periodic

/-- The loop stops only when no live timer has expired. -/
theorem Bounded.finished (bounded : Bounded now low high queue live)
    (stopped : processIteration rbt queue (BitVec.ofNat 32 now) = none) {entry : Nat × Nat}
    (alive : live node = some entry) : now < entry.1 :=
  bounded.tracks.future_of_stopped rbt (fun _ _ otherAlive => bounded.near otherAlive) stopped alive

end Iteration

/-! ### Whole calls -/

section Process

variable {rbt : Ffrbt Node} {now : Nat} {low high : Node → Nat}
  {queue final : Fftimerqueue Node Func Param} {live : Node → Option (Nat × Nat)} {node : Node}

/-- One iteration of a call that returns. -/
theorem process_cases {nowMsec : BitVec 32} {iterations : Nat} {calls : List Node}
    (returned : fftimerqueueProcess rbt nowMsec (iterations + 1) queue = some (calls, final)) :
    processIteration rbt queue nowMsec = none ∧ calls = [] ∧ final = queue ∨
      ∃ first after later, processIteration rbt queue nowMsec = some (first, after) ∧
        fftimerqueueProcess rbt nowMsec iterations after = some (later, final) ∧
        calls = first :: later := by
  rw [fftimerqueueProcess] at returned
  cases step : processIteration rbt queue nowMsec with
  | none =>
    rw [step] at returned
    obtain ⟨rfl, rfl⟩ := Prod.mk.inj (Option.some.inj returned)
    exact Or.inl ⟨rfl, rfl, rfl⟩
  | some called =>
    obtain ⟨first, after⟩ := called
    rw [step] at returned
    obtain ⟨⟨later, last⟩, rest, equal⟩ := Option.map_eq_some_iff.mp returned
    obtain ⟨rfl, rfl⟩ := Prod.mk.inj equal
    exact Or.inr ⟨first, after, later, rfl, rest, rfl⟩

/-- What a call returns does not depend on the number of iterations it may take. -/
theorem process_deterministic {nowMsec : BitVec 32} {one two : Nat}
    {first second : List Node × Fftimerqueue Node Func Param}
    (firstReturned : fftimerqueueProcess rbt nowMsec one queue = some first)
    (secondReturned : fftimerqueueProcess rbt nowMsec two queue = some second) :
    first = second := by
  induction one generalizing queue two first second with
  | zero => cases firstReturned
  | succ one inductionHypothesis =>
    cases two with
    | zero => cases secondReturned
    | succ two =>
      obtain ⟨firstCalls, firstFinal⟩ := first
      obtain ⟨secondCalls, secondFinal⟩ := second
      rcases process_cases firstReturned with ⟨stop, rfl, rfl⟩ | ⟨node, after, later, step, rest, rfl⟩
      · rcases process_cases secondReturned with ⟨_, rfl, rfl⟩ | ⟨_, _, _, otherStep, _, _⟩
        · rfl
        · rw [stop] at otherStep
          cases otherStep
      · rcases process_cases secondReturned with ⟨otherStop, _, _⟩ |
          ⟨otherNode, otherAfter, otherLater, otherStep, otherRest, rfl⟩
        · rw [step] at otherStop
          cases otherStop
        · rw [step] at otherStep
          obtain ⟨rfl, rfl⟩ := Prod.mk.inj (Option.some.inj otherStep)
          obtain ⟨rfl, rfl⟩ := Prod.mk.inj (inductionHypothesis rest otherRest)
          rfl

/-- A timer in the future is not called, and keeps its deadline. -/
theorem Bounded.untouched (bounded : Bounded now low high queue live) {entry : Nat × Nat}
    (alive : live node = some entry) (future : now < entry.1) {iterations : Nat}
    {calls : List Node}
    (returned : fftimerqueueProcess rbt (BitVec.ofNat 32 now) iterations queue =
      some (calls, final)) :
    calls.count node = 0 ∧ final.Linked node ∧
      (final.nodes node).key = BitVec.ofNat 32 entry.1 := by
  induction iterations generalizing queue live calls with
  | zero => cases returned
  | succ iterations inductionHypothesis =>
    rcases process_cases returned with ⟨_, rfl, rfl⟩ | ⟨first, after, later, step, rest, rfl⟩
    · exact ⟨rfl, (bounded.tracks.linked_iff node).mpr ⟨entry, alive⟩,
        bounded.tracks.key node entry alive⟩
    · obtain ⟨firstEntry, renewed, firstAlive, expired, _, boundedAfter, _⟩ :=
        bounded.iteration step
      have different : node ≠ first := by
        rintro rfl
        obtain rfl := Option.some.inj (alive.symm.trans firstAlive)
        omega
      have stillAlive : Function.update live first renewed node = some entry := by
        rw [Function.update_of_ne different]
        exact alive
      obtain ⟨none, kept⟩ := inductionHypothesis boundedAfter stillAlive rest
      exact ⟨by rw [List.count_cons_of_ne different.symm, none], kept⟩

/-- A periodic timer that has expired is called, and goes on with its next deadline. -/
theorem Bounded.called (bounded : Bounded now low high queue live) {entry : Nat × Nat}
    (alive : live node = some entry) (expired : entry.1 ≤ now)
    (periodic : 0 < (queue.nodes node).intervalMsec.toInt) {iterations : Nat} {calls : List Node}
    (returned : fftimerqueueProcess rbt (BitVec.ofNat 32 now) iterations queue =
      some (calls, final)) :
    ∃ (after : Fftimerqueue Node Func Param) (liveAfter : Node → Option (Nat × Nat))
        (stamp fewer : Nat) (later : List Node),
      Bounded now low high after liveAfter ∧
        (after.nodes node).intervalMsec = (queue.nodes node).intervalMsec ∧
        liveAfter node =
          some (nextDeadline entry.1 (queue.nodes node).intervalMsec.toNat now, stamp) ∧
        fftimerqueueProcess rbt (BitVec.ofNat 32 now) fewer after = some (later, final) ∧
        calls.count node = later.count node + 1 := by
  induction iterations generalizing queue live calls with
  | zero => cases returned
  | succ iterations inductionHypothesis =>
    rcases process_cases returned with ⟨stopped, _, _⟩ | ⟨first, after, later, step, rest, rfl⟩
    · have := bounded.finished stopped alive
      omega
    · obtain ⟨firstEntry, renewed, firstAlive, _, intervals, boundedAfter, next⟩ :=
        bounded.iteration step
      by_cases here : first = node
      · subst here
        obtain rfl := Option.some.inj (alive.symm.trans firstAlive)
        obtain ⟨stamp, rfl⟩ := next periodic
        exact ⟨after, _, stamp, iterations, later, boundedAfter, intervals first,
          Function.update_self .., rest, List.count_cons_self⟩
      · have stillAlive : Function.update live first renewed node = some entry := by
          rw [Function.update_of_ne (Ne.symm here)]
          exact alive
        obtain ⟨last, liveLast, stamp, fewer, calledLater, boundedLast, interval, aliveLast,
          restLast, count⟩ := inductionHypothesis boundedAfter stillAlive
            (by rw [intervals]; exact periodic) rest
        rw [intervals] at interval aliveLast
        exact ⟨last, liveLast, stamp, fewer, calledLater, boundedLast, interval, aliveLast,
          restLast, by rw [List.count_cons_of_ne here, count]⟩

end Process

/-! ### A periodic timer -/

/-- The latest deadline that a call at `now` can give to a timer. -/
def latestDeadline (now : Nat) (intervalMsec : BitVec 32) (deadline : Nat) : Nat :=
  if deadline ≤ now ∧ 0 < intervalMsec.toInt then now + intervalMsec.toNat else deadline

/-- No two timers of the queue get half the clock's range apart during a call at
`now`. This asks nothing of a queue with one timer. -/
def Spread (now : Nat) (queue : Fftimerqueue Node Func Param)
    (live : Node → Option (Nat × Nat)) : Prop :=
  ∀ first second firstEntry secondEntry, first ≠ second → live first = some firstEntry →
    live second = some secondEntry →
      latestDeadline now (queue.nodes first).intervalMsec firstEntry.1 < secondEntry.1 + 2 ^ 31

/-- One call at `now` calls the timer's function once, and leaves the timer in the
queue with the later of its next deadline and `now + 1`. -/
def RearmedOnce (rbt : Ffrbt Node) (queue : Fftimerqueue Node Func Param) (node : Node)
    (deadline now : Nat) : Prop :=
  ∃ iterations calls final,
    fftimerqueueProcess rbt (BitVec.ofNat 32 now) iterations queue = some (calls, final) ∧
      calls.count node = 1 ∧ final.Linked node ∧
      (final.nodes node).key =
        BitVec.ofNat 32 (max (deadline + (queue.nodes node).intervalMsec.toNat) (now + 1))

section Periodic

variable {rbt : Ffrbt Node} {now deadline stamp : Nat} {queue : Fftimerqueue Node Func Param}
  {live : Node → Option (Nat × Nat)} {node : Node}

theorem bounded_of_spread (tracks : Tracks queue live) (spread : Spread now queue live)
    (alive : live node = some (deadline, stamp))
    (periodic : 0 < (queue.nodes node).intervalMsec.toInt) (expired : deadline ≤ now)
    (recent : now - deadline < 2 ^ 31) :
    Bounded now (fun other => (live other).elim 0 Prod.fst)
      (fun other => (live other).elim 0 fun entry =>
        latestDeadline now (queue.nodes other).intervalMsec entry.1) queue live := by
  have atLeast : ∀ interval start, start ≤ latestDeadline now interval start := by
    intro interval start
    unfold latestDeadline
    split <;> omega
  have ownLatest : latestDeadline now (queue.nodes node).intervalMsec deadline =
      now + (queue.nodes node).intervalMsec.toNat := if_pos ⟨expired, periodic⟩
  obtain ⟨positive, short⟩ := positive_toNat periodic
  refine ⟨tracks, ?_, ?_, ?_, ?_⟩
  · intro other entry otherAlive
    simp only [otherAlive, Option.elim_some]
    exact ⟨Nat.le_refl _, atLeast _ _⟩
  · intro other entry otherAlive otherExpired otherPeriodic
    simp only [otherAlive, Option.elim_some]
    rw [latestDeadline, if_pos ⟨otherExpired, otherPeriodic⟩]
  · intro other entry otherAlive
    simp only [otherAlive, Option.elim_some]
    by_cases here : other = node
    · subst here
      obtain rfl := Option.some.inj (alive.symm.trans otherAlive)
      rw [ownLatest]
      omega
    · have one := spread node other _ entry (Ne.symm here) alive otherAlive
      have two := spread other node entry _ here otherAlive alive
      rw [ownLatest] at one
      dsimp only at two
      omega
  · intro first second firstEntry secondEntry different firstAlive secondAlive
    simp only [firstAlive, secondAlive, Option.elim_some]
    exact spread first second firstEntry secondEntry different firstAlive secondAlive

/-- In one epoch the deadline that the timer gets is in the future, so it is not called
again. -/
theorem Bounded.rearmedOnce_of_epoch {low high : Node → Nat}
    (bounded : Bounded now low high queue live) (alive : live node = some (deadline, stamp))
    (periodic : 0 < (queue.nodes node).intervalMsec.toInt) (expired : deadline ≤ now)
    (epoch : (deadline + (queue.nodes node).intervalMsec.toNat) / 2 ^ 32 = (now + 1) / 2 ^ 32) :
    RearmedOnce rbt queue node deadline now := by
  obtain ⟨calls, final, returned, _⟩ := @process_returns_of_le _ _ _ _ rbt (BitVec.ofNat 32 now)
    queue _ bounded.tracks.wellLinked (Nat.le_refl _)
  obtain ⟨after, liveAfter, stamp, fewer, later, boundedAfter, _, aliveAfter, rest, count⟩ :=
    bounded.called alive expired periodic returned
  have next : nextDeadline deadline (queue.nodes node).intervalMsec.toNat now =
      max (deadline + (queue.nodes node).intervalMsec.toNat) (now + 1) := by
    rw [nextDeadline, if_pos epoch]
  rw [next] at aliveAfter
  obtain ⟨notAgain, linked, key⟩ := boundedAfter.untouched aliveAfter
    (by dsimp only; omega) rest
  exact ⟨_, calls, final, returned, by rw [count, notAgain], linked, key⟩

/-- Else it gets the earlier of the two deadlines, and is called again or too early. -/
theorem Bounded.epoch_of_rearmedOnce {low high : Node → Nat}
    (bounded : Bounded now low high queue live) (alive : live node = some (deadline, stamp))
    (periodic : 0 < (queue.nodes node).intervalMsec.toInt) (expired : deadline ≤ now)
    (rearmed : RearmedOnce rbt queue node deadline now) :
    (deadline + (queue.nodes node).intervalMsec.toNat) / 2 ^ 32 = (now + 1) / 2 ^ 32 := by
  obtain ⟨positive, short⟩ := positive_toNat periodic
  obtain ⟨iterations, calls, final, returned, once, _, key⟩ := rearmed
  obtain ⟨after, liveAfter, stamp, fewer, later, boundedAfter, interval, aliveAfter, rest,
    count⟩ := bounded.called alive expired periodic returned
  dsimp only at aliveAfter
  by_contra epoch
  rcases Nat.lt_or_ge (now + 1) (deadline + (queue.nodes node).intervalMsec.toNat) with
    early | stale
  · -- the key is that of `now + 1`, too early
    have next : nextDeadline deadline (queue.nodes node).intervalMsec.toNat now = now + 1 := by
      rw [nextDeadline, if_neg epoch]
      omega
    rw [next] at aliveAfter
    obtain ⟨_, _, kept⟩ := boundedAfter.untouched aliveAfter (Nat.lt_succ_self now) rest
    have equal := congrArg BitVec.toNat (key.symm.trans kept)
    rw [BitVec.toNat_ofNat, BitVec.toNat_ofNat, Nat.max_eq_left (by omega)] at equal
    omega
  · -- the key is that of `deadline + interval`, which has passed: a second call
    have next : nextDeadline deadline (queue.nodes node).intervalMsec.toNat now =
        deadline + (queue.nodes node).intervalMsec.toNat := by
      rw [nextDeadline, if_neg epoch]
      omega
    have passed : deadline + (queue.nodes node).intervalMsec.toNat ≤ now := by
      rcases Nat.lt_or_ge now (deadline + (queue.nodes node).intervalMsec.toNat) with
        equal | passed
      · exact absurd (congrArg (· / 2 ^ 32) (show deadline +
          (queue.nodes node).intervalMsec.toNat = now + 1 by omega)) epoch
      · exact passed
    rw [next] at aliveAfter
    obtain ⟨_, _, _, _, _, _, _, _, _, again⟩ := boundedAfter.called aliveAfter passed
      (by rw [interval]; exact periodic) rest
    omega

/-- The periodic timer is called once and put back with the right deadline if and only
if `deadline + interval` and `now + 1` lie in one epoch of 2^32 ms, so that the unsigned
maximum is the maximum. -/
theorem rearmedOnce_iff_same_epoch (tracks : Tracks queue live) (spread : Spread now queue live)
    (alive : live node = some (deadline, stamp))
    (periodic : 0 < (queue.nodes node).intervalMsec.toInt) (expired : deadline ≤ now)
    (recent : now - deadline < 2 ^ 31) :
    RearmedOnce rbt queue node deadline now ↔
      (deadline + (queue.nodes node).intervalMsec.toNat) / 2 ^ 32 = (now + 1) / 2 ^ 32 := by
  have bounded := bounded_of_spread tracks spread alive periodic expired recent
  constructor
  · exact bounded.epoch_of_rearmedOnce alive periodic expired
  · exact bounded.rearmedOnce_of_epoch alive periodic expired

end Periodic

/-- A queue with one timer. -/
def oneTimer (deadline : Nat) (intervalMsec : BitVec 32) : Fftimerqueue Unit Unit Unit where
  nodes _ := ⟨BitVec.ofNat 32 deadline, intervalMsec, 1, (), ()⟩
  tree := .node () .nil .nil
  len := 1

theorem oneTimer_tracks (deadline : Nat) (intervalMsec : BitVec 32) :
    Tracks (oneTimer deadline intervalMsec) fun _ => some (deadline, 0) where
  wellLinked :=
    { nodup := List.nodup_singleton _
      flag := fun _ => rfl
      len := rfl }
  linked_iff _ := by simp [oneTimer, Fftimerqueue.Linked, inorder]
  key _ entry alive := by
    obtain rfl := Option.some.inj alive
    rfl
  order := List.pairwise_singleton _ _

/-- A deadline 100 ms before the wrap and an interval of 200 ms, at 5 ms after the
wrap. -/
theorem rearmedOnce_across_wrap :
    RearmedOnce (Ffrbt.unbalanced Unit) (oneTimer (2 ^ 32 - 100) 200) () (2 ^ 32 - 100)
      (2 ^ 32 + 5) :=
  (rearmedOnce_iff_same_epoch (oneTimer_tracks _ _)
    (fun _ _ _ _ different => absurd rfl different) rfl (by decide) (by decide)
    (by decide)).mpr (by decide)

/-- With an interval of 10 ms the function of the same timer is called ten times. -/
theorem called_ten_times_across_wrap :
    (∃ final, fftimerqueueProcess (Ffrbt.unbalanced Unit) (BitVec.ofNat 32 (2 ^ 32 + 5)) 11
        (oneTimer (2 ^ 32 - 100) 10) = some (List.replicate 10 (), final)) ∧
      ¬ RearmedOnce (Ffrbt.unbalanced Unit) (oneTimer (2 ^ 32 - 100) 10) () (2 ^ 32 - 100)
        (2 ^ 32 + 5) := by
  have ten : ∃ final, fftimerqueueProcess (Ffrbt.unbalanced Unit) (BitVec.ofNat 32 (2 ^ 32 + 5))
      11 (oneTimer (2 ^ 32 - 100) 10) = some (List.replicate 10 (), final) := ⟨_, rfl⟩
  refine ⟨ten, ?_⟩
  rintro ⟨iterations, calls, final, returned, once, _⟩
  obtain ⟨last, tenReturned⟩ := ten
  obtain ⟨rfl, _⟩ := Prod.mk.inj (process_deterministic returned tenReturned)
  exact absurd once (by decide)

end Ffos.TimerQueue
