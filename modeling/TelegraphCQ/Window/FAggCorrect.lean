import Mathlib.Data.List.Sort
import TelegraphCQ.Window.FAgg

/-!
# Correctness of the range/slide aggregate node

With a positive slide the node reports the windows one after another, each with
exactly the tuples of that window in arrival order.  `Tracks` ties the live
list and the two calendars of the node to the arrivals seen so far and to the
number of windows reported.  The slide is nowhere checked to be positive, and
the node's own assertions fail for every other one.
-/

namespace TelegraphCQ.Window

open Foundation List

variable {Tuple : Type}

section Timestamps

variable {a b : Int}

theorem Timestamp.at_le_at : Timestamp.at a ≤ Timestamp.at b ↔ a ≤ b := by
  rw [WithBot.coe_le_coe, WithTop.coe_le_coe]

theorem Timestamp.at_lt_at : Timestamp.at a < Timestamp.at b ↔ a < b := by
  rw [WithBot.coe_lt_coe, WithTop.coe_lt_coe]

theorem Timestamp.at_inj : Timestamp.at a = Timestamp.at b ↔ a = b := by
  rw [WithBot.coe_inj, WithTop.coe_inj]

theorem Timestamp.at_ne_noEnd (a : Int) : Timestamp.at a ≠ Timestamp.noEnd := by
  simp [Timestamp.noEnd]

theorem Timestamp.at_ne_noBegin (a : Int) : Timestamp.at a ≠ Timestamp.noBegin := by
  simp [Timestamp.noBegin]

theorem Timestamp.le_noEnd (time : Timestamp) : time ≤ Timestamp.noEnd := by
  induction time using WithBot.recBotCoe with
  | bot => exact bot_le
  | coe time => exact WithBot.coe_le_coe.mpr le_top

theorem Timestamp.noBegin_le (time : Timestamp) : Timestamp.noBegin ≤ time := bot_le

end Timestamps

section Arrivals

def nodesOf (arrivals : List Tuple) : List (TupleNode Tuple) :=
  arrivals.zipIdx.map fun arrival => ⟨arrival.2, arrival.1⟩

section

variable (arrivals : List Tuple)
include arrivals

theorem nodesOf_concat (tuple : Tuple) : nodesOf (arrivals ++ [tuple]) =
      nodesOf arrivals ++ [⟨arrivals.length, tuple⟩] := by
  simp [nodesOf, zipIdx_append]

theorem nodesOf_map_tuple : (nodesOf arrivals).map TupleNode.tuple = arrivals := by
  simp [nodesOf, Function.comp_def]

theorem nodesOf_map_id : (nodesOf arrivals).map TupleNode.id = List.range arrivals.length := by
  simp [nodesOf, Function.comp_def, zipIdx_map_snd, range_eq_range']

theorem nodesOf_id_nodup : ((nodesOf arrivals).map TupleNode.id).Nodup := by
  rw [nodesOf_map_id]
  exact nodup_range

theorem nodesOf_filter_tuple (keep : Tuple → Bool) :
    ((nodesOf arrivals).filter fun node => keep node.tuple).map TupleNode.tuple =
      arrivals.filter keep := by
  conv_rhs => rw [← nodesOf_map_tuple arrivals]
  rw [filter_map]
  rfl

end

def newestTS (getTS : Tuple → Int) (arrivals : List Tuple) : Timestamp :=
  arrivals.foldl (fun time tuple => max time (.at (getTS tuple))) .noBegin

theorem newestTS_concat (getTS : Tuple → Int) (arrivals : List Tuple) (tuple : Tuple) :
    newestTS getTS (arrivals ++ [tuple]) = max (newestTS getTS arrivals) (.at (getTS tuple)) := by
  simp [newestTS]

theorem newestTS_le {getTS : Tuple → Int} {arrivals : List Tuple}
    {bound : Timestamp} (below : ∀ tuple ∈ arrivals, .at (getTS tuple) ≤ bound) :
    newestTS getTS arrivals ≤ bound := by
  induction arrivals using List.reverseRecOn with
  | nil => exact Timestamp.noBegin_le bound
  | append_singleton arrivals tuple ih =>
    rw [newestTS_concat]
    exact max_le (ih fun other member => below other (by simp [member]))
      (below tuple (by simp))

end Arrivals

theorem filter_append_filter {α : Type*} {first second : α → Bool} {items : List α}
    (ordered : items.Pairwise fun x y => ¬ (second x = true ∧ first y = true))
    (disjoint : ∀ x ∈ items, ¬ (first x = true ∧ second x = true)) :
    items.filter first ++ items.filter second = items.filter fun x => first x || second x := by
  induction items with
  | nil => rfl
  | cons item items ih =>
    obtain ⟨before, ordered⟩ := pairwise_cons.mp ordered
    have tail := ih ordered fun x member => disjoint x (by simp [member])
    have apart := disjoint item (by simp)
    cases hfirst : first item with
    | true =>
      have hsecond : second item = false := by simpa [hfirst] using apart
      simp [hfirst, hsecond, ← tail]
    | false =>
      cases hsecond : second item with
      | false => simp [hfirst, hsecond, ← tail]
      | true =>
        have empty : items.filter first = [] := by
          rw [filter_eq_nil_iff]
          intro other member hother
          exact before other member ⟨hsecond, hother⟩
        rw [empty, nil_append] at tail
        simp [hfirst, hsecond, empty, ← tail]

theorem foldlM_removeFromLiveList (dead live : List (TupleNode Tuple))
    (linked : ∀ node ∈ dead, node.id ∈ live.map TupleNode.id)
    (distinct : (dead.map TupleNode.id).Nodup) : dead.foldlM removeFromLiveList live =
      .ok (live.filter fun node => node.id ∉ dead.map TupleNode.id) := by
  induction dead generalizing live with
  | nil => simp [pure, Except.pure]
  | cons node dead ih =>
    obtain ⟨fresh, distinct⟩ := nodup_cons.mp distinct
    have present := linked node (by simp)
    simp only [foldlM_cons, removeFromLiveList, present, if_true, bind, Except.bind]
    rw [ih _ _ distinct]
    · rw [filter_filter]
      congr 2
      funext other
      simp [Bool.and_comm]
    · intro other member
      have linkedOther := linked other (by simp [member])
      obtain ⟨cell, hcell, hid⟩ := mem_map.mp linkedOther
      refine mem_map.mpr ⟨cell, ?_, hid⟩
      rw [mem_filter]
      refine ⟨hcell, ?_⟩
      have : other.id ≠ node.id := fun same =>
        fresh (same ▸ mem_map_of_mem member)
      simp [hid, this]

section Calendars

/-- A calendar that lies ahead of the slides, with the list due at the end of each window. -/
structure Calendar (spec : WindowSpec) (reported : Nat) (due : Int → List (TupleNode Tuple))
    (groups : Groups Timestamp (TupleNode Tuple)) : Prop where
  sorted : groups.Sorted
  ahead : ∀ key ∈ groups.keys, ∃ k : Int, reported < k ∧ key = .at (windowEnd spec k)
  lookup : ∀ k : Int, (reported : Int) < k → groups.lookup (.at (windowEnd spec k)) = due k

variable {spec : WindowSpec} {reported : Nat} {due more : Int → List (TupleNode Tuple)}
  {groups : Groups Timestamp (TupleNode Tuple)}

theorem Calendar.nil (none_due : ∀ k, due k = []) : Calendar spec reported due [] :=
  ⟨List.Pairwise.nil, nofun, fun k _ => (none_due k).symm⟩

theorem Calendar.congr (calendar : Calendar spec reported due groups)
    (same : ∀ k : Int, reported < k → more k = due k) : Calendar spec reported more groups :=
  ⟨calendar.sorted, calendar.ahead, fun k later => (calendar.lookup k later).trans
    (same k later).symm⟩

section

variable (positive : 0 < spec.slideBy) (calendar : Calendar spec reported due groups)
include positive calendar

theorem Calendar.file {slot : Int} (later : reported < slot)
    (change : List (TupleNode Tuple) → List (TupleNode Tuple))
    (filed : ∀ k : Int, more k = if k = slot then change (due k) else due k) :
    Calendar spec reported more (groups.modify (.at (windowEnd spec slot)) change) := by
  refine ⟨Groups.sorted_modify calendar.sorted _ _, fun key member => ?_, fun k ahead => ?_⟩
  · rcases Groups.mem_keys_modify member with rfl | member
    · exact ⟨slot, later, rfl⟩
    · exact calendar.ahead key member
  · rw [filed, ← calendar.lookup k ahead]
    split
    · rename_i same
      subst same
      exact Groups.lookup_modify_self calendar.sorted _ change
    · rename_i different
      refine Groups.lookup_modify_ne groups ?_ change
      simpa [Timestamp.at_inj, windowEnd_inj positive] using different

theorem Calendar.slide (behind : FAggFault) :
    ∃ rest, dueGroup behind (.at (windowEnd spec (reported + 1))) groups =
        .ok (due (reported + 1), rest) ∧ Calendar spec (reported + 1) due rest := by
  obtain ⟨sorted, ahead, lookup⟩ := calendar
  have lookup' (k : Int) (later : ((reported + 1 : Nat) : Int) < k) := lookup k (by omega)
  rw [← lookup (reported + 1) (by omega)]
  cases groups with
  | nil => exact ⟨[], rfl, sorted, nofun, lookup'⟩
  | cons group groups =>
    obtain ⟨time, elems⟩ := group
    obtain ⟨above, sortedTail⟩ := pairwise_cons.mp sorted
    obtain ⟨due, dueAhead, rfl⟩ := ahead time (by simp [Groups.keys])
    by_cases now : due = reported + 1
    · subst now
      refine ⟨groups, by simp [dueGroup, Groups.lookup], sortedTail, ?_, ?_⟩
      · intro key member
        obtain ⟨k, _, rfl⟩ := ahead key (mem_cons_of_mem _ member)
        have later := above _ member
        rw [Timestamp.at_lt_at, windowEnd_lt_iff positive] at later
        exact ⟨k, by push_cast; omega, rfl⟩
      · intro k later
        rw [← lookup' k later]
        refine (Groups.lookup_tail ?_).symm
        rw [Ne, Timestamp.at_inj, windowEnd_inj positive]
        push_cast at later
        omega
    · have later : Timestamp.at (windowEnd spec (reported + 1)) <
          Timestamp.at (windowEnd spec due) := by
        rw [Timestamp.at_lt_at, windowEnd_lt_iff positive]
        omega
      have missing : Timestamp.at (windowEnd spec (reported + 1)) ∉
          Groups.keys ((.at (windowEnd spec due), elems) :: groups) := by
        intro member
        rcases mem_cons.mp member with same | member
        · exact later.ne same
        · exact absurd (above _ member) later.not_gt
      refine ⟨_, ?_, sorted, ?_, lookup'⟩
      · rw [Groups.lookup_eq_nil missing]
        simp [dueGroup, later.ne', later]
      · intro key member
        obtain ⟨k, _, rfl⟩ := ahead key member
        refine ⟨k, ?_, rfl⟩
        have : k ≠ reported + 1 := by
          rintro rfl
          exact missing member
        push_cast
        omega

end

end Calendars

section Tracking

variable (nonFinite : Int → Int) (spec : WindowSpec) (getTS : Tuple → Int)

def liveIn (reported : Nat) (node : TupleNode Tuple) : Bool :=
  decide (1 ≤ reported ∧ InWindow spec reported (getTS node.tuple))

def bornAt (windowNum : Int) (node : TupleNode Tuple) : Bool :=
  decide (firstWindowNo nonFinite spec (getTS node.tuple) = windowNum)

def diesAt (windowNum : Int) (node : TupleNode Tuple) : Bool :=
  decide (firstWindowNo nonFinite spec (getTS node.tuple) ≠ -1 ∧
    lastWindowNo nonFinite spec (getTS node.tuple) + 1 = windowNum)

/-- The node has seen `arrivals` and reported the first `reported` windows. -/
structure Tracks (arrivals : List Tuple) (reported : Nat) (node : FAgg Tuple) :
    Prop where
  ready : node.state ≠ .noWindowExpr
  windowStates : node.windowStates = [⟨spec, getTS, newestTS getTS arrivals⟩]
  currentTime : node.currentTime = newestTS getTS arrivals
  totalEntered : node.totalEntered = arrivals.length
  nextSlide : node.nextSlideTime = .at (windowEnd spec (reported + 1))
  lastSlide : node.lastSlideTime =
    .at (if reported = 0 then spec.startAt else windowEnd spec reported)
  passed : reported = 0 ∨ .at (windowEnd spec reported) ≤ newestTS getTS arrivals
  live : node.liveTuples = (nodesOf arrivals).filter (liveIn spec getTS reported)
  activation : Calendar spec reported
    (fun k => (nodesOf arrivals).filter (bornAt nonFinite spec getTS k)) node.activationGroups
  deactivation : Calendar spec reported
    (fun k => ((nodesOf arrivals).filter (diesAt nonFinite spec getTS k)).reverse)
    node.deactivationGroups

variable {nonFinite spec getTS} {arrivals : List Tuple} {reported : Nat}
  {node : FAgg Tuple}

private theorem maxTS_update (getTS : Tuple → Int) (arrivals : List Tuple) (tuple : Tuple) :
    windowStateUpdateMaxTS tuple ⟨spec, getTS, newestTS getTS arrivals⟩ =
      ⟨spec, getTS, newestTS getTS (arrivals ++ [tuple])⟩ := by
  rw [newestTS_concat]
  unfold windowStateUpdateMaxTS
  split
  · rename_i later
    rw [max_eq_right later.le]
  · rename_i notLater
    rw [max_eq_left (not_lt.mp notLater)]

variable {tuple : Tuple} {groups : Groups Timestamp (TupleNode Tuple)}

private theorem newestTS_concat_eq (inOrder : ∀ earlier ∈ arrivals, getTS earlier ≤ getTS tuple) :
    newestTS getTS (arrivals ++ [tuple]) = .at (getTS tuple) := by
  rw [newestTS_concat]
  exact max_eq_right (newestTS_le fun earlier member =>
    Timestamp.at_le_at.mpr (inOrder earlier member))

private theorem tupleLifetime_single (state : WindowState Tuple) (tuple : Tuple) :
    tupleLifetime nonFinite [state] tuple =
      if firstWindowNo nonFinite state.spec (state.getTS tuple) = -1 then
        (.noEnd, .noEnd)
      else
        (.at (windowEnd state.spec
            (firstWindowNo nonFinite state.spec (state.getTS tuple))), .at (windowEnd state.spec
            (lastWindowNo nonFinite state.spec (state.getTS tuple) + 1))) := by
  simp only [tupleLifetime, foldl_cons, foldl_nil, windowStateGetLifetime]
  split
  · simp [max_eq_right (Timestamp.noBegin_le _)]
  · simp [max_eq_right (Timestamp.noBegin_le _), min_eq_right (Timestamp.le_noEnd _)]

section

variable (positive : 0 < spec.slideBy)
include positive

section

variable (tracks : Tracks nonFinite spec getTS arrivals reported node)
  (inOrder : ∀ earlier ∈ arrivals, getTS earlier ≤ getTS tuple)
include tracks inOrder

private theorem reported_lt_firstWindowNo (found : firstWindowNo nonFinite spec (getTS tuple) ≠ -1)
    : (reported : Int) < firstWindowNo nonFinite spec (getTS tuple) := by
  have counted := firstWindowNo_pos nonFinite positive found
  rcases tracks.passed with none | passed
  · omega
  · by_contra behind
    have reachable : windowEnd spec reported ≤ getTS tuple :=
      Timestamp.at_le_at.mp (passed.trans (newestTS_le fun earlier member =>
        Timestamp.at_le_at.mpr (inOrder earlier member)))
    have := (lt_windowEnd_iff nonFinite positive found
      (k := reported) (by omega)).mpr (by omega)
    omega

private theorem not_liveIn_of_inOrder (id : Nat) :
    liveIn spec getTS reported ⟨id, tuple⟩ = false := by
  simp only [liveIn, decide_eq_false_iff_not]
  rintro ⟨counted, held⟩
  rw [inWindow_iff nonFinite positive (by omega)] at held
  have := reported_lt_firstWindowNo positive tracks inOrder held.1
  omega

end

section

variable (tracks : Tracks nonFinite spec getTS arrivals reported node)
  (inOrder : ∀ earlier ∈ arrivals, getTS earlier ≤ getTS tuple)
include tracks inOrder

private theorem Tracks.arrive {activation deactivation : Groups Timestamp (TupleNode Tuple)}
    (activated : Calendar spec reported
      (fun k => (nodesOf (arrivals ++ [tuple])).filter (bornAt nonFinite spec getTS k)) activation)
    (deactivated : Calendar spec reported
      (fun k => ((nodesOf (arrivals ++ [tuple])).filter (diesAt nonFinite spec getTS k)).reverse)
      deactivation) : Tracks nonFinite spec getTS (arrivals ++ [tuple]) reported
      { node with
        totalEntered := node.totalEntered + 1
        activationGroups := activation
        deactivationGroups := deactivation
        windowStates := [⟨spec, getTS, newestTS getTS (arrivals ++ [tuple])⟩]
        currentTime := newestTS getTS (arrivals ++ [tuple]) } where
  ready := tracks.ready
  windowStates := rfl
  currentTime := rfl
  totalEntered := by simp [tracks.totalEntered]
  nextSlide := tracks.nextSlide
  lastSlide := tracks.lastSlide
  passed := tracks.passed.imp_right fun passed => by
    rw [newestTS_concat]
    exact passed.trans (le_max_left _ _)
  live := by
    rw [nodesOf_concat, filter_append, ← tracks.live]
    simp [not_liveIn_of_inOrder positive tracks inOrder]
  activation := activated
  deactivation := deactivated

theorem addNewTupleRangeSlide_spec : ∃ next, addNewTupleRangeSlide nonFinite tuple node = .ok next ∧
      Tracks nonFinite spec getTS (arrivals ++ [tuple]) reported next := by
  have newest := newestTS_concat_eq inOrder
  have current : max node.currentTime (newestTS getTS (arrivals ++ [tuple])) =
      newestTS getTS (arrivals ++ [tuple]) := by
    rw [tracks.currentTime, newestTS_concat]
    exact max_eq_right (le_max_left _ _)
  have finite : newestTS getTS (arrivals ++ [tuple]) ≠ .noEnd := by
    rw [newest]
    exact Timestamp.at_ne_noEnd _
  by_cases missing : firstWindowNo nonFinite spec (getTS tuple) = -1
  · refine ⟨_, ?_, tracks.arrive positive inOrder
      (tracks.activation.congr fun k ahead => by
        have other : (-1 : Int) ≠ k := by omega
        simp [nodesOf_concat, bornAt, missing, other])
      (tracks.deactivation.congr fun k ahead => by simp [nodesOf_concat, diesAt, missing])⟩
    simp [addNewTupleRangeSlide, tracks.windowStates, tupleLifetime_single,
      missing, maxTS_update, min_eq_right (Timestamp.le_noEnd _), finite, current]
  · have lifeSpan := firstWindowNo_le_lastWindowNo nonFinite positive missing
    have ahead := reported_lt_firstWindowNo positive tracks inOrder missing
    have aheadLast : reported < lastWindowNo nonFinite spec (getTS tuple) + 1 := by omega
    refine ⟨_, ?_, tracks.arrive positive inOrder
      (tracks.activation.file positive ahead (· ++ [⟨node.totalEntered, tuple⟩]) fun k => by
        split <;> simp_all [nodesOf_concat, bornAt, tracks.totalEntered, eq_comm])
      (tracks.deactivation.file positive aheadLast (⟨node.totalEntered, tuple⟩ :: ·) fun k => by
        split <;> simp_all [nodesOf_concat, diesAt, tracks.totalEntered, eq_comm])⟩
    have dies : ¬ Timestamp.at (windowEnd spec
        (lastWindowNo nonFinite spec (getTS tuple) + 1)) ≤ Timestamp.at (windowEnd spec
            (firstWindowNo nonFinite spec (getTS tuple))) := by
      rw [Timestamp.at_le_at, windowEnd_le_iff positive]
      omega
    have alive : ¬ Timestamp.at (windowEnd spec
        (lastWindowNo nonFinite spec (getTS tuple) + 1)) ≤ node.lastSlideTime := by
      rw [tracks.lastSlide, Timestamp.at_le_at]
      split
      · have begun := (firstWindowNo_spec nonFinite positive missing).2.1
        have first := firstWindowNo_pos nonFinite positive missing
        have start : spec.startAt ≤ getTS tuple := by
          refine le_trans ?_ (((windowBegin_le_iff positive).mpr first).trans begun)
          simp [windowBegin]
        have beforeEnd := (lt_windowEnd_iff nonFinite positive missing
          (k := lastWindowNo nonFinite spec (getTS tuple) + 1)
          (by omega)).mpr (by omega)
        omega
      · rw [windowEnd_le_iff positive]
        omega
    simp [addNewTupleRangeSlide, tracks.windowStates, tupleLifetime_single,
      missing, Timestamp.at_ne_noEnd, dies, alive, addToActivationGroup,
      addToDeactivationGroup, maxTS_update, min_eq_right (Timestamp.le_noEnd _), finite, current]

end

private theorem live_succ (sorted : arrivals.Pairwise fun a b => getTS a ≤ getTS b) :
    ((nodesOf arrivals).filter (liveIn spec getTS reported)).filter
        (fun node => node.id ∉ ((nodesOf arrivals).filter
          (diesAt nonFinite spec getTS (reported + 1))).reverse.map TupleNode.id) ++
      (nodesOf arrivals).filter (bornAt nonFinite spec getTS (reported + 1)) =
      (nodesOf arrivals).filter (liveIn spec getTS (reported + 1)) := by
  have survivors : ((nodesOf arrivals).filter (liveIn spec getTS reported)).filter
      (fun node => node.id ∉ ((nodesOf arrivals).filter
        (diesAt nonFinite spec getTS (reported + 1))).reverse.map TupleNode.id) =
      (nodesOf arrivals).filter fun node => liveIn spec getTS reported node &&
        !diesAt nonFinite spec getTS (reported + 1) node := by
    rw [filter_filter]
    apply filter_congr
    intro node member
    have dead : node.id ∈ ((nodesOf arrivals).filter
        (diesAt nonFinite spec getTS (reported + 1))).reverse.map TupleNode.id ↔
          diesAt nonFinite spec getTS (reported + 1) node = true := by
      constructor
      · intro dead
        obtain ⟨other, hother, same⟩ := mem_map.mp dead
        rw [mem_reverse, mem_filter] at hother
        have : other = node := inj_on_of_nodup_map
          (nodesOf_id_nodup arrivals) hother.1 member same
        exact this ▸ hother.2
      · intro dies
        refine mem_map_of_mem ?_
        rw [mem_reverse, mem_filter]
        exact ⟨member, dies⟩
    simp only [dead, Bool.and_comm, decide_not, Bool.decide_eq_true]
  have window : ∀ (k : Nat) (node : TupleNode Tuple),
      (1 ≤ k ∧ InWindow spec k (getTS node.tuple)) ↔ 1 ≤ k ∧
        firstWindowNo nonFinite spec (getTS node.tuple) ≠ -1 ∧
        firstWindowNo nonFinite spec (getTS node.tuple) ≤ k ∧
        k ≤ lastWindowNo nonFinite spec (getTS node.tuple) := fun k node =>
    and_congr_right fun counted => inWindow_iff nonFinite positive (by omega)
  have sortedNodes : (nodesOf arrivals).Pairwise
      fun a b => getTS a.tuple ≤ getTS b.tuple := by
    rw [← nodesOf_map_tuple arrivals, pairwise_map] at sorted
    exact sorted
  rw [survivors, filter_append_filter]
  · apply filter_congr
    intro node _
    have first := @firstWindowNo_pos spec nonFinite positive (getTS node.tuple)
    have last := @firstWindowNo_le_lastWindowNo spec nonFinite positive
      (getTS node.tuple)
    rw [Bool.eq_iff_iff]
    simp only [liveIn, diesAt, bornAt, Bool.or_eq_true, Bool.and_eq_true,
      Bool.not_eq_true', decide_eq_true_eq, decide_eq_false_iff_not, window]
    push_cast
    rw [true_and]
    omega
  · refine sortedNodes.imp ?_
    intro earlier later ordered
    simp only [liveIn, diesAt, bornAt, Bool.and_eq_true, Bool.not_eq_true',
      decide_eq_true_eq, decide_eq_false_iff_not]
    rintro ⟨born, ⟨counted, held⟩, _⟩
    have found : firstWindowNo nonFinite spec (getTS earlier.tuple) ≠ -1 := by
      omega
    have before := (lt_windowEnd_iff nonFinite positive found
      (k := reported) (by omega)).mp (lt_of_le_of_lt ordered held.2)
    omega
  · intro node _
    simp only [liveIn, diesAt, bornAt, Bool.and_eq_true, Bool.not_eq_true',
      decide_eq_true_eq, decide_eq_false_iff_not]
    rintro ⟨⟨held, _⟩, born⟩
    have := (window reported node).mp held
    omega

theorem advanceWindow_spec (tracks : Tracks nonFinite spec getTS arrivals reported node)
    (sorted : arrivals.Pairwise fun a b => getTS a ≤ getTS b)
    (due : node.nextSlideTime ≤ node.currentTime) :
    ∃ next, advanceWindow nonFinite node = .ok next ∧ next.wtime = node.wtime ∧
      Tracks nonFinite spec getTS arrivals (reported + 1) next := by
  obtain ⟨activationRest, activated, activation⟩ :=
    tracks.activation.slide positive .activationBehind
  obtain ⟨deactivationRest, deactivated, deactivation⟩ :=
    tracks.deactivation.slide positive .deactivationBehind
  have removed := foldlM_removeFromLiveList
    ((nodesOf arrivals).filter
      (diesAt nonFinite spec getTS (reported + 1))).reverse
    ((nodesOf arrivals).filter (liveIn spec getTS reported))
    (by
      intro dead member
      rw [mem_reverse, mem_filter] at member
      refine mem_map_of_mem (mem_filter.mpr ⟨member.1, ?_⟩)
      have dies := member.2
      simp only [diesAt, decide_eq_true_eq] at dies
      have first := firstWindowNo_pos nonFinite positive dies.1
      have last := firstWindowNo_le_lastWindowNo nonFinite positive dies.1
      simp only [liveIn, decide_eq_true_eq]
      refine ⟨by omega, (inWindow_iff nonFinite positive (by omega)).mpr ?_⟩
      exact ⟨dies.1, by omega, by omega⟩)
    (by
      rw [map_reverse, nodup_reverse]
      exact (nodesOf_id_nodup arrivals).sublist (filter_sublist.map _))
  have slide : windowStateGetNextSlide nonFinite
      (⟨spec, getTS, newestTS getTS arrivals⟩ : WindowState Tuple)
      (.at (windowEnd spec (reported + 1))) = .ok (.at (windowEnd spec (reported + 1 + 1))) := by
    unfold windowStateGetNextSlide
    simp only [firstWindowPast_windowEnd nonFinite positive
      (show (0 : Int) < reported + 1 by omega)]
    rw [if_pos (by omega)]
  have advances : Timestamp.at (windowEnd spec (reported + 1)) <
      Timestamp.at (windowEnd spec (reported + 1 + 1)) := by
    rw [Timestamp.at_lt_at, windowEnd_lt_iff positive]
    omega
  refine ⟨{ node with
      liveTuples := (nodesOf arrivals).filter (liveIn spec getTS (reported + 1))
      activationGroups := activationRest
      deactivationGroups := deactivationRest
      lastSlideTime := .at (windowEnd spec (reported + 1))
      nextSlideTime := .at (windowEnd spec (reported + 1 + 1))
      latestSlideTime := max .noBegin (.at (windowEnd spec (reported + 1 + 1))) }, ?_, rfl, ?_⟩
  · unfold advanceWindow
    rw [tracks.nextSlide, tracks.live, tracks.windowStates, activated, deactivated]
    simp only [bind, Except.bind, removed, mapM_cons, mapM_nil, slide,
      pure, Except.pure, foldl_cons, foldl_nil,
      min_eq_right (Timestamp.le_noEnd _), advances, if_true, live_succ positive sorted]
  · exact {
      ready := tracks.ready
      windowStates := tracks.windowStates
      currentTime := tracks.currentTime
      totalEntered := tracks.totalEntered
      nextSlide := by push_cast; rfl
      lastSlide := by simp
      passed := .inr (by
        rw [← tracks.currentTime]
        simpa [tracks.nextSlide] using due)
      live := rfl
      activation := activation
      deactivation := deactivation }

end

variable (nonFinite spec getTS arrivals reported) in
/-- The outcome of running foreign code: tracking goes on, or that code broke
its protocol. -/
def KeepsTracking : Except FAggFault (FAgg Tuple) → Prop
  | .ok next => Tracks nonFinite spec getTS arrivals reported next
  | .error fault => fault.ofAggPlan = true

theorem pullTuples_spec (pulls : Nat)
    (tracks : Tracks nonFinite spec getTS arrivals reported node) :
    KeepsTracking nonFinite spec getTS arrivals reported
      (pullTuples pulls node) := by
  induction pulls generalizing node with
  | zero => exact tracks
  | succ pulls ih =>
    by_cases running : node.state = .runningAgg
    · cases hcur : node.liveTuplesCur with
      | nil | cons =>
        simp only [pullTuples, execFAgg, running, hcur, if_true]
        exact ih { tracks with ready := by simp }
    · simp only [pullTuples, execFAgg, running, if_false]
      rfl

theorem faggScheduleAggPlan_spec (agg : AggCall)
    (tracks : Tracks nonFinite spec getTS arrivals reported node) :
    KeepsTracking nonFinite spec getTS arrivals reported
      (faggScheduleAggPlan agg node) := by
  have pulled := pullTuples_spec agg.pulls tracks
  unfold faggScheduleAggPlan
  cases hpull : pullTuples agg.pulls node with
  | error fault =>
    rw [hpull] at pulled
    exact pulled
  | ok next =>
    rw [hpull] at pulled
    simp only [bind, Except.bind]
    cases agg.result with
    | true => exact { pulled with }
    | false =>
      by_cases finishing : next.state = .finishingAgg
      · simp only [finishing, Bool.false_eq_true, if_false, if_true]
        exact { pulled with ready := by dsimp only; split <;> simp }
      · simp only [finishing, Bool.false_eq_true, if_false]
        rfl

end Tracking

section Runs

variable (nonFinite : Int → Int) (spec : WindowSpec) (getTS : Tuple → Int)

def arrivalsOf (calls : List (FAggCall Tuple)) : List Tuple :=
  calls.filterMap FAggCall.input

def InOrder (calls : List (FAggCall Tuple)) : Prop :=
  (arrivalsOf calls).Pairwise fun a b => getTS a ≤ getTS b

/-- The report due at `START AT + RANGE BY + k * SLIDE BY`: the arrivals of the
`RANGE BY` before that time. -/
def dueReport (arrivals : List Tuple) (k : Nat) : FAggReport Tuple :=
  let time := spec.startAt + spec.rangeBy + k * spec.slideBy
  ⟨.at time, arrivals.filter fun tuple =>
    decide (time - spec.rangeBy ≤ getTS tuple ∧ getTS tuple < time)⟩

/-- The run reports the consecutive windows, each with its own tuples, and stops
early only if the aggregation plan breaks its protocol. -/
def WindowsReported (calls : List (FAggCall Tuple)) : Prop :=
  let outcome := runFAgg nonFinite [⟨spec, getTS, .noBegin⟩] calls
  (∀ fault, outcome.2 = .error fault → fault.ofAggPlan = true) ∧
    outcome.1 = (List.range outcome.1.length).map
      (dueReport spec getTS (arrivalsOf calls))

def ReportsDue (arrivals : List Tuple) (reported : Nat)
    (reports : List (FAggReport Tuple)) : Prop :=
  reports = (List.range reported).map (dueReport spec getTS arrivals) ∧
    (reported = 0 ∨ .at (windowEnd spec reported) ≤ newestTS getTS arrivals)

def RunTracks (calls : List (FAggCall Tuple)) (reports : List (FAggReport Tuple))
    (node : FAgg Tuple) : Prop :=
  ∃ reported, ReportsDue spec getTS (arrivalsOf calls) reported reports ∧
    Tracks nonFinite spec getTS (arrivalsOf calls) reported node

def RunStopped (calls : List (FAggCall Tuple)) (reports : List (FAggReport Tuple))
    (fault : FAggFault) : Prop :=
  ∃ reported, ReportsDue spec getTS (arrivalsOf calls) reported reports ∧
    fault.ofAggPlan = true

variable {nonFinite spec getTS}

theorem dueReport_eq (arrivals : List Tuple) (k : Nat) : dueReport spec getTS arrivals k =
      ⟨.at (windowEnd spec (k + 1)), arrivals.filter fun tuple =>
        decide (InWindow spec (k + 1) (getTS tuple))⟩ := by
  have time : spec.startAt + spec.rangeBy + k * spec.slideBy = windowEnd spec (k + 1) := by
    simp only [windowEnd, windowBegin]
    ring
  simp only [dueReport, time, InWindow]
  congr 3
  funext tuple
  congr 2
  simp [windowEnd]

variable {arrivals : List Tuple} {reported : Nat} {node : FAgg Tuple} {fault : FAggFault}

private theorem dueReports_append (positive : 0 < spec.slideBy) {more : List Tuple}
    (passed : reported = 0 ∨ .at (windowEnd spec reported) ≤ newestTS getTS arrivals)
    (sorted : (arrivals ++ more).Pairwise fun a b => getTS a ≤ getTS b) :
    (List.range reported).map (dueReport spec getTS (arrivals ++ more)) =
      (List.range reported).map (dueReport spec getTS arrivals) := by
  apply map_congr_left
  intro k member
  rw [mem_range] at member
  rw [dueReport_eq, dueReport_eq, filter_append]
  have late : more.filter (fun tuple =>
      decide (InWindow spec (k + 1) (getTS tuple))) = [] := by
    rw [filter_eq_nil_iff]
    intro tuple later
    simp only [decide_eq_true_eq]
    rintro ⟨_, unfinished⟩
    rcases passed with rfl | passed
    · omega
    · have seen : newestTS getTS arrivals ≤ .at (getTS tuple) :=
        newestTS_le fun earlier hearlier => Timestamp.at_le_at.mpr
          ((pairwise_append.mp sorted).2.2 earlier hearlier tuple later)
      have reachable := Timestamp.at_le_at.mp (passed.trans seen)
      have := (windowEnd_le_iff positive (a := k + 1) (b := reported)).mpr
        (by omega)
      omega
  rw [late, append_nil]

private theorem live_eq_dueReport
    (tracks : Tracks nonFinite spec getTS arrivals (reported + 1) node) :
    node.liveTuples.map TupleNode.tuple = (dueReport spec getTS arrivals reported).live := by
  rw [tracks.live, dueReport_eq]
  have : liveIn spec getTS (reported + 1) = fun cell : TupleNode Tuple =>
      decide (InWindow spec (reported + 1) (getTS cell.tuple)) := by
    funext cell
    simp [liveIn]
  rw [this, nodesOf_filter_tuple arrivals fun tuple =>
    decide (InWindow spec (reported + 1) (getTS tuple))]

theorem processStateFAgg_spec (positive : 0 < spec.slideBy) (agg : AggCall)
    {reports : List (FAggReport Tuple)}
    (tracks : Tracks nonFinite spec getTS arrivals reported node)
    (sorted : arrivals.Pairwise fun a b => getTS a ≤ getTS b)
    (due : ReportsDue spec getTS arrivals reported reports) :
    ∃ reported', ReportsDue spec getTS arrivals reported'
        (reports ++ (processStateFAgg nonFinite agg node).1) ∧
      KeepsTracking nonFinite spec getTS arrivals reported'
        (processStateFAgg nonFinite agg node).2 := by
  unfold processStateFAgg
  cases hstate : node.state with
  | noWindowExpr => exact absurd hstate tracks.ready
  | runningAgg | finishingAgg =>
    exact ⟨reported, by simpa using due, faggScheduleAggPlan_spec agg tracks⟩
  | punctuating =>
    exact ⟨reported, by simpa using due, { tracks with ready := by simp }⟩
  | reading =>
    by_cases slide : node.nextSlideTime ≤ node.currentTime
    · have timed : Tracks nonFinite spec getTS arrivals reported
          { node with wtime := node.nextSlideTime } := { tracks with }
      obtain ⟨next, hnext, hwtime, tracksNext⟩ := advanceWindow_spec positive timed sorted slide
      simp only [hstate] at hnext
      simp only [slide, if_true, hnext]
      have running : Tracks nonFinite spec getTS arrivals (reported + 1)
          { next with
            state := .runningAgg
            liveTuplesCur := next.liveTuples } := { tracksNext with ready := by simp }
      refine ⟨reported + 1, ⟨?_, tracksNext.passed⟩, faggScheduleAggPlan_spec agg running⟩
      rw [range_succ, map_append, ← due.1, live_eq_dueReport tracksNext, hwtime, tracks.nextSlide]
      simp [dueReport_eq]
    · simp only [slide, if_false]
      exact ⟨reported, by simpa using due, tracks⟩

theorem faggMachine_step_spec (positive : 0 < spec.slideBy)
    (calls : List (FAggCall Tuple)) (call : FAggCall Tuple)
    (reports : List (FAggReport Tuple)) (node : FAgg Tuple)
    (sorted : InOrder getTS (calls ++ [call]))
    (tracks : RunTracks nonFinite spec getTS calls reports node) :
    Machine.Reached (RunTracks nonFinite spec getTS) (RunStopped spec getTS)
      (calls ++ [call])
      (reports ++ ((faggMachine nonFinite).step node call).1)
      ((faggMachine nonFinite).step node call).2 := by
  obtain ⟨reported, due, tracks⟩ := tracks
  -- the call is reduced to the state machine after an optional arrival
  suffices process : ∀ node', Tracks nonFinite spec getTS
      (arrivalsOf (calls ++ [call])) reported node' →
      Machine.Reached (RunTracks nonFinite spec getTS) (RunStopped spec getTS)
        (calls ++ [call])
        (reports ++ (processStateFAgg nonFinite call.agg node').1)
        (processStateFAgg nonFinite call.agg node').2 by
    simp only [faggMachine, processNextFAggRangeSlide, tracks.ready, if_false]
    cases hinput : call.input with
    | none =>
      refine process node ?_
      simpa [arrivalsOf, hinput] using tracks
    | some tuple =>
      have arrivals : arrivalsOf (calls ++ [call]) = arrivalsOf calls ++ [tuple] := by
        simp [arrivalsOf, hinput]
      rw [InOrder, arrivals] at sorted
      obtain ⟨node', hadd, tracks'⟩ := addNewTupleRangeSlide_spec positive tracks
        fun earlier member =>
          (pairwise_append.mp sorted).2.2 earlier member tuple (by simp)
      simp only [hadd]
      exact process node' (arrivals ▸ tracks')
  intro node' tracks'
  have split : arrivalsOf (calls ++ [call]) =
      arrivalsOf calls ++ arrivalsOf [call] := filterMap_append
  have sorted' : (arrivalsOf calls ++ arrivalsOf [call]).Pairwise
      fun a b => getTS a ≤ getTS b := split ▸ sorted
  have due' : ReportsDue spec getTS (arrivalsOf (calls ++ [call])) reported
      reports := by
    refine ⟨?_, tracks'.passed⟩
    rw [split, dueReports_append positive due.2 sorted']
    exact due.1
  obtain ⟨reported', dueNext, keeps⟩ := processStateFAgg_spec positive call.agg tracks' sorted due'
  cases hresult : (processStateFAgg nonFinite call.agg node').2 with
  | ok next =>
    rw [hresult] at keeps
    exact ⟨reported', dueNext, keeps⟩
  | error fault =>
    rw [hresult] at keeps
    exact ⟨calls ++ [call], prefix_refl _, reported', dueNext, keeps⟩

theorem faggAddWindowExprs_single : ∃ node : FAgg Tuple,
      faggAddWindowExprs [⟨spec, getTS, .noBegin⟩] processInitFAgg = .ok node ∧
      Tracks nonFinite spec getTS [] 0 node ∧ node.state = .reading := by
  refine ⟨{ processInitFAgg with
    state := .reading
    windowStates := [⟨spec, getTS, .noBegin⟩]
    nextSlideTime := .at (spec.startAt + spec.rangeBy)
    latestSlideTime := .at (spec.startAt + spec.rangeBy)
    lastSlideTime := .at spec.startAt
    wtime := .at (spec.startAt + spec.rangeBy) }, ?_, ?_, rfl⟩
  · simp [faggAddWindowExprs, windowStateGetFirstChange,
      min_eq_right (Timestamp.le_noEnd _), Timestamp.at_ne_noEnd, Timestamp.at_ne_noBegin]
  · exact {
      ready := by simp
      windowStates := rfl
      currentTime := rfl
      totalEntered := rfl
      nextSlide := by simp [windowEnd, windowBegin]
      lastSlide := by simp
      passed := .inl rfl
      live := rfl
      activation := .nil fun _ => rfl
      deactivation := .nil fun _ => rfl }

theorem windowsReported_of_pos (positive : 0 < spec.slideBy)
    {calls : List (FAggCall Tuple)} (sorted : InOrder getTS calls) :
    WindowsReported nonFinite spec getTS calls := by
  obtain ⟨node, hinit, tracks, -⟩ := @faggAddWindowExprs_single Tuple nonFinite spec getTS
  have closed : ∀ (calls : List (FAggCall Tuple)) call,
      InOrder getTS (calls ++ [call]) → InOrder getTS calls := by
    intro calls call ordered
    simp only [InOrder, arrivalsOf, filterMap_append] at ordered
    exact (pairwise_append.mp ordered).1
  have start : RunTracks nonFinite spec getTS [] [] node := ⟨0, ⟨rfl, .inl rfl⟩, tracks⟩
  have reached := (faggMachine nonFinite).run_spec closed
    (faggMachine_step_spec positive) start calls sorted
  simp only [WindowsReported, runFAgg, hinit]
  rcases hrun : (faggMachine nonFinite).run node calls with ⟨reports, result⟩
  rw [hrun] at reached
  cases result with
  | ok next =>
    obtain ⟨reported, due, _⟩ := reached
    have listed : reports = _ := due.1
    have count : reports.length = reported := by simp [listed]
    refine ⟨by simp, ?_⟩
    rw [count]
    exact listed
  | error fault =>
    obtain ⟨consumed, ⟨rest, rfl⟩, reported, due, blame⟩ := reached
    refine ⟨by simpa using blame, ?_⟩
    have split : arrivalsOf (consumed ++ rest) =
        arrivalsOf consumed ++ arrivalsOf rest := filterMap_append
    rw [InOrder, split] at sorted
    have same := dueReports_append positive due.2 sorted
    have listed : reports = _ := due.1
    have count : reports.length = reported := by simp [listed]
    rw [split, count, same]
    exact listed

private theorem dueGroup_error {behind : FAggFault} {slide : Timestamp}
    {groups : Groups Timestamp (TupleNode Tuple)}
    (failed : dueGroup behind slide groups = .error fault) : fault = behind := by
  cases groups with
  | nil => simp [dueGroup] at failed
  | cons group groups =>
    simp only [dueGroup] at failed
    split at failed
    · cases failed
    · split at failed
      · cases failed
      · cases failed
        rfl

private theorem removal_error {dead live : List (TupleNode Tuple)}
    (failed : dead.foldlM removeFromLiveList live = .error fault) : fault = .notLive := by
  induction dead generalizing live with
  | nil => cases failed
  | cons node dead ih =>
    rw [foldlM_cons] at failed
    by_cases linked : node.id ∈ live.map TupleNode.id
    · simp only [removeFromLiveList, linked, if_true, bind, Except.bind] at failed
      exact ih failed
    · simp only [removeFromLiveList, linked, if_false, bind, Except.bind] at failed
      cases failed
      rfl

/-- With a slide that is not positive the first slide trips an assertion,
whatever an undefined conversion yields. -/
theorem advanceWindow_stuck (stuck : spec.slideBy ≤ 0) {node : FAgg Tuple}
    {seen : Timestamp} (states : node.windowStates = [⟨spec, getTS, seen⟩])
    (next : node.nextSlideTime = .at (spec.startAt + spec.rangeBy)) :
    ∃ fault, advanceWindow nonFinite node = .error fault ∧ fault.ofAggPlan = false := by
  unfold advanceWindow
  cases hactivated : dueGroup .activationBehind node.nextSlideTime node.activationGroups with
  | error fault => exact ⟨fault, rfl, by rw [dueGroup_error hactivated]; rfl⟩
  | ok activated =>
  cases hdeactivated : dueGroup .deactivationBehind node.nextSlideTime node.deactivationGroups with
  | error fault => exact ⟨fault, rfl, by rw [dueGroup_error hdeactivated]; rfl⟩
  | ok deactivated =>
  simp only [bind, Except.bind]
  cases removed : deactivated.1.foldlM removeFromLiveList node.liveTuples with
  | error fault => exact ⟨fault, rfl, by rw [removal_error removed]; rfl⟩
  | ok remaining =>
  simp only [states, next, mapM_cons, mapM_nil, pure, Except.pure, bind,
    Except.bind, windowStateGetNextSlide]
  by_cases counted : 0 < firstWindowPast nonFinite spec
      (spec.startAt + spec.rangeBy)
  · have behind : ¬ Timestamp.at (spec.startAt + spec.rangeBy) <
        Timestamp.at (windowEnd spec (firstWindowPast nonFinite spec
          (spec.startAt + spec.rangeBy))) := by
      rw [Timestamp.at_lt_at]
      simp only [windowEnd, windowBegin]
      nlinarith
    refine ⟨.windowStuck, ?_, rfl⟩
    simp [counted, min_eq_right (Timestamp.le_noEnd _), behind, throw,
      throwThe, MonadExceptOf.throw]
  · refine ⟨.windowNumber, ?_, rfl⟩
    simp [counted]

private theorem addNewTuple_first (tuple : Tuple) {node : FAgg Tuple}
    (states : node.windowStates = [⟨spec, getTS, .noBegin⟩])
    (current : node.currentTime = .noBegin) :
    ∃ next, addNewTupleRangeSlide nonFinite tuple node = .ok next ∧ next.state = node.state ∧
      next.windowStates = [⟨spec, getTS, .at (getTS tuple)⟩] ∧
      next.currentTime = .at (getTS tuple) ∧ next.nextSlideTime = node.nextSlideTime := by
  have seen : windowStateUpdateMaxTS tuple
      (⟨spec, getTS, .noBegin⟩ : WindowState Tuple) = ⟨spec, getTS, .at (getTS tuple)⟩ := by
    simp [windowStateUpdateMaxTS, Timestamp.noBegin, WithBot.bot_lt_coe]
  simp only [addNewTupleRangeSlide]
  split_ifs <;>
    simp_all [addToActivationGroup, addToDeactivationGroup,
      min_eq_right (Timestamp.le_noEnd _), Timestamp.at_ne_noEnd, Timestamp.noBegin_le]

private theorem runFAgg_stuck (stuck : spec.slideBy ≤ 0) (tuple : Tuple)
    (agg : AggCall) (reached : getTS tuple = spec.startAt + spec.rangeBy) :
    ∃ fault, runFAgg nonFinite [⟨spec, getTS, .noBegin⟩] [⟨some tuple, agg⟩] =
      ([], .error fault) ∧ fault.ofAggPlan = false := by
  obtain ⟨node, hinit, tracks, hstate⟩ := @faggAddWindowExprs_single Tuple nonFinite spec getTS
  obtain ⟨filed, hfiled, filedState, filedWindows, filedCurrent, filedNext⟩ :=
    @addNewTuple_first Tuple nonFinite spec getTS tuple node tracks.windowStates
      tracks.currentTime
  have next : filed.nextSlideTime = .at (spec.startAt + spec.rangeBy) := by
    rw [filedNext, tracks.nextSlide]
    simp [windowEnd, windowBegin]
  have due : filed.nextSlideTime ≤ filed.currentTime := by
    rw [next, filedCurrent, reached]
  have timed : ({ filed with wtime := filed.nextSlideTime } :
      FAgg Tuple).windowStates = [⟨spec, getTS, .at (getTS tuple)⟩] := filedWindows
  obtain ⟨fault, hfault, blame⟩ :=
    @advanceWindow_stuck Tuple nonFinite spec getTS stuck _ _ timed next
  refine ⟨fault, ?_, blame⟩
  have step : (faggMachine nonFinite).step node ⟨some tuple, agg⟩ = ([], .error fault) := by
    simp only [faggMachine, processNextFAggRangeSlide, hfiled, processStateFAgg,
      filedState, hstate, due, if_true]
    rw [filedState, hstate] at hfault
    simp [hfault]
  simp only [runFAgg, hinit]
  exact Machine.run_cons_error _ step []

end Runs

end TelegraphCQ.Window
