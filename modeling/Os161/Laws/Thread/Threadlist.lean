import Os161.Lib.Trace
import Os161.Thread.Threadlist

/-!
# Thread lists are deques

Between its two ends a list is doubly linked through the threads of its deque. A call puts one node in between two
neighbours or takes one out, and what it does to the cells is no concern of the other lists.
-/

namespace Os161.Threadlist

open Os161.Lib

variable {s : State} {k : ListId} {t : ThreadId} {l r q : List ThreadId} {a b : Node}

/-! ## The nodes of a list -/

/-- The nodes of a list with the threads of a deque. -/
def nodes (k : ListId) (q : List ThreadId) : List Node := .head k :: q.map .thread ++ [.tail k]

/-- The node in front of a place. -/
def before (k : ListId) (l : List ThreadId) : Node := (.head k :: l.map .thread).getLast (List.cons_ne_nil _ _)

/-- The node behind a place. -/
def after (k : ListId) (r : List ThreadId) : Node := (r.map Node.thread ++ [Node.tail k]).head (by simp)

@[simp] theorem mem_nodes : a ∈ nodes k q ↔ a = .head k ∨ (∃ t ∈ q, .thread t = a) ∨ a = .tail k := by
  simp [nodes]

theorem nodes_append : nodes k (l ++ r) = (.head k :: l.map .thread) ++ (r.map .thread ++ [.tail k]) := by
  simp [nodes]

theorem nodup_nodes (h : q.Nodup) : (nodes k q).Nodup := by
  have hmap : (q.map Node.thread).Nodup := h.map fun _ _ => Node.thread.inj
  simp [nodes, List.nodup_append, hmap]

theorem before_mem : before k l ∈ (.head k :: l.map Node.thread).getLast? :=
  List.getLast?_eq_getLast_of_ne_nil _

theorem after_mem : after k r ∈ (r.map Node.thread ++ [Node.tail k]).head? :=
  List.head?_eq_some_head _

theorem before_eq : before k l = .head k ∨ ∃ t ∈ l, .thread t = before k l := by
  have := List.mem_of_getLast? (before_mem (k := k) (l := l))
  simpa using this

theorem after_eq : after k r = .tail k ∨ ∃ t ∈ r, .thread t = after k r := by
  have := List.mem_of_head? (after_mem (k := k) (r := r))
  simpa [or_comm] using this

/-! ## The invariant -/

/-- Every list is linked through its deque and ends at its ends, the deques have no thread twice, and a thread on
none has no links. -/
structure Inv (s : State) : Prop where
  chain : ∀ k, (nodes k (s.queue k)).IsChain s.cells.Linked
  ends : ∀ k, s.cells.prev (.head k) = none ∧ s.cells.next (.tail k) = none
  count : ∀ k, s.count k = (s.queue k).length
  nodup : ∀ k, (s.queue k).Nodup
  apart : ∀ k k' t, t ∈ s.queue k → t ∈ s.queue k' → k = k'
  free : ∀ t, (∀ k, t ∉ s.queue k) → s.cells.next (.thread t) = none ∧ s.cells.prev (.thread t) = none

theorem State.IsInit.inv (h : s.IsInit) : Inv s := by
  refine ⟨fun k => ?_, fun k => ⟨(h.head k).2, (h.tail k).1⟩, fun k => ?_, fun k => ?_, ?_, fun t _ => h.thread t⟩
  · rw [h.queue]
    exact List.isChain_pair.mpr ⟨(h.head k).1, (h.tail k).2⟩
  · rw [h.queue, h.count]
    rfl
  · rw [h.queue]
    exact .nil
  · intro k k' t ht
    rw [h.queue] at ht
    cases ht

theorem Inv.linked (h : Inv s) (hq : s.queue k = l ++ r) : s.cells.Linked (before k l) (after k r) := by
  have hchain := h.chain k
  rw [hq, nodes_append] at hchain
  exact (List.isChain_append.mp hchain).2.2 _ before_mem _ after_mem

theorem Inv.splice (h : Inv s) {c : Cells Node} (hchain : (nodes k q).IsChain c.Linked)
    (hends : c.prev (.head k) = none ∧ c.next (.tail k) = none)
    (hsame : ∀ n, n ∉ nodes k (s.queue k) → n ∉ nodes k q → c.next n = s.cells.next n ∧ c.prev n = s.cells.prev n)
    (hnodup : q.Nodup) (hnew : ∀ t ∈ q, t ∈ s.queue k ∨ ∀ k', t ∉ s.queue k')
    (hgone : ∀ t ∈ s.queue k, t ∉ q → c.next (.thread t) = none ∧ c.prev (.thread t) = none) :
    Inv { cells := c, count := Function.update s.count k q.length, queue := Function.update s.queue k q } := by
  have hother {k' : ListId} (hne : k' ≠ k) {n : Node} (hn : n ∈ nodes k' (s.queue k')) :
      c.next n = s.cells.next n ∧ c.prev n = s.cells.prev n := by
    refine hsame n (fun hold => ?_) fun hnow => ?_
    · simp only [mem_nodes] at hn hold
      grind [h.apart]
    · simp only [mem_nodes] at hn hnow
      grind [h.apart]
  have hqueue {k' : ListId} (hne : k' ≠ k) : Function.update s.queue k q k' = s.queue k' :=
    Function.update_of_ne hne _ _
  refine ⟨fun k' => ?_, fun k' => ?_, fun k' => ?_, fun k' => ?_, fun k₁ k₂ t h₁ h₂ => ?_, fun t ht => ?_⟩
  · by_cases hne : k' = k
    · subst hne
      simpa using hchain
    · simp only [hqueue hne]
      exact Cells.isChain_congr (h.chain k') (fun n hn => (hother hne hn).1) fun n hn => (hother hne hn).2
  · by_cases hne : k' = k
    · subst hne
      exact hends
    · refine ⟨((hother hne ?_).2).trans (h.ends k').1, ((hother hne ?_).1).trans (h.ends k').2⟩ <;> simp
  · by_cases hne : k' = k
    · subst hne
      simp
    · simp [hne, h.count]
  · by_cases hne : k' = k
    · subst hne
      simpa using hnodup
    · simpa only [hqueue hne] using h.nodup k'
  · simp only [Function.update_apply] at h₁ h₂
    grind [h.apart]
  · simp only [Function.update_apply] at ht
    by_cases hold : t ∈ s.queue k
    · exact hgone t hold (by simpa using ht k)
    · have hnone : ∀ k', t ∉ s.queue k' := by grind
      have hcells := hsame (.thread t) (by simpa using hold) (by simpa using ht k)
      rw [hcells.1, hcells.2]
      exact h.free t hnone

/-! ## Changing a list -/

theorem Inv.insert (h : Inv s) (hq : s.queue k = l ++ r) (ht : ∀ k', t ∉ s.queue k') :
    Inv {
      cells := s.cells.insert (before k l) (.thread t) (after k r)
      count := Function.update s.count k (s.count k + 1)
      queue := Function.update s.queue k (l ++ t :: r) } := by
  have hlength : s.count k + 1 = (l ++ t :: r).length := by
    rw [h.count, hq]
    simp
    omega
  have hchain := h.chain k
  have hnodup := nodup_nodes (k := k) (h.nodup k)
  have hfresh : Node.thread t ∉ nodes k (s.queue k) := by simpa using ht k
  have hnot := ht k
  rw [hq] at hnot
  rw [hq, nodes_append] at hchain hnodup hfresh
  have hbefore := before_eq (k := k) (l := l)
  have hafter := after_eq (k := k) (r := r)
  rw [hlength]
  refine h.splice ?_ ⟨?_, ?_⟩ (fun n hold hnow => ⟨?_, ?_⟩) ?_ ?_ ?_
  · rw [nodes_append]
    exact Cells.isChain_insert hchain hnodup hfresh before_mem after_mem
  · have hne : Node.head k ≠ after k r := by grind
    simp [Cells.insert, hne, (h.ends k).1]
  · have hne : Node.tail k ≠ before k l := by grind
    simp [Cells.insert, hne, (h.ends k).2]
  · simp only [mem_nodes] at hnow
    have hne : n ≠ before k l ∧ n ≠ .thread t := by grind
    simp only [Cells.insert, Function.update_of_ne hne.1, Function.update_of_ne hne.2]
  · simp only [mem_nodes] at hnow
    have hne : n ≠ after k r ∧ n ≠ .thread t := by grind
    simp only [Cells.insert, Function.update_of_ne hne.1, Function.update_of_ne hne.2]
  · have := h.nodup k
    rw [hq] at this
    grind
  · rw [hq]
    grind
  · rw [hq]
    grind

theorem Inv.remove (h : Inv s) (hq : s.queue k = l ++ t :: r) :
    Inv {
      cells := s.cells.remove (before k l) (.thread t) (after k r)
      count := Function.update s.count k (s.count k - 1)
      queue := Function.update s.queue k (l ++ r) } := by
  have hlength : s.count k - 1 = (l ++ r).length := by
    rw [h.count, hq]
    simp
  have hchain := h.chain k
  have hnodup := h.nodup k
  have hnodes := nodup_nodes (k := k) hnodup
  rw [hq] at hnodup
  rw [hq, nodes_append, List.map_cons, List.cons_append] at hchain hnodes
  have hbefore := before_eq (k := k) (l := l)
  have hafter := after_eq (k := k) (r := r)
  rw [hlength]
  refine h.splice ?_ ⟨?_, ?_⟩ (fun n hold hnow => ⟨?_, ?_⟩) ?_ ?_ ?_
  · rw [nodes_append]
    exact Cells.isChain_remove hchain hnodes before_mem after_mem
  · have hne : Node.head k ≠ after k r := by grind
    simp [Cells.remove, hne, (h.ends k).1]
  · have hne : Node.tail k ≠ before k l := by grind
    simp [Cells.remove, hne, (h.ends k).2]
  · rw [hq] at hold
    simp only [mem_nodes] at hold hnow
    have hne : n ≠ before k l ∧ n ≠ .thread t := by grind
    simp only [Cells.remove, Function.update_of_ne hne.1, Function.update_of_ne hne.2]
  · rw [hq] at hold
    simp only [mem_nodes] at hold hnow
    have hne : n ≠ after k r ∧ n ≠ .thread t := by grind
    simp only [Cells.remove, Function.update_of_ne hne.1, Function.update_of_ne hne.2]
  · grind
  · rw [hq]
    grind
  · rw [hq]
    intro t' hold hnow
    obtain rfl : t' = t := by grind
    simp [Cells.remove]

/-! ## The functions -/

@[simp] theorem next_apply (n : Node) (s : State) : next n s = .ok (s.cells.next n) s := rfl

@[simp] theorem prev_apply (n : Node) (s : State) : prev n s = .ok (s.cells.prev n) s := rfl

@[simp] theorem deref_some (n : Node) (s : State) : deref (some n) s = .ok n s := rfl

theorem insertafternode_ok (hab : s.cells.next a = some b) (ha : a ≠ .thread t) :
    insertafternode a t s = .ok () { s with cells := s.cells.insert a (.thread t) b } := by
  simp [insertafternode, setPrev, setNext, bind_apply, hab, ha.symm, Cells.insert]

theorem insertbeforenode_ok (hab : s.cells.prev b = some a) (ha : a ≠ .thread t) :
    insertbeforenode t b s = .ok () { s with cells := s.cells.insert a (.thread t) b } := by
  simp [insertbeforenode, setPrev, setNext, bind_apply, hab, ha.symm, Cells.insert]

theorem removenode_ok (ha : s.cells.prev (.thread t) = some a) (hb : s.cells.next (.thread t) = some b)
    (hne : a ≠ .thread t) :
    removenode (.thread t) s = .ok () { s with cells := s.cells.remove a (.thread t) b } := by
  simp [removenode, setPrev, setNext, bind_apply, ha, hb, hne.symm, Cells.remove]

theorem Inv.add (h : Inv s) (hq : s.queue k = l ++ r) (ht : ∀ k', t ∉ s.queue k') {x : T Unit}
    (hx : x = (do insertafternode (before k l) t; addCount k (· + 1)) ∨
      x = (do insertbeforenode t (after k r); addCount k (· + 1))) :
    ∃ u, x s = .ok () u ∧ u.queue = s.queue ∧ Inv { u with queue := Function.update s.queue k (l ++ t :: r) } := by
  have hlinked := h.linked hq
  have hne : before k l ≠ .thread t := by
    have hbefore := before_eq (k := k) (l := l)
    have hnot := ht k
    grind
  let u : State :=
    { s with
      cells := s.cells.insert (before k l) (.thread t) (after k r)
      count := Function.update s.count k (s.count k + 1) }
  refine ⟨u, ?_, rfl, h.insert hq ht⟩
  rcases hx with rfl | rfl
  · exact bind_ok (insertafternode_ok hlinked.1 hne)
  · exact bind_ok (insertbeforenode_ok hlinked.2 hne)

theorem Inv.take (h : Inv s) (hq : s.queue k = l ++ t :: r) :
    ∃ u, threadlistRemove k t s = .ok () u ∧ u.queue = s.queue ∧
      Inv { u with queue := Function.update s.queue k (l ++ r) } := by
  have hfront := h.linked (l := l) (r := t :: r) hq
  have hback := h.linked (l := l ++ [t]) (r := r) (by simpa using hq)
  have hne : before k l ≠ .thread t := by
    have hbefore := before_eq (k := k) (l := l)
    have hnodup := h.nodup k
    rw [hq] at hnodup
    grind
  have hself : before k (l ++ [t]) = .thread t := by simp [before]
  rw [hself] at hback
  let u : State :=
    { s with
      cells := s.cells.remove (before k l) (.thread t) (after k r)
      count := Function.update s.count k (s.count k - 1) }
  exact ⟨u, bind_ok (removenode_ok hfront.2 hback.1 hne), rfl, h.remove hq⟩

theorem Inv.remhead (h : Inv s) (k : ListId) :
    ∃ u, threadlistRemhead k s = .ok (s.queue k).head? u ∧ u.queue = s.queue ∧
      Inv { u with queue := Function.update s.queue k (s.queue k).tail } := by
  cases hq : s.queue k with
  | nil =>
    have hnext : s.cells.next (.head k) = some (.tail k) := (h.linked (l := []) (r := []) hq).1
    refine ⟨s, ?_, rfl, ?_⟩
    · simp [threadlistRemhead, bind_apply, hnext, (h.ends k).2]
    · rwa [List.tail_nil, ← hq, Function.update_eq_self]
  | cons t l =>
    have hnext : s.cells.next (.head k) = some (.thread t) := (h.linked (l := []) hq).1
    have hmore : s.cells.next (.thread t) = some (after k l) := (h.linked (l := [t]) hq).1
    obtain ⟨u, hrun, hqueue, hinv⟩ := h.take (l := []) hq
    refine ⟨u, ?_, hqueue, hinv⟩
    have hsteps : threadlistRemhead k s = (do threadlistRemove k t; return some t : T (Option ThreadId)) s := by
      simp only [threadlistRemhead, threadlistRemove, bind_apply, next_apply, hnext, hmore, deref_some,
        reduceCtorEq, if_false]
      cases removenode (.thread t) s <;> rfl
    rw [hsteps]
    exact bind_ok hrun

theorem Inv.remtail (h : Inv s) (k : ListId) :
    ∃ u, threadlistRemtail k s = .ok (s.queue k).getLast? u ∧ u.queue = s.queue ∧
      Inv { u with queue := Function.update s.queue k (s.queue k).dropLast } := by
  rcases List.eq_nil_or_concat' (s.queue k) with hq | ⟨l, t, hq⟩
  · have hprev : s.cells.prev (.tail k) = some (.head k) := (h.linked (l := []) (r := []) hq).2
    refine ⟨s, ?_, rfl, ?_⟩
    · simp [threadlistRemtail, bind_apply, hprev, (h.ends k).1, hq]
    · rwa [hq, List.dropLast_nil, ← hq, Function.update_eq_self]
  · have hlast := (h.linked (l := l ++ [t]) (r := []) (by rw [hq, List.append_nil])).2
    have hself : before k (l ++ [t]) = .thread t := by simp [before]
    rw [hself] at hlast
    have hprev : s.cells.prev (.tail k) = some (.thread t) := hlast
    have hmore : s.cells.prev (.thread t) = some (before k l) := (h.linked hq).2
    obtain ⟨u, hrun, hqueue, hinv⟩ := h.take hq
    refine ⟨u, ?_, hqueue, by simpa [hq] using hinv⟩
    have hsteps : threadlistRemtail k s = (do threadlistRemove k t; return some t : T (Option ThreadId)) s := by
      simp only [threadlistRemtail, threadlistRemove, bind_apply, prev_apply, hprev, hmore, deref_some,
        reduceCtorEq, if_false]
      cases removenode (.thread t) s <;> rfl
    rw [hsteps, hq, List.getLast?_concat]
    exact bind_ok hrun

theorem insertIdx_length_append (l r : List ThreadId) (t : ThreadId) :
    (l ++ r).insertIdx l.length t = l ++ t :: r := by
  induction l with
  | nil => rfl
  | cons a l ih => exact congrArg (a :: ·) ih

theorem Inv.call (h : Inv s) {op : Op} (hop : op.Allowed s) :
    ∃ u, op.call s = .ok (op.answer (s.queue op.list)) u ∧ u.queue = s.queue ∧
      Inv { u with queue := Function.update s.queue op.list (op.abstract (s.queue op.list)) } := by
  cases op with
  | addhead k t =>
    obtain ⟨u, hrun, hqueue, hinv⟩ := h.add (k := k) (List.nil_append _).symm hop (.inl rfl)
    exact ⟨u, bind_ok hrun, hqueue, hinv⟩
  | addtail k t =>
    obtain ⟨u, hrun, hqueue, hinv⟩ := h.add (k := k) (List.append_nil _).symm hop (.inr rfl)
    exact ⟨u, bind_ok hrun, hqueue, hinv⟩
  | remhead k => exact h.remhead k
  | remtail k => exact h.remtail k
  | insertafter k onlist addee =>
    obtain ⟨l, r, hq, hnot⟩ := List.eq_append_cons_of_mem hop.1
    have hplace : s.queue k = (l ++ [onlist]) ++ r := by simpa using hq
    have hindex : (s.queue k).idxOf onlist + 1 = (l ++ [onlist]).length := by simp [hq, List.idxOf_append, hnot]
    have hself : before k (l ++ [onlist]) = .thread onlist := by simp [before]
    obtain ⟨u, hrun, hqueue, hinv⟩ := h.add hplace hop.2 (.inl rfl)
    rw [hself] at hrun
    refine ⟨u, bind_ok hrun, hqueue, ?_⟩
    rwa [Op.abstract, Op.list, hindex, hplace, insertIdx_length_append]
  | insertbefore k addee onlist =>
    obtain ⟨l, r, hq, hnot⟩ := List.eq_append_cons_of_mem hop.1
    have hindex : (s.queue k).idxOf onlist = l.length := by simp [hq, List.idxOf_append, hnot]
    obtain ⟨u, hrun, hqueue, hinv⟩ := h.add hq hop.2 (.inr rfl)
    refine ⟨u, bind_ok hrun, hqueue, ?_⟩
    rwa [Op.abstract, Op.list, hindex, hq, insertIdx_length_append]
  | remove k t =>
    obtain ⟨l, r, hq, hnot⟩ := List.eq_append_cons_of_mem hop
    obtain ⟨u, hrun, hqueue, hinv⟩ := h.take hq
    refine ⟨u, bind_ok hrun, hqueue, ?_⟩
    rwa [Op.abstract, Op.list, hq, List.erase_append_right _ hnot, List.erase_cons_head]

/-- The cells of a state are those of its deques: forwards from the one end, backwards from the other. -/
structure Faithful (s : State) : Prop where
  forwards : ∀ k n, s.count k < n → Cells.follow s.cells.next n (.head k) = (s.queue k).map .thread ++ [.tail k]
  backwards : ∀ k n, s.count k < n →
    Cells.follow s.cells.prev n (.tail k) = (s.queue k).reverse.map .thread ++ [.head k]
  count : ∀ k, s.count k = (s.queue k).length
  free : ∀ t, (∀ k, t ∉ s.queue k) → s.cells.next (.thread t) = none ∧ s.cells.prev (.thread t) = none

theorem Inv.faithful (h : Inv s) : Faithful s := by
  refine ⟨fun k n hn => ?_, fun k n hn => ?_, h.count, h.free⟩
  · rw [h.count] at hn
    refine Cells.follow_eq ((h.chain k).imp fun _ _ hab => hab.1) ?_ (by simp; omega)
    simpa using (h.ends k).2
  · rw [h.count] at hn
    have hchain := List.isChain_reverse.mpr ((h.chain k).imp fun _ _ hab => hab.2)
    have hnodes : (nodes k (s.queue k)).reverse = .tail k :: ((s.queue k).reverse.map .thread ++ [.head k]) := by
      simp [nodes]
    rw [hnodes] at hchain
    refine Cells.follow_eq hchain ?_ (by simp; omega)
    simpa using (h.ends k).1

/-- In every run of calls that add threads on no list and remove threads, or add next to threads, that are on the
list, the lists are the deques, and every call runs through and answers as on a deque. -/
theorem thread_lists_are_deques {s u : State} (hs : s.IsInit) (hu : Reach Op.exec Op.Allowed s u) :
    Faithful u ∧ ∀ op : Op, op.Allowed u → ∃ v, op.call u = .ok (op.answer (u.queue op.list)) v := by
  have hinv : Inv u := by
    refine Reach.invariant_ok hs.inv (fun v op w hv hop hw => ?_) hu
    obtain ⟨v', hrun, hqueue, hinv'⟩ := hv.call hop
    have hexec : op.exec v = .ok ()
        { v' with queue := Function.update v'.queue op.list (op.abstract (v'.queue op.list)) } := bind_ok hrun
    rw [hexec, hqueue] at hw
    cases hw
    exact hinv'
  refine ⟨hinv.faithful, fun op hop => ?_⟩
  obtain ⟨v, hrun, -⟩ := hinv.call hop
  exact ⟨v, hrun⟩

/-- All lists are empty. -/
def noThreads : State where
  cells :=
    { next := fun n => match n with
        | .head k => some (.tail k)
        | _ => none
      prev := fun n => match n with
        | .tail k => some (.head k)
        | _ => none }
  count := fun _ => 0
  queue := fun _ => []

/-- Two threads, and a third one in between. -/
theorem three_threads_queued :
    ∃ u, Reach Op.exec Op.Allowed noThreads u ∧ u.queue 0 = [6, 7, 5] ∧ Faithful u := by
  have hstart : Reach Op.exec Op.Allowed noThreads noThreads := .refl
  have h₁ := hstart.next (.addtail 0 5) (fun _ => List.not_mem_nil) rfl
  have h₂ := h₁.next (.addhead 0 6) (fun k => by cases k <;> first | decide | exact List.not_mem_nil) rfl
  have h₃ := h₂.next (.insertafter 0 6 7)
    ⟨by decide, fun k => by cases k <;> first | decide | exact List.not_mem_nil⟩ rfl
  exact ⟨_, h₃, rfl, (thread_lists_are_deques
    ⟨fun _ => ⟨rfl, rfl⟩, fun _ => ⟨rfl, rfl⟩, fun _ => ⟨rfl, rfl⟩, fun _ => rfl, fun _ => rfl⟩ h₃).1⟩

end Os161.Threadlist
