import Mathlib.Data.List.Induction
import Mathlib.Data.List.Nodup
import Mathlib.Logic.Function.Basic

/-!
# Doubly linked lists in a heap

Nodes are named by numbers, and a null link is `none`.  Access to a node that is not in the
heap has no result.  The second link of a node may be lost: in a segment it is null or points
to the node before.
-/

namespace MiniBackend.Lib.LinkedHeap

abbrev Link := Option Nat

@[ext]
structure Node (α : Type) where
  data : α
  next : Link
  prev : Link
deriving DecidableEq

abbrev Heap (α : Type) := Nat → Option (Node α)

variable {α : Type}

/-! ## Operations -/

def modifyNode (heap : Heap α) (p : Nat) (f : Node α → Node α) : Option (Heap α) :=
  match heap p with
  | none => none
  | some node => some (Function.update heap p (some (f node)))

def setNext (heap : Heap α) (p x : Link) : Option (Heap α) :=
  match p with
  | none => some heap
  | some p => modifyNode heap p fun node => { node with next := x }

def setPrev (heap : Heap α) (p x : Link) : Option (Heap α) :=
  match p with
  | none => some heap
  | some p => modifyNode heap p fun node => { node with prev := x }

/-- Take a node out from between its neighbours. -/
def unlink (heap : Heap α) (p : Nat) : Option (Heap α) := do
  let node ← heap p
  let heap ← setNext heap node.prev node.next
  let node ← heap p
  setPrev heap node.next node.prev

def linkFront (heap : Heap α) (p : Nat) (head : Link) : Option (Heap α) := do
  let heap ← modifyNode heap p fun node => { node with next := head, prev := none }
  setPrev heap head (some p)

/-- Walk from `cur` to the first node that is wanted, and return it with the node before it.
A walk over more nodes than `fuel` has no result. -/
def search (heap : Heap α) (wanted : Nat → α → Bool) :
    Nat → Link → Link → Option (Option (Link × Nat))
  | _, _, none => some none
  | 0, _, some _ => none
  | fuel + 1, before, some p =>
      match heap p with
      | none => none
      | some node =>
          if wanted p node.data then some (some (before, p))
          else search heap wanted fuel (some p) node.next

theorem modifyNode_some {heap heap' : Heap α} {p : Nat}
    {f : Node α → Node α} (h : modifyNode heap p f = some heap') :
    ∃ node, heap p = some node ∧ heap' = Function.update heap p (some (f node)) := by
  unfold modifyNode at h
  cases hp : heap p with
  | none => simp [hp] at h
  | some node =>
      simp only [hp, Option.some.injEq] at h
      exact ⟨node, rfl, h.symm⟩

/-! ## Data

Links are written without a change of the data. -/

def dataAt (heap : Heap α) (p : Nat) : Option α := (heap p).map Node.data

theorem dataAt_update_self (heap : Heap α) (p : Nat) (node : Option (Node α)) :
    dataAt (Function.update heap p node) p = node.map Node.data :=
  congrArg (Option.map Node.data) (Function.update_self ..)

theorem dataAt_update_of_ne {p q : Nat} (hq : q ≠ p) (heap : Heap α) (node : Option (Node α)) :
    dataAt (Function.update heap p node) q = dataAt heap q :=
  congrArg (Option.map Node.data) (Function.update_of_ne hq node heap)

theorem modifyNode_dataAt {heap heap' : Heap α} {p : Nat} {f : Node α → Node α}
    (hf : ∀ node, (f node).data = node.data) (h : modifyNode heap p f = some heap') :
    dataAt heap' = dataAt heap := by
  obtain ⟨node, hp, rfl⟩ := modifyNode_some h
  funext q
  by_cases hq : q = p
  · subst hq
    simp [dataAt, hp, hf]
  · exact dataAt_update_of_ne hq heap _

theorem setNext_dataAt {heap heap' : Heap α} {p x : Link} (h : setNext heap p x = some heap') :
    dataAt heap' = dataAt heap := by
  cases p with
  | none =>
      cases h
      rfl
  | some p =>
      apply modifyNode_dataAt _ h
      intro node
      rfl

theorem setPrev_dataAt {heap heap' : Heap α} {p x : Link} (h : setPrev heap p x = some heap') :
    dataAt heap' = dataAt heap := by
  cases p with
  | none =>
      cases h
      rfl
  | some p =>
      apply modifyNode_dataAt _ h
      intro node
      rfl

theorem unlink_dataAt {heap heap' : Heap α} {p : Nat} (h : unlink heap p = some heap') :
    dataAt heap' = dataAt heap := by
  simp only [unlink, Option.bind_eq_bind, Option.bind_eq_some_iff] at h
  obtain ⟨node, _, mid, hnext, node', _, hprev⟩ := h
  calc
    dataAt heap' = dataAt mid := setPrev_dataAt hprev
    _ = dataAt heap := setNext_dataAt hnext

theorem linkFront_dataAt {heap heap' : Heap α} {p : Nat} {head : Link}
    (h : linkFront heap p head = some heap') : dataAt heap' = dataAt heap := by
  simp only [linkFront, Option.bind_eq_bind, Option.bind_eq_some_iff] at h
  obtain ⟨mid, hmodify, hprev⟩ := h
  calc
    dataAt heap' = dataAt mid := setPrev_dataAt hprev
    _ = dataAt heap := by
      apply modifyNode_dataAt _ hmodify
      intro node
      rfl

theorem setNext_isSome {heap : Heap α} {p : Link} (hp : ∀ q, p = some q → dataAt heap q ≠ none)
    (x : Link) : ∃ heap', setNext heap p x = some heap' := by
  cases p with
  | none => exact ⟨heap, rfl⟩
  | some q =>
      have hq := hp q rfl
      cases hnode : heap q with
      | none => simp [dataAt, hnode] at hq
      | some node => simp [setNext, modifyNode, hnode]

theorem setPrev_isSome {heap : Heap α} {p : Link} (hp : ∀ q, p = some q → dataAt heap q ≠ none)
    (x : Link) : ∃ heap', setPrev heap p x = some heap' := by
  cases p with
  | none => exact ⟨heap, rfl⟩
  | some q =>
      have hq := hp q rfl
      cases hnode : heap q with
      | none => simp [dataAt, hnode] at hq
      | some node => simp [setPrev, modifyNode, hnode]

theorem unlink_isSome {heap : Heap α} {p : Nat} {node : Node α} (hp : heap p = some node)
    (hprev : ∀ q, node.prev = some q → dataAt heap q ≠ none)
    (hnext : ∀ q, node.next = some q → dataAt heap q ≠ none) :
    ∃ heap', unlink heap p = some heap' := by
  obtain ⟨mid, hmid⟩ := setNext_isSome hprev node.next
  have hdata := setNext_dataAt hmid
  -- the links of the node are the same when they are read again
  have hlinks : ∃ node', mid p = some node' ∧ node'.next = node.next := by
    cases hq : node.prev with
    | none =>
        rw [hq] at hmid
        cases hmid
        exact ⟨node, hp, rfl⟩
    | some q =>
        rw [hq] at hmid
        simp only [setNext, modifyNode] at hmid
        cases hnode : heap q with
        | none => simp [hnode] at hmid
        | some before =>
            simp only [hnode, Option.some.injEq] at hmid
            rw [← hmid]
            by_cases heq : p = q
            · subst heq
              exact ⟨{ before with next := node.next }, Function.update_self .., rfl⟩
            · exact ⟨node, by rw [Function.update_of_ne heq, hp], rfl⟩
  obtain ⟨node', hnode', hsame⟩ := hlinks
  have hnext' : ∀ q, node'.next = some q → dataAt mid q ≠ none := by
    rw [hdata, hsame]
    exact hnext
  obtain ⟨heap', hheap'⟩ := setPrev_isSome hnext' node'.prev
  exact ⟨heap', by simp [unlink, hp, hmid, hnode', hheap']⟩

theorem linkFront_isSome {heap : Heap α} {p : Nat} {head : Link} (hp : dataAt heap p ≠ none)
    (hhead : ∀ q, head = some q → dataAt heap q ≠ none) :
    ∃ heap', linkFront heap p head = some heap' := by
  cases hnode : heap p with
  | none => simp [dataAt, hnode] at hp
  | some node =>
      obtain ⟨mid, hmid⟩ : ∃ mid, modifyNode heap p
          (fun node => { node with next := head, prev := none }) = some mid := by
        simp [modifyNode, hnode]
      have hdata : dataAt mid = dataAt heap := by
        apply modifyNode_dataAt _ hmid
        intro node
        rfl
      rw [← hdata] at hhead
      obtain ⟨heap', hheap'⟩ := setPrev_isSome hhead (some p)
      exact ⟨heap', by simp [linkFront, hmid, hheap']⟩

theorem search_wanted {heap : Heap α} {wanted : Nat → α → Bool} {fuel : Nat}
    {before cur r : Link} {p : Nat}
    (h : search heap wanted fuel before cur = some (some (r, p))) :
    ∃ a, dataAt heap p = some a ∧ wanted p a = true := by
  induction fuel generalizing before cur with
  | zero =>
      cases cur with
      | none => simp [search] at h
      | some q => simp [search] at h
  | succ fuel ih =>
      cases cur with
      | none => simp [search] at h
      | some q =>
          rw [search] at h
          cases hq : heap q with
          | none => simp [hq] at h
          | some node =>
              simp only [hq] at h
              by_cases hw : wanted q node.data = true
              · simp only [hw, if_true, Option.some.injEq, Prod.mk.injEq] at h
                refine ⟨node.data, ?_, ?_⟩
                · rw [← h.2, dataAt, hq]
                  rfl
                · rw [← h.2]
                  exact hw
              · rw [if_neg hw] at h
                exact ih h

/-! ## Segments -/

/-- The first pointer of a list of nodes that continues with `after`. -/
def firstOr (l : List (Nat × α)) (after : Link) : Link :=
  match l with
  | [] => after
  | x :: _ => some x.1

/-- The last pointer of a list of nodes that comes after `before`. -/
def lastOr (before : Link) : List (Nat × α) → Link
  | [] => before
  | x :: l => lastOr (some x.1) l

/-- The nodes of `l` are linked in this order, between `before` and `after`. -/
def Segment (heap : Heap α) : Link → List (Nat × α) → Link → Prop
  | _, [], _ => True
  | before, x :: l, after =>
      (∃ prev, heap x.1 = some ⟨x.2, firstOr l after, prev⟩ ∧ (prev = none ∨ prev = before)) ∧
        Segment heap (some x.1) l after

def ids (l : List (Nat × α)) : List Nat := l.map Prod.fst

@[simp] theorem ids_nil : ids ([] : List (Nat × α)) = [] := rfl

@[simp] theorem ids_cons (x : Nat × α) (l : List (Nat × α)) : ids (x :: l) = x.1 :: ids l := rfl

@[simp] theorem ids_append (l m : List (Nat × α)) : ids (l ++ m) = ids l ++ ids m :=
  List.map_append

theorem mem_ids_of_mem {x : Nat × α} {l : List (Nat × α)} (h : x ∈ l) : x.1 ∈ ids l :=
  List.mem_map_of_mem h

@[simp] theorem firstOr_append (l m : List (Nat × α)) (after : Link) :
    firstOr (l ++ m) after = firstOr l (firstOr m after) := by
  cases l <;> rfl

@[simp] theorem lastOr_append (before : Link) (l m : List (Nat × α)) :
    lastOr before (l ++ m) = lastOr (lastOr before l) m := by
  induction l generalizing before with
  | nil => rfl
  | cons x l ih => exact ih (some x.1)

theorem lastOr_mem {before : Link} {l : List (Nat × α)} {p : Nat} (hl : l ≠ [])
    (h : lastOr before l = some p) : p ∈ ids l := by
  induction l generalizing before with
  | nil => contradiction
  | cons x l ih =>
      cases l with
      | nil =>
          cases h
          simp
      | cons y l =>
          have hrest : lastOr (some x.1) (y :: l) = some p := h
          exact List.mem_cons_of_mem _ (ih (List.cons_ne_nil y l) hrest)

theorem lastOr_cons_ne_none (before : Link) (x : Nat × α) (l : List (Nat × α)) :
    lastOr before (x :: l) ≠ none := by
  induction l generalizing before x with
  | nil => exact Option.some_ne_none _
  | cons y l ih => exact ih (some x.1) y

theorem segment_append {heap : Heap α} {before after : Link} {l m : List (Nat × α)} :
    Segment heap before (l ++ m) after ↔
      Segment heap before l (firstOr m after) ∧ Segment heap (lastOr before l) m after := by
  induction l generalizing before with
  | nil => simp [Segment, lastOr]
  | cons x l ih =>
      rw [List.cons_append, Segment, Segment, firstOr_append, lastOr, ih, and_assoc]

theorem Segment.congr {heap heap' : Heap α} {before after : Link} {l : List (Nat × α)}
    (hsame : ∀ p ∈ ids l, heap' p = heap p) (h : Segment heap before l after) :
    Segment heap' before l after := by
  induction l generalizing before with
  | nil => trivial
  | cons x l ih =>
      rw [ids_cons] at hsame
      rw [Segment, hsame x.1 List.mem_cons_self]
      exact ⟨h.1, ih (fun p hp => hsame p (List.mem_cons_of_mem _ hp)) h.2⟩

theorem Segment.before {heap : Heap α} {before before' after : Link} {l : List (Nat × α)}
    (hbefore : before = none ∨ before = before') (h : Segment heap before l after) :
    Segment heap before' l after := by
  cases l with
  | nil => trivial
  | cons x l =>
      obtain ⟨⟨prev, hx, hprev⟩, hl⟩ := h
      refine ⟨⟨prev, hx, ?_⟩, hl⟩
      rcases hprev with hnone | heq
      · exact Or.inl hnone
      · rw [heq]
        exact hbefore

theorem Segment.dataAt_of_mem {heap : Heap α} {before after : Link} {l : List (Nat × α)}
    (h : Segment heap before l after) {x : Nat × α} (hx : x ∈ l) :
    dataAt heap x.1 = some x.2 := by
  induction l generalizing before with
  | nil => contradiction
  | cons y l ih =>
      rcases List.mem_cons.mp hx with rfl | hmem
      · obtain ⟨⟨prev, hy, _⟩, _⟩ := h
        rw [dataAt, hy]
        rfl
      · exact ih h.2 hmem

theorem Segment.update {heap : Heap α} {before after : Link} {l m : List (Nat × α)} {p : Nat}
    {a a' : α} {node node' : Node α} (h : Segment heap before (l ++ (p, a) :: m) after)
    (hnodup : (ids (l ++ (p, a) :: m)).Nodup) (hp : heap p = some node)
    (hdata : node'.data = a') (hnext : node'.next = node.next)
    (hprev : node'.prev = none ∨ node'.prev = node.prev) :
    Segment (Function.update heap p (some node')) before (l ++ (p, a') :: m) after := by
  simp only [ids_append, ids_cons] at hnodup
  have hparts := List.nodup_append.mp hnodup
  have hcons := List.nodup_cons.mp hparts.2.1
  obtain ⟨hl, ⟨⟨prev, hnode, hback⟩, hm⟩⟩ := segment_append.mp h
  have heq : node = ⟨a, firstOr m after, prev⟩ := Option.some.inj (hp.symm.trans hnode)
  have hframe : ∀ q, q ≠ p → Function.update heap p (some node') q = heap q :=
    fun q hq => Function.update_of_ne hq _ _
  apply segment_append.mpr
  refine ⟨?_, ⟨node'.prev, ?_, ?_⟩, ?_⟩
  · apply Segment.congr _ hl
    intro q hq
    exact hframe q (hparts.2.2 q hq p List.mem_cons_self)
  · have hforward : firstOr m after = node'.next := by rw [hnext, heq]
    rw [Function.update_self, hforward, ← hdata]
  · rcases hprev with hnone | hsame
    · exact Or.inl hnone
    · rw [hsame, heq]
      exact hback
  · apply Segment.congr _ hm
    intro q hq
    exact hframe q (fun heq => hcons.1 (heq ▸ hq))

theorem mem_ids_split {l : List (Nat × α)} {p : Nat} (h : p ∈ ids l) :
    ∃ m a n, l = m ++ (p, a) :: n := by
  obtain ⟨x, hx, rfl⟩ := List.mem_map.mp h
  obtain ⟨m, n, hl⟩ := List.append_of_mem hx
  exact ⟨m, x.2, n, hl⟩

theorem Segment.clearPrev {heap : Heap α} {before after q : Link} {l : List (Nat × α)}
    (h : Segment heap before l after) (hnodup : (ids l).Nodup)
    (hq : ∀ p, q = some p → p ∈ ids l) :
    ∃ heap', setPrev heap q none = some heap' ∧ Segment heap' before l after ∧
      ∀ r, r ∉ ids l → heap' r = heap r := by
  cases q with
  | none => exact ⟨heap, rfl, h, fun r _ => rfl⟩
  | some p =>
      have hp := hq p rfl
      obtain ⟨m, a, n, rfl⟩ := mem_ids_split hp
      obtain ⟨_, ⟨⟨prev, hnode, _⟩, _⟩⟩ := segment_append.mp h
      refine ⟨Function.update heap p (some ⟨a, firstOr n after, none⟩), ?_, ?_, ?_⟩
      · simp [setPrev, modifyNode, hnode]
      · exact h.update hnodup hnode rfl rfl (Or.inl rfl)
      · intro r hr
        apply Function.update_of_ne
        intro heq
        exact hr (heq ▸ hp)

/-- Writing the last node's forward link sends the segment elsewhere. -/
theorem Segment.setNext_last {heap : Heap α} {before after : Link} {l : List (Nat × α)}
    (h : Segment heap before l after) (hnodup : (ids l).Nodup) (after' : Link) :
    ∃ heap', setNext heap (lastOr none l) after' = some heap' ∧
      Segment heap' before l after' ∧ ∀ q, some q ≠ lastOr none l → heap' q = heap q := by
  induction l using List.reverseRecOn with
  | nil => exact ⟨heap, rfl, trivial, fun q _ => rfl⟩
  | append_singleton l x _ =>
      obtain ⟨hl, hx⟩ := segment_append.mp h
      obtain ⟨⟨prev, hnode, hprev⟩, _⟩ := hx
      have hlast : lastOr none (l ++ [x]) = some x.1 := by
        rw [lastOr_append]
        rfl
      rw [ids_append, List.nodup_append] at hnodup
      have hnot : ∀ q ∈ ids l, q ≠ x.1 := fun q hq => hnodup.2.2 q hq x.1 List.mem_cons_self
      refine ⟨Function.update heap x.1 (some ⟨x.2, after', prev⟩), ?_, ?_, ?_⟩
      · rw [hlast]
        simp [setNext, modifyNode, hnode]
      · apply segment_append.mpr
        refine ⟨?_, ⟨prev, ?_, hprev⟩, trivial⟩
        · apply Segment.congr _ hl
          intro q hq
          exact Function.update_of_ne (hnot q hq) _ _
        · exact Function.update_self ..
      · intro q hq
        rw [hlast] at hq
        exact Function.update_of_ne (fun heq => hq (congrArg some heq)) _ _

/-- Writing the first node's link back changes what comes before the segment. -/
theorem Segment.setPrev_first {heap : Heap α} {before after : Link} {l : List (Nat × α)}
    (h : Segment heap before l after) (hnodup : (ids l).Nodup) (before' : Link) :
    ∃ heap', setPrev heap (firstOr l none) before' = some heap' ∧
      Segment heap' before' l after ∧ ∀ q, some q ≠ firstOr l none → heap' q = heap q := by
  cases l with
  | nil => exact ⟨heap, rfl, trivial, fun q _ => rfl⟩
  | cons x l =>
      obtain ⟨⟨prev, hnode, _⟩, hl⟩ := h
      rw [ids_cons, List.nodup_cons] at hnodup
      refine ⟨Function.update heap x.1 (some ⟨x.2, firstOr l after, before'⟩), ?_, ?_, ?_⟩
      · simp [setPrev, modifyNode, firstOr, hnode]
      · refine ⟨⟨before', Function.update_self .., Or.inr rfl⟩, ?_⟩
        apply Segment.congr _ hl
        intro q hq
        apply Function.update_of_ne
        intro heq
        exact hnodup.1 (heq ▸ hq)
      · intro q hq
        exact Function.update_of_ne (fun heq => hq (congrArg some heq)) _ _

theorem lastOr_none_mem {l : List (Nat × α)} {p : Nat} (h : lastOr none l = some p) :
    p ∈ ids l := by
  apply lastOr_mem _ h
  intro hl
  subst hl
  contradiction

theorem firstOr_none_mem {l : List (Nat × α)} {p : Nat} (h : firstOr l none = some p) :
    p ∈ ids l := by
  cases l with
  | nil => contradiction
  | cons x l =>
      cases h
      exact List.mem_cons_self

/-- A node is taken out of a list when its link back is intact, or when the node before it
already skips it. -/
theorem Segment.unlink {heap : Heap α} {l m : List (Nat × α)} {p : Nat} {a : α}
    {after prev : Link} (hl : Segment heap none l after)
    (hp : heap p = some ⟨a, firstOr m none, prev⟩) (hm : Segment heap (some p) m none)
    (hnodup : (ids (l ++ (p, a) :: m)).Nodup)
    (hprev : prev = lastOr none l ∨ (prev = none ∧ after = firstOr m none)) :
    ∃ heap', LinkedHeap.unlink heap p = some heap' ∧ Segment heap' none (l ++ m) none ∧
      heap' p = heap p ∧ ∀ q, q ∉ ids (l ++ m) → heap' q = heap q := by
  simp only [ids_append, ids_cons] at hnodup
  have hparts := List.nodup_append.mp hnodup
  have hcons := List.nodup_cons.mp hparts.2.1
  have hpl : p ∉ ids l := fun hmem => hparts.2.2 p hmem p List.mem_cons_self rfl
  have hdisjoint : ∀ q ∈ ids l, q ∉ ids m := fun q hq hqm =>
    hparts.2.2 q hq q (List.mem_cons_of_mem _ hqm) rfl
  -- the node before, if there is one, now leads to `m`
  have hfirst : ∃ mid, setNext heap prev (firstOr m none) = some mid ∧
      Segment mid none l (firstOr m none) ∧ ∀ q, q ∉ ids l → mid q = heap q := by
    rcases hprev with heq | ⟨hnone, hskip⟩
    · obtain ⟨mid, hset, hseg, hframe⟩ := hl.setNext_last hparts.1 (firstOr m none)
      refine ⟨mid, by rw [heq, hset], hseg, ?_⟩
      intro q hq
      apply hframe
      intro hlast
      exact hq (lastOr_none_mem hlast.symm)
    · rw [hnone]
      exact ⟨heap, rfl, hskip ▸ hl, fun q _ => rfl⟩
  obtain ⟨mid, hset, hlmid, hframe⟩ := hfirst
  have hmmid : Segment mid (some p) m none := by
    apply Segment.congr _ hm
    intro q hq
    exact hframe q fun hql => hdisjoint q hql hq
  have hpmid : mid p = some ⟨a, firstOr m none, prev⟩ := by
    rw [hframe p hpl, hp]
  obtain ⟨heap', hset', hm', hframe'⟩ := hmmid.setPrev_first hcons.2 prev
  have hout : ∀ q, q ∉ ids m → heap' q = mid q := by
    intro q hq
    apply hframe'
    intro hq'
    exact hq (firstOr_none_mem hq'.symm)
  refine ⟨heap', ?_, ?_, ?_, ?_⟩
  · simp [LinkedHeap.unlink, hp, hset, hpmid, hset']
  · apply segment_append.mpr
    refine ⟨?_, ?_⟩
    · apply Segment.congr _ hlmid
      intro q hq
      exact hout q (hdisjoint q hq)
    · apply Segment.before _ hm'
      rcases hprev with heq | hlost
      · exact Or.inr heq
      · exact Or.inl hlost.1
  · rw [hout p hcons.1, hframe p hpl]
  · intro q hq
    rw [ids_append, List.mem_append, not_or] at hq
    rw [hout q hq.2, hframe q hq.1]

theorem Segment.linkFront {heap : Heap α} {l : List (Nat × α)} {p : Nat} {node : Node α}
    (hl : Segment heap none l none) (hp : heap p = some node) (hnot : p ∉ ids l)
    (hnodup : (ids l).Nodup) :
    ∃ heap', LinkedHeap.linkFront heap p (firstOr l none) = some heap' ∧
      Segment heap' none ((p, node.data) :: l) none := by
  let mid := Function.update heap p (some ⟨node.data, firstOr l none, none⟩)
  have hmodify : modifyNode heap p
      (fun node => { node with next := firstOr l none, prev := none }) = some mid := by
    simp [modifyNode, hp, mid]
  have hlmid : Segment mid none l none := by
    apply Segment.congr _ hl
    intro q hq
    apply Function.update_of_ne
    intro heq
    exact hnot (heq ▸ hq)
  obtain ⟨heap', hset, hl', hframe⟩ := hlmid.setPrev_first hnodup (some p)
  refine ⟨heap', ?_, ⟨none, ?_, Or.inl rfl⟩, hl'⟩
  · simp [LinkedHeap.linkFront, hmodify, hset]
  · rw [hframe p]
    · exact Function.update_self ..
    · intro hfirst
      exact hnot (firstOr_none_mem hfirst.symm)

/-- A node becomes the first node of its list when its link back is intact. -/
theorem Segment.moveFront {heap : Heap α} {l m : List (Nat × α)} {p : Nat} {a : α}
    (h : Segment heap none (l ++ (p, a) :: m) none)
    (hp : heap p = some ⟨a, firstOr m none, lastOr none l⟩)
    (hnodup : (ids (l ++ (p, a) :: m)).Nodup) :
    ∃ mid heap', LinkedHeap.unlink heap p = some mid ∧
      mid p = some ⟨a, firstOr m none, lastOr none l⟩ ∧
      LinkedHeap.linkFront mid p (firstOr (l ++ m) none) = some heap' ∧
      Segment heap' none ((p, a) :: (l ++ m)) none := by
  obtain ⟨hl, ⟨_, hm⟩⟩ := segment_append.mp h
  obtain ⟨mid, hunlink, hseg, hsame, _⟩ := hl.unlink hp hm hnodup (Or.inl rfl)
  have hperm : (ids (l ++ (p, a) :: m)).Perm (p :: ids (l ++ m)) :=
    List.perm_middle.map Prod.fst
  have hcons := List.nodup_cons.mp (hperm.nodup_iff.mp hnodup)
  have hmid : mid p = some ⟨a, firstOr m none, lastOr none l⟩ := hsame.trans hp
  obtain ⟨heap', hlink, hseg'⟩ := hseg.linkFront hmid hcons.1 hcons.2
  exact ⟨mid, heap', hunlink, hmid, hlink, hseg'⟩

/-- A node that the one before it already skips is taken out, whether its link back is intact
or lost. -/
theorem Segment.skip {heap : Heap α} {l m : List (Nat × α)} {p : Nat} {a : α} {prev : Link}
    (h : Segment heap none (l ++ (p, a) :: m) none)
    (hp : heap p = some ⟨a, firstOr m none, prev⟩) (hprev : prev = none ∨ prev = lastOr none l)
    (hnodup : (ids (l ++ (p, a) :: m)).Nodup) :
    ∃ mid heap', setNext heap (lastOr none l) (firstOr m none) = some mid ∧
      LinkedHeap.unlink mid p = some heap' ∧ Segment heap' none (l ++ m) none ∧
      heap' p = heap p := by
  obtain ⟨hl, ⟨_, hm⟩⟩ := segment_append.mp h
  have hids := hnodup
  simp only [ids_append, ids_cons] at hids
  have hparts := List.nodup_append.mp hids
  obtain ⟨mid, hset, hl', hframe⟩ := hl.setNext_last hparts.1 (firstOr m none)
  have hout : ∀ q, q ∉ ids l → mid q = heap q := by
    intro q hq
    apply hframe
    intro heq
    exact hq (lastOr_none_mem heq.symm)
  have hm' : Segment mid (some p) m none := by
    apply hm.congr
    intro q hq
    apply hout
    intro hql
    exact hparts.2.2 q hql q (List.mem_cons_of_mem _ hq) rfl
  have hpmid : mid p = some ⟨a, firstOr m none, prev⟩ := by
    rw [hout p fun hpl => hparts.2.2 p hpl p List.mem_cons_self rfl, hp]
  have hprev' : prev = lastOr none l ∨ (prev = none ∧ firstOr m none = firstOr m none) := by
    rcases hprev with hnone | heq
    · exact Or.inr ⟨hnone, rfl⟩
    · exact Or.inl heq
  obtain ⟨heap', hunlink, hseg, hsame, _⟩ := hl'.unlink hpmid hm' hnodup hprev'
  exact ⟨mid, heap', hset, hunlink, hseg, by rw [hsame, hpmid, hp]⟩

def nodesFrom (heap : Heap α) : Nat → Link → List (Nat × α)
  | 0, _ => []
  | _, none => []
  | fuel + 1, some p =>
      match heap p with
      | none => []
      | some node => (p, node.data) :: nodesFrom heap fuel node.next

theorem Segment.nodesFrom_eq {heap : Heap α} {before : Link} {l : List (Nat × α)} {fuel : Nat}
    (h : Segment heap before l none) (hfuel : l.length ≤ fuel) :
    nodesFrom heap fuel (firstOr l none) = l := by
  induction l generalizing before fuel with
  | nil =>
      cases fuel with
      | zero => rfl
      | succ fuel => rfl
  | cons x l ih =>
      obtain ⟨⟨prev, hx, _⟩, hrest⟩ := h
      cases fuel with
      | zero => simp at hfuel
      | succ fuel =>
          rw [firstOr, nodesFrom, hx]
          dsimp only
          rw [ih hrest (by simpa using hfuel)]

theorem Segment.search_none {heap : Heap α} {wanted : Nat → α → Bool} {before r : Link}
    {l : List (Nat × α)} {fuel : Nat} (h : Segment heap before l none)
    (hl : ∀ x ∈ l, wanted x.1 x.2 = false) (hfuel : l.length ≤ fuel) :
    search heap wanted fuel r (firstOr l none) = some none := by
  induction l generalizing before r fuel with
  | nil =>
      cases fuel with
      | zero => rfl
      | succ fuel => rfl
  | cons x l ih =>
      obtain ⟨⟨prev, hx, _⟩, hrest⟩ := h
      cases fuel with
      | zero => simp at hfuel
      | succ fuel =>
          rw [firstOr, search, hx]
          simp only [hl x List.mem_cons_self]
          apply ih hrest
          · intro y hy
            exact hl y (List.mem_cons_of_mem _ hy)
          · simpa using hfuel

theorem Segment.search_first {heap : Heap α} {wanted : Nat → α → Bool} {before r : Link}
    {l m : List (Nat × α)} {x : Nat × α} {fuel : Nat}
    (h : Segment heap before (l ++ x :: m) none) (hl : ∀ y ∈ l, wanted y.1 y.2 = false)
    (hx : wanted x.1 x.2 = true) (hfuel : l.length < fuel) :
    search heap wanted fuel r (firstOr (l ++ x :: m) none) = some (some (lastOr r l, x.1)) := by
  induction l generalizing before r fuel with
  | nil =>
      obtain ⟨⟨prev, hnode, _⟩, _⟩ := h
      cases fuel with
      | zero => simp at hfuel
      | succ fuel => simp [search, firstOr, lastOr, hnode, hx]
  | cons y l ih =>
      obtain ⟨⟨prev, hnode, _⟩, hrest⟩ := h
      cases fuel with
      | zero => simp at hfuel
      | succ fuel =>
          rw [List.cons_append, firstOr, search, hnode]
          simp only [hl y List.mem_cons_self]
          apply ih hrest
          · intro z hz
            exact hl z (List.mem_cons_of_mem _ hz)
          · simpa using hfuel

/-- A walk ends at the first wanted node, or at the end of the list. -/
theorem Segment.search_cases {heap : Heap α} (wanted : Nat → α → Bool) {before : Link}
    {l : List (Nat × α)} {fuel : Nat} (r : Link) (h : Segment heap before l none)
    (hfuel : l.length ≤ fuel) :
    (search heap wanted fuel r (firstOr l none) = some none ∧
        ∀ x ∈ l, wanted x.1 x.2 = false) ∨
      ∃ u x v, l = u ++ x :: v ∧ wanted x.1 x.2 = true ∧
        search heap wanted fuel r (firstOr l none) = some (some (lastOr r u, x.1)) := by
  cases hfind : l.find? fun x => wanted x.1 x.2 with
  | none =>
      have hall : ∀ x ∈ l, wanted x.1 x.2 = false := by
        simpa using List.find?_eq_none.mp hfind
      exact Or.inl ⟨h.search_none hall hfuel, hall⟩
  | some x =>
      obtain ⟨hx, u, v, rfl, hu⟩ := List.find?_eq_some_iff_append.mp hfind
      refine Or.inr ⟨u, x, v, rfl, hx, h.search_first ?_ hx ?_⟩
      · simpa using hu
      · rw [List.length_append, List.length_cons] at hfuel
        omega

end MiniBackend.Lib.LinkedHeap
